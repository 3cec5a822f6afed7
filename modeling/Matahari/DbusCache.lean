import Matahari.Library.Transition
import Matahari.DbusEffects

set_option autoImplicit false

/-!
# The cache of D-Bus objects

The agent keeps one object for a bus name, a path and an interface, and every
kind of request looks there first. A registration takes the object as it was
made; an object that was made for a method call has no event schemas, and its
signal filter is installed all the same.
-/
namespace Matahari.DbusBridge
open Mainloop PartialState TransitionRuns

/-- The signal filter of the object is installed, and each of its signals has its
event schema, which is registered with the session. -/
def Forwards (s : Agent) (name : Text) : Prop :=
  ∃ o, s.object name = some o ∧ o.isRegistered = true ∧ name ∈ s.filters ∧
    (o.members.signals ≠ [] → o.matchRule ∈ s.matchRules) ∧
    ∀ sig ∈ o.members.signals, sig.schema = some (o.eventSchema sig) ∧
      o.eventSchema sig ∈ s.schemas

theorem Forwards.grows {s s' : Agent} {name : Text} (h : Forwards s name)
    (he : Grows s s') : Forwards s' name := by
  rcases h with ⟨o, ho, hreg, hfilter, hrule, hsignals⟩
  refine ⟨o, he.objects ho hreg, hreg, he.filters hfilter, fun hne => he.rules (hrule hne), ?_⟩
  intro sig hsig
  exact ⟨(hsignals sig hsig).1, he.schemas (hsignals sig hsig).2⟩

/-- The object that has the name, if there is one, was made to listen or has no
signals, and it has a filter if it is registered. -/
def Bridgeable (s : Agent) (name : Text) : Prop :=
  ∀ o, s.object name = some o →
    (o.listenForSignals = true ∨ o.members.signals = []) ∧
    (o.isRegistered = true → name ∈ s.filters)

section
variable {q : Qpid} {bus : Bus} {s s' : Agent}

theorem Bridgeable.forwards {name : Text} {o : DBusObject} (h : Bridgeable s name)
    (hc : Consistent s) (ho : s.object name = some o) (hreg : o.isRegistered = true) :
    Forwards s name := by
  rcases h o ho with ⟨hlisten | hnone, hfilter⟩
  · exact ⟨o, ho, hreg, hfilter hreg, hc.rules ho (hfilter hreg) hlisten,
      hc.schemas ho hreg hlisten⟩
  · refine ⟨o, ho, hreg, hfilter hreg, fun hne => absurd hnone hne, ?_⟩
    simp [hnone]

theorem Bridgeable.getDBusObject {busName objectPath interface name : Text}
    {r : Except Text DBusObject} (h : Bridgeable s name)
    (hget : getDBusObject bus busName objectPath interface true s = some (r, s')) :
    Bridgeable s' name := by
  rcases getDBusObject_cases hget with ⟨⟨n, rfl⟩, _⟩ | ⟨o, n, _, _, hlisten, hreg, rfl⟩
  · exact h
  · intro o' ho'
    rw [Agent.object_put] at ho'
    split_ifs at ho'
    · cases ho'
      exact ⟨.inl hlisten, fun hreg' => by rw [hreg] at hreg'; cases hreg'⟩
    · exact h o' ho'

/-- A registration without an error leaves every bridgeable name bridgeable. -/
theorem Bridgeable.addToSchema {name name' : Text} {o : DBusObject}
    (h : Bridgeable s name') (hname : Bridgeable s name) (ho : s.object name = some o)
    (hadd : addToSchema q bus name o s = some (none, s')) : Bridgeable s' name' := by
  cases hreg : o.isRegistered with
  | true =>
    rw [DbusBridge.addToSchema, if_pos hreg] at hadd
    cases hadd
    exact h
  | false =>
    rcases addToSchema_cases hreg hadd with ⟨hobjects, _, _, _, _, hf⟩
    have hfilters : s'.filters = s.filters ++ [name] := by
      rcases hf with ⟨hf, _⟩ | ⟨_, herror⟩
      · exact hf
      · exact absurd rfl herror
    intro o' ho'
    rw [Agent.object, hobjects, ← Agent.object, Agent.object_put] at ho'
    rw [hfilters]
    split_ifs at ho' with heq
    · cases ho'
      rw [registered_listen, registered_signals_nil, heq]
      exact ⟨(hname o ho).1, fun _ => List.mem_append_right _ (List.mem_singleton_self _)⟩
    · exact ⟨(h o' ho').1, fun hreg' => List.mem_append_left _ ((h o' ho').2 hreg')⟩

theorem registered_of_addToSchema {name : Text} {o : DBusObject} {error : Option Text}
    (ho : s.object name = some o) (hadd : addToSchema q bus name o s = some (error, s')) :
    ∃ o', s'.object name = some o' ∧ o'.isRegistered = true := by
  cases hreg : o.isRegistered with
  | true =>
    rw [addToSchema, if_pos hreg] at hadd
    cases hadd
    exact ⟨o, ho, hreg⟩
  | false =>
    rcases addToSchema_cases hreg hadd with ⟨hobjects, _⟩
    refine ⟨o.registered, ?_, registered_isRegistered o⟩
    rw [Agent.object, hobjects, ← Agent.object, Agent.object_put, if_pos rfl]

theorem addInterfaces_forwards {busName objectPath : Text} {interfaces : List Text}
    (hc : Consistent s)
    (hok : ∀ i ∈ interfaces, Bridgeable s (objectName busName objectPath (cStr i)))
    (h : addInterfaces q bus busName objectPath interfaces s = some (none, s')) :
    ∀ i ∈ interfaces, Forwards s' (objectName busName objectPath (cStr i)) := by
  induction interfaces generalizing s with
  | nil => simp
  | cons i is ih =>
    rcases bind_eq_some.mp h with ⟨r, t, ht, hr⟩
    cases r with
    | error text => cases hr
    | ok o =>
      rcases bind_eq_some.mp hr with ⟨error, u, hu, hrest⟩
      cases error with
      | some text => cases hrest
      | none =>
        have ho := object_of_getDBusObject ht
        have hadd := grows_addToSchema ho hu
        have hcu : Consistent u :=
          hadd.consistent ((grows_getDBusObject _ _ _ _ s _ t ht).consistent hc)
        have hbridge : ∀ j ∈ i :: is, Bridgeable u (objectName busName objectPath (cStr j)) :=
          fun j hj => ((hok j hj).getDBusObject ht).addToSchema
            ((hok i List.mem_cons_self).getDBusObject ht) ho hu
        rcases registered_of_addToSchema ho hu with ⟨o', ho', hreg'⟩
        have hhead := (hbridge i List.mem_cons_self).forwards hcu ho' hreg'
        have hgrows := grows_addInterfaces _ _ is u _ s' hrest
        rw [List.forall_mem_cons]
        exact ⟨hhead.grows hgrows,
          ih hcu (fun j hj => hbridge j (List.mem_cons_of_mem i hj)) hrest⟩

end

def Event.isAdd (ev : Event) : Bool :=
  ev.isMethod ∧ ev.dataAddr = some bridgeName ∧ ev.methodName = "add_dbus_object".toList

def Agent.succeeded (s : Agent) : Bool :=
  match s.replies with
  | .methodSuccess _ :: _ => true
  | _ => false

structure History where
  agent : Agent := {}
  added : List Text := []

def requestedNames (q : Qpid) (bus : Bus) (ev : Event) (s : Agent) : List Text :=
  match requestedInterfaces q bus ev s with
  | some (interfaces, _) =>
    interfaces.map fun i =>
      objectName (ev.text q "bus_name") (ev.text q "object_path") (cStr i)
  | none => []

def History.step (q : Qpid) (bus : Bus) (depth : ℕ) (h : History) (ev : Event) :
    Option History :=
  (invoke q bus depth ev h.agent).map fun r =>
    { agent := r.2
      added := if ev.isAdd && r.2.succeeded then requestedNames q bus ev h.agent ++ h.added
        else h.added }

def AddedForward (h : History) : Prop := ∀ name ∈ h.added, Forwards h.agent name

/-- An `add_dbus_object` finds no object that was made without listening or that
was registered without its filter. -/
def AddsBridgeable (q : Qpid) (bus : Bus) (h : History) (ev : Event) : Prop :=
  ev.isAdd = true → ∀ name ∈ requestedNames q bus ev h.agent, Bridgeable h.agent name

section
variable {q : Qpid} {bus : Bus} {depth : ℕ}

theorem invoke_grows {ev : Event} {s s' : Agent} (h : invoke q bus depth ev s = some (⟨⟩, s')) :
    s' = s ∨ Answered s s' := by
  rcases ev with ⟨_ | _, _ | name, methodName, arguments⟩
  · cases h
    exact .inl rfl
  · cases h
    exact .inl rfl
  · cases h
    exact .inl rfl
  · exact .inr (answered_invoke depth name methodName arguments s _ s' h)

theorem consistent_invoke {ev : Event} {s s' : Agent}
    (h : invoke q bus depth ev s = some (⟨⟩, s')) (hc : Consistent s) : Consistent s' := by
  rcases invoke_grows h with rfl | ⟨t, reply, hgrows, rfl⟩
  · exact hc
  · have hct := hgrows.consistent hc
    exact ⟨hct.schemas, hct.rules, hct.filters⟩

theorem forwards_invoke {ev : Event} {s s' : Agent} {name : Text}
    (h : invoke q bus depth ev s = some (⟨⟩, s')) (hf : Forwards s name) : Forwards s' name := by
  rcases invoke_grows h with rfl | ⟨t, reply, hgrows, rfl⟩
  · exact hf
  · have ht : Forwards t name := hf.grows hgrows
    exact ht

theorem add_forwards {ev : Event} {s s' : Agent} (hadd : ev.isAdd = true) (hc : Consistent s)
    (hok : ∀ name ∈ requestedNames q bus ev s, Bridgeable s name)
    (h : invoke q bus depth ev s = some (⟨⟩, s')) (hsucc : s'.succeeded = true) :
    ∀ name ∈ requestedNames q bus ev s, Forwards s' name := by
  rcases ev with ⟨isMethod, dataAddr, methodName, arguments⟩
  simp only [Event.isAdd, decide_eq_true_eq] at hadd
  rcases hadd with ⟨rfl, rfl, rfl⟩
  change addDbusObject q bus _ s = some (⟨⟩, s') at h
  rcases bind_eq_some.mp h with ⟨interfaces, t, ht, hrest⟩
  rcases bind_eq_some.mp hrest with ⟨error, u, hu, hlast⟩
  cases error with
  | some text =>
    cases hlast
    cases hsucc
  | none =>
    cases hlast
    have hstate := (query_requestedInterfaces _).state_eq ht
    rw [requestedNames, ht] at hok ⊢
    simp only [List.forall_mem_map] at hok ⊢
    have hct : Consistent t := by
      rw [hstate]
      exact ⟨hc.schemas, hc.rules, hc.filters⟩
    have hforwards := addInterfaces_forwards hct (by rw [hstate]; exact hok) hu
    exact hforwards

theorem addedForward_step {h h' : History} {ev : Event}
    (hinv : Consistent h.agent ∧ AddedForward h) (hok : AddsBridgeable q bus h ev)
    (hstep : History.step q bus depth h ev = some h') :
    Consistent h'.agent ∧ AddedForward h' := by
  rcases Option.map_eq_some_iff.mp hstep with ⟨⟨_, s'⟩, hinvoke, rfl⟩
  refine ⟨consistent_invoke hinvoke hinv.1, ?_⟩
  have hold : ∀ name ∈ h.added, Forwards s' name :=
    fun name hname => forwards_invoke hinvoke (hinv.2 name hname)
  intro name hname
  dsimp only at hname
  split_ifs at hname with hsucc
  · rw [Bool.and_eq_true] at hsucc
    rcases List.mem_append.mp hname with hname | hname
    · exact add_forwards hsucc.1 hinv.1 (hok hsucc.1) hinvoke hsucc.2 name hname
    · exact hold name hname
  · exact hold name hname

/-- In every history in which no `add_dbus_object` finds an object that was made
for another kind of request, every object that was added forwards its signals. -/
theorem added_forward (evs : List Event)
    (h : Throughout (History.step q bus depth) (AddsBridgeable q bus) {} evs) :
    Always (History.step q bus depth) AddedForward {} evs := by
  have hinit : Consistent ({} : History).agent ∧ AddedForward {} :=
    ⟨consistent_empty, fun _ hname => (by cases hname)⟩
  exact (always_of_preserved (fun _ _ _ => addedForward_step) hinit h).imp fun _ hinv => hinv.2

end

def signalInterface : Xml :=
  .element "interface".toList [("name".toList, "i".toList)]
    [.element "method".toList [("name".toList, "m".toList)] [],
      .element "signal".toList [("name".toList, "Changed".toList)] []]

def objectArguments : List (Text × QVariant) :=
  [("bus_name".toList, .string "b".toList), ("object_path".toList, .string "/o".toList),
    ("interface".toList, .string "i".toList), ("method_name".toList, .string "m".toList),
    ("args".toList, .list [])]

def callEvent : Event := ⟨true, some bridgeName, "call".toList, objectArguments⟩

def addEvent : Event := ⟨true, some bridgeName, "add_dbus_object".toList, objectArguments⟩

theorem added_forward_then_called :
    Always (History.step exactQpid (busOf signalInterface) 0) AddedForward {}
      [addEvent, callEvent] := by
  apply added_forward
  intro h _
  refine ⟨fun _ name _ o ho => (by cases ho), fun h' _ => ⟨fun hadd => (by cases hadd), trivial⟩⟩

/-- A method call that comes before `add_dbus_object`: the signal filter is
installed, and the signal has no schema. -/
theorem called_then_added_without_schema :
    ¬ Always (History.step exactQpid (busOf signalInterface) 0) AddedForward {}
      [callEvent, addEvent] := by
  intro h
  have hfinal := h.final (Option.some_get (by decide)).symm
  rcases hfinal "b@/o@i".toList (by decide) with ⟨o, ho, _, _, _, hsignals⟩
  have hobject : some o = some
      { listenForSignals := false, busName := "b".toList, objectPath := "/o".toList,
        interface := "i".toList, isRegistered := true
        members := { methods := [⟨"m".toList, []⟩], signals := [⟨"Changed".toList, [], none⟩] } } := by
    rw [← ho]
    decide
  cases hobject
  have hschema := (hsignals ⟨"Changed".toList, [], none⟩ List.mem_cons_self).1
  cases hschema

end Matahari.DbusBridge
