import Matahari.DbusCache

set_option autoImplicit false

/-!
# Signals of bridged objects

Every bridged object has its own filter on the one connection, and libdbus runs
the filters in the order of their addition until one has handled the message.
`signalReceived` looks for the name of the signal only, so the first object that
declares a signal of that name takes it, wherever the signal came from.
-/
namespace Matahari.DbusBridge
open Mainloop PartialState TransitionRuns

structure SignalMessage where
  path : Text
  interface : Text
  member : Text
  args : List Item

structure QmfEvent where
  schema : Schema
  properties : List (Text × QVariant)

/-- `none` is the use of a schema that is `NULL`; `some none` is the result false,
and otherwise the event has been raised. -/
def signalReceived (o : DBusObject) (msg : SignalMessage) : Option (Option QmfEvent) :=
  match o.getSignal msg.member with
  | none => some none
  | some signal =>
    match signal.schema with
    | none => none
    | some schema =>
      if msg.args.length < signal.args.length then some none
      else
        some (some ⟨schema,
          (signal.args.map (·.name)).zip (msg.args.map dbusMessageIterToQpidVariant)⟩)

/-- The filters are run until one returns `DBUS_HANDLER_RESULT_HANDLED`. The result
has the objects for which an event was raised. -/
def runFilters (s : Agent) (msg : SignalMessage) : List Text → Option (List (Text × QmfEvent))
  | [] => some []
  | name :: names =>
    match s.object name with
    | none => runFilters s msg names
    | some o =>
      match signalReceived o msg with
      | none => none
      | some none => runFilters s msg names
      | some (some event) => some [(name, event)]

def ComesFrom (s : Agent) (msg : SignalMessage) (name : Text) : Prop :=
  ∃ o, s.object name = some o ∧ o.objectPath = msg.path ∧ o.interface = msg.interface ∧
    (o.getSignal msg.member).isSome = true

def takes (s : Agent) (msg : SignalMessage) (name : Text) : Bool :=
  (s.object name).any fun o =>
    (o.getSignal msg.member).any fun signal => signal.args.length ≤ msg.args.length

/-- An event is raised once for each object that the signal comes from, and for no
other object. -/
def Routed (s : Agent) (msg : SignalMessage) : Prop :=
  ∃ events, runFilters s msg s.filters = some events ∧
    ∀ name ∈ s.filters,
      (ComesFrom s msg name → (events.map Prod.fst).count name = 1) ∧
      (¬ ComesFrom s msg name → (events.map Prod.fst).count name = 0)

/-- Either the signal is of no bridged object and none takes it, or it is of one
object only, which takes it, and no object that was added earlier does. -/
def TakenBySender (s : Agent) (msg : SignalMessage) : Prop :=
  (∀ name ∈ s.filters, ¬ ComesFrom s msg name ∧ takes s msg name = false) ∨
  ∃ before sender after, s.filters = before ++ sender :: after ∧ ComesFrom s msg sender ∧
    takes s msg sender = true ∧ (∀ name ∈ before, takes s msg name = false) ∧
    ∀ name ∈ before ++ after, ComesFrom s msg name → name = sender

theorem takenBySender_iff {s : Agent} {msg : SignalMessage} :
    TakenBySender s msg ↔
      ∀ name ∈ s.filters, ComesFrom s msg name ↔ s.filters.find? (takes s msg) = some name := by
  unfold TakenBySender
  constructor
  · rintro (hnone | ⟨before, sender, after, hsplit, hfrom, htakes, hbefore, honly⟩) name hname
    · have hfind : s.filters.find? (takes s msg) = none := by
        rw [List.find?_eq_none]
        intro name' hname'
        rw [(hnone name' hname').2]
        decide
      rw [hfind]
      exact iff_of_false (hnone name hname).1 (by simp)
    · have hfind : s.filters.find? (takes s msg) = some sender := by
        rw [List.find?_eq_some_iff_append]
        exact ⟨htakes, before, after, hsplit, fun name' hname' => by rw [hbefore name' hname']; rfl⟩
      rw [hfind, Option.some.injEq]
      constructor
      · intro hname'
        rw [hsplit, List.mem_append, List.mem_cons] at hname
        rcases hname with hin | heq | hin
        · exact (honly name (List.mem_append_left _ hin) hname').symm
        · exact heq.symm
        · exact (honly name (List.mem_append_right _ hin) hname').symm
      · rintro rfl
        exact hfrom
  · intro h
    cases hfind : s.filters.find? (takes s msg) with
    | none =>
      refine .inl fun name hname => ⟨?_, ?_⟩
      · rw [h name hname, hfind]
        simp
      · exact Bool.eq_false_iff.mpr (List.find?_eq_none.mp hfind name hname)
    | some sender =>
      have hmem : sender ∈ s.filters := List.mem_of_find?_eq_some hfind
      rcases List.find?_eq_some_iff_append.mp hfind with ⟨htakes, before, after, hsplit, hbefore⟩
      refine .inr ⟨before, sender, after, hsplit, (h sender hmem).mpr hfind, htakes, ?_, ?_⟩
      · intro name hname
        simpa using hbefore name hname
      · intro name hname hfrom
        have hin : name ∈ s.filters := by
          rw [hsplit]
          rcases List.mem_append.mp hname with hin | hin
          · exact List.mem_append_left _ hin
          · exact List.mem_append_right _ (List.mem_cons_of_mem _ hin)
        have hname' := (h name hin).mp hfrom
        rw [hfind, Option.some.injEq] at hname'
        exact hname'.symm

def Equipped (s : Agent) (names : List Text) : Prop :=
  ∀ name ∈ names, ∃ o, s.object name = some o ∧
    ∀ signal ∈ o.members.signals, signal.schema.isSome = true

theorem runFilters_eq {s : Agent} {names : List Text} (h : Equipped s names)
    (msg : SignalMessage) :
    ∃ events, runFilters s msg names = some events ∧
      events.map Prod.fst = (names.find? (takes s msg)).toList := by
  induction names with
  | nil => exact ⟨[], rfl, rfl⟩
  | cons name names ih =>
    rw [Equipped, List.forall_mem_cons] at h
    rcases h with ⟨⟨o, ho, hschemas⟩, hrest⟩
    rw [runFilters, List.find?_cons]
    simp only [takes, ho, Option.any_some, signalReceived]
    cases hsig : o.getSignal msg.member with
    | none =>
      simp only [Option.any_none]
      exact ih hrest
    | some signal =>
      have hmem : signal ∈ o.members.signals := List.mem_of_find?_eq_some hsig
      rcases Option.isSome_iff_exists.mp (hschemas signal hmem) with ⟨schema, hschema⟩
      simp only [hschema, Option.any_some]
      by_cases hargs : msg.args.length < signal.args.length
      · rw [if_pos hargs, decide_eq_false (by omega)]
        exact ih hrest
      · rw [if_neg hargs, decide_eq_true (by omega)]
        exact ⟨_, rfl, rfl⟩

theorem routed_iff_of_equipped {s : Agent} (h : Equipped s s.filters) (msg : SignalMessage) :
    Routed s msg ↔ TakenBySender s msg := by
  rcases runFilters_eq h msg with ⟨events, hrun, hevents⟩
  have hcount : ∀ name, (events.map Prod.fst).count name =
      if s.filters.find? (takes s msg) = some name then 1 else 0 := by
    intro name
    rw [hevents]
    cases s.filters.find? (takes s msg) with
    | none => simp
    | some first =>
      by_cases heq : first = name
      · simp [heq]
      · simp [heq]
  rw [takenBySender_iff]
  unfold Routed
  constructor
  · rintro ⟨events', hrun', hroute⟩ name hname
    rw [hrun] at hrun'
    cases hrun'
    have hname := hroute name hname
    rw [hcount] at hname
    constructor
    · intro hfrom
      by_contra hne
      have := hname.1 hfrom
      rw [if_neg hne] at this
      omega
    · intro hfirst
      by_contra hfrom
      have := hname.2 hfrom
      rw [if_pos hfirst] at this
      omega
  · intro htaken
    refine ⟨events, hrun, fun name hname => ?_⟩
    rw [hcount]
    constructor
    · intro hfrom
      rw [if_pos ((htaken name hname).mp hfrom)]
    · intro hfrom
      rw [if_neg fun hfirst => hfrom ((htaken name hname).mpr hfirst)]

def AllListen (s : Agent) : Prop :=
  ∀ name o, s.object name = some o → o.listenForSignals = true

theorem equipped_of_listen {s : Agent} (hc : Consistent s) (hl : AllListen s) :
    Equipped s s.filters := by
  intro name hname
  rcases hc.filters hname with ⟨o, ho, hreg⟩
  refine ⟨o, ho, fun signal hsignal => ?_⟩
  rw [(hc.schemas ho hreg (hl name o ho) signal hsignal).1, Option.isSome_some]

section
variable {q : Qpid} {bus : Bus} {depth : ℕ} {s s' : Agent}

theorem AllListen.put (hl : AllListen s) {name : Text} {o : DBusObject}
    (ho : o.listenForSignals = true) : AllListen (s.put name o) := by
  intro name' o' ho'
  rw [Agent.object_put] at ho'
  split_ifs at ho'
  · cases ho'
    exact ho
  · exact hl name' o' ho'

theorem allListen_addToSchema {name : Text} {o : DBusObject} {error : Option Text}
    (hl : AllListen s) (ho : s.object name = some o)
    (h : addToSchema q bus name o s = some (error, s')) : AllListen s' := by
  cases hreg : o.isRegistered with
  | true =>
    rw [addToSchema, if_pos hreg] at h
    cases h
    exact hl
  | false =>
    have hput : AllListen (s.put name o.registered) :=
      hl.put ((registered_listen o).trans (hl name o ho))
    intro name' o' ho'
    rw [Agent.object, (addToSchema_cases hreg h).1] at ho'
    exact hput name' o' ho'

theorem allListen_addInterfaces {busName objectPath : Text} {interfaces : List Text}
    {error : Option Text} (hl : AllListen s)
    (h : addInterfaces q bus busName objectPath interfaces s = some (error, s')) :
    AllListen s' := by
  induction interfaces generalizing s with
  | nil =>
    cases h
    exact hl
  | cons i is ih =>
    rcases bind_eq_some.mp h with ⟨r, t, ht, hr⟩
    have hlt : AllListen t := by
      rcases getDBusObject_cases ht with ⟨⟨n, rfl⟩, _⟩ | ⟨o, n, _, _, hlisten, _, rfl⟩
      · exact hl
      · exact AllListen.put (s := { s with clock := n }) hl hlisten
    cases r with
    | error text =>
      cases hr
      exact hlt
    | ok o =>
      rcases bind_eq_some.mp hr with ⟨error', u, hu, hrest⟩
      have hlu := allListen_addToSchema hlt (object_of_getDBusObject ht) hu
      cases error' with
      | some text =>
        cases hrest
        exact hlu
      | none => exact ih hlu hrest

theorem allListen_invoke {ev : Event} (hadd : ev.isAdd = true) (hl : AllListen s)
    (h : invoke q bus depth ev s = some (⟨⟩, s')) : AllListen s' := by
  rcases ev with ⟨isMethod, dataAddr, methodName, arguments⟩
  simp only [Event.isAdd, decide_eq_true_eq] at hadd
  rcases hadd with ⟨rfl, rfl, rfl⟩
  change addDbusObject q bus _ s = some (⟨⟩, s') at h
  rcases bind_eq_some.mp h with ⟨interfaces, t, ht, hrest⟩
  rcases bind_eq_some.mp hrest with ⟨error, u, hu, hlast⟩
  have hlt : AllListen t := by
    rw [(query_requestedInterfaces _).state_eq ht]
    exact hl
  have hlu := allListen_addInterfaces hlt hu
  cases error with
  | some text =>
    cases hlast
    exact hlu
  | none =>
    cases hlast
    exact hlu

end

def serve (q : Qpid) (bus : Bus) (depth : ℕ) (s : Agent) (ev : Event) : Option Agent :=
  (invoke q bus depth ev s).map Prod.snd

/-- The state of the agent after `add_dbus_object` requests only. -/
theorem equipped_of_adds {q : Qpid} {bus : Bus} {depth : ℕ} {evs : List Event} {s : Agent}
    (hadds : ∀ ev ∈ evs, ev.isAdd = true) (hrun : exec (serve q bus depth) {} evs = some s) :
    Equipped s s.filters := by
  have hinit : Consistent ({} : Agent) ∧ AllListen {} :=
    ⟨consistent_empty, fun _ _ ho => (by cases ho)⟩
  have hstep : ∀ (s : Agent) (ev : Event) (u : Agent), Consistent s ∧ AllListen s →
      ev.isAdd = true → serve q bus depth s ev = some u → Consistent u ∧ AllListen u := by
    intro s ev u hs hadd hu
    rcases Option.map_eq_some_iff.mp hu with ⟨⟨_, s'⟩, hinvoke, rfl⟩
    exact ⟨consistent_invoke hinvoke hs.1, allListen_invoke hadd hs.2 hinvoke⟩
  have hthrough : Throughout (serve q bus depth) (fun _ ev => ev.isAdd = true) {} evs :=
    .of_forall (fun ev hev _ => hadds ev hev) _
  have hfinal := (always_of_preserved hstep hinit hthrough).final hrun
  exact equipped_of_listen hfinal.1 hfinal.2

/-- After any `add_dbus_object` requests, a signal raises its events exactly where
the first object that takes it is the one that it comes from. -/
theorem signal_routed_iff {q : Qpid} {bus : Bus} {depth : ℕ} {evs : List Event} {s : Agent}
    (hadds : ∀ ev ∈ evs, ev.isAdd = true) (hrun : exec (serve q bus depth) {} evs = some s)
    (msg : SignalMessage) : Routed s msg ↔ TakenBySender s msg :=
  routed_iff_of_equipped (equipped_of_adds hadds hrun) msg

def changed (path : String) : SignalMessage :=
  ⟨path.toList, "i".toList, "Changed".toList, []⟩

theorem signal_routed_iff_changed :
    ∃ s, exec (serve exactQpid (busOf signalInterface) 0) {} [addEvent] = some s ∧
      (Routed s (changed "/o") ↔ TakenBySender s (changed "/o")) := by
  have hrun := (Option.some_get
    (x := exec (serve exactQpid (busOf signalInterface) 0) {} [addEvent]) (by decide)).symm
  exact ⟨_, hrun, signal_routed_iff (by decide) hrun (changed "/o")⟩

def addPath (path : String) : Event :=
  ⟨true, some bridgeName, "add_dbus_object".toList,
    [("bus_name".toList, .string "b".toList), ("object_path".toList, .string path.toList),
      ("interface".toList, .string "i".toList)]⟩

/-- Two objects with one interface: the signal of the second raises its event for
the first. -/
theorem signal_of_second_misrouted :
    ¬ ∀ s, exec (serve exactQpid (busOf signalInterface) 0) {} [addPath "/o", addPath "/p"] =
      some s → Routed s (changed "/p") := by
  intro h
  rcases h _ (Option.some_get (by decide)).symm with ⟨events, hrun, hroute⟩
  have hsender := hroute "b@/p@i".toList (by decide)
  cases hrun
  refine absurd (hsender.1 ⟨_, rfl, ?_, ?_, ?_⟩) (by decide)
  · rfl
  · rfl
  · rfl

end Matahari.DbusBridge
