import Matahari.DbusQueries

set_option autoImplicit false

/-!
# What a request changes

Every request adds to what the agent has handed to the session and to libdbus,
and ends in one reply. Objects that have been registered stay as they are.
-/
namespace Matahari.DbusBridge
open Mainloop PartialState

def Agent.object (s : Agent) (name : Text) : Option DBusObject := s.dbusObjects.lookup name

theorem Agent.object_put (s : Agent) (name name' : Text) (o : DBusObject) :
    (s.put name o).object name' = if name' = name then some o else s.object name' := by
  unfold Agent.object Agent.put
  rw [List.lookup_cons]
  by_cases h : name' = name
  · rw [if_pos h, beq_iff_eq.mpr h]
  · rw [if_neg h, beq_eq_false_iff_ne.mpr h]

/-- What every registration has left behind. -/
structure Consistent (s : Agent) : Prop where
  schemas : ∀ {name o}, s.object name = some o → o.isRegistered = true →
    o.listenForSignals = true → ∀ sig ∈ o.members.signals,
      sig.schema = some (o.eventSchema sig) ∧ o.eventSchema sig ∈ s.schemas
  rules : ∀ {name o}, s.object name = some o → name ∈ s.filters →
    o.listenForSignals = true → o.members.signals ≠ [] → o.matchRule ∈ s.matchRules
  filters : ∀ {name}, name ∈ s.filters → ∃ o, s.object name = some o ∧ o.isRegistered = true

theorem consistent_empty : Consistent {} :=
  ⟨fun ho => (by cases ho), fun ho => (by cases ho), fun hname => (by cases hname)⟩

/-- What requests do to the agent: registered objects stay, and nothing that was
handed to the session or to libdbus is taken back. -/
structure Grows (s s' : Agent) : Prop where
  objects : ∀ {name o}, s.object name = some o → o.isRegistered = true → s'.object name = some o
  schemas : s.schemas ⊆ s'.schemas
  rules : s.matchRules ⊆ s'.matchRules
  filters : s.filters ⊆ s'.filters
  consistent : Consistent s → Consistent s'
  replies : s'.replies = s.replies

theorem Grows.refl (s : Agent) : Grows s s :=
  ⟨fun h _ => h, fun _ h => h, fun _ h => h, fun _ h => h, id, rfl⟩

theorem Grows.trans {s t u : Agent} (hst : Grows s t) (htu : Grows t u) : Grows s u where
  objects h hreg := htu.objects (hst.objects h hreg) hreg
  schemas := fun _ h => htu.schemas (hst.schemas h)
  rules := fun _ h => htu.rules (hst.rules h)
  filters := fun _ h => htu.filters (hst.filters h)
  consistent h := htu.consistent (hst.consistent h)
  replies := htu.replies.trans hst.replies

theorem Grows.clock (s : Agent) (n : ℕ) : Grows s { s with clock := n } :=
  ⟨fun h _ => h, fun _ h => h, fun _ h => h, fun _ h => h,
    fun h => ⟨h.schemas, h.rules, h.filters⟩, rfl⟩

section
variable {q : Qpid} {bus : Bus} {s s' : Agent}

theorem Query.grows {α : Type} {m : Act α} (hm : Query m) : Relates Grows m := by
  intro s a s' h
  rw [hm.state_eq h]
  exact .clock s _

theorem grows_put_new {name : Text} {o : DBusObject} (hfree : s.object name = none)
    (hreg : o.isRegistered = false) : Grows s (s.put name o) := by
  have hne : ∀ {name' o'}, s.object name' = some o' → name' ≠ name := by
    intro name' o' h heq
    rw [heq, hfree] at h
    cases h
  refine ⟨fun h _ => by rw [Agent.object_put, if_neg (hne h), h], fun _ h => h, fun _ h => h,
    fun _ h => h, fun h => ⟨?_, ?_, ?_⟩, rfl⟩
  · intro name' o' ho' hreg'
    rw [Agent.object_put] at ho'
    split_ifs at ho'
    · cases ho'
      rw [hreg] at hreg'
      cases hreg'
    · exact h.schemas ho' hreg'
  · intro name' o' ho' hfilter
    rw [Agent.object_put] at ho'
    split_ifs at ho' with heq
    · rcases h.filters hfilter with ⟨o'', ho'', _⟩
      exact absurd heq (hne ho'')
    · exact h.rules ho' hfilter
  · intro name' hfilter
    rcases h.filters hfilter with ⟨o', ho', hreg'⟩
    refine ⟨o', ?_, hreg'⟩
    rw [Agent.object_put, if_neg (hne ho'), ho']

theorem newDBusObject_ok {busName objectPath interface : Text} {listen : Bool} {o : DBusObject}
    (h : newDBusObject bus busName objectPath interface listen s = some (.ok o, s')) :
    o.listenForSignals = listen ∧ o.isRegistered = false := by
  rcases bind_eq_some.mp h with ⟨r, t, _, hr⟩
  cases r with
  | error text => cases hr
  | ok elements =>
    rcases hfind : findInterface interface elements with _ | _ | members <;>
      simp only [hfind] at hr <;> cases hr
    exact ⟨rfl, rfl⟩

/-- What `getDBusObject` returns is what the map had, or a new object. -/
theorem getDBusObject_cases {busName objectPath interface : Text} {listen : Bool}
    {r : Except Text DBusObject}
    (h : getDBusObject bus busName objectPath interface listen s = some (r, s')) :
    (∃ n, s' = { s with clock := n }) ∧
      (∀ o, r = .ok o → s.object (objectName busName objectPath interface) = some o) ∨
    ∃ o n, r = .ok o ∧ s.object (objectName busName objectPath interface) = none ∧
      o.listenForSignals = listen ∧ o.isRegistered = false ∧
      s' = ({ s with clock := n } : Agent).put (objectName busName objectPath interface) o := by
  rcases bind_eq_some.mp h with ⟨t, u, ht, hr⟩
  cases ht
  cases hfound : s.dbusObjects.lookup (objectName busName objectPath interface) with
  | some o =>
    rw [hfound] at hr
    cases hr
    refine .inl ⟨⟨s.clock, rfl⟩, fun o' ho' => ?_⟩
    cases ho'
    exact hfound
  | none =>
    rw [hfound] at hr
    rcases bind_eq_some.mp hr with ⟨r', t, ht, hr'⟩
    have hstate := (query_newDBusObject _ _ _ _).state_eq ht
    cases r' with
    | error text =>
      cases hr'
      exact .inl ⟨⟨_, hstate⟩, fun o ho => by cases ho⟩
    | ok o =>
      rcases newDBusObject_ok ht with ⟨hlisten, hreg⟩
      cases hr'
      refine .inr ⟨o, t.clock, rfl, hfound, hlisten, hreg, ?_⟩
      rw [← hstate]

theorem grows_getDBusObject (busName objectPath interface : Text) (listen : Bool) :
    Relates Grows (getDBusObject bus busName objectPath interface listen) := by
  intro s r s' h
  rcases getDBusObject_cases h with ⟨⟨n, rfl⟩, _⟩ | ⟨o, n, _, hfree, _, hreg, rfl⟩
  · exact .clock s n
  · exact (Grows.clock s n).trans (grows_put_new hfree hreg)

theorem object_of_getDBusObject {busName objectPath interface : Text} {listen : Bool}
    {o : DBusObject}
    (h : getDBusObject bus busName objectPath interface listen s = some (.ok o, s')) :
    s'.object (objectName busName objectPath interface) = some o := by
  rcases getDBusObject_cases h with ⟨⟨n, rfl⟩, ho⟩ | ⟨o', n, ho, _, _, _, rfl⟩
  · exact ho o rfl
  · cases ho
    rw [Agent.object_put, if_pos rfl]

/-- The outcome of `addData`: the filter is installed, or there is an error. -/
theorem addData_cases {name : Text} {o : DBusObject} {error : Option Text}
    (h : addData q bus name o s = some (error, s')) :
    s'.dbusObjects = s.dbusObjects ∧ s'.replies = s.replies ∧
      s'.schemas = s.schemas ++ [o.dataSchema] ∧ s'.matchRules = s.matchRules ∧
      (s'.filters = s.filters ++ [name] ∨ s'.filters = s.filters ∧ error ≠ none) := by
  rcases bind_eq_some.mp h with ⟨_, t, ht, hrest⟩
  cases ht
  rcases bind_eq_some.mp hrest with ⟨values, u, hu, hrest⟩
  have hstate := (query_loadValues o).state_eq hu
  rcases bind_eq_some.mp hrest with ⟨_, v, hv, hfilter⟩
  cases hv
  rcases bind_eq_some.mp hfilter with ⟨n, w, hw, hlast⟩
  cases hw
  rw [hstate] at hlast
  split_ifs at hlast
  · rcases bind_eq_some.mp hlast with ⟨_, x, hx, hdone⟩
    cases hx
    cases hdone
    exact ⟨rfl, rfl, rfl, rfl, .inl rfl⟩
  · cases hlast
    exact ⟨rfl, rfl, rfl, rfl, .inr ⟨rfl, by simp⟩⟩

/-- What a registration does to an object that is not registered yet: it sets the
object, hands over its schemas, and installs the filter unless it ends in an
error. -/
theorem addToSchema_cases {name : Text} {o : DBusObject} {error : Option Text}
    (hreg : o.isRegistered = false) (h : addToSchema q bus name o s = some (error, s')) :
    s'.dbusObjects = (s.put name o.registered).dbusObjects ∧ s'.replies = s.replies ∧
    (∃ schemas, s'.schemas = s.schemas ++ schemas ∧
      (o.listenForSignals = true → ∀ sig ∈ o.members.signals, o.eventSchema sig ∈ schemas)) ∧
    (∃ rules, s'.matchRules = s.matchRules ++ rules ∧
      (s'.filters = s.filters ++ [name] ∧
        (o.listenForSignals = true → o.members.signals ≠ [] → o.matchRule ∈ rules) ∨
      s'.filters = s.filters ∧ error ≠ none)) := by
  rw [addToSchema, if_neg (by simp [hreg])] at h
  rcases bind_eq_some.mp h with ⟨_, t, ht, hrest⟩
  cases ht
  by_cases hlisten : o.listenForSignals = true
  · rw [if_pos hlisten] at hrest
    rcases bind_eq_some.mp hrest with ⟨_, u, hu, hrest⟩
    cases hu
    have hmem : ∀ sig ∈ o.members.signals,
        o.eventSchema sig ∈ o.members.signals.map o.eventSchema :=
      fun sig hsig => List.mem_map_of_mem hsig
    by_cases hsignals : o.members.signals = []
    · rw [if_pos hsignals] at hrest
      rcases addData_cases hrest with ⟨ho, hreplies, hs, hr, hf⟩
      refine ⟨ho, hreplies, ⟨_, hs.trans (List.append_assoc s.schemas _ _), ?_⟩,
        ⟨[], hr.trans (List.append_nil _).symm, ?_⟩⟩
      · exact fun _ sig hsig => List.mem_append_left _ (hmem sig hsig)
      · rcases hf with hf | hf
        · exact .inl ⟨hf, fun _ h => absurd hsignals h⟩
        · exact .inr hf
    · rw [if_neg hsignals] at hrest
      rcases bind_eq_some.mp hrest with ⟨r, v, hv, hrest⟩
      cases hmatch : bus.addMatch s.clock with
      | some message =>
        rw [busAddMatch_refused o.matchRule
          (s := (s.put name o.registered).register (o.members.signals.map o.eventSchema))
          hmatch] at hv
        cases hv
        cases hrest
        exact ⟨rfl, rfl, ⟨_, rfl, fun _ => hmem⟩, ⟨[], (List.append_nil _).symm, .inr ⟨rfl, by simp⟩⟩⟩
      | none =>
        rw [busAddMatch_added o.matchRule
          (s := (s.put name o.registered).register (o.members.signals.map o.eventSchema))
          hmatch] at hv
        cases hv
        rcases addData_cases hrest with ⟨ho, hreplies, hs, hr, hf⟩
        refine ⟨ho, hreplies, ⟨_, hs.trans (List.append_assoc s.schemas _ _), ?_⟩,
          ⟨[o.matchRule], hr, ?_⟩⟩
        · exact fun _ sig hsig => List.mem_append_left _ (hmem sig hsig)
        · rcases hf with hf | hf
          · exact .inl ⟨hf, fun _ _ => List.mem_singleton_self _⟩
          · exact .inr hf
  · rw [if_neg hlisten] at hrest
    rcases addData_cases hrest with ⟨ho, hreplies, hs, hr, hf⟩
    refine ⟨ho, hreplies, ⟨_, hs, fun h => absurd h hlisten⟩, ⟨[], hr.trans (List.append_nil _).symm, ?_⟩⟩
    rcases hf with hf | hf
    · exact .inl ⟨hf, fun h => absurd h hlisten⟩
    · exact .inr hf

theorem registered_isRegistered (o : DBusObject) : o.registered.isRegistered = true := by
  unfold DBusObject.registered
  split_ifs <;> rfl

theorem registered_listen (o : DBusObject) :
    o.registered.listenForSignals = o.listenForSignals := by
  unfold DBusObject.registered
  split_ifs <;> rfl

theorem registered_matchRule (o : DBusObject) : o.registered.matchRule = o.matchRule := by
  unfold DBusObject.registered
  split_ifs <;> rfl

theorem registered_signals_nil (o : DBusObject) :
    o.registered.members.signals = [] ↔ o.members.signals = [] := by
  unfold DBusObject.registered
  split_ifs
  · simp [DBusObject.withEventSchemas]
  · rfl

theorem mem_registered_signals {o : DBusObject} (hlisten : o.listenForSignals = true)
    {sig : Signal} (h : sig ∈ o.registered.members.signals) :
    ∃ sig' ∈ o.members.signals, o.registered.eventSchema sig = o.eventSchema sig' ∧
      sig.schema = some (o.registered.eventSchema sig) := by
  rw [DBusObject.registered, if_pos hlisten] at h ⊢
  rcases List.mem_map.mp h with ⟨sig', hsig', rfl⟩
  exact ⟨sig', hsig', rfl, rfl⟩

theorem grows_addToSchema {name : Text} {o : DBusObject} {error : Option Text}
    (ho : s.object name = some o) (h : addToSchema q bus name o s = some (error, s')) :
    Grows s s' := by
  cases hreg : o.isRegistered with
  | true =>
    rw [addToSchema, if_pos hreg] at h
    cases h
    exact .refl s
  | false =>
    rcases addToSchema_cases hreg h with
      ⟨hobjects, hreplies, ⟨schemas, hs, hevents⟩, rules, hr, hf⟩
    have hobject : ∀ name', s'.object name' =
        if name' = name then some o.registered else s.object name' := by
      intro name'
      rw [← Agent.object_put, Agent.object, hobjects, Agent.object]
    have hnew : ∀ {name'}, name' ∈ s'.filters → name' = name ∨ name' ∈ s.filters := by
      intro name' hname'
      rcases hf with ⟨hf, _⟩ | ⟨hf, _⟩
      · rw [hf, List.mem_append, List.mem_singleton] at hname'
        exact hname'.symm
      · exact .inr (hf ▸ hname')
    have hother : ∀ {name' o'}, s.object name' = some o' → o'.isRegistered = true →
        name' ≠ name := by
      rintro name' o' hname' hreg' rfl
      rw [ho] at hname'
      cases hname'
      rw [hreg] at hreg'
      cases hreg'
    refine ⟨?_, hs ▸ List.subset_append_left _ _, hr ▸ List.subset_append_left _ _, ?_, ?_,
      hreplies⟩
    · intro name' o' hname' hreg'
      rw [hobject, if_neg (hother hname' hreg'), hname']
    · rcases hf with ⟨hf, _⟩ | ⟨hf, _⟩
      · exact hf ▸ List.subset_append_left _ _
      · exact hf ▸ fun _ h => h
    · intro hc
      refine ⟨?_, ?_, ?_⟩
      · intro name' o' hname' hreg' hlisten sig hsig
        rw [hobject] at hname'
        rw [hs]
        split_ifs at hname'
        · cases hname'
          rw [registered_listen] at hlisten
          rcases mem_registered_signals hlisten hsig with ⟨sig', hsig', heq, hschema⟩
          exact ⟨hschema, heq ▸ List.mem_append_right _ (hevents hlisten sig' hsig')⟩
        · have hold := hc.schemas hname' hreg' hlisten sig hsig
          exact ⟨hold.1, List.mem_append_left _ hold.2⟩
      · intro name' o' hname' hfilter hlisten hsignals
        rw [hobject] at hname'
        rw [hr]
        split_ifs at hname' with heq
        · cases hname'
          rw [registered_listen] at hlisten
          rw [Ne, registered_signals_nil] at hsignals
          rw [registered_matchRule]
          rcases hf with ⟨_, hrule⟩ | ⟨hf, _⟩
          · exact List.mem_append_right _ (hrule hlisten hsignals)
          · -- the name has a filter already, so a registered object had been there
            rw [hf] at hfilter
            rcases hc.filters hfilter with ⟨o', ho', hreg'⟩
            exact absurd heq (hother ho' hreg')
        · rcases hnew hfilter with hname | hold
          · exact absurd hname heq
          · exact List.mem_append_left _ (hc.rules hname' hold hlisten hsignals)
      · intro name' hfilter
        rw [hobject]
        by_cases heq : name' = name
        · rw [if_pos heq]
          exact ⟨_, rfl, registered_isRegistered o⟩
        · rw [if_neg heq]
          rcases hnew hfilter with hname | hold
          · exact absurd hname heq
          · exact hc.filters hold

theorem grows_addInterfaces (busName objectPath : Text) (interfaces : List Text) :
    Relates Grows (addInterfaces q bus busName objectPath interfaces) := by
  induction interfaces with
  | nil => exact (Query.pure _).grows
  | cons interface interfaces ih =>
    intro s error s' h
    rcases bind_eq_some.mp h with ⟨r, t, ht, hr⟩
    have hget := grows_getDBusObject _ _ _ _ s r t ht
    cases r with
    | error text =>
      cases hr
      exact hget
    | ok o =>
      rcases bind_eq_some.mp hr with ⟨error', u, hu, hrest⟩
      have hadd := hget.trans (grows_addToSchema (object_of_getDBusObject ht) hu)
      cases error' with
      | some text =>
        cases hrest
        exact hadd
      | none => exact hadd.trans (ih u error s' hrest)

def Answered (s s' : Agent) : Prop :=
  ∃ t reply, Grows s t ∧ s' = { t with replies := reply :: t.replies }

theorem answered_bind {α : Type} {m : Act α} {f : α → Act PUnit} (hm : Relates Grows m)
    (hf : ∀ a, Relates Answered (f a)) : Relates Answered (m >>= f) :=
  Relates.bind (fun hst ⟨v, reply, htv, hu⟩ => ⟨v, reply, hst.trans htv, hu⟩) hm hf

theorem answered_raiseException (text : Text) : Relates Answered (raiseException text) :=
  Relates.modify fun s => ⟨s, _, .refl s, rfl⟩

theorem answered_methodSuccess (arguments : List (Text × QVariant)) :
    Relates Answered (methodSuccess arguments) :=
  Relates.modify fun s => ⟨s, _, .refl s, rfl⟩

theorem answered_callRequest (ev : Event) : Relates Answered (callRequest q bus ev) := by
  refine answered_bind (grows_getDBusObject _ _ _ _) fun r => ?_
  cases r with
  | error text => exact answered_raiseException text
  | ok o =>
    dsimp only
    split
    · exact answered_raiseException _
    · split
      · exact Relates.fault
      · refine answered_bind (query_callMethod _ _).grows fun r => ?_
        cases r with
        | error text => exact answered_raiseException text
        | ok results => exact answered_methodSuccess _

theorem answered_listDbusObjects (ev : Event) : Relates Answered (listDbusObjects q bus ev) := by
  refine answered_bind (query_staticCall _ _ _ _ _).grows fun r => ?_
  rcases r with text | _ | ⟨first, rest⟩
  · exact answered_raiseException text
  · exact answered_raiseException _
  · dsimp only
    split
    · refine answered_bind (query_staticCall _ _ _ _ _).grows fun r => ?_
      rcases r with text | _ | ⟨second, rest⟩
      · exact answered_raiseException text
      · exact answered_raiseException _
      · dsimp only
        split
        · exact Relates.fault
        · exact answered_methodSuccess _
    · exact Relates.fault

theorem answered_addDbusObject (ev : Event) : Relates Answered (addDbusObject q bus ev) := by
  refine answered_bind (query_requestedInterfaces ev).grows fun interfaces => ?_
  refine answered_bind (grows_addInterfaces _ _ interfaces) fun error => ?_
  cases error with
  | some text => exact answered_raiseException text
  | none => exact answered_methodSuccess _

theorem answered_bridgeRequest (depth : ℕ) (ev : Event) :
    Relates Answered (bridgeRequest q bus depth ev) := by
  unfold bridgeRequest
  split_ifs
  · exact answered_callRequest ev
  · exact answered_listDbusObjects ev
  · exact answered_bind (query_getObjectPaths _ _ _).grows fun _ => answered_methodSuccess _
  · exact answered_bind (query_getInterfaces _ _).grows fun _ => answered_methodSuccess _
  · exact answered_addDbusObject ev
  · exact answered_raiseException _

theorem answered_objectRequest (name : Text) (ev : Event) :
    Relates Answered (objectRequest q bus name ev) := by
  refine answered_bind (grows_getDBusObject _ _ _ _) fun r => ?_
  cases r with
  | error text => exact answered_raiseException text
  | ok o =>
    dsimp only
    split_ifs
    · unfold setRequest
      split
      · exact Relates.fault
      · refine answered_bind (query_setPropertyValues o _).grows fun error => ?_
        cases error with
        | some text => exact answered_raiseException text
        | none => exact answered_methodSuccess _
    · refine answered_bind (query_getPropertyValues o).grows fun r => ?_
      cases r with
      | error text => exact answered_raiseException text
      | ok values => exact answered_methodSuccess _
    · unfold methodRequest
      split
      · exact answered_raiseException _
      · split
        · exact Relates.fault
        · refine answered_bind (query_callMethod _ _).grows fun r => ?_
          cases r with
          | error text => exact answered_raiseException text
          | ok results =>
            dsimp only
            split_ifs
            · exact answered_raiseException _
            · exact answered_methodSuccess _

theorem answered_invoke (depth : ℕ) (name methodName : Text) (arguments : List (Text × QVariant)) :
    Relates Answered (invoke q bus depth ⟨true, some name, methodName, arguments⟩) := by
  unfold invoke
  dsimp only
  split_ifs
  · exact answered_bridgeRequest depth _
  · exact answered_objectRequest name _

end

end Matahari.DbusBridge
