import Matahari.DbusEffects

set_option autoImplicit false

/-!
# What a registration leaves behind

Three operations of `addToSchema` can fail: the addition of the match rule, `GetAll` and the
installation of the filter. The object counts as registered before the first of them.
-/
namespace Matahari.DbusBridge
open Mainloop PartialState

structure Published (s : Agent) (name : Text) (o : DBusObject) : Prop where
  schema : o.dataSchema ∈ s.schemas
  data : ∃ values, (name, values) ∈ s.data
  filter : name ∈ s.filters

structure Withdrawn (s s' : Agent) (name : Text) : Prop where
  schemas : s'.schemas = s.schemas
  data : s'.data = s.data
  filters : s'.filters = s.filters
  unregistered : ∀ o, s'.object name = some o → o.isRegistered = false

/-- The registration ends, as a whole or, with an error, not at all. -/
def Atomic (q : Qpid) (bus : Bus) (name : Text) (o : DBusObject) (s : Agent) : Prop :=
  ∃ error s', addToSchema q bus name o s = some (error, s') ∧
    (error ≠ none → Withdrawn s s' name) ∧ (error = none → Published s' name o)

def DBusObject.needsMatch (o : DBusObject) : Prop :=
  o.listenForSignals = true ∧ o.members.signals ≠ []

instance (o : DBusObject) : Decidable o.needsMatch :=
  inferInstanceAs (Decidable (o.listenForSignals = true ∧ o.members.signals ≠ []))

/-- From the clock `n` on no operation fails that a registration makes, and the reply to `GetAll`
can be read. -/
structure Undisturbed (q : Qpid) (bus : Bus) (o : DBusObject) (n : ℕ) : Prop where
  added : o.needsMatch → bus.addMatch n = none
  loaded : ∃ values t,
    loadValues q bus o { clock := if o.needsMatch then n + 1 else n } =
      some ((none, values), t) ∧ bus.addFilter t.clock = true

section
variable {q : Qpid} {bus : Bus} {name : Text} {o : DBusObject} {s s' : Agent}
  {error : Option Text}

/-- What follows the match rule publishes the schema and the data, and the filter unless the
installation fails. -/
theorem addData_outcome (h : addData q bus name o s = some (error, s')) :
    ∃ error' values n, loadValues q bus o { clock := s.clock } =
        some ((error', values), { clock := n }) ∧
      (error = none ↔ error' = none ∧ bus.addFilter n = true) ∧
      (error = none → Published s' name o) := by
  rcases bind_eq_some.mp h with ⟨_, t, ht, hrest⟩
  cases ht
  rcases bind_eq_some.mp hrest with ⟨⟨error', values⟩, u, hu, hrest⟩
  have hload := (query_loadValues o).eq_some (t := { clock := s.clock }) hu rfl
  have hstate := (query_loadValues o).state_eq hu
  refine ⟨error', values, u.clock, hload, ?_⟩
  rcases bind_eq_some.mp hrest with ⟨_, v, hv, hfilter⟩
  cases hv
  rcases bind_eq_some.mp hfilter with ⟨n, w, hw, hlast⟩
  cases hw
  dsimp only at hlast
  split_ifs at hlast with hadded
  · rcases bind_eq_some.mp hlast with ⟨_, x, hx, hdone⟩
    cases hx
    cases hdone
    refine ⟨by simp [hadded], fun _ => ⟨?_, ⟨values, ?_⟩, ?_⟩⟩
    · change o.dataSchema ∈ u.schemas
      rw [hstate]
      exact List.mem_append_right _ (List.mem_singleton_self _)
    · exact List.mem_append_right _ (List.mem_singleton_self _)
    · exact List.mem_append_right _ (List.mem_singleton_self _)
  · cases hlast
    simp [hadded]

theorem addData_eq_none_iff {n : ℕ} (h : addData q bus name o s = some (error, s'))
    (hclock : s.clock = n) :
    error = none ↔ ∃ values t, loadValues q bus o { clock := n } =
      some ((none, values), t) ∧ bus.addFilter t.clock = true := by
  obtain ⟨error', values, m, hload, herror, _⟩ := addData_outcome h
  rw [herror, ← hclock, hload]
  constructor
  · rintro ⟨rfl, hfilter⟩
    exact ⟨values, _, rfl, hfilter⟩
  · rintro ⟨values', t, ht, hfilter⟩
    cases ht
    exact ⟨rfl, hfilter⟩

theorem loadValues_eq_none (h : addData q bus name o s = none) :
    loadValues q bus o { clock := s.clock } = none := by
  by_contra hload
  obtain ⟨⟨⟨error', values⟩, t⟩, ht⟩ := Option.ne_none_iff_exists'.mp hload
  have hreturns : Completes (addData q bus name o) s := by
    refine completes_bind.mpr ⟨completes_modify _ _, fun _ u hu => ?_⟩
    cases hu
    have hu' := (query_loadValues o).eq_some (t := s.register [o.dataSchema]) ht rfl
    refine (completes_bind_of_eq hu').mpr ?_
    refine completes_bind.mpr ⟨completes_modify _ _, fun _ v _ => ?_⟩
    refine completes_bind.mpr ⟨⟨v.clock, v.ticked, rfl⟩, fun n w _ => ?_⟩
    split_ifs
    · exact completes_bind.mpr ⟨completes_modify _ _, fun _ _ _ => completes_pure _ _⟩
    · exact completes_pure _ _
  obtain ⟨error'', s', hs'⟩ := hreturns
  rw [h] at hs'
  cases hs'

theorem addToSchema_steps (q : Qpid) (bus : Bus) (name : Text) (s : Agent)
    (hreg : o.isRegistered = false) :
    (∃ text t, o.needsMatch ∧ bus.addMatch s.clock ≠ none ∧
      addToSchema q bus name o s = some (some text, t)) ∨
    ∃ t : Agent, (o.needsMatch → bus.addMatch s.clock = none) ∧
      t.clock = (if o.needsMatch then s.clock + 1 else s.clock) ∧
      addToSchema q bus name o s = addData q bus name o t := by
  have hset := Eq.refl (addToSchema q bus name o s)
  conv_rhs at hset =>
    rw [addToSchema, if_neg (by simp [hreg])]
  rw [bind_of_eq rfl] at hset
  by_cases hlisten : o.listenForSignals = true
  · rw [if_pos hlisten, bind_of_eq rfl] at hset
    beta_reduce at hset
    by_cases hsignals : o.members.signals = []
    · have hneeds : ¬ o.needsMatch := fun h => h.2 hsignals
      rw [if_pos hsignals] at hset
      refine .inr ⟨_, fun h => absurd h hneeds, ?_, hset⟩
      rw [if_neg hneeds]
      rfl
    · have hneeds : o.needsMatch := ⟨hlisten, hsignals⟩
      rw [if_neg hsignals] at hset
      cases hmatch : bus.addMatch s.clock with
      | some message =>
        have hfail := busAddMatch_refused o.matchRule
          (s := (s.put name o.registered).register (o.members.signals.map o.eventSchema)) hmatch
        rw [bind_of_eq hfail] at hset
        exact .inl ⟨_, _, hneeds, Option.some_ne_none _, hset⟩
      | none =>
        have hadd := busAddMatch_added o.matchRule
          (s := (s.put name o.registered).register (o.members.signals.map o.eventSchema)) hmatch
        rw [bind_of_eq hadd] at hset
        refine .inr ⟨_, fun _ => rfl, ?_, hset⟩
        rw [if_pos hneeds]
        rfl
  · have hneeds : ¬ o.needsMatch := fun h => hlisten h.1
    rw [if_neg hlisten] at hset
    refine .inr ⟨_, fun h => absurd h hneeds, ?_, hset⟩
    rw [if_neg hneeds]
    rfl

/-- A registration ends without an error if nothing fails, and it has published everything
then. -/
theorem addToSchema_eq_none_iff (hreg : o.isRegistered = false)
    (h : addToSchema q bus name o s = some (error, s')) :
    (error = none ↔ Undisturbed q bus o s.clock) ∧ (error = none → Published s' name o) := by
  obtain ⟨text, t, hneeds, hrefused, hfail⟩ | ⟨t, hadded, hclock, hdata⟩ :=
    addToSchema_steps q bus name s hreg
  · rw [hfail] at h
    cases h
    refine ⟨⟨nofun, fun hun => absurd (hun.added hneeds) hrefused⟩, nofun⟩
  · rw [hdata] at h
    obtain ⟨_, _, _, _, _, hpublished⟩ := addData_outcome h
    refine ⟨?_, hpublished⟩
    rw [addData_eq_none_iff h hclock]
    exact ⟨fun hloaded => ⟨hadded, hloaded⟩, fun hun => hun.loaded⟩

theorem not_undisturbed_of_none (hreg : o.isRegistered = false)
    (h : addToSchema q bus name o s = none) : ¬ Undisturbed q bus o s.clock := by
  rintro ⟨-, values, u, hu, -⟩
  obtain ⟨text, t, _, _, hfail⟩ | ⟨t, -, hclock, hdata⟩ :=
    addToSchema_steps q bus name s hreg
  · rw [hfail] at h
    cases h
  · rw [← hclock, loadValues_eq_none (hdata ▸ h)] at hu
    cases hu

theorem object_of_addToSchema (hreg : o.isRegistered = false)
    (h : addToSchema q bus name o s = some (error, s')) :
    s'.object name = some o.registered := by
  rw [Agent.object, (addToSchema_cases hreg h).1, ← Agent.object, Agent.object_put, if_pos rfl]

/-- A registration that returns with an error leaves an object that is registered. -/
theorem not_withdrawn (hreg : o.isRegistered = false)
    (h : addToSchema q bus name o s = some (error, s')) : ¬ Withdrawn s s' name := by
  intro hw
  have hfalse := hw.unregistered _ (object_of_addToSchema hreg h)
  rw [registered_isRegistered] at hfalse
  cases hfalse

/-- The next registration of the object ends without an error, and does nothing. -/
theorem addToSchema_again (hreg : o.isRegistered = false)
    (h : addToSchema q bus name o s = some (error, s')) :
    ∃ o', s'.object name = some o' ∧ ∀ t, addToSchema q bus name o' t = some (none, t) := by
  refine ⟨o.registered, object_of_addToSchema hreg h, fun t => ?_⟩
  rw [addToSchema, if_pos (registered_isRegistered o)]
  rfl

end

/-- The registration of an object is atomic if nothing fails in it and it ends. That of one that
counts as registered comes to nothing, and everything has to be there. -/
theorem atomic_iff (q : Qpid) (bus : Bus) (name : Text) (o : DBusObject) (s : Agent) :
    Atomic q bus name o s ↔
      (o.isRegistered = true → Published s name o) ∧
      (o.isRegistered = false → Undisturbed q bus o s.clock) := by
  cases hreg : o.isRegistered with
  | true =>
    have hskip : addToSchema q bus name o s = some (none, s) := by
      rw [addToSchema, if_pos hreg]
      rfl
    constructor
    · rintro ⟨error, s', h, -, hpublished⟩
      rw [hskip] at h
      cases h
      exact ⟨fun _ => hpublished rfl, fun hnot => absurd hnot (by decide)⟩
    · rintro ⟨hpublished, -⟩
      exact ⟨none, s, hskip, fun hne => absurd rfl hne, fun _ => hpublished rfl⟩
  | false =>
    constructor
    · rintro ⟨error, s', hrun, hwithdrawn, -⟩
      refine ⟨fun hnot => absurd hnot (by decide), fun _ => ?_⟩
      refine (addToSchema_eq_none_iff hreg hrun).1.mp ?_
      by_contra herror
      exact not_withdrawn hreg hrun (hwithdrawn herror)
    · rintro ⟨-, hun⟩
      cases hrun : addToSchema q bus name o s with
      | none => exact absurd (hun rfl) (not_undisturbed_of_none hreg hrun)
      | some r =>
        obtain ⟨error, s'⟩ := r
        obtain ⟨herror, hpublished⟩ := addToSchema_eq_none_iff hreg hrun
        exact ⟨error, s', hrun, fun hne => absurd (herror.mpr (hun rfl)) hne, hpublished⟩

def signalObject : DBusObject where
  listenForSignals := true
  busName := "b".toList
  objectPath := "/o".toList
  interface := "i".toList
  members := { signals := [⟨"Changed".toList, [], none⟩] }

def refusingBus : Bus where
  introspect _ _ _ := .xml []
  call _ := ⟨true, .ok []⟩
  addMatch _ := some "limit reached".toList
  addFilter _ := true

theorem atomic_wrong : ¬ Atomic exactQpid refusingBus "b@/o@i".toList signalObject {} := by
  intro h
  obtain ⟨text, t, _, _, hfail⟩ | ⟨t, hadded, _⟩ :=
    addToSchema_steps (o := signalObject) exactQpid refusingBus "b@/o@i".toList {} rfl
  · obtain ⟨error, s', hrun, hwithdrawn, -⟩ := h
    rw [hfail] at hrun
    cases hrun
    exact not_withdrawn rfl hfail (hwithdrawn (Option.some_ne_none text))
  · cases hadded (by decide)

end Matahari.DbusBridge
