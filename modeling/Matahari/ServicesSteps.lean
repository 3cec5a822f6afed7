import Matahari.ServicesView

set_option autoImplicit false

/-!
# The steps of the engine

Everything a step can do to the registries, guards included. The properties of
whole runs are derived from this relation and never look into the engine again.
-/
namespace Matahari.Services
open Mainloop

variable {C W : Type}

namespace Registry

def Unused (v : Registry) (fork : Option ℕ) : Prop :=
  ∀ pid : ℕ, fork = some pid → v.child pid = none

def create (v : Registry) (op : ℕ) (r : ActionRequest) (fork : Option ℕ) : Registry :=
  (v.alloc op r.interval (actionId r.name r.action r.interval) (r.name, r.action)).start op
    r.interval r.timeout (actionId r.name r.action r.interval) fork

def reap (v : Registry) (pid : ℤ) (p : MainloopChild ℕ) (op : ℕ) (interval : ℤ) : Registry :=
  ((v.removeSource p.timerid).setChild pid none).complete op interval

def cancel (v : Registry) (op timer : ℕ) : Registry :=
  (v.removeSource timer).release op

inductive Step (v : Registry) : Event C → Registry → Prop
  | rejected {r : ActionRequest} {callback : Option C} {fork : Option ℕ} :
    Step v (.submit r callback fork) v
  | submit {r : ActionRequest} {callback : Option C} {fork : Option ℕ} {op : ℕ} :
    r.valid = true → v.interval op = none → v.Unused fork →
      Step v (.submit r callback fork) (v.create op r fork)
  | childExit {pid status op : ℕ} {p : MainloopChild ℕ} {i : ℤ} :
    v.child pid = some p → p.privatedata = some op → v.interval op = some i →
      Step v (.childExit pid status) (v.reap pid p op i)
  | childTimeout {source : ℕ} {kill : KillResult} {pid : ℤ} :
    v.source source = some (.childTimeout pid) →
      Step v (.childTimeout source kill) ((v.expire pid kill).removeSource source)
  | repeatTimer {source op : ℕ} {fork : Option ℕ} {i timeout : ℤ} {id : Text} :
    v.source source = some (.recurringAction op) → v.interval op = some i → v.id op = some id →
      v.Unused fork →
      Step v (.repeatTimer source fork) ((v.removeSource source).start op i timeout id fork)
  | fdDone {source op : ℕ} {stream : Stream} :
    v.source source = some (.fd stream op) →
      Step v (.fdDone source) (v.unwatch source stream op)
  | miss {name action : Text} {interval : ℤ} :
    v.recurring (cancelId name action interval) = none →
      Step v (.cancel name action interval) v
  | cancel {name action : Text} {interval : ℤ} {op timer : ℕ} :
    v.recurring (cancelId name action interval) = some op → v.repeatTimer op = some timer →
      Step v (.cancel name action interval) (v.cancel op timer)

/-! ## The invariant is kept by every step -/

section
variable {v u : Registry} {e : Event C} {op k : ℕ}

theorem alloc_running {op : ℕ} (h : Inv v) (hop : v.interval op = none) (k : ℕ) :
    v.Running k → k ≠ op := by
  rintro ⟨pid, p, hp, hk⟩ rfl
  obtain ⟨-, o, ho, hpid⟩ := h.child pid p hp
  obtain rfl : o = k := by simpa [ho] using hk
  simp [(h.unused o hop).2.2.1] at hpid

theorem inv_create (h : Inv v) {op : ℕ} (hop : v.interval op = none) (r : ActionRequest)
    (fork : Option ℕ) : Inv (v.create op r fork) := by
  have hnew := inv_alloc h hop r.interval r.name r.action
  refine inv_start hnew (Function.update_self ..) ?_ ?_ ?_ r.timeout (Function.update_self ..) fork
  · intro hrun
    exact alloc_running h hop op hrun rfl
  · rintro ⟨id, hid⟩
    obtain ⟨-, -, i, hi, -⟩ := h.waiting id op hid
    simp [hop] at hi
  · intro _
    exact ⟨(h.unused op hop).1, fun stream => if_pos rfl⟩

theorem inv_reap (h : Inv v) {pid : ℤ} {p : MainloopChild ℕ} {op : ℕ} {i : ℤ}
    (hp : v.child pid = some p) (hop : p.privatedata = some op) (hi : v.interval op = some i) :
    Inv (v.reap pid p op i) :=
  inv_complete (inv_removeSource h (childTimer_ne h hp)) hp hop hi

theorem inv_expire_removeSource (h : Inv v) {source : ℕ} {pid : ℤ}
    (hs : v.source source = some (.childTimeout pid)) (kill : KillResult) :
    Inv ((v.expire pid kill).removeSource source) := by
  refine inv_removeSource (inv_expire h pid kill) fun stream op hk => ?_
  rw [expire_source (h.fresh source _ hs), hs] at hk
  cases hk

theorem inv_restart (h : Inv v) {source op : ℕ} {i timeout : ℤ} {id : Text}
    (hs : v.source source = some (.recurringAction op)) (hi : v.interval op = some i)
    (hid : v.id op = some id) (fork : Option ℕ) :
    Inv ((v.removeSource source).start op i timeout id fork) := by
  obtain ⟨hrun, htimer, j, hj, hne⟩ := h.waiting source op hs
  obtain rfl : i = j := by simpa [hi] using hj
  refine inv_start (inv_removeSource h ?_) hi hrun ?_ (fun hz => absurd hz hne) timeout hid fork
  · intro stream k hk
    simp [hs] at hk
  · rintro ⟨k, hk⟩
    simp only [removeSource, Function.update_apply] at hk
    split at hk
    · cases hk
    · rename_i hks
      have hk' := (h.waiting k op hk).2.1
      exact hks (by simpa [htimer] using hk'.symm)

theorem inv_cancel (h : Inv v) {id : Text} {op timer : ℕ} (hr : v.recurring id = some op)
    (ht : v.repeatTimer op = some timer) : Inv (v.cancel op timer) := by
  obtain ⟨-, i, hi, hpos⟩ := h.recurring id op hr
  exact inv_release (inv_removeSource h (repeatTimer_ne h ht)) hi fun hz => by omega

theorem inv_step (h : Inv v) (hs : Step v e u) : Inv u := by
  cases hs with
  | rejected => exact h
  | submit _ hop _ => exact inv_create h hop _ _
  | childExit hp hop hi => exact inv_reap h hp hop hi
  | childTimeout hsrc => exact inv_expire_removeSource h hsrc _
  | repeatTimer hsrc hi hid _ => exact inv_restart h hsrc hi hid _
  | fdDone hsrc => exact inv_unwatch h hsrc
  | miss _ => exact h
  | cancel hr ht => exact inv_cancel h hr ht

/-! ## Which actions run or wait after a step -/

theorem running_interval (h : Inv v) (hr : v.Running op) :
    ∃ i, v.interval op = some i := by
  obtain ⟨pid, p, hp, hop⟩ := hr
  obtain ⟨-, o, ho, hpid⟩ := h.child pid p hp
  obtain rfl : o = op := by simpa [ho] using hop
  cases hi : v.interval o with
  | none => simp [(h.unused o hi).2.2.1] at hpid
  | some i => exact ⟨i, rfl⟩

def Live (v : Registry) (op : ℕ) : Prop := v.Running op ∨ v.Waiting op

theorem start_child_none (v : Registry) (op : ℕ) (interval timeout : ℤ) (id : Text) :
    (v.start op interval timeout id none).child = v.child := by
  unfold start
  split <;> rfl

theorem start_child_some (v : Registry) (op : ℕ) (interval timeout : ℤ) (id : Text) (pid : ℕ) :
    (v.start op interval timeout id (some pid)).child = Function.update v.child pid
      (some ⟨pid, id, if timeout ≠ 0 then v.next else 0, false, some op⟩) := by
  unfold start
  split <;>
  · simp only [launch, spawn]
    split <;> rfl

theorem start_timer (v : Registry) (op : ℕ) (interval : ℤ) {timeout : ℤ} (ht : timeout ≠ 0)
    (id : Text) (pid : ℕ) :
    (v.start op interval timeout id (some pid)).source v.next = some (.childTimeout pid) := by
  unfold start
  split <;>
  · simp only [launch, spawn, ht, if_true, watch, setGsource, addSource, setChild, setPid, log,
      register, Function.update_apply, ne_eq, not_false_eq_true]
    grind

theorem running_start {interval timeout : ℤ} {id : Text} {fork : Option ℕ}
    (h : (v.start op interval timeout id fork).Running k) :
    (k = op ∧ fork.isSome) ∨ v.Running k := by
  obtain ⟨pid, p, hp, hk⟩ := h
  cases fork with
  | none =>
    rw [start_child_none] at hp
    exact .inr ⟨pid, p, hp, hk⟩
  | some qid =>
    rw [start_child_some, Function.update_apply] at hp
    split at hp
    · cases hp
      exact .inl ⟨(Option.some.inj hk).symm, rfl⟩
    · exact .inr ⟨pid, p, hp, hk⟩

theorem start_running (v : Registry) (op : ℕ) (interval timeout : ℤ) (id : Text) (pid : ℕ) :
    (v.start op interval timeout id (some pid)).Running op := by
  refine ⟨pid, ⟨pid, id, if timeout ≠ 0 then v.next else 0, false, some op⟩, ?_, rfl⟩
  rw [start_child_some, Function.update_self]

/-- A new child does not take the table entry of another one. -/
theorem running_start_of {interval timeout : ℤ} {id : Text} {fork : Option ℕ}
    (hf : v.Unused fork) (h : v.Running k) :
    (v.start op interval timeout id fork).Running k := by
  obtain ⟨pid, p, hp, hk⟩ := h
  cases fork with
  | none => exact ⟨pid, p, by rw [start_child_none, hp], hk⟩
  | some qid =>
    have hne : pid ≠ qid := by
      rintro rfl
      simp [hf qid rfl] at hp
    exact ⟨pid, p, by rw [start_child_some, Function.update_of_ne hne, hp], hk⟩

theorem waiting_start {op k : ℕ} {interval timeout : ℤ} {id : Text} {fork : Option ℕ}
    (h : (v.start op interval timeout id fork).Waiting k) : v.Waiting k := by
  obtain ⟨j, hj⟩ := h
  refine ⟨j, ?_⟩
  unfold start at hj
  cases fork with
  | none => split at hj <;> exact hj
  | some qid =>
    split at hj <;>
    · simp only [launch, spawn] at hj
      split at hj <;>
      · simp only [watch, setGsource, addSource, setChild, setPid, register, log,
          Function.update_apply] at hj
        grind

theorem running_expire {pid : ℤ} {kill : KillResult} {k : ℕ} (h : (v.expire pid kill).Running k) :
    v.Running k := by
  obtain ⟨qid, q, hq, hk⟩ := h
  unfold expire at hq
  split at hq
  · exact ⟨qid, q, hq, hk⟩
  · rename_i p hp
    have hedit : ∀ r : MainloopChild ℕ, Function.update v.child pid (some r) qid = some q →
        r.privatedata = p.privatedata → v.Running k := by
      intro r hq hr
      rw [Function.update_apply] at hq
      split at hq
      · cases hq
        exact ⟨pid, p, hp, hr ▸ hk⟩
      · exact ⟨qid, q, hq, hk⟩
    split at hq
    · exact hedit _ hq rfl
    · split at hq
      · exact hedit _ hq rfl
      · exact hedit _ hq rfl

theorem waiting_expire {pid : ℤ} {kill : KillResult} {k : ℕ} (h : (v.expire pid kill).Waiting k) :
    v.Waiting k := by
  obtain ⟨j, hj⟩ := h
  unfold expire at hj
  split at hj
  · exact ⟨j, hj⟩
  · split at hj
    · exact ⟨j, hj⟩
    · split at hj
      · exact ⟨j, hj⟩
      · simp only [setChild, addSource, Function.update_apply] at hj
        split at hj
        · cases hj
        · exact ⟨j, hj⟩

theorem running_cancel {timer : ℕ} (hr : (v.cancel op timer).Running k) : v.Running k := by
  obtain ⟨pid, p, hp, hk⟩ := hr
  rw [cancel, release_keeps child (fun _ _ _ => rfl) fun _ => rfl] at hp
  exact ⟨pid, p, hp, hk⟩

theorem step_running (hs : Step v e u) (hr : u.Running k) : v.Live k ∨ v.interval k = none := by
  cases hs with
  | rejected => exact .inl (.inl hr)
  | submit _ hop _ =>
    obtain ⟨rfl, -⟩ | hr := running_start (v := v.alloc _ _ _ _) hr
    · exact .inr hop
    · exact .inl (.inl hr)
  | childExit _ _ _ =>
    obtain ⟨pid, p, hp, hk⟩ := hr
    rw [reap, (complete_frame _ _ _).1] at hp
    simp only [setChild, Function.update_apply] at hp
    split at hp
    · cases hp
    · exact .inl (.inl ⟨pid, p, hp, hk⟩)
  | childTimeout _ => exact .inl (.inl (running_expire hr))
  | repeatTimer hsrc _ _ _ =>
    obtain ⟨rfl, -⟩ | hr := running_start hr
    · exact .inl (.inr ⟨_, hsrc⟩)
    · exact .inl (.inl hr)
  | fdDone _ => exact .inl (.inl hr)
  | miss _ => exact .inl (.inl hr)
  | cancel _ _ => exact .inl (.inl (running_cancel hr))

theorem waiting_removeSource {id : ℕ} (hw : (v.removeSource id).Waiting k) :
    ∃ j, j ≠ id ∧ v.source j = some (.recurringAction k) := by
  obtain ⟨j, hj⟩ := hw
  simp only [removeSource, Function.update_apply] at hj
  split at hj
  · cases hj
  · exact ⟨j, ‹_›, hj⟩

theorem not_waiting_cancel (h : Inv v) {timer : ℕ} (ht : v.repeatTimer op = some timer) :
    ¬ (v.cancel op timer).Waiting op := by
  rintro ⟨j, hj⟩
  obtain ⟨j, hne, hj⟩ := waiting_removeSource ⟨j, release_source hj⟩
  have hk := (h.waiting j op hj).2.1
  exact hne (by simpa [ht] using hk.symm)

theorem waiting_complete {i : ℤ} (hw : (v.complete op i).Waiting k) :
    v.Waiting k ∨ k = op ∧ i ≠ 0 := by
  unfold complete at hw
  obtain ⟨j, hj⟩ := hw
  split at hj
  · simp only [setPid, arm, setRepeatTimer, addSource, Function.update_apply] at hj
    split at hj
    · cases hj
      exact .inr ⟨rfl, ‹_›⟩
    · exact .inl ⟨j, hj⟩
  · exact .inl ⟨j, release_source (v := v.setPid op 0) hj⟩

theorem step_waiting (hs : Step v e u) (hw : u.Waiting k) :
    v.Waiting k ∨ v.Running k ∧ v.interval k ≠ some 0 := by
  cases hs with
  | rejected => exact .inl hw
  | submit _ _ _ => exact .inl (waiting_start (v := v.alloc _ _ _ _) hw)
  | childExit hp hop hi =>
    obtain ⟨j, hj⟩ | ⟨rfl, hne⟩ := waiting_complete hw
    · obtain ⟨j, -, hj⟩ := waiting_removeSource ⟨j, hj⟩
      exact .inl ⟨j, hj⟩
    · exact .inr ⟨⟨_, _, hp, hop⟩, fun hz => hne (by simpa [hi] using hz)⟩
  | childTimeout _ =>
    obtain ⟨j, -, hj⟩ := waiting_removeSource hw
    exact .inl (waiting_expire ⟨j, hj⟩)
  | repeatTimer _ _ _ _ =>
    obtain ⟨j, -, hj⟩ := waiting_removeSource (waiting_start hw)
    exact .inl ⟨j, hj⟩
  | fdDone _ =>
    obtain ⟨j, -, hj⟩ := waiting_removeSource hw
    exact .inl ⟨j, hj⟩
  | miss _ => exact .inl hw
  | cancel _ _ =>
    obtain ⟨j, hj⟩ := hw
    obtain ⟨j, -, hj⟩ := waiting_removeSource ⟨j, release_source hj⟩
    exact .inl ⟨j, hj⟩

theorem running_expire_of {pid : ℤ} (kill : KillResult) (h : v.Running k) :
    (v.expire pid kill).Running k := by
  obtain ⟨qid, q, hq, hk⟩ := h
  unfold expire
  split
  · exact ⟨qid, q, hq, hk⟩
  · rename_i p hp
    have hedit : ∀ r : MainloopChild ℕ, r.privatedata = p.privatedata →
        ∃ q', Function.update v.child pid (some r) qid = some q' ∧ q'.privatedata = some k := by
      intro r hr
      by_cases he : qid = pid
      · subst he
        obtain rfl : p = q := by simpa [hp] using hq
        exact ⟨r, Function.update_self .., hr.trans hk⟩
      · exact ⟨q, by rw [Function.update_of_ne he, hq], hk⟩
    split
    · exact ⟨qid, hedit _ rfl⟩
    · split <;> exact ⟨qid, hedit _ rfl⟩

/-- Only its own exit ends the run of an action. -/
theorem step_keeps_running (hs : Step v e u) (hr : v.Running k) :
    u.Running k ∨ ∃ pid status p, e = .childExit pid status ∧ v.child pid = some p ∧
      p.privatedata = some k := by
  cases hs with
  | rejected => exact .inl hr
  | submit _ hop hf => exact .inl (running_start_of (v := v.alloc _ _ _ _) hf hr)
  | @childExit pid status op p i hp hop _ =>
    by_cases hk : op = k
    · subst hk
      exact .inr ⟨pid, status, p, rfl, hp, hop⟩
    · obtain ⟨qid, q, hq, hqk⟩ := hr
      refine .inl ⟨qid, q, ?_, hqk⟩
      have hne : qid ≠ pid := by
        rintro rfl
        obtain rfl : p = q := by simpa [hp] using hq
        exact hk (by simpa [hop] using hqk)
      rw [reap, (complete_frame _ _ _).1]
      simpa only [setChild, removeSource, Function.update_of_ne hne] using hq
  | childTimeout _ => exact .inl (running_expire_of _ hr)
  | repeatTimer _ _ _ hf => exact .inl (running_start_of (v := v.removeSource _) hf hr)
  | fdDone _ => exact .inl hr
  | miss _ => exact .inl hr
  | cancel _ _ =>
    obtain ⟨qid, q, hq, hk⟩ := hr
    refine .inl ⟨qid, q, ?_, hk⟩
    rw [cancel, release_keeps child (fun _ _ _ => rfl) fun _ => rfl]
    exact hq

theorem step_live (hs : Step v e u) (hl : u.Live k) : v.Live k ∨ v.interval k = none := by
  obtain hr | hw := hl
  · exact step_running hs hr
  · obtain hw | ⟨hr, -⟩ := step_waiting hs hw
    · exact .inl (.inr hw)
    · exact .inl (.inl hr)

theorem step_records (hs : Step v e u) (hk : v.interval k ≠ none) :
    u.interval k = v.interval k ∧ u.name k = v.name k := by
  cases hs with
  | rejected => exact ⟨rfl, rfl⟩
  | submit _ hop _ =>
    have hne : k ≠ _ := fun he => hk (he ▸ hop)
    obtain ⟨-, hi, -, -, hn⟩ := start_frame (v.alloc _ _ _ _) _ _ _ _ _
    rw [create, hi, hn]
    exact ⟨Function.update_of_ne hne .., Function.update_of_ne hne ..⟩
  | childExit _ _ _ =>
    obtain ⟨-, hi, hn, -⟩ := complete_frame ((v.removeSource _).setChild _ none) _ _
    rw [reap, hi, hn]
    exact ⟨rfl, rfl⟩
  | childTimeout _ =>
    obtain ⟨-, hi, -, -, -, hn⟩ := expire_frame v _ _
    exact ⟨congrFun hi k, congrFun hn k⟩
  | repeatTimer _ _ _ _ =>
    obtain ⟨-, hi, -, -, hn⟩ := start_frame (v.removeSource _) _ _ _ _ _
    rw [hi, hn]
    exact ⟨rfl, rfl⟩
  | fdDone _ => exact ⟨rfl, rfl⟩
  | miss _ => exact ⟨rfl, rfl⟩
  | cancel _ _ =>
    rw [cancel, release_interval, release_keeps name (fun _ _ _ => rfl) fun _ => rfl]
    exact ⟨rfl, rfl⟩

theorem step_executed (hs : Step v e u) : u.executed = v.executed ∨
    ∃ j, u.executed = j :: v.executed ∧ (v.interval j = none ∨ v.Waiting j) := by
  cases hs with
  | rejected => exact .inl rfl
  | submit _ hop _ => exact .inr ⟨_, (start_frame (v.alloc _ _ _ _) _ _ _ _ _).2.2.1, .inl hop⟩
  | childExit _ _ _ =>
    exact .inl (complete_frame ((v.removeSource _).setChild _ none) _ _).2.2.2.2
  | childTimeout _ => exact .inl (expire_frame v _ _).2.2.2.1
  | repeatTimer hsrc _ _ _ =>
    exact .inr ⟨_, (start_frame (v.removeSource _) _ _ _ _ _).2.2.1, .inr ⟨_, hsrc⟩⟩
  | fdDone _ => exact .inl rfl
  | miss _ => exact .inl rfl
  | cancel _ _ =>
    rw [cancel, release_keeps executed (fun _ _ _ => rfl) fun _ => rfl]
    exact .inl rfl

end

end Registry

/-! ## The engine takes these steps only -/

section
variable {s u : Engine C W} {op : ℕ}

theorem entry_of_interval {i : ℤ} (h : s.registry.interval op = some i) :
    ∃ a, s.heap.entry op = some a ∧ a.interval = i :=
  Option.map_eq_some_iff.mp h

theorem unused_of_forkAllowed {fork : Option ℕ} (h : forkAllowed s fork = true) :
    s.registry.Unused fork := by
  rintro pid rfl
  simp only [forkAllowed, Bool.and_eq_true, Option.isNone_iff_eq_none] at h
  exact h.2

theorem registry_create (s : Engine C W) (r : ActionRequest) (sequence : ℕ)
    (command : Text × List Text) (expectedRc : ℤ) (callback : Option C) (fork : Option ℕ) :
    let a : SvcAction C := { newAction r sequence command with expectedRc := expectedRc }
    (servicesActionAsync { s with heap := s.heap.add a } s.heap.next callback fork).registry =
      s.registry.create s.heap.next r fork := by
  intro a
  have hnew : (s.heap.add a).entry s.heap.next = some a := by
    rw [FreshTable.add_entry]
    exact if_pos rfl
  have hgs : ∀ stream, a.gsource stream = none := by
    intro stream
    cases stream <;> rfl
  have e₁ := registry_alloc s a rfl rfl hgs
  have e₂ := registry_servicesActionAsync (s := { s with heap := s.heap.add a }) hnew callback fork
  rw [e₁] at e₂
  exact e₂

theorem next_interval (s : Engine C W) : s.registry.interval s.heap.next = none :=
  congrArg (Option.map _) (FreshTable.next_entry s.heap)

theorem registry_submit_valid {r : ActionRequest} (hv : r.valid = true) (s : Engine C W)
    (callback : Option C) (fork : Option ℕ) :
    (submit s r callback fork).registry = s.registry.create s.heap.next r fork := by
  obtain ⟨command, ha⟩ := resourcesActionCreate_valid (C := C) hv s.operations
  simp only [submit, ha]
  exact registry_create { s with operations := (resourcesActionCreate (C := C) s.operations r).2 }
    r (s.operations + 1) command 0 callback fork

theorem registry_submit (r : ActionRequest) (callback : Option C) {fork : Option ℕ}
    (hf : forkAllowed s fork = true) :
    Registry.Step s.registry (.submit r callback fork) (submit s r callback fork).registry := by
  cases ha : (resourcesActionCreate (C := C) s.operations r).1 with
  | none =>
    simp only [submit, ha]
    exact .rejected
  | some a =>
    obtain ⟨hv, -⟩ := resourcesActionCreate_some ha
    rw [registry_submit_valid hv]
    exact .submit hv (next_interval s) (unused_of_forkAllowed hf)

theorem registry_childTimeout (s : Engine C W) (source : ℕ) (pid : ℤ) (kill : KillResult) :
    Engine.registry { s with loop := gSourceRemove (childTimeoutCallback s.loop pid kill) source } =
      (s.registry.expire pid kill).removeSource source := by
  have hchild : s.registry.child pid = s.loop.processTable pid := rfl
  unfold childTimeoutCallback Registry.expire
  rw [hchild]
  cases s.loop.processTable pid with
  | none => rfl
  | some p =>
    by_cases ht : p.timeout
    · simp only [ht, if_true]
      rfl
    · cases kill <;> simp only [ht] <;> rfl

theorem registry_recurringActionTimer (h : s.registry.Inv) {source : ℕ} {a : SvcAction C}
    (hs : s.loop.sources.entry source = some (.recurringAction op))
    (ha : s.heap.entry op = some a) (fork : Option ℕ) :
    (recurringActionTimer s source op fork).registry =
      (s.registry.removeSource source).start op a.interval a.timeout a.id fork := by
  rw [← Registry.start_removeSource _ (h.fresh source _ hs),
    ← registry_servicesActionAsync ha none fork]
  rfl

theorem registry_servicesActionCancel (h : s.registry.Inv) {name action : Text} {interval : ℤ}
    {a : SvcAction C} (hr : s.recurringActions (cancelId name action interval) = some op)
    (ha : s.heap.entry op = some a) :
    (servicesActionCancel s name action interval).1.registry =
      s.registry.cancel op a.repeatTimer := by
  let s₁ : Engine C W :=
    if a.repeatTimer ≠ 0 then { s with loop := gSourceRemove s.loop a.repeatTimer } else s
  have e₁ : s₁.registry = s.registry.removeSource a.repeatTimer := by
    simp only [s₁]
    split
    · rfl
    · rename_i hz
      rw [not_not.mp hz, Registry.removeSource_zero h]
  have htimer : s.registry.repeatTimer op = some a.repeatTimer := congrArg (Option.map _) ha
  have h₁ := Registry.inv_removeSource h (Registry.repeatTimer_ne h htimer)
  have hpointed : s₁.registry.Pointed op := by
    rw [e₁]
    exact h₁.gsource op
  have free := registry_servicesActionFree hpointed
  rw [e₁] at free
  simp only [servicesActionCancel, hr, ha, Option.map_some, Option.getD_some]
  exact free

/-- The inversion lemma of the engine. -/
theorem registry_step (run : C → ℕ → SvcAction C → W → W) {e : Event C} (h : s.registry.Inv)
    (hs : step run s e = some u) : Registry.Step s.registry e u.registry := by
  cases e with
  | submit r callback fork =>
    simp only [step, Option.ite_none_right_eq_some, Option.some.injEq] at hs
    obtain ⟨hf, rfl⟩ := hs
    exact registry_submit r callback hf
  | childExit pid status =>
    simp only [step, Option.ite_none_right_eq_some, Option.some.injEq, Option.isSome_iff_exists] at hs
    obtain ⟨⟨p, hp⟩, rfl⟩ := hs
    obtain ⟨-, op, hop, hpid⟩ := h.child pid p hp
    obtain ⟨a, ha, -⟩ := Option.map_eq_some_iff.mp hpid
    rw [registry_childDeath run h hp hop ha status]
    exact .childExit hp hop (congrArg (Option.map _) ha)
  | childTimeout source kill =>
    simp only [step] at hs
    split at hs
    · rename_i pid hsrc
      cases hs
      rw [registry_childTimeout]
      exact .childTimeout hsrc
    · cases hs
  | repeatTimer source fork =>
    simp only [step] at hs
    split at hs
    · rename_i op hsrc
      simp only [Option.ite_none_right_eq_some, Option.some.injEq] at hs
      obtain ⟨hf, rfl⟩ := hs
      obtain ⟨-, -, i, hi, -⟩ := h.waiting source op hsrc
      obtain ⟨a, ha, rfl⟩ := entry_of_interval hi
      rw [registry_recurringActionTimer h hsrc ha fork]
      exact .repeatTimer hsrc hi (congrArg (Option.map _) ha) (unused_of_forkAllowed hf)
    · cases hs
  | fdDone source =>
    simp only [step] at hs
    split at hs
    · rename_i stream op hsrc
      cases hs
      obtain ⟨i, hi, -⟩ := h.watch source stream op hsrc
      obtain ⟨a, ha, -⟩ := entry_of_interval hi
      simp only [mainloopFdDestroy, hsrc]
      rw [registry_pipeDone ha]
      exact .fdDone hsrc
    · cases hs
  | cancel name action interval =>
    simp only [step, Option.some.injEq] at hs
    subst hs
    cases hr : s.recurringActions (cancelId name action interval) with
    | none =>
      simp only [servicesActionCancel, hr]
      exact .miss hr
    | some op =>
      obtain ⟨-, i, hi, -⟩ := h.recurring _ op hr
      obtain ⟨a, ha, -⟩ := entry_of_interval hi
      rw [registry_servicesActionCancel h hr ha]
      exact .cancel hr (congrArg (Option.map _) ha)

theorem inv_init (client : W) : (Engine.init client : Engine C W).registry.Inv := by
  constructor
  all_goals simp [Engine.registry, Engine.init, Loop.init, FreshTable.empty]

theorem inv_engineStep (run : C → ℕ → SvcAction C → W → W) {e : Event C} (h : s.registry.Inv)
    (hs : step run s e = some u) : u.registry.Inv :=
  Registry.inv_step h (registry_step run h hs)

end

end Matahari.Services
