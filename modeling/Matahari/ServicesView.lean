import Matahari.ServicesRegistry

set_option autoImplicit false

/-!
# The engine seen through its registries

The registries of an engine state, what every function of the engine does to
them, and the invariant they keep in every run.
-/
namespace Matahari.Services
open Mainloop

variable {C W : Type}

def Engine.registry (s : Engine C W) : Registry where
  child := s.loop.processTable
  source := s.loop.sources.entry
  next := s.loop.sources.next
  recurring := s.recurringActions
  freed := s.freed
  executed := s.executed
  interval op := (s.heap.entry op).map (·.interval)
  id op := (s.heap.entry op).map (·.id)
  name op := (s.heap.entry op).map fun a => (a.rsc, a.action)
  pid op := (s.heap.entry op).map (·.pid)
  repeatTimer op := (s.heap.entry op).map (·.repeatTimer)
  gsource stream op := (s.heap.entry op).bind (·.gsource stream)

theorem setAction_entry (s : Engine C W) (op : ℕ) (f : SvcAction C → SvcAction C) (k : ℕ) :
    (s.setAction op f).heap.entry k =
      if k = op then (s.heap.entry op).map f else s.heap.entry k :=
  FreshTable.modify_entry s.heap op k f

theorem setAction_map {β : Type} (s : Engine C W) (op : ℕ) (f : SvcAction C → SvcAction C)
    (g : SvcAction C → β) (hg : ∀ a, g (f a) = g a) (k : ℕ) :
    ((s.setAction op f).heap.entry k).map g = (s.heap.entry k).map g := by
  rw [setAction_entry]
  split
  · rename_i hk
    rw [Option.map_map, hk]
    exact congrArg (fun h => (s.heap.entry op).map h) (funext hg)
  · rfl

theorem setAction_gsource (s : Engine C W) (op : ℕ) (f : SvcAction C → SvcAction C)
    (hg : ∀ a, (f a).gsource = a.gsource) (stream : Stream) (k : ℕ) :
    ((s.setAction op f).heap.entry k).bind (·.gsource stream) =
      (s.heap.entry k).bind (·.gsource stream) := by
  rw [setAction_entry]
  split
  · rename_i hk
    rw [hk]
    cases s.heap.entry op with
    | none => rfl
    | some a => simp only [Option.map_some, Option.bind_some, hg]
  · rfl

theorem setAction_map_set {β : Type} {s : Engine C W} {op : ℕ} {a : SvcAction C}
    (ha : s.heap.entry op = some a) {f : SvcAction C → SvcAction C} {g : SvcAction C → β} {x : β}
    (hg : ∀ a, g (f a) = x) (k : ℕ) : ((s.setAction op f).heap.entry k).map g =
      Function.update (fun k => (s.heap.entry k).map g) op (some x) k := by
  rw [setAction_entry, Function.update_apply]
  split
  · rw [ha, Option.map_some, Option.map_some, hg]
  · rfl

theorem registry_setAction (s : Engine C W) (op : ℕ) (f : SvcAction C → SvcAction C)
    (hi : ∀ a, (f a).interval = a.interval) (hid : ∀ a, (f a).id = a.id)
    (hn : ∀ a, ((f a).rsc, (f a).action) = (a.rsc, a.action))
    (hp : ∀ a, (f a).pid = a.pid) (hr : ∀ a, (f a).repeatTimer = a.repeatTimer)
    (hg : ∀ a, (f a).gsource = a.gsource) : (s.setAction op f).registry = s.registry :=
  Registry.ext rfl rfl rfl rfl rfl rfl (funext (setAction_map s op f _ hi))
    (funext (setAction_map s op f _ hid)) (funext (setAction_map s op f _ hn))
    (funext (setAction_map s op f _ hp))
    (funext (setAction_map s op f _ hr)) (funext₂ (setAction_gsource s op f hg))

section
variable {s : Engine C W} {op : ℕ} {a : SvcAction C}

theorem registry_setPid (ha : s.heap.entry op = some a) (pid : ℤ) :
    (s.setAction op fun a => { a with pid := pid }).registry = s.registry.setPid op pid :=
  Registry.ext rfl rfl rfl rfl rfl rfl (funext (setAction_map s op _ _ fun _ => rfl))
    (funext (setAction_map s op _ _ fun _ => rfl)) (funext (setAction_map s op _ _ fun _ => rfl))
    (funext (setAction_map_set ha fun _ => rfl))
    (funext (setAction_map s op _ _ fun _ => rfl)) (funext₂ (setAction_gsource s op _ fun _ => rfl))

theorem registry_setRepeatTimer (ha : s.heap.entry op = some a) (id : ℕ) :
    (s.setAction op fun a => { a with repeatTimer := id }).registry =
      s.registry.setRepeatTimer op id :=
  Registry.ext rfl rfl rfl rfl rfl rfl (funext (setAction_map s op _ _ fun _ => rfl))
    (funext (setAction_map s op _ _ fun _ => rfl)) (funext (setAction_map s op _ _ fun _ => rfl))
    (funext (setAction_map s op _ _ fun _ => rfl))
    (funext (setAction_map_set ha fun _ => rfl)) (funext₂ (setAction_gsource s op _ fun _ => rfl))

theorem setGsource_gsource (a : SvcAction C) (source : Option ℕ) (t u : Stream) :
    (a.setGsource source t).gsource u = if u = t then source else a.gsource u := by
  cases t <;> cases u <;> rfl

theorem registry_setGsource (ha : s.heap.entry op = some a) (source : Option ℕ)
    (stream : Stream) : (s.setAction op fun a => a.setGsource source stream).registry =
      s.registry.setGsource stream op source := by
  refine Registry.ext rfl rfl rfl rfl rfl rfl (funext (setAction_map s op _ _ ?_))
    (funext (setAction_map s op _ _ ?_)) (funext (setAction_map s op _ _ ?_))
    (funext (setAction_map s op _ _ ?_))
    (funext (setAction_map s op _ _ ?_)) ?_
  iterate 5
    intro a
    cases stream <;> rfl
  funext t k
  change ((s.setAction op _).heap.entry k).bind _ = if k = op ∧ t = stream then source else _
  rw [setAction_entry]
  by_cases hk : k = op
  · subst hk
    simp only [ha, Option.map_some, Option.bind_some, setGsource_gsource, if_true, true_and,
      Engine.registry]
  · simp only [hk, if_false, false_and, Engine.registry]

theorem registry_alloc (s : Engine C W) (a : SvcAction C) (hp : a.pid = 0)
    (hr : a.repeatTimer = 0) (hg : ∀ stream, a.gsource stream = none) :
    Engine.registry { s with heap := s.heap.add a } =
      s.registry.alloc s.heap.next a.interval a.id (a.rsc, a.action) := by
  have keep : ∀ {β : Type} (g : SvcAction C → β),
      (fun k => ((s.heap.add a).entry k).map g) =
        Function.update (fun k => (s.heap.entry k).map g) s.heap.next (some (g a)) := by
    intro β g
    funext k
    rw [FreshTable.add_entry, Function.update_apply]
    split <;> rfl
  have hgs : (fun t k => ((s.heap.add a).entry k).bind (·.gsource t)) = fun t k =>
      if k = s.heap.next then none else (s.heap.entry k).bind (·.gsource t) := by
    funext t k
    rw [FreshTable.add_entry]
    split
    · simp only [Option.bind_some, hg]
    · rfl
  simp only [Engine.registry, Registry.alloc, keep, hgs, hp, hr]

/-! ## The functions of the engine, seen from the registries -/

theorem registry_watchStream (ha : s.heap.entry op = some a) (stream : Stream) :
    (watchStream s op stream).registry = s.registry.watch stream op :=
  registry_setGsource (s := { s with loop := addSource s.loop (.fd stream op) }) ha _ stream

theorem registry_armRepeatTimer (ha : s.heap.entry op = some a) :
    (armRepeatTimer s op).registry = s.registry.arm op :=
  registry_setRepeatTimer (s := { s with loop := addSource s.loop (.recurringAction op) }) ha _

theorem registry_pipeDone (ha : s.heap.entry op = some a) (id : ℕ) (stream : Stream) :
    (pipeDone { s with loop := gSourceRemove s.loop id } stream op).registry =
      s.registry.unwatch id stream op :=
  registry_setGsource (s := { s with loop := gSourceRemove s.loop id }) ha none stream

theorem registry_destroyGsource (h : s.registry.Pointed op) (stream : Stream) :
    (destroyGsource s op stream).registry = s.registry.dropWatch stream op := by
  have hview : s.registry.gsource stream op = (s.heap.entry op).bind (·.gsource stream) := rfl
  unfold destroyGsource Registry.dropWatch
  rw [hview]
  cases hg : (s.heap.entry op).bind (·.gsource stream) with
  | none => rfl
  | some id =>
    have hsrc : s.loop.sources.entry id = some (.fd stream op) := h stream id hg
    obtain ⟨a, ha, -⟩ := Option.bind_eq_some_iff.mp hg
    simp only [mainloopFdDestroy, hsrc]
    exact registry_pipeDone ha id stream

theorem registry_servicesActionFree (h : s.registry.Pointed op) :
    (servicesActionFree s op).registry = s.registry.release op := by
  have first := registry_destroyGsource h .stderr
  have hmid : (destroyGsource s op .stderr).registry.Pointed op := by
    rw [first]
    exact Registry.pointed_dropWatch h .stderr
  have second := registry_destroyGsource hmid .stdout
  unfold Registry.release
  rw [← first, ← second]
  rfl

theorem registry_servicesOsActionExecute (ha : s.heap.entry op = some a) (fork : Option ℕ) :
    (servicesOsActionExecute s op fork).registry =
      s.registry.launch op a.timeout a.id fork := by
  cases fork with
  | none => exact registry_setPid (s := { s with executed := op :: s.executed }) ha (-1)
  | some pid =>
    let s₁ : Engine C W := { s with executed := op :: s.executed }
    let s₂ := s₁.setAction op fun a => { a with pid := (pid : ℤ) }
    let s₃ : Engine C W := { s₂ with loop := mainloopAddChild s₂.loop pid a.timeout a.id op }
    have h₂ : s₂.heap.entry op = some { a with pid := (pid : ℤ) } := by
      simp only [s₂, setAction_entry, s₁, ha, if_true, Option.map_some]
    have e₂ : s₂.registry = (s.registry.log op).setPid op pid := registry_setPid (s := s₁) ha pid
    have e₃ : s₃.registry = (if a.timeout ≠ 0 then s₂.registry.addSource (.childTimeout pid)
        else s₂.registry).setChild pid
          (some ⟨pid, a.id, if a.timeout ≠ 0 then s₂.registry.next else 0, false, some op⟩) := by
      have habs : (|(pid : ℤ)|) = pid := abs_of_nonneg (Int.natCast_nonneg pid)
      simp only [s₃, mainloopAddChild, habs]
      split <;> rfl
    have h₃ : s₃.heap.entry op = some { a with pid := (pid : ℤ) } := h₂
    have h₄ : ∃ b, (watchStream s₃ op .stdout).heap.entry op = some b :=
      ⟨_, by simp only [watchStream, setAction_entry, h₃, if_true, Option.map_some]; rfl⟩
    obtain ⟨b, h₄⟩ := h₄
    have run : servicesOsActionExecute s op (some pid) =
        watchStream (watchStream s₃ op .stdout) op .stderr := by
      unfold servicesOsActionExecute
      simp only [ha, s₃, s₂, s₁]
    rw [run, registry_watchStream h₄, registry_watchStream h₃, e₃, e₂]
    rfl

theorem registry_servicesActionAsync (ha : s.heap.entry op = some a) (callback : Option C)
    (fork : Option ℕ) : (servicesActionAsync s op callback fork).registry =
      s.registry.start op a.interval a.timeout a.id fork := by
  let s₁ := s.setAction op fun a => { a with callback := callback.or a.callback }
  let a₁ : SvcAction C := { a with callback := callback.or a.callback }
  have h₁ : s₁.heap.entry op = some a₁ := by
    simp only [s₁, setAction_entry, ha, if_true, Option.map_some, a₁]
  have e₁ : s₁.registry = s.registry :=
    registry_setAction s op _ (fun _ => rfl) (fun _ => rfl) (fun _ => rfl) (fun _ => rfl)
      (fun _ => rfl) fun _ => rfl
  unfold servicesActionAsync Registry.start
  dsimp only
  rw [show (s.setAction op fun a => { a with callback := callback.or a.callback }).heap.entry op =
    some a₁ from h₁, ← e₁]
  change (servicesOsActionExecute (if 0 < a.interval then
    { s₁ with recurringActions := Function.update s₁.recurringActions a.id (some op) }
    else s₁) op fork).registry = _
  split
  · exact registry_servicesOsActionExecute (a := a₁)
      (s := { s₁ with recurringActions := Function.update s₁.recurringActions a.id (some op) })
      h₁ fork
  · exact registry_servicesOsActionExecute h₁ fork

theorem registry_runCallback (run : C → ℕ → SvcAction C → W → W) (s : Engine C W) (op : ℕ) :
    (runCallback run s op).registry = s.registry := by
  unfold runCallback
  split
  · split <;> rfl
  · rfl

theorem finish_frame (a : SvcAction C) (timedOut : Bool) (signo exitcode : ℕ) :
    ∃ status rc, a.finish timedOut signo exitcode = { a with status := status, rc := rc } := by
  unfold SvcAction.finish
  split
  · split <;> exact ⟨_, _, rfl⟩
  · exact ⟨_, _, rfl⟩

theorem registry_finish (s : Engine C W) (op : ℕ) (timedOut : Bool) (signo exitcode : ℕ) :
    (s.setAction op fun a => a.finish timedOut signo exitcode).registry = s.registry := by
  apply registry_setAction
  all_goals
    intro a
    obtain ⟨status, rc, h⟩ := finish_frame a timedOut signo exitcode
    rw [h]
  rfl

theorem registry_recordResult (ha : s.heap.entry op = some a) (interval : ℤ) (timedOut : Bool)
    (signo exitcode : ℕ) : (recordResult s op interval timedOut signo exitcode).registry =
      (if interval ≠ 0 then s.registry.arm op else s.registry).setPid op 0 := by
  let s₁ := s.setAction op fun a => a.finish timedOut signo exitcode
  have e₁ : s₁.registry = s.registry := registry_finish s op timedOut signo exitcode
  have h₁ : s₁.heap.entry op = some (a.finish timedOut signo exitcode) := by
    simp only [s₁, setAction_entry, ha, if_true, Option.map_some]
  have h₂ : ∃ b, (armRepeatTimer s₁ op).heap.entry op = some b :=
    ⟨_, by simp only [armRepeatTimer, setAction_entry, h₁, if_true, Option.map_some]; rfl⟩
  obtain ⟨b, h₂⟩ := h₂
  unfold recordResult
  dsimp only
  split
  · exact (registry_setPid h₂ 0).trans (by rw [registry_armRepeatTimer h₁, e₁])
  · exact (registry_setPid h₁ 0).trans (by rw [e₁])

theorem registry_operationFinished (run : C → ℕ → SvcAction C → W → W) {p : MainloopChild ℕ}
    (hp : p.privatedata = some op) (ha : s.heap.entry op = some a)
    (h : s.registry.Pointed op) (signo exitcode : ℕ) :
    (operationFinished run s p signo exitcode).registry =
      s.registry.complete op a.interval := by
  have hres := registry_recordResult ha a.interval p.timeout signo exitcode
  have hrun := (registry_runCallback run
    (recordResult s op a.interval p.timeout signo exitcode) op).trans hres
  simp only [operationFinished, hp, ha, Registry.complete]
  split
  · rename_i hi
    rw [hrun, if_pos hi]
  · rename_i hi
    rw [if_neg hi] at hrun
    rw [registry_servicesActionFree, hrun]
    rw [hrun]
    exact h

theorem registry_disarm (h : s.registry.Inv) (p : MainloopChild ℕ) :
    Engine.registry { s with loop := disarm s.loop p } = s.registry.removeSource p.timerid := by
  unfold disarm
  split
  · rfl
  · rename_i hz
    rw [not_not.mp hz, Registry.removeSource_zero h]

theorem registry_childDeath (run : C → ℕ → SvcAction C → W → W) (h : s.registry.Inv)
    {pid : ℤ} {p : MainloopChild ℕ} (hchild : s.loop.processTable pid = some p)
    (hp : p.privatedata = some op) (ha : s.heap.entry op = some a) (status : ℕ) :
    (childDeath run s pid status).registry =
      ((s.registry.removeSource p.timerid).setChild pid none).complete op a.interval := by
  have e₁ := registry_disarm h p
  have hpt : (Engine.registry { s with loop := disarm s.loop p }).Pointed op := by
    intro stream id hid
    rw [e₁]
    exact (Registry.inv_removeSource h (Registry.childTimer_ne h hchild)).gsource op stream id hid
  have done := registry_operationFinished (s := { s with loop := disarm s.loop p }) run hp ha hpt
    (deathCodes status).1 (deathCodes status).2
  rw [Registry.complete_setChild, ← e₁, ← done]
  simp only [childDeath, hchild]
  rfl

end

/-! ## What the engine leaves alone -/

/-- A part of an action that the engine's own bookkeeping does not touch. -/
structure Steady {β : Type} (g : SvcAction C → β) : Prop where
  pid : ∀ a pid, g { a with pid := pid } = g a
  repeatTimer : ∀ a id, g { a with repeatTimer := id } = g a
  gsource : ∀ a source stream, g (a.setGsource source stream) = g a

section
variable {β : Type} {g : SvcAction C → β} {s u t : Engine C W} {op : ℕ}

def Quiet (g : SvcAction C → β) (s u : Engine C W) : Prop :=
  u.client = s.client ∧ ∀ k, (u.heap.entry k).map g = (s.heap.entry k).map g

theorem Quiet.refl (g : SvcAction C → β) (s : Engine C W) : Quiet g s s := ⟨rfl, fun _ => rfl⟩

theorem Quiet.trans (h : Quiet g s u) (h' : Quiet g u t) : Quiet g s t :=
  ⟨h'.1.trans h.1, fun k => (h'.2 k).trans (h.2 k)⟩

theorem quiet_setAction (s : Engine C W) (op : ℕ) {f : SvcAction C → SvcAction C}
    (hf : ∀ a, g (f a) = g a) : Quiet g s (s.setAction op f) :=
  ⟨rfl, setAction_map s op f _ hf⟩

theorem quiet_mainloopFdDestroy (hg : Steady g) (s : Engine C W) (id : ℕ) :
    Quiet g s (mainloopFdDestroy s id) := by
  unfold mainloopFdDestroy
  split
  · exact quiet_setAction { s with loop := gSourceRemove s.loop id } _
      fun a => hg.gsource a none _
  · exact Quiet.refl g s

theorem quiet_destroyGsource (hg : Steady g) (s : Engine C W) (op : ℕ) (stream : Stream) :
    Quiet g s (destroyGsource s op stream) := by
  unfold destroyGsource
  split
  · exact quiet_mainloopFdDestroy hg s _
  · exact Quiet.refl g s

theorem quiet_servicesActionFree (hg : Steady g) (s : Engine C W) (op : ℕ) :
    Quiet g s (servicesActionFree s op) :=
  (quiet_destroyGsource hg s op .stderr).trans (quiet_destroyGsource hg _ op .stdout)

theorem quiet_watchStream (hg : Steady g) (s : Engine C W) (op : ℕ) (stream : Stream) :
    Quiet g s (watchStream s op stream) :=
  quiet_setAction { s with loop := addSource s.loop (.fd stream op) } op
    fun a => hg.gsource a _ stream

theorem quiet_servicesOsActionExecute (hg : Steady g) (s : Engine C W) (op : ℕ)
    (fork : Option ℕ) : Quiet g s (servicesOsActionExecute s op fork) := by
  let s₁ : Engine C W := { s with executed := op :: s.executed }
  unfold servicesOsActionExecute
  dsimp only
  split
  · rename_i pid a _
    refine Quiet.trans ?_ (quiet_watchStream hg _ op .stderr)
    refine Quiet.trans ?_ (quiet_watchStream hg _ op .stdout)
    exact quiet_setAction s₁ op (f := fun a => { a with pid := (pid : ℤ) }) fun a => hg.pid a pid
  · exact quiet_setAction s₁ op fun a => hg.pid a (-1)

theorem quiet_servicesActionCancel (hg : Steady g) (s : Engine C W) (name action : Text)
    (interval : ℤ) : Quiet g s (servicesActionCancel s name action interval).1 := by
  unfold servicesActionCancel
  split
  · exact Quiet.refl g s
  · dsimp only
    split <;> exact quiet_servicesActionFree hg _ _

/-- Starting an action sets its callback and leaves everything else. -/
theorem quiet_servicesActionAsync (hg : Steady g) (s : Engine C W) (op : ℕ)
    (callback : Option C) (fork : Option ℕ) :
    Quiet g (s.setAction op fun a => { a with callback := callback.or a.callback })
      (servicesActionAsync s op callback fork) := by
  unfold servicesActionAsync
  dsimp only
  split
  · split <;> exact quiet_servicesOsActionExecute hg _ op fork
  · exact quiet_servicesOsActionExecute hg _ op fork

theorem quiet_recurringActionTimer (hg : Steady g) (s : Engine C W) (source op : ℕ)
    (fork : Option ℕ) : Quiet g s (recurringActionTimer s source op fork) :=
  (quiet_setAction s op fun _ => congrArg g (by rw [Option.none_or])).trans
    (quiet_servicesActionAsync hg s op none fork)

theorem quiet_recordResult (hg : Steady g) (s : Engine C W) (op : ℕ) (interval : ℤ)
    (timedOut : Bool) (signo exitcode : ℕ) :
    Quiet g (s.setAction op fun a => a.finish timedOut signo exitcode)
      (recordResult s op interval timedOut signo exitcode) := by
  have harm : ∀ t : Engine C W, Quiet g t (armRepeatTimer t op) := fun t =>
    quiet_setAction { t with loop := addSource t.loop (.recurringAction op) } op
      fun a => hg.repeatTimer a _
  unfold recordResult
  dsimp only
  split
  · exact (harm _).trans (quiet_setAction _ op fun a => hg.pid a 0)
  · exact quiet_setAction _ op fun a => hg.pid a 0

/-- A completion records its verdict in the action and changes nothing else there. -/
theorem operationFinished_map (hg : Steady g) (run : C → ℕ → SvcAction C → W → W)
    {p : MainloopChild ℕ} {a : SvcAction C} (hp : p.privatedata = some op)
    (ha : s.heap.entry op = some a) (signo exitcode k : ℕ) :
    ((operationFinished run s p signo exitcode).heap.entry k).map g =
      ((s.setAction op fun a => a.finish p.timeout signo exitcode).heap.entry k).map g := by
  have hrec := quiet_recordResult hg s op a.interval p.timeout signo exitcode
  have hrun : ∀ t : Engine C W, (runCallback run t op).heap = t.heap := by
    intro t
    unfold runCallback
    split
    · split <;> rfl
    · rfl
  simp only [operationFinished, hp, ha]
  split
  · rw [hrun]
    exact hrec.2 k
  · rw [(quiet_servicesActionFree hg _ op).2, hrun]
    exact hrec.2 k

theorem childDeath_map (hg : Steady g) (run : C → ℕ → SvcAction C → W → W) {pid : ℤ}
    {p : MainloopChild ℕ} {a : SvcAction C} (hchild : s.loop.processTable pid = some p)
    (hp : p.privatedata = some op) (ha : s.heap.entry op = some a) (status k : ℕ) :
    ((childDeath run s pid status).heap.entry k).map g =
      ((s.setAction op fun a => a.finish p.timeout (deathCodes status).1
        (deathCodes status).2).heap.entry k).map g := by
  simp only [childDeath, hchild]
  exact operationFinished_map (s := { s with loop := disarm s.loop p }) hg run hp ha _ _ k

end

end Matahari.Services
