import Matahari.ServicesLifetime

set_option autoImplicit false

/-!
# Finding and cancelling recurring actions

`services_action_cancel` looks an action up by the text made from its name, its
action and its interval. An action can be cancelled as long as the table still
holds it under that text, and it is executed again only from its repeat timer.
-/
namespace Matahari.Services
open Mainloop TransitionRuns

variable {C W : Type}

namespace Registry

/-- Every live recurring action is what a cancel with its own triple finds. -/
def Findable (v : Registry) : Prop :=
  ∀ op i name action, v.interval op = some i → i ≠ 0 → v.name op = some (name, action) →
    v.Live op → v.recurring (cancelId name action i) = some op

def Spent (v : Registry) (op : ℕ) : Prop :=
  v.interval op ≠ none ∧ ¬ v.Waiting op ∧ (v.Running op → v.interval op = some 0)

section
variable {v u : Registry} {e : Event C} {op k : ℕ}

theorem spent_step (hs : Step v e u) (hd : v.Spent k) :
    u.Spent k ∧ u.executed.count k = v.executed.count k := by
  obtain ⟨hold, hwait, hrun⟩ := hd
  have hint := (step_records hs hold).1
  refine ⟨⟨hint ▸ hold, ?_, ?_⟩, ?_⟩
  · intro hw
    obtain hw | ⟨hr, hne⟩ := step_waiting hs hw
    · exact hwait hw
    · exact hne (hrun hr)
  · intro hr
    obtain (hr | hw) | hnew := step_running hs hr
    · rw [hint, hrun hr]
    · exact absurd hw hwait
    · exact absurd hnew hold
  · obtain he | ⟨j, he, hj⟩ := step_executed hs
    · rw [he]
    · have hne : j ≠ k := by
        rintro rfl
        exact hj.elim hold hwait
      rw [he, List.count_cons_of_ne hne]

/-- A live recurring action that a cancel finds is stored under its full id. -/
theorem findable_id (h : Inv v) (hf : v.Findable) {i : ℤ} (hi : v.interval op = some i)
    (hne : i ≠ 0) (hl : v.Live op) {id : Text} (hid : v.id op = some id) :
    0 < i ∧ v.recurring id = some op ∧
      ∀ name action, v.name op = some (name, action) → cancelId name action i = id := by
  obtain ⟨name, action, hname, -⟩ := h.ident op i hi
  have hrec := hf op i name action hi hne hname hl
  obtain ⟨hid', j, hj, hpos⟩ := h.recurring _ op hrec
  obtain rfl : i = j := by simpa [hi] using hj
  obtain rfl : id = cancelId name action i := by simpa [hid] using hid'
  refine ⟨hpos, hrec, ?_⟩
  intro name' action' hname'
  obtain ⟨rfl, rfl⟩ : name = name' ∧ action = action' := by simpa [hname] using hname'
  rfl

theorem Findable.keep (hf : v.Findable) (hi : u.interval = v.interval) (hn : u.name = v.name)
    (hr : u.recurring = v.recurring) (hl : ∀ k, u.Live k → v.Live k ∨ v.interval k = none) :
    u.Findable := by
  intro k i name action hk hne hname hlive
  rw [hi] at hk
  rw [hn] at hname
  rw [hr]
  obtain hlive | hnew := hl k hlive
  · exact hf k i name action hk hne hname hlive
  · simp [hnew] at hk

/-- What a submission must respect for its action to be found, and not to hide
another one. -/
def Admits (v : Registry) (r : ActionRequest) (fork : Option ℕ) : Prop :=
  r.interval ≠ 0 →
    (fork.isSome → 0 < r.interval ∧ (actionId r.name r.action r.interval).length < 512) ∧
    (0 < r.interval → ∀ k i, v.interval k = some i → i ≠ 0 → v.Live k →
      v.id k ≠ some (actionId r.name r.action r.interval))

theorem findable_create (h : Inv v) (hf : v.Findable) {r : ActionRequest} {fork : Option ℕ}
    (hop : v.interval op = none) (ha : v.Admits r fork) : (v.create op r fork).Findable := by
  obtain ⟨-, hint, -, -, hnames⟩ := start_frame (v.alloc op r.interval
    (actionId r.name r.action r.interval) (r.name, r.action)) op r.interval r.timeout
    (actionId r.name r.action r.interval) fork
  intro k i name action hk hne hname hl
  unfold create at hk hname hl ⊢
  rw [hint] at hk
  rw [hnames] at hname
  rw [start_recurring]
  simp only [alloc, Function.update_apply] at hk hname
  by_cases hkop : k = op
  · -- the new action itself
    simp only [hkop, if_true, Option.some.injEq, Prod.mk.injEq] at hk hname
    obtain ⟨rfl, rfl⟩ := hname
    subst hk hkop
    have hfork : fork.isSome := by
      obtain hr | hw := hl
      · obtain ⟨-, hfork⟩ | hr := running_start hr
        · exact hfork
        · exact absurd rfl (alloc_running h hop k hr)
      · obtain ⟨j, hj⟩ := waiting_start hw
        obtain ⟨-, -, i, hi, -⟩ := h.waiting j k hj
        simp [hop] at hi
    obtain ⟨hpos, hshort⟩ := (ha hne).1 hfork
    rw [if_pos hpos, cancelId_of_short hshort, Function.update_self]
  · -- an older one, which has another id
    simp only [hkop, if_false] at hk hname
    have hlive : v.Live k := by
      obtain hr | hw := hl
      · obtain ⟨he, -⟩ | hr := running_start hr
        · exact absurd he hkop
        · exact .inl hr
      · exact .inr (waiting_start (v := v.alloc _ _ _ _) hw)
    have hrec := hf k i name action hk hne hname hlive
    have hid := (h.recurring _ k hrec).1
    change (if 0 < r.interval then Function.update v.recurring _ (some op) else v.recurring) _ = _
    split
    · rename_i hpos
      rw [Function.update_of_ne, hrec]
      intro he
      exact (ha hpos.ne').2 hpos k i hk hne hlive (he ▸ hid)
    · exact hrec

theorem findable_restart (h : Inv v) (hf : v.Findable) {source : ℕ} {i timeout : ℤ} {id : Text}
    {fork : Option ℕ} (hs : v.source source = some (.recurringAction op))
    (hi : v.interval op = some i) (hid : v.id op = some id)
    (hl : ∀ k, ((v.removeSource source).start op i timeout id fork).Live k →
      v.Live k ∨ v.interval k = none) :
    ((v.removeSource source).start op i timeout id fork).Findable := by
  obtain ⟨-, -, j, hj, hne⟩ := h.waiting source op hs
  obtain rfl : i = j := by simpa [hi] using hj
  obtain ⟨-, hrec, -⟩ := findable_id h hf hi hne (.inr ⟨source, hs⟩) hid
  obtain ⟨-, hint, -, -, hnames⟩ := start_frame (v.removeSource source) op i timeout id fork
  refine hf.keep hint hnames ?_ hl
  rw [start_recurring]
  split
  · exact Function.update_eq_self_iff.mpr hrec.symm
  · rfl

theorem findable_step (h : Inv v) (hf : v.Findable) (hs : Step v e u)
    (ha : ∀ r callback fork, e = .submit r callback fork → r.valid = true → v.Admits r fork) :
    u.Findable := by
  have hl := fun k => step_live (k := k) hs
  cases hs with
  | rejected => exact hf
  | submit hv hop _ => exact findable_create h hf hop (ha _ _ _ rfl hv)
  | childExit _ _ _ =>
    obtain ⟨-, hi, hn, hr, -⟩ := complete_frame ((v.removeSource _).setChild _ none) _ _
    exact hf.keep hi hn hr hl
  | childTimeout _ =>
    obtain ⟨-, hi, hr, -, -, hn⟩ := expire_frame v _ _
    exact hf.keep hi hn hr hl
  | repeatTimer hsrc hi hid _ => exact findable_restart h hf hsrc hi hid hl
  | fdDone _ => exact hf.keep rfl rfl rfl hl
  | miss _ => exact hf
  | cancel _ _ =>
    exact hf.keep (release_interval _ _) (release_keeps name (fun _ _ _ => rfl) (fun _ => rfl) _)
      (release_keeps recurring (fun _ _ _ => rfl) (fun _ => rfl) _) hl

/-- After a cancel that found an action without a child, no action with the same
triple will run again. -/
theorem spent_cancel (h : Inv v) (hf : v.Findable) {name action : Text} {i : ℤ} {timer : ℕ}
    (hr : v.recurring (cancelId name action i) = some op) (ht : v.repeatTimer op = some timer)
    (hrun : ¬ v.Running op) (hi : v.interval k = some i) (hn : v.name k = some (name, action)) :
    (v.cancel op timer).Spent k := by
  have hint : (v.cancel op timer).interval k = some i := by
    rw [cancel, release_interval]
    exact hi
  have found : i ≠ 0 → v.Live k → k = op := fun hne hl =>
    Option.some.inj ((hf k i name action hi hne hn hl).symm.trans hr)
  refine ⟨by simp [hint], ?_, ?_⟩
  · intro hw
    obtain ⟨j, -, hj⟩ := waiting_removeSource ⟨_, release_source hw.choose_spec⟩
    obtain ⟨-, -, i', hi', hz⟩ := h.waiting j k hj
    obtain rfl : i = i' := by simpa [hi] using hi'
    obtain rfl := found hz (.inr ⟨j, hj⟩)
    exact not_waiting_cancel h ht hw
  · intro hk
    have hold := running_cancel hk
    rw [hint]
    by_contra hz
    have hz : i ≠ 0 := fun he => hz (by rw [he])
    obtain rfl := found hz (.inl hold)
    exact hrun hold

end

end Registry

/-! ## Whole runs -/

/-- Every action with a nonzero interval that runs or waits is the one that
`services_action_cancel` finds under its own name, action and interval. -/
def Findable (s : Engine C W) : Prop :=
  ∀ op a, s.heap.entry op = some a → a.interval ≠ 0 →
    s.registry.Running op ∨ s.registry.Waiting op →
    s.recurringActions (cancelId a.rsc a.action a.interval) = some op

/-- Wherever a cancel in the run returns `TRUE`, the actions with that triple
submitted before are not executed any more. -/
def CancelStops (run : C → ℕ → SvcAction C → W → W) (client : W) (es : List (Event C)) : Prop :=
  ∀ before name action interval after rest s u w,
    es = before ++ .cancel name action interval :: (after ++ rest) →
    exec (step run) (Engine.init client) before = some s →
    servicesActionCancel s name action interval = (u, true) →
    exec (step run) u after = some w →
    ∀ op a, s.heap.entry op = some a → a.rsc = name → a.action = action → a.interval = interval →
      w.executed.count op = u.executed.count op

def hasChild (s : Engine C W) (op : ℕ) : Bool :=
  (s.heap.entry op).any fun a =>
    (s.loop.processTable a.pid).any fun p => p.privatedata == some op

def timerPending (s : Engine C W) (op : ℕ) : Bool :=
  (s.heap.entry op).any fun a => s.loop.sources.entry a.repeatTimer == some (.recurringAction op)

def taken (s : Engine C W) (id : Text) : Bool :=
  (List.range s.heap.next).any fun op => (s.heap.entry op).any fun a =>
    a.interval ≠ 0 && a.id == id && (hasChild s op || timerPending s op)

/-- The action has a watch that its fields do not hold, which is from an earlier
execution of it. -/
def olderWatch (s : Engine C W) (op : ℕ) : Bool :=
  (List.range s.loop.sources.next).any fun id =>
    match s.loop.sources.entry id with
    | some (.fd stream k) => k == op && (s.heap.entry op).bind (·.gsource stream) != some id
    | _ => false

def lookedUp (s : Engine C W) : Event C → Option Text
  | .submit r _ _ =>
    if r.valid = true ∧ 0 < r.interval then some (actionId r.name r.action r.interval) else none
  | .repeatTimer source _ => match s.loop.sources.entry source with
    | some (.recurringAction op) =>
      (s.heap.entry op).bind fun a => if 0 < a.interval then some a.id else none
    | _ => none
  | .cancel name action interval => some (cancelId name action interval)
  | _ => none

/-- A key is compared with those of the same hash, and the table has one of an
action that was freed among these. -/
def comparesFreed (hash : Text → ℕ) (s : Engine C W) (key : Text) : Bool :=
  (List.range s.heap.next).any fun op => (s.heap.entry op).any fun a =>
    s.recurringActions a.id == some op && hash a.id == hash key && s.freed op != 0

/-- A submission of a recurring action has a positive interval and an id that
fits the buffer of `services_action_cancel` and that no live recurring action
has; a cancel that finds an action finds one that has no child and no older
watch. -/
def Allowed (s : Engine C W) : Event C → Prop
  | .submit r _ fork => r.valid = true → r.interval ≠ 0 →
    (fork.isSome → 0 < r.interval ∧ (actionId r.name r.action r.interval).length < 512) ∧
    (0 < r.interval → taken s (actionId r.name r.action r.interval) = false)
  | .cancel name action interval =>
    ∀ op ∈ s.recurringActions (cancelId name action interval),
      hasChild s op = false ∧ olderWatch s op = false
  | _ => True

instance decidableAllowed (s : Engine C W) : ∀ e, Decidable (Allowed s e)
  | .submit _ _ _ => inferInstanceAs (Decidable (_ → _ → _ ∧ _))
  | .cancel name action interval =>
    inferInstanceAs (Decidable (∀ op ∈ s.recurringActions (cancelId name action interval), _ ∧ _))
  | .childExit _ _ | .childTimeout _ _ | .repeatTimer _ _ | .fdDone _ =>
    inferInstanceAs (Decidable True)

def Orderly (hash : Text → ℕ) (s : Engine C W) (e : Event C) : Prop :=
  Allowed s e ∧ ∀ key ∈ lookedUp s e, comparesFreed hash s key = false

instance decidableOrderly (hash : Text → ℕ) (s : Engine C W) (e : Event C) :
    Decidable (Orderly hash s e) :=
  inferInstanceAs (Decidable (_ ∧ _))

section
variable {s u : Engine C W} {e : Event C} {op : ℕ}

theorem running_of_hasChild (hc : hasChild s op = true) : s.registry.Running op := by
  simp only [hasChild, Option.any_eq_true] at hc
  obtain ⟨a, -, p, hp, hop⟩ := hc
  exact ⟨a.pid, p, hp, by simpa using hop⟩

theorem hasChild_iff (h : s.registry.Inv) : hasChild s op = true ↔ s.registry.Running op := by
  refine ⟨running_of_hasChild, ?_⟩
  rintro ⟨pid, p, hp, hop⟩
  obtain ⟨-, o, ho, hpid⟩ := h.child pid p hp
  obtain rfl : o = op := by simpa [ho] using hop
  obtain ⟨a, ha, rfl⟩ := Option.map_eq_some_iff.mp hpid
  simp only [hasChild, Option.any_eq_true]
  exact ⟨a, ha, p, hp, by simpa using hop⟩

theorem timerPending_of_waiting (h : s.registry.Inv) (hw : s.registry.Waiting op) :
    timerPending s op = true := by
  obtain ⟨id, hid⟩ := hw
  obtain ⟨-, ht, -⟩ := h.waiting id op hid
  obtain ⟨a, ha, rfl⟩ := Option.map_eq_some_iff.mp ht
  have hid : s.loop.sources.entry a.repeatTimer = some (.recurringAction op) := hid
  simp [timerPending, ha, hid]

theorem taken_of_live (h : s.registry.Inv) {i : ℤ} (hi : s.registry.interval op = some i)
    (hne : i ≠ 0) (hl : s.registry.Live op) {id : Text} (hid : s.registry.id op = some id) :
    taken s id = true := by
  obtain ⟨a, ha, rfl⟩ := entry_of_interval hi
  have hid : a.id = id := by simpa [Engine.registry, ha] using hid
  have hlive : hasChild s op = true ∨ timerPending s op = true :=
    hl.imp (hasChild_iff h).mpr (timerPending_of_waiting h)
  simp only [taken, List.any_eq_true, List.mem_range, Option.any_eq_true]
  exact ⟨op, FreshTable.lt_next ha, a, ha, by simp [hne, hid, hlive]⟩

theorem findable_of_registry (h : s.registry.Findable) : Findable s := fun op a ha hne hl =>
  h op a.interval a.rsc a.action (congrArg (Option.map _) ha) hne (congrArg (Option.map _) ha) hl

theorem tidy_of_olderWatch (h : s.registry.Inv) (hw : olderWatch s op = false) :
    s.registry.Tidy op := by
  intro id stream hid
  have hlt := h.fresh id _ hid
  have hnone := List.any_eq_false.mp hw id (List.mem_range.mpr hlt)
  have hid : s.loop.sources.entry id = some (.fd stream op) := hid
  rw [hid] at hnone
  change (s.heap.entry op).bind (·.gsource stream) = some id
  simpa using hnone

structure Ordered (s : Engine C W) : Prop where
  inv : s.registry.Inv
  findable : s.registry.Findable
  clear : s.registry.Clear

theorem ordered_init (client : W) : Ordered (Engine.init client : Engine C W) := by
  refine ⟨inv_init client, fun op i name action hi => ?_, fun _ _ => rfl⟩
  cases hi

theorem ordered_step (run : C → ℕ → SvcAction C → W → W) (h : Ordered s) (hok : Allowed s e)
    (hs : step run s e = some u) : Ordered u := by
  have hstep := registry_step run h.inv hs
  refine ⟨inv_engineStep run h.inv hs, Registry.findable_step h.inv h.findable hstep ?_,
    Registry.clear_step h.inv h.clear hstep ?_⟩
  · rintro r callback fork rfl hv hne
    obtain ⟨hfits, hfree⟩ := hok hv hne
    refine ⟨hfits, fun hpos k i hi hz hl hid => ?_⟩
    rw [taken_of_live h.inv hi hz hl hid] at hfree
    cases hfree hpos
  · rintro name action interval op rfl hr
    obtain ⟨hchild, hwatch⟩ := hok op hr
    refine ⟨?_, tidy_of_olderWatch h.inv hwatch⟩
    rw [← hasChild_iff h.inv, hchild]
    exact Bool.false_ne_true

/-- A cancel that returns `TRUE` leaves the actions of its triple spent. -/
theorem spent_servicesActionCancel (h : Ordered s) {name action : Text} {interval : ℤ}
    (hok : Allowed s (.cancel name action interval : Event C))
    (hu : servicesActionCancel s name action interval = (u, true)) {a : SvcAction C}
    (ha : s.heap.entry op = some a) (hname : a.rsc = name) (haction : a.action = action)
    (hinterval : a.interval = interval) : u.registry.Spent op := by
  cases hr : s.recurringActions (cancelId name action interval) with
  | none => simp [servicesActionCancel, hr] at hu
  | some found =>
    obtain ⟨-, i, hi, -⟩ := h.inv.recurring _ found hr
    obtain ⟨b, hb, -⟩ := entry_of_interval hi
    have hrun : ¬ s.registry.Running found := by
      rw [← hasChild_iff h.inv, (hok found hr).1]
      exact Bool.false_ne_true
    have he := registry_servicesActionCancel h.inv hr hb
    rw [hu] at he
    change u.registry = _ at he
    rw [he]
    refine Registry.spent_cancel h.inv h.findable hr (congrArg (Option.map _) hb) hrun ?_ ?_
    · exact (congrArg (Option.map _) ha).trans (congrArg some hinterval)
    · exact (congrArg (Option.map _) ha).trans (by simp [hname, haction])

theorem spent_run (run : C → ℕ → SvcAction C → W → W) {es : List (Event C)}
    (h : s.registry.Inv) (hd : s.registry.Spent op) (hu : exec (step run) s es = some u) :
    u.executed.count op = s.executed.count op := by
  have hall : u.registry.Inv ∧ u.registry.Spent op ∧
      u.executed.count op = s.executed.count op := by
    refine exec_preserved (P := fun w => w.registry.Inv ∧ w.registry.Spent op ∧
      w.executed.count op = s.executed.count op) ?_ ⟨h, hd, rfl⟩ hu
    rintro s' e u' ⟨h', hd', hc⟩ hs
    obtain ⟨hd'', hc'⟩ := Registry.spent_step (registry_step run h' hs) hd'
    exact ⟨inv_engineStep run h' hs, hd'', hc'.trans hc⟩
  exact hall.2.2

end

/-- Children, timers and watches are for actions that have not been freed. -/
def Undangling (s : Engine C W) : Prop :=
  ∀ op, s.registry.Running op ∨ s.registry.Waiting op ∨ s.registry.Watched op → s.freed op = 0

/-- In an orderly run every live recurring action can be cancelled, a cancel that
succeeds is final, and nothing in use refers to a freed action. -/
theorem orderly_cancel (hash : Text → ℕ) (run : C → ℕ → SvcAction C → W → W) (client : W)
    (es : List (Event C)) (h : Throughout (step run) (Orderly hash) (Engine.init client) es) :
    Always (step run) Findable (Engine.init client) es ∧ CancelStops run client es ∧
      Always (step run) Undangling (Engine.init client) es := by
  have hall : ∀ {es : List (Event C)},
      Throughout (step run) (Orderly hash) (Engine.init client) es →
        Always (step run) Ordered (Engine.init client) es := fun h =>
    always_of_preserved (fun _ _ _ hs hok => ordered_step run hs hok.1) (ordered_init client) h
  refine ⟨(hall h).imp fun _ hs => findable_of_registry hs.findable, ?_,
    (hall h).imp fun _ hs op hop => hs.clear op (or_assoc.mpr hop)⟩
  rintro before name action interval after rest s u w rfl hs hu hw op a ha hname haction hinterval
  have hord : Ordered s := (hall h.take).final hs
  have hcancel : step run s (.cancel name action interval) = some u := by
    rw [step, hu]
  have hok := (h.drop hs u hcancel).1
  exact spent_run run (inv_engineStep run hord.inv hcancel)
    (spent_servicesActionCancel hord hok.1 hu ha hname haction hinterval) hw

def gStrHash (key : Text) : ℕ := key.foldl (fun h c => (33 * h + c.toNat) % 2 ^ 32) 5381

def statusRequest : ActionRequest :=
  ⟨"httpd".toList, "lsb".toList, none, "httpd".toList, "status".toList, 1000, 30000, []⟩

theorem orderly_cancel_status :
    let es : List (Event Unit) := [.submit statusRequest none (some 7), .childExit 7 0,
      .fdDone 2, .fdDone 3, .repeatTimer 4 (some 8), .childExit 8 0,
      .cancel "httpd".toList "status".toList 1000]
    let run : Unit → ℕ → SvcAction Unit → Unit → Unit := fun _ _ _ w => w
    (exec (step run) (Engine.init ()) es).isSome = true ∧
      Throughout (step run) (Orderly gStrHash) (Engine.init ()) es ∧
      Always (step run) Findable (Engine.init ()) es ∧ CancelStops run () es ∧
      Always (step run) Undangling (Engine.init ()) es := by
  intro es run
  have h : Throughout (step run) (Orderly gStrHash) (Engine.init ()) es := by decide
  exact ⟨by decide, h, orderly_cancel gStrHash run () es h⟩

/-- The same triple submitted twice: the first action is hidden by the second,
and is executed once more after the cancel. -/
theorem duplicate_not_findable :
    let es : List (Event Unit) := [.submit statusRequest none (some 7),
      .submit statusRequest none (some 8), .childExit 7 0, .childExit 8 0,
      .cancel "httpd".toList "status".toList 1000, .repeatTimer 7 (some 9)]
    let run : Unit → ℕ → SvcAction Unit → Unit → Unit := fun _ _ _ w => w
    ¬ Always (step run) Findable (Engine.init ()) es ∧ ¬ CancelStops run () es := by
  intro es run
  constructor
  · intro h
    have hmid := (Always.take (es.take 2) (es.drop 2) h).final (Option.some_get (by decide)).symm
    have hfound := hmid 1 _ (Option.some_get (by decide)).symm (by decide)
      (.inl (running_of_hasChild (by decide)))
    exact absurd hfound (by decide)
  · intro h
    have hstop := h (es.take 4) "httpd".toList "status".toList 1000 (es.drop 5) [] _ _ _ rfl
      (Option.some_get (by decide)).symm (Prod.ext rfl (by decide))
      (Option.some_get (by decide)).symm 1 _ (Option.some_get (by decide)).symm
      (by decide) (by decide) (by decide)
    exact absurd hstop (by decide)

end Matahari.Services
