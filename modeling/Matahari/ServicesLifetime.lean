import Matahari.ServicesSteps

set_option autoImplicit false

/-!
# Lifetime of actions

Which actions the registries still refer to, and whether they were freed. The
comment at the end of `operation_finished` says when a recurring action goes:
"it will get freed whenever the action gets cancelled".
-/
namespace Matahari.Services
open Mainloop TransitionRuns

variable {C W : Type}

namespace Registry

def Referenced (v : Registry) (op : ℕ) : Prop :=
  (∃ id, v.recurring id = some op) ∨ v.Running op ∨ v.Waiting op ∨ v.Watched op

def Kept (v : Registry) : Prop := ∀ op i, v.interval op = some i → i ≠ 0 → v.freed op = 0

section
variable {v u : Registry} {e : Event C}

theorem referenced_interval (h : Inv v) {op : ℕ} (hr : v.Referenced op) :
    ∃ i, v.interval op = some i ∧ (i = 0 → v.Running op ∨ v.Watched op) := by
  obtain ⟨id, hid⟩ | hrun | ⟨id, hid⟩ | ⟨id, stream, hid⟩ := hr
  · obtain ⟨-, i, hi, hpos⟩ := h.recurring id op hid
    exact ⟨i, hi, fun hz => by omega⟩
  · obtain ⟨i, hi⟩ := running_interval h hrun
    exact ⟨i, hi, fun _ => .inl hrun⟩
  · obtain ⟨-, -, i, hi, hne⟩ := h.waiting id op hid
    exact ⟨i, hi, fun hz => absurd hz hne⟩
  · obtain ⟨i, hi, -⟩ := h.watch id stream op hid
    exact ⟨i, hi, fun _ => .inr ⟨id, stream, hid⟩⟩

theorem referenced_unfreed (h : Inv v) (hk : Kept v) {op : ℕ} (hr : v.Referenced op) :
    v.freed op = 0 := by
  obtain ⟨i, hi, hzero⟩ := referenced_interval h hr
  by_cases hz : i = 0
  · subst hz
    by_contra hfreed
    obtain ⟨hrun, hwatch⟩ := (h.oneShot op hi).2 hfreed
    exact (hzero rfl).elim hrun hwatch
  · exact hk op i hi hz

theorem freed_le_one (h : Inv v) (hk : Kept v) (op : ℕ) : v.freed op ≤ 1 := by
  cases hi : v.interval op with
  | none => simp [(h.unused op hi).1]
  | some i =>
    by_cases hz : i = 0
    · subst hz
      exact (h.oneShot op hi).1
    · simp [hk op i hi hz]

/-- A recurring action is freed by a cancel only. -/
theorem step_freed (hs : Step v e u) {k : ℕ} (hk : v.interval k ≠ some 0) :
    u.freed k = v.freed k ∨ ∃ name action interval timer, e = .cancel name action interval ∧
      v.recurring (cancelId name action interval) = some k ∧ v.repeatTimer k = some timer ∧
      u = v.cancel k timer := by
  cases hs with
  | rejected => exact .inl rfl
  | submit _ _ _ => exact .inl (congrFun (start_frame (v.alloc _ _ _ _) _ _ _ _ _).1 k)
  | @childExit _ _ op _ i _ _ hi =>
    refine .inl ?_
    unfold reap complete
    split
    · rfl
    · rename_i hz
      have hne : k ≠ op := by
        rintro rfl
        exact hk (hi.trans (congrArg some (not_not.mp hz)))
      rw [release_freed, Function.update_of_ne hne]
      rfl
  | childTimeout _ => exact .inl (congrFun (expire_frame v _ _).1 k)
  | repeatTimer _ _ _ _ => exact .inl (congrFun (start_frame (v.removeSource _) _ _ _ _ _).1 k)
  | fdDone _ => exact .inl rfl
  | miss _ => exact .inl rfl
  | @cancel name action interval op timer hr ht =>
    by_cases hop : k = op
    · subst hop
      exact .inr ⟨name, action, interval, timer, rfl, hr, ht, rfl⟩
    · refine .inl ?_
      rw [cancel, release_freed, Function.update_of_ne hop]
      rfl

/-- Every step but a cancel that finds an entry. -/
theorem kept_step (h : Inv v) (hk : Kept v) (hs : Step v e u)
    (hmiss : ∀ name action interval, e = .cancel name action interval →
      v.recurring (cancelId name action interval) = none) : Kept u := by
  intro k i hi hne
  have hold : v.interval k = none ∨ v.interval k = some i := by
    by_cases hnew : v.interval k = none
    · exact .inl hnew
    · exact .inr ((step_records hs hnew).1.symm.trans hi)
  have hnz : v.interval k ≠ some 0 := by
    obtain hnew | hold := hold
    · simp [hnew]
    · simpa [hold] using hne
  obtain he | ⟨name, action, interval, timer, he, hr, -⟩ := step_freed hs hnz
  · rw [he]
    obtain hnew | hold := hold
    · exact (h.unused k hnew).1
    · exact hk k i hold hne
  · rw [hmiss name action interval he] at hr
    cases hr

def Fit (v : Registry) : Prop := ∀ op, v.Live op → v.freed op = 0

/-- Every step keeps this but a cancel of an action with a child. -/
theorem fit_step (h : Inv v) (hf : Fit v) (hs : Step v e u)
    (hok : ∀ name action interval op, e = .cancel name action interval →
      v.recurring (cancelId name action interval) = some op → ¬ v.Running op) : Fit u := by
  intro k hl
  by_contra hfreed
  have hu := inv_step h hs
  have hnz : u.interval k ≠ some 0 := by
    intro hz
    obtain hr | ⟨j, hj⟩ := hl
    · exact ((hu.oneShot k hz).2 hfreed).1 hr
    · obtain ⟨-, -, i, hi, hne⟩ := hu.waiting j k hj
      exact hne (by simpa [hz] using hi.symm)
  have hold : v.interval k ≠ some 0 := by
    intro hz
    exact hnz ((step_records hs (by simp [hz])).1.trans hz)
  obtain he | ⟨name, action, interval, timer, he, hr, ht, rfl⟩ := step_freed hs hold
  · rw [he] at hfreed
    obtain hl | hnew := step_live hs hl
    · exact hfreed (hf k hl)
    · exact hfreed (h.unused k hnew).1
  · obtain hrun | hw := hl
    · exact hok name action interval k he hr (running_cancel hrun)
    · exact not_waiting_cancel h ht hw

/-- Nothing but the table refers to a freed action. -/
def Clear (v : Registry) : Prop := ∀ op, v.Live op ∨ v.Watched op → v.freed op = 0

/-- The watches of an action are those it points to. -/
def Tidy (v : Registry) (op : ℕ) : Prop :=
  ∀ id stream, v.source id = some (.fd stream op) → v.gsource stream op = some id

theorem watched_start {op k : ℕ} {interval timeout : ℤ} {id : Text} {fork : Option ℕ}
    (hw : (v.start op interval timeout id fork).Watched k) :
    v.Watched k ∨ (v.start op interval timeout id fork).Running k := by
  by_cases hk : k = op ∧ fork.isSome
  · obtain ⟨rfl, hfork⟩ := hk
    obtain ⟨pid, rfl⟩ := Option.isSome_iff_exists.mp hfork
    exact .inr (start_running v k interval timeout id pid)
  · left
    obtain ⟨j, stream, hj⟩ := hw
    refine ⟨j, stream, ?_⟩
    unfold start at hj
    cases fork with
    | none => split at hj <;> exact hj
    | some qid =>
      have hne : k ≠ op := fun he => hk ⟨he, rfl⟩
      split at hj <;>
      · simp only [launch, spawn] at hj
        split at hj <;>
        · simp only [watch, setGsource, addSource, setChild, setPid, register, log,
            Function.update_apply] at hj
          grind

theorem watched_removeSource {id k : ℕ} (hw : (v.removeSource id).Watched k) : v.Watched k := by
  obtain ⟨j, stream, hj⟩ := hw
  exact ⟨j, stream, (of_removeSource hj).2⟩

theorem watched_complete {op k : ℕ} {i : ℤ} (hw : (v.complete op i).Watched k) : v.Watched k := by
  obtain ⟨j, stream, hj⟩ := hw
  refine ⟨j, stream, ?_⟩
  unfold complete at hj
  split at hj
  · have hj : (v.addSource (.recurringAction op)).source j = some (.fd stream k) := hj
    rcases of_addSource hj with ⟨-, heq⟩ | hold
    · cases heq
    · exact hold
  · exact release_source (v := v.setPid op 0) hj

theorem watched_expire {pid : ℤ} {kill : KillResult} {k : ℕ} (hw : (v.expire pid kill).Watched k) :
    v.Watched k := by
  obtain ⟨j, stream, hj⟩ := hw
  refine ⟨j, stream, ?_⟩
  unfold expire at hj
  split at hj
  · exact hj
  · split at hj
    · exact hj
    · split at hj
      · exact hj
      · have hj : (v.addSource (.childTimeout pid)).source j = some (.fd stream k) := hj
        rcases of_addSource hj with ⟨-, heq⟩ | hold
        · cases heq
        · exact hold

theorem step_watched (hs : Step v e u) {k : ℕ} (hw : u.Watched k) : v.Watched k ∨ u.Running k := by
  cases hs with
  | rejected => exact .inl hw
  | submit _ _ _ => exact watched_start (v := v.alloc _ _ _ _) hw
  | childExit _ _ _ =>
    have hold := watched_complete (v := (v.removeSource _).setChild _ none) hw
    exact .inl (watched_removeSource hold)
  | childTimeout _ => exact .inl (watched_expire (watched_removeSource hw))
  | repeatTimer _ _ _ _ =>
    rcases watched_start hw with hw | hr
    · exact .inl (watched_removeSource hw)
    · exact .inr hr
  | fdDone _ => exact .inl (watched_removeSource hw)
  | miss _ => exact .inl hw
  | cancel _ _ =>
    obtain ⟨j, stream, hj⟩ := hw
    exact .inl (watched_removeSource ⟨j, stream, release_source hj⟩)

theorem dropWatch_tidy {stream t : Stream} {op id : ℕ} (h : v.Tidy op)
    (hid : (v.dropWatch stream op).source id = some (.fd t op)) : t ≠ stream := by
  rintro rfl
  have hold := dropWatch_source hid
  have hpoint := h id t hold
  simp only [dropWatch, hpoint, unwatch, removeSource, setGsource, Function.update_self] at hid
  cases hid

/-- No watch is left of an action that is freed with the watches it points to. -/
theorem not_watched_release {op : ℕ} (h : v.Tidy op) : ¬ (v.release op).Watched op := by
  rintro ⟨id, stream, hid⟩
  have hmid : (v.dropWatch .stderr op).source id = some (.fd stream op) := dropWatch_source hid
  have hstderr := dropWatch_tidy h hmid
  have hold := h id stream (dropWatch_source hmid)
  have hpoint : (v.dropWatch .stderr op).gsource stream op = some id := by
    obtain he | ⟨j, -, he⟩ := v.dropWatch_eq .stderr op
    · rwa [he]
    · rw [he]
      exact (if_neg fun heq => hstderr heq.2).trans hold
  cases stream with
  | stderr => exact hstderr rfl
  | stdout =>
    have hid : ((v.dropWatch .stderr op).dropWatch .stdout op).source id =
        some (.fd .stdout op) := hid
    simp only [dropWatch.eq_def (v.dropWatch .stderr op), hpoint, unwatch, removeSource,
      setGsource, Function.update_self] at hid
    cases hid

theorem tidy_removeSource {op id : ℕ} (h : v.Tidy op) : (v.removeSource id).Tidy op :=
  fun j stream hj => h j stream (of_removeSource hj).2

/-- Every step keeps this but a cancel of an action with a child or an older watch. -/
theorem clear_step (h : Inv v) (hc : Clear v) (hs : Step v e u)
    (hok : ∀ name action interval op, e = .cancel name action interval →
      v.recurring (cancelId name action interval) = some op → ¬ v.Running op ∧ v.Tidy op) :
    Clear u := by
  have hfit : Fit u := by
    refine fit_step h (fun op hl => hc op (.inl hl)) hs ?_
    intro name action interval op he hr
    exact (hok name action interval op he hr).1
  intro k hk
  rcases hk with hl | hw
  · exact hfit k hl
  by_contra hfreed
  have hu := inv_step h hs
  have hidle : ¬ u.Running k := fun hr => hfreed (hfit k (.inl hr))
  have hold : v.Watched k := (step_watched hs hw).resolve_right hidle
  obtain ⟨i, hi, -⟩ := h.watch _ _ k hold.choose_spec.choose_spec
  have hnz : v.interval k ≠ some 0 := by
    intro hz
    have hsame : u.interval k = some 0 := by
      rw [(step_records hs (by simp [hz])).1, hz]
    exact ((hu.oneShot k hsame).2 hfreed).2 hw
  obtain he | ⟨name, action, interval, timer, he, hr, ht, rfl⟩ := step_freed hs hnz
  · rw [he] at hfreed
    exact hfreed (hc k (.inr hold))
  · have htidy := (hok name action interval k he hr).2
    exact not_watched_release (tidy_removeSource htidy) hw

/-- A cancel that finds an entry leaves the freed action in `recurring_actions`. -/
theorem cancel_dangles {id : Text} {op : ℕ} (hr : v.recurring id = some op) (timer : ℕ) :
    (v.cancel op timer).recurring id = some op ∧ (v.cancel op timer).freed op ≠ 0 := by
  refine ⟨?_, ?_⟩
  · rw [cancel, release_keeps recurring (fun _ _ _ => rfl) fun _ => rfl]
    exact hr
  · rw [cancel, release_freed, Function.update_self]
    omega

end

end Registry

/-! ## Whole runs -/

/-- Nothing refers to a freed action, and none is freed twice. -/
def Safe (s : Engine C W) : Prop :=
  ∀ op, (s.registry.Referenced op → s.freed op = 0) ∧ s.freed op ≤ 1

def CancelMisses (s : Engine C W) : Event C → Prop
  | .cancel name action interval => s.recurringActions (cancelId name action interval) = none
  | _ => True

def Sound (s : Engine C W) : Prop := s.registry.Inv ∧ s.registry.Kept

section
variable {s u : Engine C W} {e : Event C}

theorem sound_init (client : W) : Sound (Engine.init client : Engine C W) :=
  ⟨inv_init client, fun _ _ _ _ => rfl⟩

theorem safe_of_sound (h : Sound s) : Safe s := fun op =>
  ⟨Registry.referenced_unfreed h.1 h.2, Registry.freed_le_one h.1 h.2 op⟩

theorem sound_step (run : C → ℕ → SvcAction C → W → W) (h : Sound s) (hok : CancelMisses s e)
    (hs : step run s e = some u) : Sound u := by
  refine ⟨inv_engineStep run h.1 hs, Registry.kept_step h.1 h.2 (registry_step run h.1 hs) ?_⟩
  rintro name action interval rfl
  exact hok

theorem unsafe_of_hit (run : C → ℕ → SvcAction C → W → W) (h : Sound s)
    (hok : ¬ CancelMisses s e) (hs : step run s e = some u) : ¬ Safe u := by
  have hstep := registry_step run h.1 hs
  intro hsafe
  change ∀ op, (u.registry.Referenced op → u.registry.freed op = 0) ∧ _ at hsafe
  generalize u.registry = w at hstep hsafe
  cases hstep with
  | miss hr => exact hok hr
  | cancel hr _ =>
    obtain ⟨hrec, hfreed⟩ := Registry.cancel_dangles hr _
    exact hfreed ((hsafe _).1 (.inl ⟨_, hrec⟩))
  | _ => exact hok trivial

end

/-- A run is free of dangling references and double frees exactly as long as no
cancel in it finds the action it is asked for. -/
theorem safe_iff_cancel_misses (run : C → ℕ → SvcAction C → W → W) (client : W)
    (es : List (Event C)) :
    Always (step run) Safe (Engine.init client) es ↔
      Throughout (step run) CancelMisses (Engine.init client) es := by
  constructor
  · exact throughout_of_always (fun _ _ _ => sound_step run) (fun _ _ _ => unsafe_of_hit run)
      (sound_init client)
  · intro h
    exact (always_of_preserved (fun _ _ _ => sound_step run) (sound_init client) h).imp
      fun _ => safe_of_sound

def monitorRequest : ActionRequest :=
  ⟨"httpd".toList, "lsb".toList, none, "httpd".toList, "status".toList, 1000, 30000, []⟩

/-- Submitted, finished, waiting for its timer, cancelled: freed, and still in the table. -/
theorem cancelled_action_dangles :
    ¬ Always (step (C := Unit) (W := Unit) fun _ _ _ w => w) Safe (Engine.init ())
      [.submit monitorRequest none (some 7), .childExit 7 0,
        .cancel "httpd".toList "status".toList 1000] := by
  intro h
  have hend := h.final (Option.some_get (by decide)).symm
  have hfreed := (hend 1).1 (.inl ⟨"httpd_status_1000".toList, by decide⟩)
  exact absurd hfreed (by decide)

end Matahari.Services
