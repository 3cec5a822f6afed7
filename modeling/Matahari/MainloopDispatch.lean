import Matahari.MainloopReaper

set_option autoImplicit false

/-!
# When the dispatch of `SIGCHLD` returns

The loop of `child_death_dispatch` asks `errno` whether to go on after a `wait3` that
returned no child, and `wait3` leaves `errno` alone when it returns zero. Here no child
exits while the dispatch runs.
-/
namespace Matahari.Reaping
open Mainloop TransitionRuns

def errnoOf (errno : ℤ) : Errno :=
  if errno = eagain then .eagain else if errno = echild then .echild else .other

/-- The call, with the `errno` that earlier calls have left. -/
def childDeathDispatch (s : Reaper) (errno : ℤ) : Reaper :=
  mainloopSignalDispatch { s with errno := errnoOf errno }

def turn (s : Reaper) (c : Option ℕ) : Option Reaper := reaperStep s (.wait c)

def ChildRuns (s : Reaper) : Prop := ∃ c q, s.children.entry c = some q ∧ q.phase = .running

def TrackedZombie (s : Reaper) : Prop :=
  ∃ c q, s.children.entry c = some q ∧ q.phase.isZombie = true ∧
    (s.loop.processTable q.pid).isSome = true

def zombies (s : Reaper) : Finset ℕ :=
  (Finset.range s.children.next).filter fun c =>
    (s.children.entry c).any (fun q => q.phase.isZombie) = true

section
variable {s u : Reaper}

theorem mem_zombies {c : ℕ} :
    c ∈ zombies s ↔ ∃ q, s.children.entry c = some q ∧ q.phase.isZombie = true := by
  simp only [zombies, Finset.mem_filter, Finset.mem_range, Option.any_eq_true]
  constructor
  · rintro ⟨-, h⟩
    exact h
  · rintro ⟨q, hq, hz⟩
    exact ⟨FreshTable.lt_next hq, q, hq, hz⟩

/-! ## What a turn can do -/

/-- A zombie outside the process table is reaped and the loop goes on. -/
theorem reap_untracked {c : ℕ} {q : Process} (hp : s.loop.processTable q.pid = none)
    (status : ℕ) : reap s c q status = setPhase s c .reaped := by
  unfold reap
  dsimp only [setPhase_loop]
  rw [hp]

theorem reap_tracked {c : ℕ} {q : Process} (hp : (s.loop.processTable q.pid).isSome = true)
    (status : ℕ) : (reap s c q status).dispatching = false := by
  obtain ⟨p, hp⟩ := Option.isSome_iff_exists.mp hp
  unfold reap
  dsimp only [setPhase_loop]
  rw [hp]

theorem turn_cases {c : Option ℕ} (h : turn s c = some u) :
    s.dispatching = true ∧
      ((∃ k q, c = some k ∧ s.children.entry k = some q ∧ q.phase.isZombie = true ∧
        (s.loop.processTable q.pid = none ∧ u = setPhase s k .reaped ∨
          (s.loop.processTable q.pid).isSome = true ∧ u.dispatching = false)) ∨
      c = none ∧ zombies s = ∅ ∧ u = waitNone s) := by
  cases c with
  | none =>
    simp only [turn, reaperStep] at h
    split at h
    · rename_i hw
      refine ⟨hw.1, .inr ⟨rfl, ?_, (Option.some_inj.mp h).symm⟩⟩
      rw [Finset.eq_empty_iff_forall_notMem]
      intro k hk
      obtain ⟨q, hq, hz⟩ := mem_zombies.mp hk
      have := anyChild_false hw.2 hq
      rw [hz] at this
      cases this
    · cases h
  | some k =>
    simp only [turn, reaperStep] at h
    split at h
    · rename_i pid tracked status hq
      split at h
      · rename_i hd
        refine ⟨hd, .inl ⟨k, ⟨pid, tracked, .zombie status⟩, rfl, hq, rfl, ?_⟩⟩
        obtain rfl := Option.some_inj.mp h
        cases hp : s.loop.processTable (pid : ℕ) with
        | none => exact .inl ⟨rfl, reap_untracked hp status⟩
        | some p => exact .inr ⟨rfl, reap_tracked (by rw [hp]; rfl) status⟩
      · cases h
    · cases h

/-- The loop is never stuck: as long as it runs, `wait3` returns something. -/
theorem exists_turn (h : s.dispatching = true) : ∃ c u, turn s c = some u := by
  by_cases hz : ∃ k, k ∈ zombies s
  · obtain ⟨k, hk⟩ := hz
    obtain ⟨⟨pid, tracked, phase⟩, hq, hphase⟩ := mem_zombies.mp hk
    cases phase with
    | running => cases hphase
    | reaped => cases hphase
    | zombie status =>
      exact ⟨some k, reap s k ⟨pid, tracked, .zombie status⟩ status, by
        simp only [turn, reaperStep, hq, h, if_true]⟩
  · refine ⟨none, waitNone s, ?_⟩
    have hnone : anyChild s (fun q => q.phase.isZombie) = false := by
      rw [← Bool.not_eq_true, anyChild_iff]
      rintro ⟨k, q, hq, hphase⟩
      exact hz ⟨k, mem_zombies.mpr ⟨q, hq, hphase⟩⟩
    simp only [turn, reaperStep, h, hnone, and_self, if_true]

/-! ## The measure -/

theorem zombies_setPhase {k : ℕ} (hk : k ∈ zombies s) :
    (zombies (setPhase s k .reaped)).card < (zombies s).card := by
  apply Finset.card_lt_card
  rw [Finset.ssubset_iff_of_subset]
  · refine ⟨k, hk, ?_⟩
    intro hmem
    obtain ⟨q, hq, hz⟩ := mem_zombies.mp hmem
    rw [setPhase_entry, if_pos rfl] at hq
    obtain ⟨r, -, rfl⟩ := Option.map_eq_some_iff.mp hq
    cases hz
  · intro j hj
    obtain ⟨q, hq, hz⟩ := mem_zombies.mp hj
    rw [setPhase_entry] at hq
    split at hq
    · obtain ⟨r, -, rfl⟩ := Option.map_eq_some_iff.mp hq
      cases hz
    · exact mem_zombies.mpr ⟨q, hq, hz⟩

def turnsLeft (s : Reaper) : ℕ := if s.dispatching = true then (zombies s).card + 1 else 0

def WillReturn (s : Reaper) : Prop :=
  s.dispatching = false ∨ s.errno ≠ .eagain ∨ ¬ ChildRuns s ∨ TrackedZombie s

theorem childRuns_of_setPhase {k : ℕ} (h : ChildRuns (setPhase s k .reaped)) : ChildRuns s := by
  obtain ⟨c, q, hq, hr⟩ := h
  rw [setPhase_entry] at hq
  split at hq
  · obtain ⟨r, -, rfl⟩ := Option.map_eq_some_iff.mp hq
    cases hr
  · exact ⟨c, q, hq, hr⟩

theorem childRuns_setPhase {k : ℕ} (hk : k ∈ zombies s) (h : ChildRuns s) :
    ChildRuns (setPhase s k .reaped) := by
  obtain ⟨c, q, hq, hr⟩ := h
  refine ⟨c, q, ?_, hr⟩
  rw [setPhase_entry, if_neg]
  · exact hq
  · rintro rfl
    obtain ⟨r, hr', hz⟩ := mem_zombies.mp hk
    obtain rfl : q = r := by simpa [hq] using hr'
    rw [hr] at hz
    cases hz

theorem trackedZombie_setPhase {k : ℕ} {q : Process} (hq : s.children.entry k = some q)
    (hp : s.loop.processTable q.pid = none) (h : TrackedZombie s) :
    TrackedZombie (setPhase s k .reaped) := by
  obtain ⟨c, r, hr, hz, hsome⟩ := h
  refine ⟨c, r, ?_, hz, hsome⟩
  rw [setPhase_entry, if_neg]
  · exact hr
  · rintro rfl
    obtain rfl : r = q := by simpa [hr] using hq
    rw [hp] at hsome
    cases hsome

theorem trackedZombie_of_setPhase {k : ℕ} (h : TrackedZombie (setPhase s k .reaped)) :
    TrackedZombie s := by
  obtain ⟨c, q, hq, hz, hsome⟩ := h
  rw [setPhase_entry] at hq
  split at hq
  · obtain ⟨r, -, rfl⟩ := Option.map_eq_some_iff.mp hq
    cases hz
  · exact ⟨c, q, hq, hz, hsome⟩

theorem anyRunning_iff : anyChild s (fun q => q.phase = .running) = true ↔ ChildRuns s := by
  rw [anyChild_iff]
  simp only [decide_eq_true_eq]
  exact Iff.rfl

theorem waitNone_returns (h : s.errno ≠ .eagain ∨ ¬ ChildRuns s) :
    (waitNone s).dispatching = false := by
  unfold waitNone
  dsimp only
  by_cases hr : ChildRuns s
  · rw [if_pos (anyRunning_iff.mpr hr)]
    rcases h with h | h
    · exact decide_eq_false h
    · exact absurd hr h
  · rw [if_neg (mt anyRunning_iff.mp hr)]
    rfl

theorem waitNone_stays (he : s.errno = .eagain) (hd : s.dispatching = true) (hr : ChildRuns s) :
    waitNone s = s := by
  unfold waitNone
  rw [if_pos (anyRunning_iff.mpr hr), he]
  cases s
  simp_all

theorem turn_lower {c : Option ℕ} (hs : WillReturn s) (h : turn s c = some u) :
    WillReturn u ∧ turnsLeft u < turnsLeft s := by
  obtain ⟨hd, hcases⟩ := turn_cases h
  have hleft : turnsLeft s = (zombies s).card + 1 := if_pos hd
  have hout : u.dispatching = false → WillReturn u ∧ turnsLeft u < turnsLeft s := by
    intro hu
    have hzero : turnsLeft u = 0 := if_neg (by rw [hu]; decide)
    exact ⟨.inl hu, by omega⟩
  obtain ⟨k, q, -, hq, hz, hreap⟩ | ⟨-, hempty, rfl⟩ := hcases
  · obtain ⟨hp, rfl⟩ | ⟨-, hu⟩ := hreap
    · have hk : k ∈ zombies s := mem_zombies.mpr ⟨q, hq, hz⟩
      constructor
      · rcases hs with hs | hs | hs | hs
        · rw [hd] at hs
          cases hs
        · exact .inr (.inl hs)
        · exact .inr (.inr (.inl (mt childRuns_of_setPhase hs)))
        · exact .inr (.inr (.inr (trackedZombie_setPhase hq hp hs)))
      · have hfewer := zombies_setPhase hk
        have hleft' : turnsLeft (setPhase s k .reaped) =
            (zombies (setPhase s k .reaped)).card + 1 := if_pos hd
        omega
    · exact hout hu
  · apply hout
    apply waitNone_returns
    rcases hs with hs | hs | hs | ⟨k, q, hq, hz, -⟩
    · rw [hd] at hs
      cases hs
    · exact .inl hs
    · exact .inr hs
    · have := mem_zombies.mpr ⟨q, hq, hz⟩
      rw [hempty] at this
      cases this

/-- The zombies, none of them tracked, are reaped one after the other, and then
`wait3` returns zero for ever. -/
theorem turn_live (hs : ¬ WillReturn s) : ∃ c u, turn s c = some u ∧ ¬ WillReturn u := by
  unfold WillReturn at hs
  push Not at hs
  obtain ⟨hd, he, hr, ht⟩ := hs
  have hd : s.dispatching = true := by simpa using hd
  obtain ⟨c, u, hu⟩ := exists_turn hd
  refine ⟨c, u, hu, ?_⟩
  obtain ⟨-, ⟨k, q, -, hq, hz, hreap⟩ | ⟨-, -, rfl⟩⟩ := turn_cases hu
  · obtain ⟨-, rfl⟩ | ⟨hsome, -⟩ := hreap
    · have hk : k ∈ zombies s := mem_zombies.mpr ⟨q, hq, hz⟩
      rintro (h | h | h | h)
      · exact Bool.false_ne_true (h.symm.trans hd)
      · exact h he
      · exact h (childRuns_setPhase hk hr)
      · exact ht (trackedZombie_of_setPhase h)
    · exact absurd ⟨k, q, hq, hz, hsome⟩ ht
  · rw [waitNone_stays he hd hr]
    rintro (h | h | h | h)
    · exact Bool.false_ne_true (h.symm.trans hd)
    · exact h he
    · exact h hr
    · exact ht h

end

theorem errnoOf_eagain_iff (errno : ℤ) : errnoOf errno = .eagain ↔ errno = eagain := by
  unfold errnoOf
  split
  · rename_i h
    exact ⟨fun _ => h, fun _ => rfl⟩
  · rename_i h
    split <;> simp [h]

theorem ends_turn_iff (s : Reaper) : Ends turn s ↔ WillReturn s := by
  constructor
  · intro h
    by_contra hs
    exact not_ends_of_live (P := fun s => ¬ WillReturn s) (fun s hs => turn_live hs) hs h
  · intro h
    exact ends_of_measure turnsLeft (fun s c u hs hu => turn_lower hs hu) h

/-- The dispatch returns unless it is entered with `EAGAIN`, a child is running, and no
child of the process table has exited. -/
theorem childDeathDispatch_ends_iff (s : Reaper) (errno : ℤ) :
    Ends turn (childDeathDispatch s errno) ↔
      errno ≠ eagain ∨ ¬ ChildRuns s ∨ TrackedZombie s := by
  rw [ends_turn_iff]
  have hd : (childDeathDispatch s errno).dispatching ≠ false := Bool.noConfusion
  have he : (childDeathDispatch s errno).errno ≠ .eagain ↔ errno ≠ eagain :=
    not_congr (errnoOf_eagain_iff errno)
  have hr : ¬ ChildRuns (childDeathDispatch s errno) ↔ ¬ ChildRuns s := Iff.rfl
  have ht : TrackedZombie (childDeathDispatch s errno) ↔ TrackedZombie s := Iff.rfl
  unfold WillReturn
  rw [he, hr, ht]
  exact or_iff_right hd

def strayExit : Reaper :=
  mainloopSignalHandler (setPhase (spawn (spawn Reaper.init 7 true 0 "start".toList) 8 false 0 [])
    2 (.zombie 0))

/-- A child that nobody tracks exits while a service is being started, and a read from
a pipe has left `EAGAIN`. -/
theorem childDeathDispatch_spins :
    exec reaperStep Reaper.init [.spawn 7 true 0 "start".toList, .spawn 8 false 0 [],
      .exit 2 0] = some strayExit ∧ ¬ Ends turn (childDeathDispatch strayExit eagain) := by
  refine ⟨rfl, ?_⟩
  rw [ends_turn_iff]
  rintro (h | h | h | ⟨c, q, hq, hz, ht⟩)
  · cases h
  · exact h rfl
  · exact h ⟨1, ⟨7, true, .running⟩, rfl, rfl⟩
  · have hentry : (childDeathDispatch strayExit eagain).children.entry c =
        if c = 2 then some ⟨8, false, .zombie 0⟩ else
        if c = 1 then some ⟨7, true, .running⟩ else none := by
      change (setPhase _ 2 _).children.entry c = _
      rw [setPhase_entry]
      split
      · rfl
      · rename_i hc
        change ((FreshTable.empty.add _).add _).entry c = _
        exact (FreshTable.add_entry _ _ c).trans ((if_neg hc).trans (FreshTable.add_entry _ _ c))
    rw [hentry] at hq
    split at hq
    · obtain rfl := Option.some_inj.mp hq
      cases ht
    · split at hq
      · obtain rfl := Option.some_inj.mp hq
        cases hz
      · cases hq

end Matahari.Reaping
