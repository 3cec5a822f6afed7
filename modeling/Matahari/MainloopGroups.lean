import Matahari.Library.Transition
import Matahari.Mainloop

set_option autoImplicit false

/-!
# Children and process groups

`mainloop_add_child` takes a pid, or for a process group the pid of its leader with a minus
sign. Here the process table is followed over whole runs of the main loop, with children of
both kinds.
-/
namespace Matahari.Mainloop
open TransitionRuns

variable {α : Type}

def Source.isTimer : Source α → Bool
  | .childTimeout _ => true
  | .recurringAction _ | .fd _ _ => false

/-- `child_death_dispatch` for a child that `wait3` has returned. What the callback does to the
main loop is left to the events that follow. -/
def childDeathDispatch (m : Loop α) (pid : ℕ) : Loop α :=
  match m.processTable pid with
  | none => m
  | some p => removeChild (disarm m p) pid

inductive LoopEvent (α : Type) where
  | addChild (pid timeout : ℤ) (desc : Text) (data : α)
  | attach (source : Source α)
  | detach (id : ℕ)
  | timeout (id : ℕ) (kill : KillResult)
  | death (pid : ℕ)

def loopStep (m : Loop α) : LoopEvent α → Option (Loop α)
  | .addChild pid timeout desc data => some (mainloopAddChild m pid timeout desc data)
  | .attach source => if source.isTimer then none else some (addSource m source)
  | .detach id => if (m.sources.entry id).any Source.isTimer then none else some (gSourceRemove m id)
  | .timeout id kill =>
    match m.sources.entry id with
    | some (.childTimeout pid) => some (gSourceRemove (childTimeoutCallback m pid kill) id)
    | _ => none
  | .death pid => some (childDeathDispatch m pid)

/-- A child that is added has a pid, and no entry yet: the kernel does not hand out the pid of
a child that waits to be reaped. -/
def FreshPid (m : Loop α) : LoopEvent α → Prop
  | .addChild pid _ _ _ => pid ≠ 0 ∧ m.processTable (|pid|) = none
  | _ => True

/-- What is known of the table: it is keyed by the pid without its sign, and each timer
belongs to the entry of the pid that it carries. -/
structure Timers (m : Loop α) : Prop where
  keys : ∀ key p, m.processTable key = some p → key = |p.pid| ∧ p.pid ≠ 0
  owner : ∀ id pid, m.sources.entry id = some (.childTimeout pid) →
    ∃ p, m.processTable (|pid|) = some p ∧ p.pid = pid ∧ p.timerid = id

def Untouched (id : ℕ) (pid : ℤ) (desc : Text) (data : α) (m : Loop α) : Prop :=
  id < m.sources.next ∧ ∀ p, m.processTable (|pid|) = some p → p.timerid = id →
    p = ⟨pid, desc, id, false, some data⟩

theorem timers_init : Timers (Loop.init : Loop α) where
  keys := by
    intro key p h
    cases h
  owner := by
    intro id pid h
    cases h

section
variable {m u : Loop α} {e : LoopEvent α}

/-! ## What the functions do -/

theorem childTimeoutCallback_spec (m : Loop α) (pid : ℤ) (kill : KillResult) :
    ∃ timerid, (∀ key, (childTimeoutCallback m pid kill).processTable key =
        if key = pid then
          (m.processTable pid).map fun p => { p with timerid := timerid, timeout := true }
        else m.processTable key) ∧
      ((timerid = 0 ∧ (childTimeoutCallback m pid kill).sources = m.sources) ∨
        (timerid = m.sources.next ∧ (m.processTable pid).isSome = true ∧
          (childTimeoutCallback m pid kill).sources = m.sources.add (.childTimeout pid))) := by
  cases hp : m.processTable pid with
  | none =>
    rw [childTimeoutCallback_none hp]
    refine ⟨0, fun key => ?_, Or.inl ⟨rfl, rfl⟩⟩
    by_cases hkey : key = pid
    · rw [if_pos hkey, hkey, hp]
      rfl
    · rw [if_neg hkey]
  | some p =>
    refine ⟨_, childTimeoutCallback_table hp kill, ?_⟩
    rw [childTimeoutCallback_sources hp kill]
    by_cases hset : p.timeout = false ∧ kill ≠ .esrch
    · rw [if_pos hset, if_pos hset]
      exact Or.inr ⟨rfl, rfl, rfl⟩
    · rw [if_neg hset, if_neg hset]
      exact Or.inl ⟨rfl, rfl⟩

theorem childDeathDispatch_table (m : Loop α) (pid : ℕ) (key : ℤ) :
    (childDeathDispatch m pid).processTable key = if key = pid then none else m.processTable key := by
  unfold childDeathDispatch
  cases hp : m.processTable pid with
  | none =>
    dsimp only
    split
    · rename_i hkey
      rw [hkey, hp]
    · rfl
  | some p =>
    change Function.update (disarm m p).processTable pid none key = _
    rw [Function.update_apply, (disarm_table m p).1]

theorem childDeathDispatch_sources {pid id : ℕ} {source : Source α}
    (h : (childDeathDispatch m pid).sources.entry id = some source) :
    m.sources.entry id = some source ∧
      ∀ p, m.processTable pid = some p → p.timerid ≠ id := by
  unfold childDeathDispatch at h
  cases hp : m.processTable pid with
  | none =>
    rw [hp] at h
    refine ⟨h, fun p hsome => ?_⟩
    cases hsome
  | some p =>
    rw [hp] at h
    change (disarm m p).sources.entry id = _ at h
    rw [disarm_sources] at h
    split at h
    · cases h
    · rename_i hne
      refine ⟨h, fun q hq => ?_⟩
      cases hq
      exact Ne.symm hne

theorem childDeathDispatch_next (m : Loop α) (pid : ℕ) :
    (childDeathDispatch m pid).sources.next = m.sources.next := by
  unfold childDeathDispatch
  split
  · rfl
  · unfold disarm
    split <;> rfl

theorem loopStep_attach {source : Source α} (h : loopStep m (.attach source) = some u) :
    source.isTimer = false ∧ u = addSource m source := by
  unfold loopStep at h
  dsimp only at h
  split at h
  · cases h
  · rename_i hsource
    cases h
    exact ⟨Bool.eq_false_iff.mpr hsource, rfl⟩

theorem loopStep_detach {id : ℕ} (h : loopStep m (.detach id) = some u) :
    u = gSourceRemove m id := by
  unfold loopStep at h
  dsimp only at h
  split at h
  · cases h
  · cases h
    rfl

theorem loopStep_timeout {id : ℕ} {kill : KillResult}
    (h : loopStep m (.timeout id kill) = some u) :
    ∃ pid, m.sources.entry id = some (.childTimeout pid) ∧
      u = gSourceRemove (childTimeoutCallback m pid kill) id := by
  unfold loopStep at h
  dsimp only at h
  split at h
  · rename_i pid hid
    cases h
    exact ⟨pid, hid, rfl⟩
  · cases h

/-! ## Whole runs -/

theorem Timers.addChild (h : Timers m) {pid : ℤ} (hpid : pid ≠ 0)
    (hfresh : m.processTable (|pid|) = none) (timeout : ℤ) (desc : Text) (data : α) :
    Timers (mainloopAddChild m pid timeout desc data) where
  keys := by
    intro key p hp
    rw [mainloopAddChild_table] at hp
    split at hp
    · rename_i hkey
      cases hp
      exact ⟨hkey, hpid⟩
    · exact h.keys key p hp
  owner := by
    intro id k hid
    have hold : m.sources.entry id = some (.childTimeout k) →
        ∃ p, (mainloopAddChild m pid timeout desc data).processTable (|k|) = some p ∧
          p.pid = k ∧ p.timerid = id := by
      intro hid
      obtain ⟨p, hp, hrest⟩ := h.owner id k hid
      have hne : (|k|) ≠ |pid| := by
        intro heq
        rw [heq, hfresh] at hp
        cases hp
      exact ⟨p, by rw [mainloopAddChild_table, if_neg hne, hp], hrest⟩
    rw [mainloopAddChild_sources] at hid
    split at hid
    · rename_i htimeout
      rcases FreshTable.add_entry_some hid with ⟨hnext, hsource⟩ | hid
      · cases hsource
        refine ⟨_, by rw [mainloopAddChild_table, if_pos rfl], rfl, ?_⟩
        rw [if_pos htimeout, hnext]
      · exact hold hid
    · exact hold hid

theorem Timers.timeout (h : Timers m) {id : ℕ} {pid : ℤ}
    (hid : m.sources.entry id = some (.childTimeout pid)) (kill : KillResult) :
    Timers (gSourceRemove (childTimeoutCallback m pid kill) id) := by
  obtain ⟨timerid, htable, hsources⟩ := childTimeoutCallback_spec m pid kill
  obtain ⟨p, hp, hpid, htimer⟩ := h.owner id pid hid
  constructor
  · intro key q hq
    change (childTimeoutCallback m pid kill).processTable key = some q at hq
    rw [htable] at hq
    split at hq
    · rename_i hkey
      obtain ⟨old, hold, rfl⟩ := Option.map_eq_some_iff.mp hq
      rw [hkey]
      exact h.keys pid old hold
    · exact h.keys key q hq
  · intro k other hk
    obtain ⟨hne, hk⟩ := FreshTable.remove_entry_some hk
    change ∃ q, (childTimeoutCallback m pid kill).processTable (|other|) = some q ∧ _
    have hold : m.sources.entry k = some (.childTimeout other) →
        ∃ q, (childTimeoutCallback m pid kill).processTable (|other|) = some q ∧
          q.pid = other ∧ q.timerid = k := by
      intro hk
      obtain ⟨q, hq, hqpid, hqtimer⟩ := h.owner k other hk
      refine ⟨q, ?_, hqpid, hqtimer⟩
      rw [htable, if_neg, hq]
      intro heq
      -- the entry that is changed is the one of the timer that fires
      have habs : (|pid|) = pid := by
        rw [← heq, abs_abs]
      rw [habs, ← heq, hq] at hp
      cases hp
      exact hne (hqtimer.symm.trans htimer)
    rcases hsources with ⟨-, hsame⟩ | ⟨htimerid, hsome, hadd⟩
    · rw [hsame] at hk
      exact hold hk
    · rw [hadd] at hk
      rcases FreshTable.add_entry_some hk with ⟨hnext, hsource⟩ | hk
      · cases hsource
        obtain ⟨q, hq⟩ := Option.isSome_iff_exists.mp hsome
        have habs : (|pid|) = pid := by
          rw [(h.keys pid q hq).1, abs_abs]
        rw [habs, hq] at hp
        cases hp
        refine ⟨{ p with timerid := timerid, timeout := true }, ?_, hpid, ?_⟩
        · rw [habs, htable, if_pos rfl, hq, Option.map_some]
        · exact htimerid.trans hnext.symm
      · exact hold hk

theorem Timers.death (h : Timers m) (pid : ℕ) : Timers (childDeathDispatch m pid) where
  keys := by
    intro key p hp
    rw [childDeathDispatch_table] at hp
    split at hp
    · cases hp
    · exact h.keys key p hp
  owner := by
    intro id k hid
    obtain ⟨hid, hother⟩ := childDeathDispatch_sources hid
    obtain ⟨p, hp, hrest⟩ := h.owner id k hid
    refine ⟨p, ?_, hrest⟩
    rw [childDeathDispatch_table, if_neg, hp]
    intro heq
    rw [heq] at hp
    exact hother p hp hrest.2

theorem Timers.step (h : Timers m) (hfresh : FreshPid m e) (hu : loopStep m e = some u) :
    Timers u := by
  cases e with
  | addChild pid timeout desc data =>
    cases hu
    exact h.addChild hfresh.1 hfresh.2 timeout desc data
  | attach source =>
    obtain ⟨hsource, rfl⟩ := loopStep_attach hu
    refine ⟨h.keys, fun id pid hid => ?_⟩
    rcases FreshTable.add_entry_some hid with ⟨-, hnew⟩ | hid
    · rw [← hnew] at hsource
      cases hsource
    · exact h.owner id pid hid
  | detach id =>
    rw [loopStep_detach hu]
    exact ⟨h.keys, fun k pid hk => h.owner k pid (FreshTable.remove_entry_some hk).2⟩
  | timeout id kill =>
    obtain ⟨pid, hid, rfl⟩ := loopStep_timeout hu
    exact h.timeout hid kill
  | death pid =>
    cases hu
    exact h.death pid

theorem Untouched.step {id : ℕ} {pid : ℤ} {desc : Text} {data : α} (hpos : id ≠ 0)
    (h : Untouched id pid desc data m) (hfresh : FreshPid m e) (hu : loopStep m e = some u) :
    Untouched id pid desc data u := by
  obtain ⟨hlt, hentry⟩ := h
  cases e with
  | addChild k timeout kdesc kdata =>
    cases hu
    refine ⟨?_, fun p hp hid => ?_⟩
    · rw [mainloopAddChild_sources]
      split
      · exact Nat.lt_succ_of_lt hlt
      · exact hlt
    · rw [mainloopAddChild_table] at hp
      split at hp
      · cases hp
        dsimp only at hid
        split at hid <;> omega
      · exact hentry p hp hid
  | attach source =>
    obtain ⟨-, rfl⟩ := loopStep_attach hu
    exact ⟨Nat.lt_succ_of_lt hlt, hentry⟩
  | detach k =>
    rw [loopStep_detach hu]
    exact ⟨hlt, hentry⟩
  | timeout k kill =>
    obtain ⟨other, -, rfl⟩ := loopStep_timeout hu
    obtain ⟨timerid, htable, hsources⟩ := childTimeoutCallback_spec m other kill
    have hid : timerid ≠ id ∧ id < (childTimeoutCallback m other kill).sources.next := by
      rcases hsources with ⟨hzero, hsame⟩ | ⟨hnext, -, hadd⟩
      · exact ⟨by omega, by rw [hsame]; exact hlt⟩
      · exact ⟨by omega, by rw [hadd]; exact Nat.lt_succ_of_lt hlt⟩
    refine ⟨hid.2, fun p hp htimer => ?_⟩
    change (childTimeoutCallback m other kill).processTable _ = some p at hp
    rw [htable] at hp
    split at hp
    · obtain ⟨q, -, rfl⟩ := Option.map_eq_some_iff.mp hp
      exact absurd htimer hid.1
    · exact hentry p hp htimer
  | death k =>
    cases hu
    refine ⟨by rw [childDeathDispatch_next]; exact hlt, fun p hp => ?_⟩
    rw [childDeathDispatch_table] at hp
    split at hp
    · cases hp
    · exact hentry p hp

def TimesOut (m u : Loop α) (pid : ℤ) : Prop :=
  ∃ p, m.processTable (|pid|) = some p ∧ p.timeout = false ∧
    (∃ q, u.processTable (|pid|) = some q ∧ q.timeout = true) ∧ u.killed = pid :: m.killed

/-- The key that the timer looks up is the one of the table unless the pid is negative. -/
theorem timesOut_iff (h : Timers m) {id : ℕ} {pid : ℤ} {p : MainloopChild α}
    (hp : m.processTable (|pid|) = some p) (hpid : p.pid = pid) (hflag : p.timeout = false)
    (kill : KillResult) :
    TimesOut m (gSourceRemove (childTimeoutCallback m pid kill) id) pid ↔ 0 < pid := by
  obtain ⟨timerid, htable, -⟩ := childTimeoutCallback_spec m pid kill
  have hne : pid ≠ 0 := hpid ▸ (h.keys _ p hp).2
  constructor
  · rintro ⟨-, -, -, -, hkilled⟩
    by_contra hneg
    have hnone : m.processTable pid = none := by
      cases hq : m.processTable pid with
      | none => rfl
      | some q =>
        have habs := (h.keys pid q hq).1
        have hnonneg := abs_nonneg q.pid
        omega
    change (childTimeoutCallback m pid kill).killed = pid :: m.killed at hkilled
    rw [childTimeoutCallback_none hnone] at hkilled
    have hlength := congrArg List.length hkilled
    rw [List.length_cons] at hlength
    omega
  · intro hpos
    have habs : (|pid|) = pid := abs_of_pos hpos
    rw [habs] at hp
    refine ⟨p, by rw [habs, hp], hflag, ⟨{ p with timerid := timerid, timeout := true }, ?_, rfl⟩, ?_⟩
    · change (childTimeoutCallback m pid kill).processTable (|pid|) = _
      rw [habs, htable, if_pos rfl, hp]
      rfl
    · change (childTimeoutCallback m pid kill).killed = _
      rw [childTimeoutCallback_killed hp, if_pos hflag, hpid]

end

/-- In every run, the timer of a child finds its entry while that is in the table if and only
if the child was registered by its pid and not as a process group. -/
theorem child_timer_iff {before after : List (LoopEvent α)} {pid timeout : ℤ} {desc : Text}
    {data : α} {start m : Loop α} (kill : KillResult) (htimeout : timeout ≠ 0)
    (hbefore : exec loopStep Loop.init before = some start)
    (hrun : exec loopStep start (.addChild pid timeout desc data :: after) = some m)
    (hfresh : Throughout loopStep FreshPid Loop.init
      (before ++ .addChild pid timeout desc data :: after))
    (hpending : m.sources.entry start.sources.next = some (.childTimeout pid)) :
    ∃ u, loopStep m (.timeout start.sources.next kill) = some u ∧
      (TimesOut m u pid ↔ 0 < pid) := by
  have htimers : ∀ (m : Loop α) e u, Timers m → FreshPid m e → loopStep m e = some u → Timers u :=
    fun m e u h hfresh hu => h.step hfresh hu
  have hpos : start.sources.next ≠ 0 := Nat.ne_of_gt start.sources.positive
  have huntouched : ∀ (m : Loop α) e u, Untouched start.sources.next pid desc data m →
      FreshPid m e → loopStep m e = some u → Untouched start.sources.next pid desc data u :=
    fun m e u h hfresh hu => h.step hpos hfresh hu
  have hstart : Timers start := (always_of_preserved htimers timers_init hfresh.take).final hbefore
  have hrest := hfresh.drop hbefore
  have hm : Timers m := (always_of_preserved htimers hstart hrest).final hrun
  obtain ⟨added, hadded, hafter⟩ := exec_cons_some hrun
  obtain ⟨-, hthrough⟩ := hrest added hadded
  have hnew : Untouched start.sources.next pid desc data added := by
    cases hadded
    refine ⟨?_, fun p hp _ => ?_⟩
    · rw [mainloopAddChild_sources, if_pos htimeout]
      exact Nat.lt_succ_self _
    · rw [mainloopAddChild_table, if_pos rfl, if_pos htimeout] at hp
      exact (Option.some.inj hp).symm
  have hentry := (always_of_preserved huntouched hnew hthrough).final hafter
  obtain ⟨p, hp, hpid, hid⟩ := hm.owner _ pid hpending
  have hflag : p.timeout = false := by rw [hentry.2 p hp hid]
  refine ⟨gSourceRemove (childTimeoutCallback m pid kill) start.sources.next, ?_, ?_⟩
  · unfold loopStep
    dsimp only
    rw [hpending]
  · exact timesOut_iff hm hp hpid hflag kill

def oneChild (pid : ℤ) : List (LoopEvent Unit) := [.addChild pid 1000 "ls".toList ()]

theorem child_timer_iff_pid :
    ∃ u, loopStep (mainloopAddChild Loop.init 5 1000 "ls".toList ()) (.timeout 1 .ok) = some u ∧
      (TimesOut (mainloopAddChild Loop.init 5 1000 "ls".toList ()) u 5 ↔ (0 : ℤ) < 5) := by
  have hfresh : Throughout loopStep FreshPid Loop.init ([] ++ oneChild 5) := by
    intro u _
    exact ⟨⟨by decide, rfl⟩, trivial⟩
  exact child_timer_iff .ok (by decide) rfl rfl hfresh rfl

/-- The timer of a process group finds nothing, and no signal is sent. -/
theorem group_timer_finds_nothing :
    ¬ ∃ u, loopStep (mainloopAddChild Loop.init (-5) 1000 "ls".toList ()) (.timeout 1 .ok) = some u ∧
      TimesOut (mainloopAddChild Loop.init (-5) 1000 "ls".toList ()) u (-5) := by
  rintro ⟨u, hu, -, -, -, -, hkilled⟩
  have hnone : (loopStep (mainloopAddChild Loop.init (-5) 1000 "ls".toList ())
      (.timeout 1 .ok)).map (·.killed) = some [] := rfl
  rw [hu, Option.map_some, hkilled] at hnone
  exact absurd (Option.some.inj hnone) (List.cons_ne_nil _ _)

end Matahari.Mainloop
