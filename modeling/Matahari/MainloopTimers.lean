import Matahari.MainloopReaper

set_option autoImplicit false

/-!
# Timers of children

A timer of `mainloop_add_child` carries a bare pid. The runs of the reaper are watched
here for the signals that `child_timeout_callback` sends: each is recorded with what the
process table and the kernel held under that pid when it was sent.
-/
namespace Matahari.Reaping
open Mainloop TransitionRuns

/-- A `SIGKILL`: the pid, whether the process table had it, and the child that
the kernel delivers it to. -/
structure Kill where
  pid : ℤ
  inTable : Bool
  target : Option ℕ
  deriving DecidableEq, Repr

structure Watched where
  reaper : Reaper
  kills : List Kill

def Watched.init : Watched := ⟨Reaper.init, []⟩

def target (s : Reaper) (pid : ℤ) : Option ℕ :=
  (List.range s.children.next).find? fun c =>
    (s.children.entry c).any fun q => q.phase ≠ .reaped && (q.pid : ℤ) == pid

def sent (s u : Reaper) : List Kill :=
  (u.loop.killed.take (u.loop.killed.length - s.loop.killed.length)).map fun pid =>
    ⟨pid, (s.loop.processTable pid).isSome, target s pid⟩

def watchedStep (w : Watched) (e : ReaperEvent) : Option Watched :=
  (reaperStep w.reaper e).map fun u => ⟨u, sent w.reaper u ++ w.kills⟩

/-- Every pending timer is recorded in the entry of its pid; a signal goes to a tracked
child that has not been reaped, and to each at most once; the flag of an entry says whether
its child was sent one. -/
structure KillSafe (w : Watched) : Prop where
  timers : ∀ id pid, w.reaper.loop.sources.entry id = some (.childTimeout pid) →
    ∃ p, w.reaper.loop.processTable pid = some p ∧ p.timerid = id
  kills : ∀ k ∈ w.kills, k.inTable = true ∧ ∃ c q, k.target = some c ∧
    w.reaper.children.entry c = some q ∧ q.tracked = true ∧ (q.pid : ℤ) = k.pid
  once : ∀ c, (w.kills.map (·.target)).count (some c) ≤ 1
  flag : ∀ pid p, w.reaper.loop.processTable pid = some p →
    (p.timeout = true ↔ ∃ k ∈ w.kills, k.target = p.privatedata)

/-! ## The invariant -/

section
variable {s u : Reaper} {kills : List Kill} {pid : ℤ} {p : MainloopChild ℕ}

structure Timed (s : Reaper) (kills : List Kill) : Prop where
  safe : KillSafe ⟨s, kills⟩
  pids : ∀ pid p, s.loop.processTable pid = some p → p.pid = pid

theorem sent_of_killed_eq (h : u.loop.killed = s.loop.killed) : sent s u = [] := by
  simp [sent, h]

theorem sent_cons (h : u.loop.killed = pid :: s.loop.killed) :
    sent s u = [⟨pid, (s.loop.processTable pid).isSome, target s pid⟩] := by
  simp [sent, h]

theorem entry_child (h : Agree s) (hp : s.loop.processTable pid = some p) :
    ∃ c q, p.privatedata = some c ∧ s.children.entry c = some q ∧ q.tracked = true ∧
      q.phase ≠ .reaped ∧ pid = q.pid := by
  obtain ⟨c, q, hd, hrest⟩ := h.entry pid p.privatedata (by simp [dataOf, hp])
  exact ⟨c, q, hd, hrest⟩

theorem target_eq (h : Agree s) {c : ℕ} {q : Process} (hc : s.children.entry c = some q)
    (hne : q.phase ≠ .reaped) : target s q.pid = some c := by
  unfold target
  cases hfind : (List.range s.children.next).find? fun c =>
      (s.children.entry c).any fun r => r.phase ≠ .reaped && (r.pid : ℤ) == q.pid with
  | none =>
    have hno := List.find?_eq_none.mp hfind c (List.mem_range.mpr (FreshTable.lt_next hc))
    simp [hc, hne] at hno
  | some d =>
    have hd := List.find?_some hfind
    simp only [Option.any_eq_true, Bool.and_eq_true, decide_eq_true_eq, beq_iff_eq] at hd
    obtain ⟨r, hr, hnr, hpid⟩ := hd
    rw [h.distinct c d q r hc hr hne hnr (by exact_mod_cast hpid.symm)]

theorem timed_of_same_loop (h : Timed s kills) (hloop : u.loop = s.loop)
    (hchildren : ∀ c q, s.children.entry c = some q →
      ∃ r, u.children.entry c = some r ∧ r.tracked = q.tracked ∧ r.pid = q.pid) :
    Timed u kills := by
  obtain ⟨⟨htimers, hkills, honce, hflag⟩, hpids⟩ := h
  refine ⟨⟨?_, fun k hk => ?_, honce, ?_⟩, ?_⟩
  · simpa only [hloop] using htimers
  · obtain ⟨htable, c, q, htarget, hc, htracked, hpid⟩ := hkills k hk
    obtain ⟨r, hr, hrt, hrp⟩ := hchildren c q hc
    exact ⟨htable, c, r, htarget, hr, hrt.trans htracked, by rw [hrp, hpid]⟩
  · simpa only [hloop] using hflag
  · simpa only [hloop] using hpids

theorem setPhase_keeps (s : Reaper) (c : ℕ) (phase : Phase) (d : ℕ) (q : Process)
    (hq : s.children.entry d = some q) :
    ∃ r, (setPhase s c phase).children.entry d = some r ∧ r.tracked = q.tracked ∧
      r.pid = q.pid := by
  rw [setPhase_entry]
  split
  · rename_i hd
    subst hd
    exact ⟨{ q with phase := phase }, by simp [hq], rfl, rfl⟩
  · exact ⟨q, hq, rfl, rfl⟩

/-! ## Each step -/

theorem timed_spawn (ha : Agree s) (h : Timed s kills) {n : ℕ}
    (hfree : anyChild s (fun q => q.phase ≠ .reaped && q.pid == n) = false) (tracked : Bool)
    (timeout : ℤ) (desc : Text) : Timed (spawn s n tracked timeout desc) kills := by
  have hkeeps : ∀ c q, s.children.entry c = some q → ∃ r,
      (spawn s n tracked timeout desc).children.entry c = some r ∧ r.tracked = q.tracked ∧
        r.pid = q.pid := by
    intro c q hq
    refine ⟨q, ?_, rfl, rfl⟩
    rw [show (spawn s n tracked timeout desc).children = s.children.add _ from rfl,
      FreshTable.add_entry, if_neg (FreshTable.ne_next hq), hq]
  cases tracked with
  | false => exact timed_of_same_loop h rfl hkeeps
  | true =>
    have hnone : s.loop.processTable n = none := by
      cases hp : s.loop.processTable n with
      | none => rfl
      | some p =>
        obtain ⟨c, q, -, hq, -, hne, hpid⟩ := entry_child ha hp
        have hno := anyChild_false hfree hq
        have heq : q.pid = n := by exact_mod_cast hpid.symm
        simp [hne, heq] at hno
    obtain ⟨⟨htimers, hkills, honce, hflag⟩, hpids⟩ := h
    have habs : (|(n : ℤ)|) = n := abs_of_nonneg (Int.natCast_nonneg n)
    have htable := mainloopAddChild_table s.loop n timeout desc s.children.next
    rw [habs] at htable
    refine ⟨⟨fun id pid hid => ?_, fun k hk => ?_, honce, fun pid p hp => ?_⟩, fun pid p hp => ?_⟩
    · change (mainloopAddChild s.loop n timeout desc s.children.next).sources.entry id = _ at hid
      change ∃ p, (mainloopAddChild s.loop n timeout desc s.children.next).processTable pid = _ ∧ _
      have hold : s.loop.sources.entry id = some (.childTimeout pid) →
          ∃ p, (mainloopAddChild s.loop n timeout desc s.children.next).processTable pid = some p ∧
            p.timerid = id := by
        intro hid
        obtain ⟨p, hp, hpid⟩ := htimers id pid hid
        have hne : pid ≠ n := by
          rintro rfl
          rw [hnone] at hp
          cases hp
        exact ⟨p, by rw [htable, if_neg hne, hp], hpid⟩
      rw [mainloopAddChild_sources] at hid
      split at hid
      · rename_i htimeout
        rcases FreshTable.add_entry_some hid with ⟨hnext, hnew⟩ | hid
        · cases hnew
          exact ⟨_, by rw [htable, if_pos rfl], by simp [htimeout, hnext]⟩
        · exact hold hid
      · exact hold hid
    · obtain ⟨hin, c, q, htarget, hq, ht, hpid⟩ := hkills k hk
      obtain ⟨r, hr, hrt, hrp⟩ := hkeeps c q hq
      exact ⟨hin, c, r, htarget, hr, hrt.trans ht, by rw [hrp, hpid]⟩
    · change (mainloopAddChild s.loop n timeout desc s.children.next).processTable pid = _ at hp
      rw [htable] at hp
      split at hp
      · -- a new child was not sent anything yet
        cases hp
        refine ⟨fun hf => absurd hf Bool.false_ne_true, ?_⟩
        rintro ⟨k, hk, htarget⟩
        obtain ⟨-, c, q, hc, hq, -⟩ := hkills k hk
        rw [htarget] at hc
        cases hc
        exact absurd rfl (FreshTable.ne_next hq)
      · exact hflag pid p hp
    · change (mainloopAddChild s.loop n timeout desc s.children.next).processTable pid = _ at hp
      rw [htable] at hp
      split at hp
      · rename_i heq
        cases hp
        exact heq.symm
      · exact hpids pid p hp

theorem timed_reap (h : Timed s kills) (c : ℕ) (q : Process) (status : ℕ) :
    Timed (reap s c q status) kills := by
  have hphase := timed_of_same_loop h (setPhase_loop s c .reaped) (setPhase_keeps s c .reaped)
  unfold reap
  dsimp only [setPhase_loop]
  cases hp : s.loop.processTable q.pid with
  | none => exact hphase
  | some p =>
    obtain ⟨⟨htimers, hkills, honce, hflag⟩, hpids⟩ := hphase
    have htable : ∀ k, (removeChild (disarm s.loop p) q.pid).processTable k =
        if k = q.pid then none else s.loop.processTable k := by
      intro k
      simp only [removeChild, Function.update_apply, (disarm_table s.loop p).1]
    refine ⟨⟨fun id pid hid => ?_, hkills, honce, fun pid p' hp' => ?_⟩, fun pid p' hp' => ?_⟩
    · change (disarm s.loop p).sources.entry id = _ at hid
      change ∃ p', (removeChild (disarm s.loop p) q.pid).processTable pid = _ ∧ _
      rw [disarm_sources] at hid
      split at hid
      · cases hid
      · rename_i hne
        obtain ⟨p', hp', hid'⟩ := htimers id pid hid
        have hpid : pid ≠ q.pid := by
          rintro rfl
          have : p' = p := by simpa [hp] using hp'.symm
          exact hne (by rw [← hid', this])
        exact ⟨p', by rw [htable, if_neg hpid]; exact hp', hid'⟩
    · change (removeChild (disarm s.loop p) q.pid).processTable pid = _ at hp'
      rw [htable] at hp'
      split at hp'
      · cases hp'
      · exact hflag pid p' hp'
    · change (removeChild (disarm s.loop p) q.pid).processTable pid = _ at hp'
      rw [htable] at hp'
      split at hp'
      · cases hp'
      · exact hpids pid p' hp'

/-- The first time a timer fires, the child of the entry is sent a signal. -/
theorem sent_timeout (ha : Agree s) (hp : s.loop.processTable pid = some p) (hself : p.pid = pid)
    {c : ℕ} {q : Process} (hc : s.children.entry c = some q) (hne : q.phase ≠ .reaped)
    (hpid : pid = q.pid) (kill : KillResult) {source : ℕ}
    (hu : u = { s with loop := gSourceRemove (childTimeoutCallback s.loop pid kill) source }) :
    sent s u = if p.timeout = false then [⟨pid, true, some c⟩] else [] := by
  have hkilled := childTimeoutCallback_killed hp kill
  split
  · rename_i hf
    rw [if_pos hf, hself] at hkilled
    have hadded : u.loop.killed = pid :: s.loop.killed := by
      rw [hu]
      exact hkilled
    rw [sent_cons hadded, hp, hpid, target_eq ha hc hne]
    rfl
  · rename_i hf
    rw [if_neg hf] at hkilled
    apply sent_of_killed_eq
    rw [hu]
    exact hkilled

theorem once_timeout {c : ℕ} {fired : List Kill} {first : Bool}
    (hfired : fired = if first = false then [⟨pid, true, some c⟩] else [])
    (hfirst : first = false → ∀ k ∈ kills, k.target ≠ some c)
    {d : ℕ} (honce : (kills.map (·.target)).count (some d) ≤ 1) :
    ((fired ++ kills).map (·.target)).count (some d) ≤ 1 := by
  rw [List.map_append, List.count_append, hfired]
  split
  · rename_i hf
    by_cases hcd : d = c
    · subst hcd
      have hzero : (kills.map (·.target)).count (some d) = 0 := by
        rw [List.count_eq_zero]
        intro hmem
        obtain ⟨k, hk, htarget⟩ := List.mem_map.mp hmem
        exact hfirst hf k hk htarget
      simp [hzero]
    · have hcd' : c ≠ d := fun heq => hcd heq.symm
      simpa [hcd'] using honce
  · simpa using honce

theorem timed_timeout (ha : Agree s) (h : Timed s kills) {source : ℕ}
    (hsource : s.loop.sources.entry source = some (.childTimeout pid)) (kill : KillResult)
    (hu : u = { s with loop := gSourceRemove (childTimeoutCallback s.loop pid kill) source }) :
    Timed u (sent s u ++ kills) := by
  obtain ⟨⟨htimers, hkills, honce, hflag⟩, hpids⟩ := h
  obtain ⟨p, hp, hid⟩ := htimers source pid hsource
  obtain ⟨c, q, hdata, hc, htracked, hne, hpid⟩ := entry_child ha hp
  have hsent := sent_timeout ha hp (hpids pid p hp) hc hne hpid kill hu
  have hsources : ∀ id, u.loop.sources.entry id = if id = source then none else
      if p.timeout = false ∧ kill ≠ .esrch ∧ id = s.loop.sources.next then some (.childTimeout pid)
      else s.loop.sources.entry id := by
    intro id
    rw [hu]
    change ((childTimeoutCallback s.loop pid kill).sources.remove source).entry id = _
    rw [FreshTable.remove_entry, childTimeoutCallback_sources hp kill]
    split
    · rfl
    · by_cases hset : p.timeout = false ∧ kill ≠ .esrch
      · rw [if_pos hset, FreshTable.add_entry]
        simp only [hset.1, hset.2, true_and, ne_eq, not_false_eq_true]
      · rw [if_neg hset, if_neg fun hnew => hset ⟨hnew.1, hnew.2.1⟩]
  have htable : ∀ k, u.loop.processTable k = if k = pid then some { p with
      timerid := if p.timeout = false ∧ kill ≠ .esrch then s.loop.sources.next else 0
      timeout := true } else s.loop.processTable k := by
    intro k
    rw [hu]
    exact childTimeoutCallback_table hp kill k
  have hchildren : u.children = s.children := by rw [hu]
  -- a child whose flag is clear was not sent anything
  have hfirst : p.timeout = false → ∀ k ∈ kills, k.target ≠ some c := by
    intro hf k hk htarget
    have := (hflag pid p hp).mpr ⟨k, hk, htarget.trans hdata.symm⟩
    rw [hf] at this
    cases this
  constructor
  case safe =>
    constructor
    case timers =>
      intro id pid' hid'
      simp only [hsources] at hid'
      split at hid'
      · cases hid'
      · rename_i hother
        split at hid'
        · rename_i hnew
          cases hid'
          exact ⟨_, (htable pid).trans (if_pos rfl), by simp [hnew]⟩
        · obtain ⟨p', hp', htimer⟩ := htimers id pid' hid'
          have hpid' : pid' ≠ pid := by
            rintro rfl
            have heq : p' = p := Option.some.inj (hp'.symm.trans hp)
            exact hother (by rw [← htimer, heq, hid])
          exact ⟨p', by simpa only [htable, if_neg hpid'] using hp', htimer⟩
    case kills =>
      intro k hk
      simp only [hchildren]
      rcases List.mem_append.mp hk with hnew | hold
      · rw [hsent] at hnew
        split at hnew
        · obtain rfl := List.mem_singleton.mp hnew
          exact ⟨rfl, c, q, rfl, hc, htracked, hpid.symm⟩
        · cases hnew
      · exact hkills k hold
    case once => exact fun d => once_timeout hsent hfirst (honce d)
    case flag =>
      intro pid' p' hp'
      simp only [htable] at hp'
      split at hp'
      · cases hp'
        simp only [true_iff]
        cases ht : p.timeout with
        | false => exact ⟨⟨pid, true, some c⟩, by simp [hsent, ht], hdata.symm⟩
        | true =>
          obtain ⟨k, hk, htarget⟩ := (hflag pid p hp).mp ht
          exact ⟨k, List.mem_append_right _ hk, htarget⟩
      · rename_i hother
        rw [hflag pid' p' hp']
        constructor
        · rintro ⟨k, hk, htarget⟩
          exact ⟨k, List.mem_append_right _ hk, htarget⟩
        · rintro ⟨k, hk, htarget⟩
          rcases List.mem_append.mp hk with hnew | hold
          · -- the signal went to the child of another entry
            rw [hsent] at hnew
            split at hnew
            · obtain rfl := List.mem_singleton.mp hnew
              obtain ⟨d, r, hdata', hr, -, -, hpid'⟩ := entry_child ha hp'
              rw [hdata'] at htarget
              cases htarget
              have heq : r = q := by simpa [hc] using hr.symm
              exact absurd (by rw [hpid', heq, hpid]) hother
            · cases hnew
          · exact ⟨k, hold, htarget⟩
  case pids =>
    intro pid' p' hp'
    simp only [htable] at hp'
    split at hp'
    · rename_i heq
      cases hp'
      rw [heq]
      exact hpids pid p hp
    · exact hpids pid' p' hp'

theorem timed_step (ha : Agree s) (h : Timed s kills) {e : ReaperEvent}
    (hu : reaperStep s e = some u) : Timed u (sent s u ++ kills) := by
  have hquiet : u.loop.killed = s.loop.killed → Timed u kills → Timed u (sent s u ++ kills) := by
    intro hkilled hkeep
    rw [sent_of_killed_eq hkilled]
    exact hkeep
  have hm := reaperStep_move hu
  cases hm with
  | @spawn n tracked timeout desc hfree =>
    refine hquiet ?_ (timed_spawn ha h hfree tracked timeout desc)
    cases tracked with
    | false => rfl
    | true => exact mainloopAddChild_killed s.loop n timeout desc s.children.next
  | exit => exact hquiet rfl (timed_of_same_loop h rfl (setPhase_keeps s _ _))
  | @timeout source kill pid' =>
    simp only [reaperStep] at hu
    split at hu
    · rename_i pid hsource
      simp only [Option.ite_none_left_eq_some, Option.some.injEq] at hu
      exact timed_timeout ha h hsource kill hu.2.symm
    · cases hu
  | setErrno => exact hquiet rfl (timed_of_same_loop h rfl fun c q hq => ⟨q, hq, rfl, rfl⟩)
  | dispatch => exact hquiet rfl (timed_of_same_loop h rfl fun c q hq => ⟨q, hq, rfl, rfl⟩)
  | @reap c status q hc hz hd =>
    refine hquiet ?_ (timed_reap h c q status)
    unfold reap
    dsimp only [setPhase_loop]
    cases s.loop.processTable q.pid with
    | none => rfl
    | some p => exact (disarm_table s.loop p).2
  | waitNone => exact hquiet rfl (timed_of_same_loop h rfl fun c q hq => ⟨q, hq, rfl, rfl⟩)

end

/-! ## Whole runs -/

theorem agree_init : Agree Reaper.init := by
  refine ⟨?_, ?_, ?_, ?_, fun _ _ => rfl⟩
  all_goals simp [Reaper.init, Loop.init, dataOf]

theorem timed_init : Timed Reaper.init [] := by
  refine ⟨⟨?_, ?_, ?_, ?_⟩, ?_⟩
  all_goals simp [Reaper.init, Loop.init]

/-- Whatever children are started, exit and are reaped, and whichever timers fire: a timer is
always the one recorded for its pid, and signals go to the right children, once. -/
theorem timeouts_kill_safe (es : List ReaperEvent) :
    Always watchedStep KillSafe Watched.init es := by
  have hall : Throughout watchedStep (fun _ _ => True) Watched.init es :=
    .of_forall (fun _ _ _ => trivial) _
  refine (always_of_preserved (I := fun w => Agree w.reaper ∧ Timed w.reaper w.kills) ?_
    ⟨agree_init, timed_init⟩ hall).imp fun _ hw => hw.2.safe
  rintro w e w' ⟨ha, ht⟩ - hstep
  obtain ⟨u, hu, rfl⟩ := Option.map_eq_some_iff.mp hstep
  exact ⟨agree_move ha (reaperStep_move hu), timed_step ha ht hu⟩

example : (exec watchedStep Watched.init [.spawn 7 true 100 [], .exit 1 0, .timeout 1 .ok]).map
    (·.kills) = some [⟨7, true, some 1⟩] := by decide

end Matahari.Reaping
