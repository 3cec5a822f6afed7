import Matahari.Library.Transition
import Matahari.Mainloop

set_option autoImplicit false

/-!
# Reaping children

The `SIGCHLD` source of `mainloop.c`: a handler that sets one boolean, a
dispatch that clears it, and the loop of `child_death_dispatch` around `wait3`.
Children may exit at any time, also between two turns of that loop. The kernel's
side is a table of the children ever forked; the user data of a process-table
entry says which of them it is about.
-/
namespace Matahari.Reaping
open Mainloop TransitionRuns

inductive Phase where
  | running
  | zombie (status : ℕ)
  | reaped
  deriving DecidableEq, Repr

structure Process where
  pid : ℕ
  tracked : Bool
  phase : Phase
  deriving DecidableEq, Repr

inductive Errno where
  | eagain
  | echild
  | other
  deriving DecidableEq, Repr

/-- `deaths` lists the calls of the callbacks with the child, the signal and the
exit code, the latest first. -/
structure Reaper where
  loop : Loop ℕ
  children : FreshTable Process
  trigger : Bool
  dispatching : Bool
  errno : Errno
  deaths : List (ℕ × ℕ × ℕ)

def Reaper.init : Reaper := ⟨Loop.init, FreshTable.empty, false, false, .other, []⟩

def Phase.isZombie : Phase → Bool
  | .zombie _ => true
  | _ => false

def setPhase (s : Reaper) (c : ℕ) (phase : Phase) : Reaper :=
  { s with children := s.children.modify c fun q => { q with phase := phase } }

def anyChild (s : Reaper) (f : Process → Bool) : Bool :=
  (List.range s.children.next).any fun c => (s.children.entry c).any f

def spawn (s : Reaper) (pid : ℕ) (tracked : Bool) (timeout : ℤ) (desc : Text) : Reaper :=
  { s with
    children := s.children.add ⟨pid, tracked, .running⟩
    loop := if tracked then mainloopAddChild s.loop pid timeout desc s.children.next else s.loop }

def mainloopSignalHandler (s : Reaper) : Reaper := { s with trigger := true }

def mainloopSignalDispatch (s : Reaper) : Reaper := { s with trigger := false, dispatching := true }

/-- A turn of `child_death_dispatch` for which `wait3` returns this child. An entry of the
process table ends the dispatch with it, otherwise the loop goes on. -/
def reap (s : Reaper) (c : ℕ) (q : Process) (status : ℕ) : Reaper :=
  let s := setPhase s c .reaped
  match s.loop.processTable q.pid with
  | none => s
  | some p =>
    let codes := deathCodes status
    { s with
      loop := removeChild (disarm s.loop p) q.pid
      deaths := (p.privatedata.getD 0, codes) :: s.deaths
      dispatching := false }

def waitNone (s : Reaper) : Reaper :=
  let errno := if anyChild s fun q => q.phase = .running then s.errno else .echild
  { s with errno := errno, dispatching := decide (errno = .eagain) }

inductive ReaperEvent where
  | spawn (pid : ℕ) (tracked : Bool) (timeout : ℤ) (desc : Text)
  | exit (c status : ℕ)
  | timeout (source : ℕ) (kill : KillResult)
  | setErrno (errno : Errno)
  | dispatch
  | wait (c : Option ℕ)

/-- The main loop has one thread: while it is in the dispatch, only exits come
from outside. A pid is not given out again before its child is reaped. -/
def reaperStep (s : Reaper) : ReaperEvent → Option Reaper
  | .spawn pid tracked timeout desc =>
    if s.dispatching = false ∧ 0 < pid ∧
        anyChild s (fun q => q.phase ≠ .reaped && q.pid == pid) = false then
      some (spawn s pid tracked timeout desc)
    else none
  | .exit c status => match s.children.entry c with
    | some ⟨_, _, .running⟩ => some (mainloopSignalHandler (setPhase s c (.zombie status)))
    | _ => none
  | .timeout source kill => match s.loop.sources.entry source with
    | some (.childTimeout pid) =>
      if s.dispatching then none
      else some { s with loop := gSourceRemove (childTimeoutCallback s.loop pid kill) source }
    | _ => none
  | .setErrno errno => if s.dispatching then none else some { s with errno := errno }
  | .dispatch =>
    if s.trigger ∧ s.dispatching = false then some (mainloopSignalDispatch s) else none
  | .wait (some c) => match s.children.entry c with
    | some ⟨pid, tracked, .zombie status⟩ =>
      if s.dispatching then some (reap s c ⟨pid, tracked, .zombie status⟩ status) else none
    | _ => none
  | .wait none =>
    if s.dispatching ∧ anyChild s (fun q => q.phase.isZombie) = false then some (waitNone s)
    else none

/-! ## Table and kernel agree -/

def callbacks (s : Reaper) (c : ℕ) : ℕ := (s.deaths.map Prod.fst).count c

def dataOf (m : Loop ℕ) (pid : ℤ) : Option (Option ℕ) := (m.processTable pid).map (·.privatedata)

structure Agree (s : Reaper) : Prop where
  entry : ∀ pid d, dataOf s.loop pid = some d → ∃ c q, d = some c ∧
    s.children.entry c = some q ∧ q.tracked = true ∧ q.phase ≠ .reaped ∧ pid = q.pid
  tracked : ∀ c q, s.children.entry c = some q → q.tracked = true → q.phase ≠ .reaped →
    dataOf s.loop q.pid = some (some c)
  distinct : ∀ c d q r, s.children.entry c = some q → s.children.entry d = some r →
    q.phase ≠ .reaped → r.phase ≠ .reaped → q.pid = r.pid → c = d
  once : ∀ c q, s.children.entry c = some q →
    callbacks s c = if q.tracked = true ∧ q.phase = .reaped then 1 else 0
  unborn : ∀ c, s.children.entry c = none → callbacks s c = 0

def Unreaped (s : Reaper) (c : ℕ) : Prop :=
  ∃ q, s.children.entry c = some q ∧ q.tracked = true ∧ q.phase.isZombie = true

/-- What is still to be reaped while the trigger is clear. -/
structure Coalesced (s : Reaper) : Prop where
  idle : s.trigger = false → s.dispatching = false → ∀ c, ¬ Unreaped s c
  busy : s.trigger = false → s.dispatching = true → ∀ c d, Unreaped s c → Unreaped s d → c = d

section
variable {s u : Reaper}

theorem anyChild_iff {f : Process → Bool} :
    anyChild s f = true ↔ ∃ c q, s.children.entry c = some q ∧ f q = true :=
  FreshTable.any_iff

theorem anyChild_false {f : Process → Bool} (h : anyChild s f = false) {c : ℕ} {q : Process}
    (hq : s.children.entry c = some q) : f q = false := by
  rw [← Bool.not_eq_true, anyChild_iff] at h
  exact Bool.eq_false_of_not_eq_true fun hf => h ⟨c, q, hq, hf⟩

theorem setPhase_entry (s : Reaper) (c k : ℕ) (phase : Phase) :
    (setPhase s c phase).children.entry k =
      if k = c then (s.children.entry c).map fun q => { q with phase := phase }
      else s.children.entry k :=
  FreshTable.modify_entry s.children c k _

@[simp] theorem setPhase_loop (s : Reaper) (c : ℕ) (phase : Phase) :
    (setPhase s c phase).loop = s.loop := rfl

@[simp] theorem setPhase_deaths (s : Reaper) (c : ℕ) (phase : Phase) :
    (setPhase s c phase).deaths = s.deaths := rfl

theorem dataOf_mainloopAddChild (m : Loop ℕ) (pid : ℕ) (timeout : ℤ) (desc : Text) (data : ℕ)
    (k : ℤ) : dataOf (mainloopAddChild m pid timeout desc data) k =
      if k = pid then some (some data) else dataOf m k := by
  have habs : (|(pid : ℤ)|) = pid := abs_of_nonneg (Int.natCast_nonneg pid)
  unfold dataOf
  rw [mainloopAddChild_table, habs]
  split <;> rfl

theorem dataOf_removeChild (m : Loop ℕ) (p : MainloopChild ℕ) (pid k : ℤ) :
    dataOf (removeChild (disarm m p) pid) k = if k = pid then none else dataOf m k := by
  unfold dataOf removeChild
  dsimp only
  rw [Function.update_apply, (disarm_table m p).1]
  split <;> rfl

theorem dataOf_childTimeoutCallback (m : Loop ℕ) (pid : ℤ) (kill : KillResult) (k : ℤ) :
    dataOf (childTimeoutCallback m pid kill) k = dataOf m k := by
  cases hp : m.processTable pid with
  | none => rw [childTimeoutCallback_none hp]
  | some p =>
    unfold dataOf
    rw [childTimeoutCallback_table hp]
    split
    · rename_i hk
      rw [hk, hp]
      rfl
    · rfl

theorem agree_spawn (h : Agree s) {pid : ℕ}
    (hpid : anyChild s (fun q => q.phase ≠ .reaped && q.pid == pid) = false) (tracked : Bool)
    (timeout : ℤ) (desc : Text) : Agree (spawn s pid tracked timeout desc) := by
  have hfree : ∀ c q, s.children.entry c = some q → q.phase ≠ .reaped → q.pid ≠ pid := by
    intro c q hq hne
    simpa [hne] using anyChild_false hpid hq
  have hnext := s.children.next_entry
  have hdata : ∀ k, dataOf (spawn s pid tracked timeout desc).loop k =
      if tracked = true ∧ k = pid then some (some s.children.next) else dataOf s.loop k := by
    intro k
    cases tracked with
    | false => simp [spawn]
    | true => simp [spawn, dataOf_mainloopAddChild]
  have hentries : ∀ k, (spawn s pid tracked timeout desc).children.entry k =
      if k = s.children.next then some ⟨pid, tracked, .running⟩ else s.children.entry k :=
    FreshTable.add_entry s.children _
  have hcalls : ∀ c, callbacks (spawn s pid tracked timeout desc) c = callbacks s c := fun _ => rfl
  have hold : ∀ {c q}, s.children.entry c = some q →
      (spawn s pid tracked timeout desc).children.entry c = some q := by
    intro c q hq
    rw [hentries, if_neg (FreshTable.ne_next hq), hq]
  constructor
  case entry =>
    intro k d hd
    rw [hdata] at hd
    split at hd
    · rename_i hk
      cases hd
      refine ⟨s.children.next, ⟨pid, tracked, .running⟩, rfl, ?_, hk.1, by simp, hk.2⟩
      rw [hentries, if_pos rfl]
    · obtain ⟨c, q, rfl, hq, ht, hphase, hpid⟩ := h.entry k d hd
      exact ⟨c, q, rfl, hold hq, ht, hphase, hpid⟩
  case tracked =>
    intro c q hq ht hphase
    rw [hentries] at hq
    split at hq
    · rename_i hc
      cases hq
      rw [hdata, if_pos ⟨ht, rfl⟩, hc]
    · rw [hdata, if_neg, h.tracked c q hq ht hphase]
      rintro ⟨-, hpid⟩
      exact hfree c q hq hphase (by exact_mod_cast hpid)
  case distinct =>
    intro c d q r hq hr hqphase hrphase hpid
    rw [hentries] at hq hr
    split at hq <;> split at hr
    · rename_i hc hd
      rw [hc, hd]
    · cases hq
      exact absurd hpid.symm (hfree d r hr hrphase)
    · cases hr
      exact absurd hpid (hfree c q hq hqphase)
    · exact h.distinct c d q r hq hr hqphase hrphase hpid
  case once =>
    intro c q hq
    rw [hentries] at hq
    split at hq
    · rename_i hc
      cases hq
      rw [hcalls, hc, h.unborn _ hnext, if_neg (by simp)]
    · rw [hcalls, h.once c q hq]
  case unborn =>
    intro c hc
    rw [hentries] at hc
    split at hc
    · cases hc
    · rw [hcalls, h.unborn c hc]

theorem agree_phase (h : Agree s) {c : ℕ} {q : Process} (hc : s.children.entry c = some q)
    (hne : q.phase ≠ .reaped) (phase : Phase)
    (hchildren : u.children = (setPhase s c phase).children)
    (hdata : ∀ k, dataOf u.loop k =
      if phase = .reaped ∧ q.tracked = true ∧ k = q.pid then none else dataOf s.loop k)
    (hcalls : ∀ k, callbacks u k =
      callbacks s k + if k = c ∧ q.tracked = true ∧ phase = .reaped then 1 else 0) : Agree u := by
  have hentries : ∀ k, u.children.entry k =
      if k = c then some { q with phase := phase } else s.children.entry k := by
    intro k
    rw [hchildren, setPhase_entry, hc, Option.map_some]
  -- what the table holds now was there before, and only this child can have been reaped
  have hbefore : ∀ {k r}, u.children.entry k = some r → ∃ r', s.children.entry k = some r' ∧
      r'.tracked = r.tracked ∧ r'.pid = r.pid ∧ (r.phase ≠ .reaped → r'.phase ≠ .reaped) := by
    intro k r hr
    rw [hentries] at hr
    split at hr
    · rename_i hk
      cases hr
      exact ⟨q, hk ▸ hc, rfl, rfl, fun _ => hne⟩
    · exact ⟨r, hr, rfl, rfl, id⟩
  constructor
  case entry =>
    intro pid d hd
    rw [hdata] at hd
    split at hd
    · cases hd
    · rename_i hkept
      obtain ⟨k, r, rfl, hr, ht, hphase, hpid⟩ := h.entry pid d hd
      by_cases hk : k = c
      · subst hk
        rw [hc] at hr
        cases hr
        refine ⟨k, { q with phase := phase }, rfl, ?_, ht, ?_, hpid⟩
        · rw [hentries, if_pos rfl]
        · exact fun hreaped => hkept ⟨hreaped, ht, hpid⟩
      · refine ⟨k, r, rfl, ?_, ht, hphase, hpid⟩
        rw [hentries, if_neg hk, hr]
  case tracked =>
    intro k r hr ht hphase
    obtain ⟨r', hr', htracked, hpid, hunreaped⟩ := hbefore hr
    have hold := h.tracked k r' hr' (htracked.trans ht) (hunreaped hphase)
    rw [hdata, ← hpid, hold, if_neg]
    rintro ⟨hreaped, -, hsame⟩
    obtain rfl := h.distinct k c r' q hr' hc (hunreaped hphase) hne (by exact_mod_cast hsame)
    rw [hentries, if_pos rfl] at hr
    cases hr
    exact hphase hreaped
  case distinct =>
    intro k l r t hr ht hrphase htphase hpid
    obtain ⟨r', hr', -, hrpid, hrunreaped⟩ := hbefore hr
    obtain ⟨t', ht', -, htpid, htunreaped⟩ := hbefore ht
    exact h.distinct k l r' t' hr' ht' (hrunreaped hrphase) (htunreaped htphase)
      (hrpid.trans (hpid.trans htpid.symm))
  case once =>
    intro k r hr
    rw [hentries] at hr
    split at hr
    · rename_i hk
      cases hr
      have honce := h.once c q hc
      rw [if_neg (fun hq => hne hq.2)] at honce
      rw [hcalls, hk, honce, Nat.zero_add]
      simp only [true_and]
    · rename_i hk
      rw [hcalls, if_neg (fun hq => hk hq.1), Nat.add_zero, h.once k r hr]
  case unborn =>
    intro k hk
    rw [hentries] at hk
    split at hk
    · cases hk
    · rename_i hne
      rw [hcalls, if_neg (fun hq => hne hq.1), Nat.add_zero, h.unborn k hk]

theorem agree_exit (h : Agree s) {c pid : ℕ} {tracked : Bool}
    (hc : s.children.entry c = some ⟨pid, tracked, .running⟩) (status : ℕ) :
    Agree (mainloopSignalHandler (setPhase s c (.zombie status))) := by
  refine agree_phase h hc (by simp) (.zombie status) rfl ?_ ?_
  · intro k
    rw [if_neg (by simp)]
    rfl
  · intro k
    rw [if_neg (by simp)]
    rfl

/-- The table look-up tells tracked children from others, and finds the right one. -/
theorem reap_eq (h : Agree s) {c : ℕ} {q : Process} (hc : s.children.entry c = some q)
    (hne : q.phase ≠ .reaped) (status : ℕ) :
    q.tracked = false ∧ reap s c q status = setPhase s c .reaped ∨
    q.tracked = true ∧ ∃ p, reap s c q status = { setPhase s c .reaped with
      loop := removeChild (disarm s.loop p) q.pid
      deaths := (c, deathCodes status) :: s.deaths
      dispatching := false } := by
  unfold reap
  dsimp only [setPhase_loop]
  cases hp : s.loop.processTable q.pid with
  | none =>
    refine .inl ⟨?_, rfl⟩
    by_contra ht
    have hd := h.tracked c q hc (by simpa using ht) hne
    simp [dataOf, hp] at hd
  | some p =>
    obtain ⟨d, r, hd, hr, ht, hnr, hpid⟩ := h.entry q.pid p.privatedata (by simp [dataOf, hp])
    obtain rfl := h.distinct c d q r hc hr hne hnr (by exact_mod_cast hpid)
    obtain rfl : q = r := by simpa [hc] using hr
    refine .inr ⟨ht, p, ?_⟩
    simp only [hd, Option.getD_some, setPhase_deaths]

theorem agree_reap (h : Agree s) {c : ℕ} {q : Process} (hc : s.children.entry c = some q)
    (hne : q.phase ≠ .reaped) (status : ℕ) : Agree (reap s c q status) := by
  obtain ⟨ht, he⟩ | ⟨ht, p, he⟩ := reap_eq h hc hne status
  · rw [he]
    refine agree_phase h hc hne .reaped rfl ?_ ?_
    · intro k
      simp [ht]
    · intro k
      simp [ht, callbacks]
  · rw [he]
    refine agree_phase h hc hne .reaped rfl ?_ ?_
    · intro k
      simp [ht, dataOf_removeChild]
    · intro k
      simp only [callbacks, List.map_cons, List.count_cons, beq_iff_eq, @eq_comm _ c k, ht,
        and_true]

theorem agree_of_same (h : Agree s) (hc : u.children = s.children)
    (hd : ∀ k, dataOf u.loop k = dataOf s.loop k) (hl : u.deaths = s.deaths) : Agree u := by
  obtain ⟨hentry, htracked, hdistinct, honce, hunborn⟩ := h
  constructor
  all_goals
    simp only [hc, hd, callbacks, hl] at *
    assumption

inductive Move (s : Reaper) : ReaperEvent → Reaper → Prop
  | spawn {pid : ℕ} {tracked : Bool} {timeout : ℤ} {desc : Text} :
    anyChild s (fun q => q.phase ≠ .reaped && q.pid == pid) = false →
      Move s (.spawn pid tracked timeout desc) (spawn s pid tracked timeout desc)
  | exit {c status pid : ℕ} {tracked : Bool} :
    s.children.entry c = some ⟨pid, tracked, .running⟩ →
      Move s (.exit c status) (mainloopSignalHandler (setPhase s c (.zombie status)))
  | timeout {source : ℕ} {kill : KillResult} (pid : ℤ) :
    Move s (.timeout source kill)
      { s with loop := gSourceRemove (childTimeoutCallback s.loop pid kill) source }
  | setErrno {errno : Errno} : Move s (.setErrno errno) { s with errno := errno }
  | dispatch : Move s .dispatch (mainloopSignalDispatch s)
  | reap {c status : ℕ} {q : Process} :
    s.children.entry c = some q → q.phase = .zombie status → s.dispatching = true →
      Move s (.wait (some c)) (reap s c q status)
  | waitNone : anyChild s (fun q => q.phase.isZombie) = false → Move s (.wait none) (waitNone s)

theorem reaperStep_move {e : ReaperEvent} (h : reaperStep s e = some u) : Move s e u := by
  cases e with
  | spawn pid tracked timeout desc =>
    simp only [reaperStep, Option.ite_none_right_eq_some, Option.some.injEq] at h
    obtain ⟨⟨-, -, hpid⟩, rfl⟩ := h
    exact .spawn hpid
  | exit c status =>
    simp only [reaperStep] at h
    split at h
    · rename_i hc
      cases h
      exact .exit hc
    · cases h
  | timeout source kill =>
    simp only [reaperStep] at h
    split at h
    · simp only [Option.ite_none_left_eq_some, Option.some.injEq] at h
      obtain ⟨-, rfl⟩ := h
      exact .timeout _
    · cases h
  | setErrno errno =>
    simp only [reaperStep, Option.ite_none_left_eq_some, Option.some.injEq] at h
    obtain ⟨-, rfl⟩ := h
    exact .setErrno
  | dispatch =>
    simp only [reaperStep, Option.ite_none_right_eq_some, Option.some.injEq] at h
    obtain ⟨-, rfl⟩ := h
    exact .dispatch
  | wait c =>
    cases c with
    | none =>
      simp only [reaperStep, Option.ite_none_right_eq_some, Option.some.injEq] at h
      obtain ⟨⟨-, hz⟩, rfl⟩ := h
      exact .waitNone hz
    | some c =>
      simp only [reaperStep] at h
      split at h
      · rename_i hc
        simp only [Option.ite_none_right_eq_some, Option.some.injEq] at h
        obtain ⟨hd, rfl⟩ := h
        exact .reap hc rfl hd
      · cases h

theorem agree_move {e : ReaperEvent} (h : Agree s) (hm : Move s e u) : Agree u := by
  cases hm with
  | spawn hpid => exact agree_spawn h hpid _ _ _
  | exit hc => exact agree_exit h hc _
  | timeout pid =>
    exact agree_of_same h rfl (fun k => dataOf_childTimeoutCallback s.loop pid _ k) rfl
  | setErrno => exact agree_of_same h rfl (fun _ => rfl) rfl
  | dispatch => exact agree_of_same h rfl (fun _ => rfl) rfl
  | reap hc hz _ => exact agree_reap h hc (by simp [hz]) _
  | waitNone _ => exact agree_of_same h rfl (fun _ => rfl) rfl

/-! ## What a dispatch leaves -/

def unreaped (s : Reaper) : List ℕ :=
  (List.range s.children.next).filter fun c =>
    (s.children.entry c).any fun q => q.tracked && q.phase.isZombie

theorem mem_unreaped {c : ℕ} : c ∈ unreaped s ↔ Unreaped s c := by
  simp only [unreaped, List.mem_filter, List.mem_range, Option.any_eq_true, Bool.and_eq_true]
  constructor
  · rintro ⟨-, q, hq, hz⟩
    exact ⟨q, hq, hz⟩
  · rintro ⟨q, hq, hz⟩
    exact ⟨FreshTable.lt_next hq, q, hq, hz⟩

theorem unreaped_unique (h : (unreaped s).length ≤ 1) {c d : ℕ} (hc : Unreaped s c)
    (hd : Unreaped s d) : c = d := by
  rw [← mem_unreaped] at hc hd
  match he : unreaped s, h with
  | [], _ => simp [he] at hc
  | [x], _ =>
    rw [he, List.mem_singleton] at hc hd
    rw [hc, hd]

theorem unreaped_setPhase {c k : ℕ} (h : Unreaped (setPhase s c .reaped) k) :
    Unreaped s k ∧ k ≠ c := by
  obtain ⟨q, hq, ht, hz⟩ := h
  rw [setPhase_entry] at hq
  split at hq
  · obtain ⟨r, -, rfl⟩ := Option.map_eq_some_iff.mp hq
    simp [Phase.isZombie] at hz
  · exact ⟨⟨q, hq, ht, hz⟩, ‹_›⟩

theorem unreaped_spawn {pid : ℕ} {tracked : Bool} {timeout : ℤ} {desc : Text} {k : ℕ}
    (h : Unreaped (spawn s pid tracked timeout desc) k) : Unreaped s k := by
  obtain ⟨q, hq, ht, hz⟩ := h
  obtain ⟨-, rfl⟩ | hq := FreshTable.add_entry_some hq
  · simp [Phase.isZombie] at hz
  · exact ⟨q, hq, ht, hz⟩

theorem coalesced_move {e : ReaperEvent} (ha : Agree s) (h : Coalesced s) (hm : Move s e u)
    (hok : e = .dispatch → (unreaped s).length ≤ 1) : Coalesced u := by
  cases hm with
  | spawn _ =>
    exact ⟨fun ht hd c hc => h.idle ht hd c (unreaped_spawn hc),
      fun ht hd c d hc hd' => h.busy ht hd c d (unreaped_spawn hc) (unreaped_spawn hd')⟩
  | exit _ => exact ⟨fun ht => (by cases ht), fun ht => (by cases ht)⟩
  | timeout _ => exact ⟨h.idle, h.busy⟩
  | setErrno => exact ⟨h.idle, h.busy⟩
  | dispatch =>
    refine ⟨fun _ hd => (by cases hd), fun _ _ c d hc hd => ?_⟩
    exact unreaped_unique (hok rfl) hc hd
  | @reap c status q hc hz hd =>
    obtain ⟨-, he⟩ | ⟨htr, p, he⟩ := reap_eq ha hc (by simp [hz]) status
    · rw [he]
      exact ⟨fun ht hd' k hk => h.idle ht hd' k (unreaped_setPhase hk).1, fun ht hd' k l hk hl =>
        h.busy ht hd' k l (unreaped_setPhase hk).1 (unreaped_setPhase hl).1⟩
    · -- the dispatch ends here, and this child was the only one left
      rw [he]
      refine ⟨fun ht _ k hk => ?_, fun _ hd' => by cases hd'⟩
      obtain ⟨hk, hne⟩ := unreaped_setPhase (s := s) (c := c) hk
      exact hne (h.busy ht hd k c hk ⟨q, hc, htr, by simp [hz, Phase.isZombie]⟩)
  | waitNone hz =>
    have hnone : ∀ c, ¬ Unreaped s c := by
      rintro c ⟨q, hq, -, hzq⟩
      rw [anyChild_false hz hq] at hzq
      cases hzq
    exact ⟨fun _ _ c hc => hnone c hc, fun _ _ c _ hc _ => absurd hc (hnone c)⟩

end

/-! ## Whole runs -/

/-- With a clear trigger and no dispatch in progress, every tracked child that
has exited was reaped, was reported once and left the table. -/
def Drained (s : Reaper) : Prop :=
  s.trigger = false → s.dispatching = false → ∀ c q, s.children.entry c = some q →
    q.tracked = true → q.phase ≠ .running →
    q.phase = .reaped ∧ callbacks s c = 1 ∧
      ∀ pid p, s.loop.processTable pid = some p → p.privatedata ≠ some c

/-- A dispatch begins with at most one tracked child to reap. -/
def SingleDeath (s : Reaper) : ReaperEvent → Prop
  | .dispatch => (unreaped s).length ≤ 1
  | _ => True

instance decidableSingleDeath (s : Reaper) : ∀ e, Decidable (SingleDeath s e)
  | .dispatch => inferInstanceAs (Decidable (_ ≤ _))
  | .spawn _ _ _ _ | .exit _ _ | .timeout _ _ | .setErrno _ | .wait _ =>
    inferInstanceAs (Decidable True)

theorem drained_of_agree {s : Reaper} (ha : Agree s) (hc : Coalesced s) : Drained s := by
  intro ht hd c q hq htr hrun
  have hz : ¬ Unreaped s c := hc.idle ht hd c
  have hreaped : q.phase = .reaped := by
    cases hp : q.phase with
    | running => exact absurd hp hrun
    | zombie status => exact absurd ⟨q, hq, htr, by simp [hp, Phase.isZombie]⟩ hz
    | reaped => rfl
  refine ⟨hreaped, ?_, fun pid p hp hdata => ?_⟩
  · rw [ha.once c q hq, if_pos ⟨htr, hreaped⟩]
  · obtain ⟨d, r, hd, hr, -, hne, -⟩ := ha.entry pid (some c) (by simp [dataOf, hp, hdata])
    obtain rfl := Option.some.inj hd
    obtain rfl : q = r := by simpa [hq] using hr
    exact hne hreaped

/-- While every dispatch has at most one tracked child to reap, none is left behind. -/
theorem single_death_drained (es : List ReaperEvent)
    (h : Throughout reaperStep SingleDeath Reaper.init es) :
    Always reaperStep Drained Reaper.init es := by
  have hinit : Agree Reaper.init ∧ Coalesced Reaper.init := by
    refine ⟨⟨?_, ?_, ?_, ?_, fun _ _ => rfl⟩, fun _ _ c => ?_, fun _ hd => (by cases hd)⟩
    all_goals simp [Reaper.init, Loop.init, dataOf, Unreaped]
  refine (always_of_preserved (I := fun s => Agree s ∧ Coalesced s) ?_ hinit h).imp
    fun _ hs => drained_of_agree hs.1 hs.2
  rintro s e u ⟨ha, hc⟩ hok hu
  have hm := reaperStep_move hu
  refine ⟨agree_move ha hm, coalesced_move ha hc hm ?_⟩
  rintro rfl
  exact hok

theorem single_death_drained_two :
    let es : List ReaperEvent := [.spawn 7 true 1000 [], .spawn 8 true 0 [], .spawn 9 false 0 [],
      .exit 1 0, .exit 3 9, .dispatch, .wait (some 3), .exit 2 256, .wait (some 1), .dispatch,
      .wait (some 2)]
    (exec reaperStep Reaper.init es).isSome = true ∧
      Throughout reaperStep SingleDeath Reaper.init es ∧
      Always reaperStep Drained Reaper.init es := by
  intro es
  have h : Throughout reaperStep SingleDeath Reaper.init es := by decide
  exact ⟨by decide, h, single_death_drained es h⟩

/-- Two children exit before one dispatch, which returns after the first. -/
theorem second_child_left_behind :
    ¬ Always reaperStep Drained Reaper.init [.spawn 7 true 0 [], .spawn 8 true 0 [],
      .exit 1 0, .exit 2 0, .dispatch, .wait (some 1)] := by
  intro h
  have hend := h.final (Option.some_get (by decide)).symm
  have hreaped := (hend (by decide) (by decide) 2 _ (Option.some_get (by decide)).symm
    (by decide) (by decide)).1
  exact absurd hreaped (by decide)

end Matahari.Reaping
