import Matahari.ServicesSteps

set_option autoImplicit false

/-!
# The synchronous path

`services_os_action_execute(op, TRUE)` polls once a second and classifies the
child itself. The asynchronous path leaves that to the timer, the `SIGCHLD`
dispatch and `operation_finished`. Times are in milliseconds since the fork.
-/
namespace Matahari.Services
open Mainloop TransitionRuns

variable {C W : Type}

/-- The loop around `waitpid`: the status it gets, or `none` where the counter
reaches zero. `death now` is what `waitpid` reports at that time. -/
def waitLoop (death : ℕ → Option ℕ) : ℕ → ℕ → Option ℕ
  | 0, _ => none
  | timeout + 1, now => match death now with
    | some status => some status
    | none => waitLoop death timeout (now + 1000)

def SvcAction.classify (a : SvcAction C) (status : ℕ) : SvcAction C :=
  if wifexited status then { a with status := .done, rc := wexitstatus status }
  else if wifsignaled status then { a with status := .error }
  else a

/-- The counter starts at `1 + op->timeout / 1000`. A negative one skips the loop
without being zero, and the status is still the zero it was set to. -/
def servicesOsActionSync (a : SvcAction C) (death : ℕ → Option ℕ) : SvcAction C :=
  let timeout := 1 + a.timeout.tdiv 1000
  match waitLoop death timeout.toNat 0 with
  | some status => a.classify status
  | none => if 0 ≤ timeout then { a with status := .timeout } else a.classify 0

/-- What becomes of a child: it exits or is killed some time before the timeout,
or is still there when the timeout expires. -/
inductive Fate where
  | exited (c time : ℕ)
  | signalled (signo : ℕ) (core : Bool) (time : ℕ)
  | outlives

def Fate.Possible (timeout : ℤ) : Fate → Prop
  | .exited c time => c < 256 ∧ time < timeout
  | .signalled signo _ time => 0 < signo ∧ signo < 127 ∧ time < timeout
  | .outlives => True

def Fate.death : Fate → ℕ → Option ℕ
  | .exited c time, now => if time ≤ now then some (exitStatus c) else none
  | .signalled signo core time, now => if time ≤ now then some (signalStatus signo core) else none
  | .outlives, _ => none

def Fate.events (timer pid : ℕ) : Fate → List (Event C)
  | .exited c _ => [.childExit pid (exitStatus c)]
  | .signalled signo core _ => [.childExit pid (signalStatus signo core)]
  | .outlives => [.childTimeout timer .ok, .childExit pid (signalStatus 9 false)]

def SvcAction.verdict (a : SvcAction C) : OpStatus × ℤ := (a.status, a.rc)

def asyncVerdict (run : C → ℕ → SvcAction C → W → W) (s : Engine C W) (r : ActionRequest)
    (callback : Option C) (pid : ℕ) (fate : Fate) : Option (OpStatus × ℤ) :=
  (exec (step run) s (.submit r callback (some pid) :: fate.events s.loop.sources.next pid)).bind
    fun u => (u.heap.entry s.heap.next).map SvcAction.verdict

def syncVerdict (C : Type) (operations : ℕ) (r : ActionRequest) (fate : Fate) :
    Option (OpStatus × ℤ) :=
  (resourcesActionCreate (C := C) operations r).1.map fun a =>
    (servicesOsActionSync a fate.death).verdict

/-! ## The polling loop -/

/-- The child is seen at the first full second after its death, if that poll is made. -/
theorem waitLoop_after (status time : ℕ) (timeout now : ℕ) :
    waitLoop (fun n => if time ≤ n then some status else none) (timeout + 1) now =
      if time ≤ now + 1000 * timeout then some status else none := by
  induction timeout generalizing now with
  | zero => by_cases h : time ≤ now <;> simp [waitLoop, h]
  | succ timeout ih =>
    rw [waitLoop]
    by_cases h : time ≤ now
    · rw [if_pos h, if_pos (by omega)]
    · rw [if_neg h]
      dsimp only
      rw [ih]
      congr 1
      apply propext
      constructor <;> intro <;> omega

theorem waitLoop_never (timeout now : ℕ) : waitLoop (fun _ => none) timeout now = none := by
  induction timeout generalizing now with
  | zero => rfl
  | succ timeout ih => exact ih (now + 1000)

def lastPoll (timeout : ℤ) : ℕ := 1000 * (timeout.toNat / 1000)

theorem sync_counter {timeout : ℤ} (h : 0 ≤ timeout) :
    0 ≤ 1 + timeout.tdiv 1000 ∧ (1 + timeout.tdiv 1000).toNat = timeout.toNat / 1000 + 1 := by
  obtain ⟨n, rfl⟩ := Int.eq_ofNat_of_zero_le h
  have hdiv : ((n : ℕ) : ℤ).tdiv 1000 = ((n / 1000 : ℕ) : ℤ) := rfl
  rw [hdiv]
  omega

/-- A child that dies at `time` is seen by the last poll or counts as timed out. -/
theorem sync_dead {a : SvcAction C} (ht : 0 < a.timeout) (status time : ℕ) :
    servicesOsActionSync a (fun n => if time ≤ n then some status else none) =
      if time ≤ lastPoll a.timeout then a.classify status else { a with status := .timeout } := by
  obtain ⟨hnonneg, hcount⟩ := sync_counter ht.le
  have hloop := waitLoop_after status time (a.timeout.toNat / 1000) 0
  simp only [servicesOsActionSync, hcount, hloop, Nat.zero_add, lastPoll]
  by_cases hseen : time ≤ 1000 * (a.timeout.toNat / 1000)
  · simp only [hseen, if_true]
  · simp only [hseen, if_false, hnonneg, if_true]

def syncResult (timeout : ℤ) : Fate → OpStatus × ℤ
  | .exited c time => if time ≤ lastPoll timeout then (.done, c) else (.timeout, 0)
  | .signalled _ _ time => if time ≤ lastPoll timeout then (.error, 0) else (.timeout, 0)
  | .outlives => (.timeout, 0)

theorem syncVerdict_eq {r : ActionRequest} (hv : r.valid = true) (ht : 0 < r.timeout)
    {fate : Fate} (hf : fate.Possible r.timeout) (operations : ℕ) :
    syncVerdict C operations r fate = some (syncResult r.timeout fate) := by
  obtain ⟨command, hc⟩ := resourcesActionCreate_valid (C := C) hv operations
  have hta : 0 < (newAction r (operations + 1) command : SvcAction C).timeout := ht
  rw [syncVerdict, hc, Option.map_some]
  refine congrArg some ?_
  cases fate with
  | exited c time =>
    obtain ⟨hexit, hcode⟩ := wait_exitStatus hf.1
    change (servicesOsActionSync _ fun n => if time ≤ n then some (exitStatus c) else none).verdict = _
    rw [sync_dead hta]
    change SvcAction.verdict (if time ≤ lastPoll r.timeout then _ else _) = _
    simp only [syncResult, SvcAction.classify, hexit, hcode, if_true]
    split <;> rfl
  | signalled signo core time =>
    obtain ⟨hexit, hsignal, -⟩ := wait_signalStatus core hf.1 hf.2.1
    change (servicesOsActionSync _ fun n =>
      if time ≤ n then some (signalStatus signo core) else none).verdict = _
    rw [sync_dead hta]
    change SvcAction.verdict (if time ≤ lastPoll r.timeout then _ else _) = _
    simp only [syncResult, SvcAction.classify, hexit, hsignal, if_true, Bool.false_eq_true, if_false]
    split <;> rfl
  | outlives =>
    obtain ⟨hnonneg, -⟩ := sync_counter hta.le
    change (servicesOsActionSync _ fun _ => none).verdict = _
    simp only [servicesOsActionSync, waitLoop_never, if_pos hnonneg]
    rfl

/-! ## The asynchronous path -/

theorem steady_verdict : Steady (SvcAction.verdict (C := C)) :=
  ⟨fun _ _ => rfl, fun _ _ => rfl, fun _ _ stream => by cases stream <;> rfl⟩

def finishResult (timedOut : Bool) (signo exitcode : ℕ) : OpStatus × ℤ :=
  if signo ≠ 0 then if timedOut then (.timeout, ocfTimeout) else (.error, ocfSignal)
  else (.done, exitcode)

theorem finish_verdict (a : SvcAction C) (timedOut : Bool) (signo exitcode : ℕ) :
    (a.finish timedOut signo exitcode).verdict = finishResult timedOut signo exitcode := by
  unfold SvcAction.finish finishResult
  split
  · split <;> rfl
  · rfl

section
variable {s : Engine C W} (run : C → ℕ → SvcAction C → W → W)

theorem exit_verdict {pid op : ℕ} {p : MainloopChild ℕ} {a : SvcAction C}
    (hp : s.loop.processTable pid = some p) (hop : p.privatedata = some op)
    (ha : s.heap.entry op = some a) (status : ℕ) :
    (exec (step run) s [.childExit pid status]).bind
      (fun u => (u.heap.entry op).map SvcAction.verdict) =
      some (finishResult p.timeout (deathCodes status).1 (deathCodes status).2) := by
  have hstep : step run s (.childExit pid status) = some (childDeath run s pid status) := by
    rw [step, if_pos (by rw [hp]; rfl)]
  rw [exec_cons hstep, exec_nil, Option.bind_some,
    childDeath_map steady_verdict run hp hop ha status op, setAction_entry, if_pos rfl, ha,
    Option.map_some, Option.map_some, finish_verdict]

theorem submit_started (h : s.registry.Inv) {r : ActionRequest} (hv : r.valid = true)
    (ht : 0 < r.timeout) (callback : Option C) {pid : ℕ}
    (hf : forkAllowed s (some pid) = true) :
    ∃ u a p, step run s (.submit r callback (some pid)) = some u ∧
      u.heap.entry s.heap.next = some a ∧ u.loop.processTable pid = some p ∧
      p.privatedata = some s.heap.next ∧ p.timeout = false ∧
      u.loop.sources.entry s.loop.sources.next = some (.childTimeout pid) := by
  have hstep : step run s (.submit r callback (some pid)) =
      some (submit s r callback (some pid)) := by
    rw [step, if_pos hf]
  have hreg := registry_submit_valid hv s callback (some pid)
  have hchild := congrFun (congrArg Registry.child hreg) pid
  rw [Registry.create, Registry.start_child_some, Function.update_self] at hchild
  have hsource := (congrFun (congrArg Registry.source hreg) s.registry.next).trans
    (Registry.start_timer (s.registry.alloc _ _ _ _) _ _ ht.ne' _ pid)
  have hrun : (submit s r callback (some pid)).registry.Running s.heap.next :=
    ⟨pid, _, hchild, rfl⟩
  obtain ⟨i, hi⟩ := Registry.running_interval (inv_engineStep run h hstep) hrun
  obtain ⟨a, ha, -⟩ := entry_of_interval hi
  exact ⟨_, a, _, hstep, ha, hchild, rfl, rfl, hsource⟩

def asyncResult : Fate → OpStatus × ℤ
  | .exited c _ => (.done, c)
  | .signalled _ _ _ => (.error, ocfSignal)
  | .outlives => (.timeout, ocfTimeout)

theorem asyncVerdict_eq (h : s.registry.Inv) {r : ActionRequest} (hv : r.valid = true)
    (ht : 0 < r.timeout) (callback : Option C) {pid : ℕ}
    (hf : forkAllowed s (some pid) = true) {fate : Fate} (hp : fate.Possible r.timeout) :
    asyncVerdict run s r callback pid fate = some (asyncResult fate) := by
  obtain ⟨u, a, p, hstep, ha, htable, hdata, htimeout, hsource⟩ :=
    submit_started run h hv ht callback hf
  unfold asyncVerdict
  rw [exec_cons hstep]
  cases fate with
  | exited c time =>
    rw [Fate.events, exit_verdict run htable hdata ha, deathCodes_exitStatus hp.1]
    rfl
  | signalled signo core time =>
    have hne : signo ≠ 0 := by
      have := hp.1
      omega
    rw [Fate.events, exit_verdict run htable hdata ha,
      deathCodes_signalStatus core hp.1 hp.2.1, htimeout]
    simp [finishResult, hne, asyncResult]
  | outlives =>
    let u₂ : Engine C W := { u with
      loop := gSourceRemove (childTimeoutCallback u.loop pid .ok) s.loop.sources.next }
    have hstep₂ : step run u (.childTimeout s.loop.sources.next .ok) = some u₂ := by
      rw [step, hsource]
    have htable₂ : u₂.loop.processTable pid =
        some { p with timerid := u.loop.sources.next, timeout := true } := by
      change (childTimeoutCallback u.loop pid .ok).processTable pid = _
      simp [childTimeoutCallback, htable, htimeout]
    rw [Fate.events, exec_cons hstep₂, exit_verdict run htable₂ hdata ha,
      deathCodes_signalStatus false (by decide) (by decide)]
    rfl

end

/-! ## Where the two agree -/

theorem results_agree_iff (timeout : ℤ) (fate : Fate) :
    asyncResult fate = syncResult timeout fate ↔
      ∃ c time, fate = .exited c time ∧ time ≤ lastPoll timeout := by
  cases fate with
  | exited c time =>
    by_cases h : time ≤ lastPoll timeout
    · simp [asyncResult, syncResult, h]
    · simp [asyncResult, syncResult, h]
  | signalled signo core time =>
    by_cases h : time ≤ lastPoll timeout
    · simp [asyncResult, syncResult, h, ocfSignal]
    · simp [asyncResult, syncResult, h]
  | outlives => simp [asyncResult, syncResult, ocfTimeout]

/-- The two paths record the same pair for a child that exits no later than the
last poll of the synchronous path, and for no other. -/
theorem sync_async_agree_iff (run : C → ℕ → SvcAction C → W → W) (client : W)
    (es : List (Event C)) (s : Engine C W) (hs : exec (step run) (Engine.init client) es = some s)
    (r : ActionRequest) (hv : r.valid = true) (ht : 0 < r.timeout) (callback : Option C) (pid : ℕ)
    (hf : forkAllowed s (some pid) = true) (fate : Fate) (hp : fate.Possible r.timeout) :
    asyncVerdict run s r callback pid fate = syncVerdict C s.operations r fate ↔
      ∃ c time, fate = .exited c time ∧ time ≤ 1000 * (r.timeout.toNat / 1000) := by
  have hinv : s.registry.Inv := exec_preserved (P := fun u => u.registry.Inv)
    (fun _ _ _ h hu => inv_engineStep run h hu) (inv_init client) hs
  rw [asyncVerdict_eq run hinv hv ht callback hf hp, syncVerdict_eq hv ht hp,
    Option.some_inj, results_agree_iff]
  rfl

def startRequest : ActionRequest :=
  ⟨"httpd".toList, "lsb".toList, none, "httpd".toList, "start".toList, 0, 1500, []⟩

theorem sync_async_agree_start :
    let run : Unit → ℕ → SvcAction Unit → Unit → Unit := fun _ _ _ w => w
    forkAllowed (Engine.init () : Engine Unit Unit) (some 7) = true ∧
    (asyncVerdict run (Engine.init ()) startRequest none 7 (.exited 3 1000) =
      syncVerdict Unit 0 startRequest (.exited 3 1000) ↔
        ∃ c time, Fate.exited 3 1000 = .exited c time ∧ time ≤ 1000 * ((1500 : ℤ).toNat / 1000)) := by
  intro run
  exact ⟨by decide, sync_async_agree_iff run () [] (Engine.init ()) rfl startRequest (by decide)
    (by decide) none 7 (by decide) (.exited 3 1000) ⟨by decide, by decide⟩⟩

/-- A child that times out, and one killed after half a second: the synchronous
path leaves the result code zero. -/
theorem sync_code_lost :
    let run : Unit → ℕ → SvcAction Unit → Unit → Unit := fun _ _ _ w => w
    asyncVerdict run (Engine.init ()) startRequest none 7 .outlives ≠
      syncVerdict Unit 0 startRequest .outlives ∧
    asyncVerdict run (Engine.init ()) startRequest none 7 (.signalled 11 false 500) ≠
      syncVerdict Unit 0 startRequest (.signalled 11 false 500) := by
  decide

/-! ## The verdict of the synchronous path -/

/-- Division truncates towards zero, so that the counter of a negative timeout is
negative from minus two seconds on only. -/
theorem sync_counter_neg_iff {timeout : ℤ} : 1 + timeout.tdiv 1000 < 0 ↔ timeout ≤ -2000 := by
  rcases le_or_gt 0 timeout with h | h
  · obtain ⟨hnonneg, -⟩ := sync_counter h
    omega
  · obtain ⟨n, hn⟩ := Int.eq_ofNat_of_zero_le (neg_nonneg.mpr h.le)
    have htimeout : timeout = -(n : ℤ) := by omega
    have hdiv : ((n : ℕ) : ℤ).tdiv 1000 = ((n / 1000 : ℕ) : ℤ) := rfl
    rw [htimeout, Int.neg_tdiv, hdiv]
    omega

def Fate.Exits : Fate → Prop
  | .exited c _ => c < 256
  | .signalled _ _ _ => False
  | .outlives => True

def reported (a : SvcAction C) (fate : Fate) : Option ℕ :=
  waitLoop fate.death (1 + a.timeout.tdiv 1000).toNat 0

/-- `LRM_OP_DONE` stands for an exit that `waitpid` reported, with its code, and
`LRM_OP_TIMEOUT` for a child that was still running when the time was up. -/
structure VerdictSound (a : SvcAction C) (fate : Fate) : Prop where
  done : (servicesOsActionSync a fate.death).status = .done → ∃ c time, fate = .exited c time ∧
    reported a fate = some (exitStatus c) ∧ (servicesOsActionSync a fate.death).rc = c
  timeout : (servicesOsActionSync a fate.death).status = .timeout →
    ∀ c time, fate = .exited c time → a.timeout < time

theorem sync_reported {a : SvcAction C} {fate : Fate} {status : ℕ}
    (h : reported a fate = some status) :
    servicesOsActionSync a fate.death = a.classify status := by
  unfold reported at h
  simp only [servicesOsActionSync, h]

theorem sync_unreported {a : SvcAction C} {fate : Fate} (h : reported a fate = none) :
    servicesOsActionSync a fate.death =
      if a.timeout ≤ -2000 then a.classify 0 else { a with status := .timeout } := by
  unfold reported at h
  simp only [servicesOsActionSync, h]
  by_cases hle : a.timeout ≤ -2000
  · rw [if_pos hle, if_neg (not_le.mpr (sync_counter_neg_iff.mpr hle))]
  · rw [if_neg hle, if_pos (not_lt.mp (mt sync_counter_neg_iff.mp hle))]

theorem waitLoop_exited (c time timeout now status : ℕ)
    (h : waitLoop (Fate.exited c time).death timeout now = some status) :
    status = exitStatus c := by
  induction timeout generalizing now with
  | zero => cases h
  | succ timeout ih =>
    rw [waitLoop] at h
    by_cases hnow : time ≤ now
    · simp only [Fate.death, if_pos hnow, Option.some_inj] at h
      exact h.symm
    · simp only [Fate.death, if_neg hnow] at h
      exact ih (now + 1000) h

theorem reported_exited {a : SvcAction C} (ht : 0 ≤ a.timeout) (c time : ℕ) :
    reported a (.exited c time) = if time ≤ lastPoll a.timeout then some (exitStatus c) else none := by
  obtain ⟨-, hcount⟩ := sync_counter ht
  have hloop := waitLoop_after (exitStatus c) time (a.timeout.toNat / 1000) 0
  rw [Nat.zero_add] at hloop
  rw [reported, hcount]
  exact hloop

theorem classify_exitStatus (a : SvcAction C) {c : ℕ} (h : c < 256) :
    a.classify (exitStatus c) = { a with status := .done, rc := c } := by
  obtain ⟨hexit, hcode⟩ := wait_exitStatus h
  rw [SvcAction.classify, if_pos hexit, hcode]

/-- A very negative timeout makes no poll, and the status word is still zero. -/
theorem sync_unpolled {a : SvcAction C} (h : a.timeout ≤ -2000) (fate : Fate) :
    reported a fate = none ∧ (servicesOsActionSync a fate.death).status = .done := by
  have hnone : reported a fate = none := by
    rw [reported, Int.toNat_of_nonpos (sync_counter_neg_iff.mpr h).le]
    rfl
  refine ⟨hnone, ?_⟩
  rw [sync_unreported hnone, if_pos h]
  rfl

theorem verdict_reported {a : SvcAction C} {c time : ℕ} (hc : c < 256)
    (h : reported a (.exited c time) = some (exitStatus c)) : VerdictSound a (.exited c time) := by
  have heq := sync_reported h
  rw [classify_exitStatus a hc] at heq
  constructor
  · intro _
    exact ⟨c, time, rfl, h, by rw [heq]⟩
  · intro htimeout
    rw [heq] at htimeout
    cases htimeout

theorem verdict_unreported {a : SvcAction C} {fate : Fate} (hlow : ¬ a.timeout ≤ -2000)
    (h : reported a fate = none) (hrun : ∀ c time, fate = .exited c time → a.timeout < time) :
    VerdictSound a fate := by
  have heq := sync_unreported h
  rw [if_neg hlow] at heq
  constructor
  · intro hdone
    rw [heq] at hdone
    cases hdone
  · exact fun _ => hrun

/-- The verdict is sound for the timeouts above minus two seconds, unless the child
exits after the last poll and not after the timeout. -/
theorem verdictSound_iff (a : SvcAction C) (fate : Fate) (hf : fate.Exits) :
    VerdictSound a fate ↔ -2000 < a.timeout ∧
      ∀ c time, fate = .exited c time → a.timeout < time ∨
        time ≤ 1000 * (a.timeout.toNat / 1000) := by
  constructor
  · intro h
    refine ⟨?_, ?_⟩
    · by_contra hlow
      obtain ⟨hnone, hdone⟩ := sync_unpolled (not_lt.mp hlow) fate
      obtain ⟨c, time, -, hsome, -⟩ := h.done hdone
      rw [hnone] at hsome
      cases hsome
    · rintro c time rfl
      by_contra! hlate
      obtain ⟨hle, hpoll⟩ := hlate
      have hnonneg : 0 ≤ a.timeout := le_trans (Int.natCast_nonneg time) hle
      have hnone : reported a (.exited c time) = none := by
        rw [reported_exited hnonneg]
        exact if_neg (not_le.mpr hpoll)
      have hstatus := sync_unreported hnone
      rw [if_neg (by omega)] at hstatus
      have := h.timeout (by rw [hstatus]) c time rfl
      omega
  · rintro ⟨hlow, hlate⟩
    cases fate with
    | exited c time =>
      cases hr : reported a (.exited c time) with
      | some status =>
        obtain rfl := waitLoop_exited c time _ _ status hr
        exact verdict_reported hf hr
      | none =>
        refine verdict_unreported (not_le.mpr hlow) hr ?_
        rintro _ _ ⟨⟩
        rcases hlate c time rfl with hrun | hpoll
        · exact hrun
        -- A poll at or after the exit would have reported it.
        by_contra hle
        have hsome := (reported_exited (by omega) c time).trans (if_pos hpoll)
        rw [hsome] at hr
        cases hr
    | signalled signo core time => exact hf.elim
    | outlives =>
      exact verdict_unreported (not_le.mpr hlow) (waitLoop_never _ _) fun _ _ h => by cases h

def startAction : SvcAction Unit :=
  newAction startRequest 1 (servicesOsSetExec "httpd".toList "start".toList)

theorem verdictSound_start :
    (Fate.exited 3 1000).Exits ∧
    (VerdictSound startAction (.exited 3 1000) ↔ -2000 < startAction.timeout ∧
      ∀ c time, Fate.exited 3 1000 = .exited c time → startAction.timeout < time ∨
        time ≤ 1000 * (startAction.timeout.toNat / 1000)) :=
  ⟨by norm_num [Fate.Exits], verdictSound_iff _ _ (by norm_num [Fate.Exits])⟩

/-- A timeout of minus two seconds makes a child that never exits a success, and an
exit 1.2 seconds after the start is a timeout although the action had 1.5 seconds. -/
theorem verdict_unsound :
    ¬ VerdictSound { startAction with timeout := -2000 } .outlives ∧
    ¬ VerdictSound startAction (.exited 3 1200) := by
  constructor
  · intro h
    obtain ⟨c, time, hfate, -⟩ := h.done (by decide)
    cases hfate
  · intro h
    exact absurd (h.timeout (by decide) 3 1200 rfl) (by decide)

end Matahari.Services
