import Matahari.Library.FreshTable

set_option autoImplicit false

/-!
# The main loop: process table and event sources

The parts of `mainloop.c` that keep track of child processes, and the GLib main
context they attach their sources to. `α` is the type of the user data that the
callers store behind `void *`.
-/
namespace Matahari.Mainloop

/-- A C string, one element for each byte before the terminating NUL. -/
abbrev Text := List Char

/-! ## Wait status -/

def wifexited (status : ℕ) : Bool := status % 128 == 0

def wexitstatus (status : ℕ) : ℕ := status / 256 % 256

def wtermsig (status : ℕ) : ℕ := status % 128

/-- `((signed char) ((status & 0x7f) + 1) >> 1) > 0`. -/
def wifsignaled (status : ℕ) : Bool := 0 < status % 128 && status % 128 < 127

def deathCodes (status : ℕ) : ℕ × ℕ :=
  if wifexited status then (0, wexitstatus status)
  else if wifsignaled status then (wtermsig status, 0)
  else (0, 0)

def exitStatus (c : ℕ) : ℕ := c * 256

def signalStatus (signo : ℕ) (core : Bool) : ℕ := signo + if core then 128 else 0

theorem wait_exitStatus {c : ℕ} (h : c < 256) :
    wifexited (exitStatus c) = true ∧ wexitstatus (exitStatus c) = c := by
  have hz : c * 256 % 128 = 0 := by omega
  simp [exitStatus, wifexited, wexitstatus, hz, h]

theorem wait_signalStatus {signo : ℕ} (core : Bool) (hpos : 0 < signo) (h : signo < 127) :
    wifexited (signalStatus signo core) = false ∧ wifsignaled (signalStatus signo core) = true ∧
      wtermsig (signalStatus signo core) = signo := by
  have hm : signalStatus signo core % 128 = signo := by
    unfold signalStatus
    split <;> omega
  have hn : signo ≠ 0 := by omega
  simp [wifexited, wifsignaled, wtermsig, hm, hn, hpos, h]

theorem deathCodes_exitStatus {c : ℕ} (h : c < 256) : deathCodes (exitStatus c) = (0, c) := by
  obtain ⟨hexit, hcode⟩ := wait_exitStatus h
  simp [deathCodes, hexit, hcode]

theorem deathCodes_signalStatus {signo : ℕ} (core : Bool) (hpos : 0 < signo) (h : signo < 127) :
    deathCodes (signalStatus signo core) = (signo, 0) := by
  obtain ⟨hexit, hsignal, hterm⟩ := wait_signalStatus core hpos h
  simp [deathCodes, hexit, hsignal, hterm]

/-! ## Values of `errno` -/

def eintr : ℤ := 4
def echild : ℤ := 10
def eagain : ℤ := 11

/-! ## Sources and the process table -/

inductive Stream where
  | stdout
  | stderr
  deriving DecidableEq, Repr

/-- What GLib calls back: `child_timeout_callback` with the pid as user data,
`recurring_action_timer`, or the dispatch function of a pipe. -/
inductive Source (α : Type) where
  | childTimeout (pid : ℤ)
  | recurringAction (data : α)
  | fd (stream : Stream) (data : α)
  deriving DecidableEq, Repr

structure MainloopChild (α : Type) where
  pid : ℤ
  desc : Text
  timerid : ℕ
  timeout : Bool
  privatedata : Option α

/-- The process table is keyed by the pointer made from the pid. `killed` lists
the pids that were sent `SIGKILL`, the latest first. -/
structure Loop (α : Type) where
  processTable : ℤ → Option (MainloopChild α)
  sources : FreshTable (Source α)
  killed : List ℤ

variable {α : Type}

def Loop.init : Loop α := ⟨fun _ => none, FreshTable.empty, []⟩

def addSource (m : Loop α) (source : Source α) : Loop α :=
  { m with sources := m.sources.add source }

def gSourceRemove (m : Loop α) (id : ℕ) : Loop α :=
  { m with sources := m.sources.remove id }

def mainloopAddChild (m : Loop α) (pid timeout : ℤ) (desc : Text) (privatedata : α) :
    Loop α :=
  let timerid := if timeout ≠ 0 then m.sources.next else 0
  let m' := if timeout ≠ 0 then addSource m (.childTimeout pid) else m
  { m' with
    processTable := Function.update m'.processTable (|pid|)
      (some ⟨pid, desc, timerid, false, some privatedata⟩) }

inductive KillResult where
  | ok
  | esrch
  | error
  deriving DecidableEq, Repr

/-- The timer carries the signed pid, which is also the key it looks up. -/
def childTimeoutCallback (m : Loop α) (pid : ℤ) (kill : KillResult) : Loop α :=
  match m.processTable pid with
  | none => m
  | some pinfo =>
    if pinfo.timeout then
      { m with
        processTable := Function.update m.processTable pid (some { pinfo with timerid := 0 }) }
    else
      let rearm := kill ≠ .esrch
      let timerid := if rearm then m.sources.next else 0
      let m' := if rearm then addSource m (.childTimeout pid) else m
      { m' with
        processTable := Function.update m'.processTable pid
          (some { pinfo with timerid := timerid, timeout := true })
        killed := pinfo.pid :: m'.killed }

def disarm (m : Loop α) (p : MainloopChild α) : Loop α :=
  if p.timerid ≠ 0 then gSourceRemove m p.timerid else m

def removeChild (m : Loop α) (pid : ℤ) : Loop α :=
  { m with processTable := Function.update m.processTable pid none }

/-! ## What they do to the loop -/

section
variable {m : Loop α} {pid : ℤ} {p : MainloopChild α}

theorem mainloopAddChild_table (m : Loop α) (pid timeout : ℤ) (desc : Text) (data : α) (key : ℤ) :
    (mainloopAddChild m pid timeout desc data).processTable key =
      if key = |pid| then some ⟨pid, desc, if timeout ≠ 0 then m.sources.next else 0, false, some data⟩
      else m.processTable key := by
  unfold mainloopAddChild
  dsimp only
  rw [Function.update_apply]
  split <;> split <;> rfl

theorem mainloopAddChild_sources (m : Loop α) (pid timeout : ℤ) (desc : Text) (data : α) :
    (mainloopAddChild m pid timeout desc data).sources =
      if timeout ≠ 0 then m.sources.add (.childTimeout pid) else m.sources := by
  unfold mainloopAddChild
  dsimp only
  split <;> rfl

theorem mainloopAddChild_killed (m : Loop α) (pid timeout : ℤ) (desc : Text) (data : α) :
    (mainloopAddChild m pid timeout desc data).killed = m.killed := by
  unfold mainloopAddChild
  dsimp only
  split <;> rfl

theorem childTimeoutCallback_none (hp : m.processTable pid = none) (kill : KillResult) :
    childTimeoutCallback m pid kill = m := by
  unfold childTimeoutCallback
  rw [hp]

theorem childTimeoutCallback_table (hp : m.processTable pid = some p) (kill : KillResult)
    (key : ℤ) : (childTimeoutCallback m pid kill).processTable key =
      if key = pid then some { p with
        timerid := if p.timeout = false ∧ kill ≠ .esrch then m.sources.next else 0
        timeout := true }
      else m.processTable key := by
  unfold childTimeoutCallback
  rw [hp]
  cases ht : p.timeout with
  | true =>
    simp only [ht, if_true, Function.update_apply]
    split
    · simp
    · rfl
  | false =>
    by_cases hk : kill = .esrch
    · simp [ht, hk, Function.update_apply]
    · simp [ht, hk, addSource, Function.update_apply]

theorem childTimeoutCallback_sources (hp : m.processTable pid = some p) (kill : KillResult) :
    (childTimeoutCallback m pid kill).sources =
      if p.timeout = false ∧ kill ≠ .esrch then m.sources.add (.childTimeout pid)
      else m.sources := by
  unfold childTimeoutCallback
  rw [hp]
  cases ht : p.timeout with
  | true => simp [ht]
  | false =>
    by_cases hk : kill = .esrch
    · simp [ht, hk]
    · simp [ht, hk, addSource]

theorem childTimeoutCallback_killed (hp : m.processTable pid = some p) (kill : KillResult) :
    (childTimeoutCallback m pid kill).killed =
      if p.timeout = false then p.pid :: m.killed else m.killed := by
  unfold childTimeoutCallback
  rw [hp]
  cases ht : p.timeout with
  | true => simp [ht]
  | false => by_cases hk : kill = .esrch <;> simp [ht, hk, addSource]

theorem disarm_sources (m : Loop α) (p : MainloopChild α) (id : ℕ) :
    (disarm m p).sources.entry id = if id = p.timerid then none else m.sources.entry id := by
  unfold disarm
  split
  · exact FreshTable.remove_entry m.sources p.timerid id
  · rename_i h0
    have h0 : p.timerid = 0 := by simpa using h0
    split
    · rename_i hid
      rw [hid, h0, FreshTable.zero]
    · rfl

theorem disarm_table (m : Loop α) (p : MainloopChild α) :
    (disarm m p).processTable = m.processTable ∧ (disarm m p).killed = m.killed := by
  unfold disarm
  split <;> exact ⟨rfl, rfl⟩

end

end Matahari.Mainloop
