import Matahari.Library.CString
import Matahari.Library.Transition
import Matahari.Mainloop

set_option autoImplicit false

/-!
# The output of a child

The main loop watches the two pipes of a child and calls `read_output` when there is
something to read. It reads pieces of 499 bytes and appends them to a string, until a
piece is shorter; when it returns `FALSE` the pipe is closed.
-/
namespace Matahari.Services
open Mainloop CString TransitionRuns

/-! ## The pipe -/

structure Pipe where
  available : List UInt8
  writerOpen : Bool
  deriving DecidableEq

/-- A call of `read`: the value it returns, the bytes it stores, and `errno` after it. -/
structure ReadCall where
  rc : ℤ
  buf : List UInt8
  pipe : Pipe
  errno : ℤ
  deriving DecidableEq

def Pipe.read (pipe : Pipe) (n : ℕ) (interrupted : Bool) (errno : ℤ) : ReadCall :=
  if interrupted then ⟨-1, [], pipe, eintr⟩
  else if pipe.available ≠ [] then
    ⟨(pipe.available.take n).length, pipe.available.take n,
      { pipe with available := pipe.available.drop n }, errno⟩
  else if pipe.writerOpen then ⟨-1, [], pipe, eagain⟩
  else ⟨0, [], pipe, errno⟩

def bufReadLen : ℕ := 499

section
variable {pipe : Pipe} {errno : ℤ}

theorem read_interrupted : pipe.read bufReadLen true errno = ⟨-1, [], pipe, eintr⟩ := rfl

theorem read_available (h : pipe.available ≠ []) :
    pipe.read bufReadLen false errno =
      ⟨(pipe.available.take bufReadLen).length, pipe.available.take bufReadLen,
        { pipe with available := pipe.available.drop bufReadLen }, errno⟩ := by
  rw [Pipe.read, if_neg Bool.false_ne_true, if_pos h]

theorem read_empty (h : pipe.available = []) :
    pipe.read bufReadLen false errno =
      if pipe.writerOpen then ⟨-1, [], pipe, eagain⟩ else ⟨0, [], pipe, errno⟩ := by
  rw [Pipe.read, if_neg Bool.false_ne_true, if_neg (not_not_intro h)]

theorem read_shrinks {interrupted : Bool} (h : 0 < (pipe.read bufReadLen interrupted errno).rc) :
    (pipe.read bufReadLen interrupted errno).pipe.available.length < pipe.available.length := by
  cases interrupted with
  | true => cases h
  | false =>
    by_cases hne : pipe.available ≠ []
    · rw [read_available hne]
      have hpos := List.length_pos_iff.mpr hne
      rw [List.length_drop, bufReadLen]
      omega
    · rw [read_empty (not_not.mp hne)] at h
      split at h <;> cases h

theorem read_failed {interrupted : Bool} (h : (pipe.read bufReadLen interrupted errno).rc < 0)
    (he : (pipe.read bufReadLen interrupted errno).errno = eintr) :
    interrupted = true ∧ (pipe.read bufReadLen interrupted errno).pipe = pipe := by
  cases interrupted with
  | true => exact ⟨rfl, rfl⟩
  | false =>
    by_cases hne : pipe.available ≠ []
    · rw [read_available hne] at h
      exact absurd h (not_lt.mpr (Int.natCast_nonneg _))
    · rw [read_empty (not_not.mp hne)] at h he
      split at h
      · rename_i hw
        rw [if_pos hw] at he
        cases he
      · cases h

end

/-! ## `read_output` -/

def sprintf (mem : List UInt8) (off : ℕ) (buf : List UInt8) : List UInt8 :=
  copyInto mem off (cstring buf ++ [0])

structure ReadState where
  rc : ℤ
  data : Option (List UInt8)
  pipe : Pipe
  errno : ℤ
  deriving DecidableEq

/-- The loop around `read`; `interrupts` says which of the calls are interrupted, and `junk`
is what fresh memory holds. -/
def readLoop (junk : UInt8) (interrupts : List Bool) (pipe : Pipe)
    (data : Option (List UInt8)) (len : ℕ) (errno : ℤ) : ReadState :=
  let call := pipe.read bufReadLen (interrupts.headD false) errno
  if 0 < call.rc then
    let mem := sprintf (resize junk (data.getD []) (len + call.rc.toNat + 1)) len (call.buf ++ [0])
    if call.rc = bufReadLen then
      readLoop junk interrupts.tail call.pipe (some mem) (len + call.rc.toNat) call.errno
    else ⟨call.rc, some mem, call.pipe, call.errno⟩
  else if call.errno ≠ eintr then ⟨0, data, call.pipe, call.errno⟩
  else if call.rc < 0 then
    readLoop junk interrupts.tail call.pipe data len call.errno
  -- the end of the file, with an old `EINTR` in `errno`
  else ⟨call.rc, data, call.pipe, call.errno⟩
termination_by interrupts.length + pipe.available.length
decreasing_by
  · rename_i hrc _
    have hshrinks := read_shrinks hrc
    have htail : interrupts.tail.length ≤ interrupts.length := by simp
    exact Nat.add_lt_add_of_le_of_lt htail hshrinks
  · rename_i he hrc
    obtain ⟨hhead, hpipe⟩ := read_failed hrc (not_not.mp he)
    rw [hpipe]
    cases interrupts with
    | nil => cases hhead
    | cons b interrupts => simp

structure SvcOutput where
  fd : Stream → ℤ
  data : Stream → Option (List UInt8)

def readOutput (junk : UInt8) (fd : ℤ) (op : SvcOutput) (interrupts : List Bool) (pipe : Pipe)
    (errno : ℤ) : ReadState × SvcOutput :=
  let stream := if fd = op.fd .stderr then .stderr else .stdout
  let len := ((op.data stream).elim [] cstring).length
  let loop := readLoop junk interrupts pipe (op.data stream) len errno
  (loop, if loop.data.isSome then { op with data := Function.update op.data stream loop.data }
    else op)

def SvcOutput.pipeDone (op : SvcOutput) (stream : Stream) : SvcOutput :=
  { op with fd := Function.update op.fd stream (-1) }

/-! ## A child that writes -/

/-- `watched` says which pipes are open, and `written` is all that the child has written. -/
structure OutputRun where
  op : SvcOutput
  pipe : Stream → Pipe
  watched : Stream → Bool
  written : Stream → List UInt8

abbrev TextBytes := { bytes : List UInt8 // 0 ∉ bytes }

inductive OutputEvent where
  | write (stream : Stream) (bytes : TextBytes)
  | close (stream : Stream)
  | dispatch (stream : Stream) (interrupts : List Bool) (errno : ℤ)

def childWrites (s : OutputRun) (stream : Stream) (bytes : List UInt8) : OutputRun :=
  let pipe := s.pipe stream
  { s with
    written := Function.update s.written stream (s.written stream ++ bytes)
    pipe := if s.watched stream then
        Function.update s.pipe stream { pipe with available := pipe.available ++ bytes }
      else s.pipe }

def closeWriter (s : OutputRun) (stream : Stream) : OutputRun :=
  { s with pipe := Function.update s.pipe stream { s.pipe stream with writerOpen := false } }

def mainloopFdDispatch (junk : UInt8) (fd : ℤ) (s : OutputRun) (stream : Stream)
    (interrupts : List Bool) (errno : ℤ) : OutputRun :=
  let result := readOutput junk fd s.op interrupts (s.pipe stream) errno
  let s := { s with op := result.2, pipe := Function.update s.pipe stream result.1.pipe }
  if result.1.rc = 0 then
    { s with op := s.op.pipeDone stream, watched := Function.update s.watched stream false }
  else s

structure PipeFds where
  fd : Stream → ℕ
  distinct : fd .stdout ≠ fd .stderr

def outputStep (junk : UInt8) (fds : PipeFds) (s : OutputRun) :
    OutputEvent → Option OutputRun
  | .write stream bytes =>
    if (s.pipe stream).writerOpen then some (childWrites s stream bytes.1) else none
  | .close stream => if (s.pipe stream).writerOpen then some (closeWriter s stream) else none
  | .dispatch stream interrupts errno =>
    if s.watched stream then
      some (mainloopFdDispatch junk (fds.fd stream) s stream interrupts errno)
    else none

def OutputRun.init (fds : PipeFds) : OutputRun where
  op := ⟨fun stream => fds.fd stream, fun _ => none⟩
  pipe := fun _ => ⟨[], true⟩
  watched := fun _ => true
  written := fun _ => []

/-! ## The string -/

def Holds (data : Option (List UInt8)) (text : List UInt8) : Prop :=
  data = none ∧ text = [] ∨ data = some (text ++ [0])

theorem Holds.cstring {data : Option (List UInt8)} {text : List UInt8} (h : Holds data text)
    (htext : 0 ∉ text) : data.elim [] cstring = text := by
  obtain ⟨rfl, rfl⟩ | rfl := h
  · rfl
  · exact cstring_append_zero htext []

theorem Holds.append {data : Option (List UInt8)} {text : List UInt8} (h : Holds data text)
    (junk : UInt8) {buf : List UInt8} (hbuf : 0 ∉ buf) :
    sprintf (resize junk (data.getD []) (text.length + buf.length + 1)) text.length (buf ++ [0]) =
      text ++ buf ++ [0] := by
  have hstart : (resize junk (data.getD []) (text.length + buf.length + 1)).take text.length =
      text := by
    obtain ⟨rfl, rfl⟩ | rfl := h
    · rfl
    · rw [Option.getD_some, resize, List.take_append_of_le_length (by simp), List.take_take,
        Nat.min_eq_left (by omega), List.take_append_of_le_length (le_refl _), List.take_length]
  have hlen : (resize junk (data.getD []) (text.length + buf.length + 1)).length =
      text.length + (buf ++ [0]).length := by
    simp only [resize, List.length_append, List.length_take, List.length_replicate,
      List.length_singleton]
    omega
  rw [sprintf, cstring_append_zero hbuf [], copyInto, hstart, ← hlen, List.drop_length,
    List.append_nil, List.append_assoc]

/-! ## One call of `read_output` -/

section
variable {junk : UInt8} {interrupts : List Bool} {pipe : Pipe} {data : Option (List UInt8)}
  {len : ℕ} {errno : ℤ}

theorem readLoop_interrupted (h : interrupts.headD false = true) :
    readLoop junk interrupts pipe data len errno =
      readLoop junk interrupts.tail pipe data len eintr := by
  rw [readLoop, h, read_interrupted]
  rfl

/-- An empty pipe ends the loop, at the end of the file or not. -/
theorem readLoop_empty (h : interrupts.headD false = false) (hp : pipe.available = []) :
    ∃ errno', readLoop junk interrupts pipe data len errno = ⟨0, data, pipe, errno'⟩ := by
  rw [readLoop, h, read_empty hp]
  cases pipe.writerOpen with
  | true => exact ⟨eagain, rfl⟩
  | false =>
    refine ⟨errno, ?_⟩
    by_cases he : errno = eintr
    · simp [he]
    · simp [he]

theorem readLoop_piece (h : interrupts.headD false = false) (hp : pipe.available ≠ []) :
    readLoop junk interrupts pipe data len errno =
      let buf := pipe.available.take bufReadLen
      let mem := sprintf (resize junk (data.getD []) (len + buf.length + 1)) len (buf ++ [0])
      let rest : Pipe := { pipe with available := pipe.available.drop bufReadLen }
      if buf.length = bufReadLen then
        readLoop junk interrupts.tail rest (some mem) (len + buf.length) errno
      else ⟨buf.length, some mem, rest, errno⟩ := by
  have hpos : 0 < ((pipe.available.take bufReadLen).length : ℤ) := by
    have := List.length_pos_iff.mpr hp
    rw [List.length_take, bufReadLen]
    omega
  rw [readLoop, h, read_available hp]
  dsimp only
  rw [if_pos hpos, Int.toNat_natCast]
  simp only [Nat.cast_inj]

end

/-- All that is available is appended, and the result is `FALSE` if the last piece fills
the buffer, also where there is none. -/
theorem readLoop_spec (junk : UInt8) (interrupts : List Bool) (pipe : Pipe)
    (data : Option (List UInt8)) (text : List UInt8) (errno : ℤ) (hdata : Holds data text)
    (hzero : 0 ∉ pipe.available) :
    let r := readLoop junk interrupts pipe data text.length errno
    Holds r.data (text ++ pipe.available) ∧ r.pipe = { pipe with available := [] } ∧
      (r.rc = 0 ↔ pipe.available.length % bufReadLen = 0) := by
  induction hn : interrupts.length + pipe.available.length using Nat.strong_induction_on
    generalizing interrupts pipe data text errno with
  | _ n ih =>
    by_cases hi : interrupts.headD false = true
    · rw [readLoop_interrupted hi]
      refine ih _ ?_ interrupts.tail pipe data text eintr hdata hzero rfl
      cases interrupts with
      | nil => cases hi
      | cons b interrupts =>
        rw [← hn, List.tail_cons, List.length_cons]
        omega
    have hi : interrupts.headD false = false := Bool.eq_false_of_not_eq_true hi
    by_cases hp : pipe.available = []
    · obtain ⟨errno', hempty⟩ :
          ∃ errno', readLoop junk interrupts pipe data text.length errno = ⟨0, data, pipe, errno'⟩ :=
        readLoop_empty hi hp
      rw [hempty, hp, List.append_nil]
      exact ⟨hdata, by rw [← hp], iff_of_true rfl rfl⟩
    · have hsplit := List.take_append_drop bufReadLen pipe.available
      have hzeros : 0 ∉ pipe.available.take bufReadLen ∧ 0 ∉ pipe.available.drop bufReadLen := by
        rwa [← hsplit, List.mem_append, not_or] at hzero
      have hlen := List.length_pos_iff.mpr hp
      rw [readLoop_piece hi hp]
      dsimp only
      rw [hdata.append junk hzeros.1]
      by_cases hfull : (pipe.available.take bufReadLen).length = bufReadLen
      · rw [if_pos hfull, ← List.length_append]
        rw [List.length_take, bufReadLen] at hfull
        obtain ⟨hholds, hrest, hrc⟩ := ih _ (by
            rw [← hn]
            simp only [List.length_drop, List.length_tail, bufReadLen]
            omega) interrupts.tail { pipe with available := pipe.available.drop bufReadLen }
          (some (text ++ pipe.available.take bufReadLen ++ [0])) _ errno (.inr rfl) hzeros.2 rfl
        refine ⟨?_, hrest, ?_⟩
        · have htext : text ++ pipe.available =
              text ++ pipe.available.take bufReadLen ++ pipe.available.drop bufReadLen := by
            rw [List.append_assoc, hsplit]
          rw [htext]
          exact hholds
        · rw [hrc, List.length_drop, bufReadLen]
          omega
      · rw [if_neg hfull]
        rw [List.length_take, bufReadLen] at hfull
        have hall : pipe.available.take bufReadLen = pipe.available :=
          List.take_of_length_le (by rw [bufReadLen]; omega)
        have hnone : pipe.available.drop bufReadLen = [] :=
          List.drop_of_length_le (by rw [bufReadLen]; omega)
        rw [hall, hnone]
        refine ⟨.inr rfl, rfl, ?_⟩
        dsimp only
        rw [bufReadLen]
        omega

/-! ## Runs -/

def SvcOutput.output (op : SvcOutput) (stream : Stream) : List UInt8 :=
  (op.data stream).elim [] cstring

/-- The call stores all that the child has written, and returns `FALSE` only at the end
of the file. -/
def Captures (junk : UInt8) (fds : PipeFds) (s : OutputRun) : OutputEvent → Prop
  | .dispatch stream interrupts errno =>
    let result := readOutput junk (fds.fd stream) s.op interrupts (s.pipe stream) errno
    result.2.output stream = s.written stream ∧ (result.1.rc = 0 → result.1.pipe = ⟨[], false⟩)
  | _ => True

/-- Where a pipe was closed, the whole stream has been stored. -/
def Whole (s : OutputRun) : Prop :=
  ∀ stream, s.watched stream = false →
    (s.pipe stream).writerOpen = false ∧ s.op.output stream = s.written stream

/-- While the child can write, what is available does not fill the buffer of the last
`read`. -/
def ShortPiece (s : OutputRun) : OutputEvent → Prop
  | .dispatch stream _ _ =>
    (s.pipe stream).writerOpen = true → (s.pipe stream).available.length % bufReadLen ≠ 0
  | _ => True

structure OutputRun.Inv (fds : PipeFds) (s : OutputRun) : Prop where
  fd : ∀ stream, s.op.fd stream = if s.watched stream then (fds.fd stream : ℤ) else -1
  data : ∀ stream, s.watched stream = true → ∃ text, Holds (s.op.data stream) text ∧
    s.written stream = text ++ (s.pipe stream).available
  zero : ∀ stream, 0 ∉ s.written stream

section
variable {fds : PipeFds} {s u : OutputRun}

theorem inv_outputInit (fds : PipeFds) : (OutputRun.init fds).Inv fds where
  fd _ := rfl
  data _ _ := ⟨[], .inl ⟨rfl, rfl⟩, rfl⟩
  zero _ := List.not_mem_nil

/-- The descriptor tells the two streams apart, also when the other pipe is closed. -/
theorem OutputRun.Inv.stream (h : s.Inv fds) {stream : Stream} (hw : s.watched stream = true) :
    (if (fds.fd stream : ℤ) = s.op.fd .stderr then Stream.stderr else .stdout) = stream := by
  rw [h.fd .stderr]
  cases stream with
  | stderr => rw [if_pos hw, if_pos rfl]
  | stdout =>
    apply if_neg
    split
    · exact fun heq => fds.distinct (by exact_mod_cast heq)
    · have := Int.natCast_nonneg (fds.fd .stdout)
      omega

theorem readOutput_spec (junk : UInt8) (h : s.Inv fds) {stream : Stream}
    (hw : s.watched stream = true) (interrupts : List Bool) (errno : ℤ) :
    let result := readOutput junk (fds.fd stream) s.op interrupts (s.pipe stream) errno
    result.2.fd = s.op.fd ∧ (∀ other, other ≠ stream → result.2.data other = s.op.data other) ∧
      Holds (result.2.data stream) (s.written stream) ∧
      result.1.pipe = { s.pipe stream with available := [] } ∧
      (result.1.rc = 0 ↔ (s.pipe stream).available.length % bufReadLen = 0) := by
  obtain ⟨text, hholds, hwritten⟩ := h.data stream hw
  have hzero := h.zero stream
  rw [hwritten, List.mem_append, not_or] at hzero
  obtain ⟨hdata, hpipe, hrc⟩ := readLoop_spec junk interrupts (s.pipe stream) _ text errno hholds
    hzero.2
  unfold readOutput
  rw [h.stream hw]
  dsimp only
  rw [hholds.cstring hzero.1]
  refine ⟨?_, ?_, ?_, hpipe, hrc⟩
  · split <;> rfl
  · intro other hne
    split
    · exact Function.update_of_ne hne _ _
    · rfl
  · rw [hwritten]
    split
    · dsimp only
      rw [Function.update_self]
      exact hdata
    · rename_i hnone
      -- Nothing was read, and there is nothing to store.
      obtain ⟨-, hempty⟩ | hsome := hdata
      · rw [hempty]
        obtain rfl := (List.append_eq_nil_iff.mp hempty).1
        exact hholds
      · rw [hsome] at hnone
        exact absurd rfl hnone

theorem Holds.output {stream : Stream} {op : SvcOutput} {text : List UInt8}
    (h : Holds (op.data stream) text) (htext : 0 ∉ text) : op.output stream = text :=
  h.cstring htext

theorem captures_iff (junk : UInt8) (h : s.Inv fds) {e : OutputEvent}
    (hu : outputStep junk fds s e = some u) : Captures junk fds s e ↔ ShortPiece s e := by
  cases e with
  | write stream bytes => exact Iff.rfl
  | close stream => exact Iff.rfl
  | dispatch stream interrupts errno =>
    have hw : s.watched stream = true := by
      by_contra hw
      rw [outputStep, if_neg hw] at hu
      cases hu
    obtain ⟨-, -, hholds, hpipe, hrc⟩ := readOutput_spec junk h hw interrupts errno
    have houtput := hholds.output (h.zero stream)
    simp only [Captures, ShortPiece, houtput, true_and, hpipe, hrc, Pipe.mk.injEq, ne_eq]
    cases (s.pipe stream).writerOpen with
    | true => simp
    | false => simp

theorem inv_childWrites (h : s.Inv fds) (stream : Stream) (bytes : TextBytes) :
    (childWrites s stream bytes.1).Inv fds where
  fd := h.fd
  data other hw := by
    obtain ⟨text, hholds, hwritten⟩ := h.data other hw
    refine ⟨text, hholds, ?_⟩
    simp only [childWrites]
    by_cases heq : other = stream
    · subst heq
      change s.watched other = true at hw
      rw [Function.update_self, if_pos hw, Function.update_self, hwritten, List.append_assoc]
    · rw [Function.update_of_ne heq, hwritten]
      split
      · rw [Function.update_of_ne heq]
      · rfl
  zero other := by
    simp only [childWrites]
    by_cases heq : other = stream
    · rw [heq, Function.update_self, List.mem_append, not_or]
      exact ⟨h.zero stream, bytes.2⟩
    · rw [Function.update_of_ne heq]
      exact h.zero other

theorem inv_closeWriter (h : s.Inv fds) (stream : Stream) : (closeWriter s stream).Inv fds where
  fd := h.fd
  data other hw := by
    obtain ⟨text, hholds, hwritten⟩ := h.data other hw
    refine ⟨text, hholds, ?_⟩
    simp only [closeWriter]
    by_cases heq : other = stream
    · subst heq
      rw [Function.update_self]
      exact hwritten
    · rw [Function.update_of_ne heq]
      exact hwritten
  zero := h.zero

/-- What the dispatch leaves: all is stored, and a pipe whose last piece filled the buffer
is closed. -/
theorem dispatch_spec (junk : UInt8) (h : s.Inv fds) {stream : Stream}
    (hw : s.watched stream = true) (interrupts : List Bool) (errno : ℤ) :
    let u := mainloopFdDispatch junk (fds.fd stream) s stream interrupts errno
    u.written = s.written ∧
      u.pipe = Function.update s.pipe stream { s.pipe stream with available := [] } ∧
      (∀ other, other ≠ stream → u.op.data other = s.op.data other) ∧
      Holds (u.op.data stream) (s.written stream) ∧
      ((s.pipe stream).available.length % bufReadLen = 0 ∧
        u.watched = Function.update s.watched stream false ∧
        u.op.fd = Function.update s.op.fd stream (-1) ∨
      (s.pipe stream).available.length % bufReadLen ≠ 0 ∧ u.watched = s.watched ∧
        u.op.fd = s.op.fd) := by
  obtain ⟨hfd, hother, hholds, hpipe, hrc⟩ := readOutput_spec junk h hw interrupts errno
  unfold mainloopFdDispatch
  dsimp only
  split
  · rename_i hzero
    refine ⟨rfl, by rw [← hpipe], hother, hholds, .inl ⟨hrc.mp hzero, rfl, ?_⟩⟩
    rw [SvcOutput.pipeDone, hfd]
  · rename_i hzero
    exact ⟨rfl, by rw [← hpipe], hother, hholds, .inr ⟨mt hrc.mpr hzero, rfl, hfd⟩⟩

theorem inv_mainloopFdDispatch (junk : UInt8) (h : s.Inv fds) {stream : Stream}
    (hw : s.watched stream = true) (interrupts : List Bool) (errno : ℤ) :
    (mainloopFdDispatch junk (fds.fd stream) s stream interrupts errno).Inv fds := by
  obtain ⟨hwritten, hpipe, hother, hholds, hclose⟩ := dispatch_spec junk h hw interrupts errno
  constructor
  · intro other
    have hfd := h.fd other
    obtain ⟨-, hwatched, hfds⟩ | ⟨-, hwatched, hfds⟩ := hclose
    · rw [hwatched, hfds]
      by_cases heq : other = stream
      · rw [heq, Function.update_self, Function.update_self, if_neg Bool.false_ne_true]
      · rw [Function.update_of_ne heq, Function.update_of_ne heq, hfd]
    · rw [hwatched, hfds, hfd]
  · intro other hother_watched
    rw [hwritten, hpipe]
    by_cases heq : other = stream
    · rw [heq, Function.update_self]
      exact ⟨s.written stream, hholds, (List.append_nil _).symm⟩
    · rw [Function.update_of_ne heq, hother other heq]
      apply h.data other
      obtain ⟨-, hwatched, -⟩ | ⟨-, hwatched, -⟩ := hclose
      · rwa [hwatched, Function.update_of_ne heq] at hother_watched
      · rwa [hwatched] at hother_watched
  · rw [hwritten]
    exact h.zero

theorem outputStep_cases {junk : UInt8} {e : OutputEvent} (h : outputStep junk fds s e = some u) :
    (∃ stream bytes, e = .write stream bytes ∧ (s.pipe stream).writerOpen = true ∧
      u = childWrites s stream bytes.1) ∨
    (∃ stream, e = .close stream ∧ (s.pipe stream).writerOpen = true ∧ u = closeWriter s stream) ∨
    ∃ stream interrupts errno, e = .dispatch stream interrupts errno ∧
      s.watched stream = true ∧
      u = mainloopFdDispatch junk (fds.fd stream) s stream interrupts errno := by
  cases e with
  | write stream bytes =>
    rw [outputStep] at h
    split at h
    · exact .inl ⟨stream, bytes, rfl, ‹_›, (Option.some_inj.mp h).symm⟩
    · cases h
  | close stream =>
    rw [outputStep] at h
    split at h
    · exact .inr (.inl ⟨stream, rfl, ‹_›, (Option.some_inj.mp h).symm⟩)
    · cases h
  | dispatch stream interrupts errno =>
    rw [outputStep] at h
    split at h
    · exact .inr (.inr ⟨stream, interrupts, errno, rfl, ‹_›, (Option.some_inj.mp h).symm⟩)
    · cases h

theorem inv_outputStep (junk : UInt8) {e : OutputEvent} (h : s.Inv fds)
    (hu : outputStep junk fds s e = some u) : u.Inv fds := by
  obtain ⟨stream, bytes, -, -, rfl⟩ | ⟨stream, -, -, rfl⟩ |
    ⟨stream, interrupts, errno, -, hw, rfl⟩ := outputStep_cases hu
  · exact inv_childWrites h stream bytes
  · exact inv_closeWriter h stream
  · exact inv_mainloopFdDispatch junk h hw interrupts errno

/-- A step of the kind allowed closes a pipe only when all of it has been read. -/
theorem whole_outputStep (junk : UInt8) {e : OutputEvent} (h : s.Inv fds) (hs : Whole s)
    (hok : ShortPiece s e) (hu : outputStep junk fds s e = some u) : Whole u := by
  obtain ⟨stream, bytes, -, hopen, rfl⟩ | ⟨stream, -, hopen, rfl⟩ |
    ⟨stream, interrupts, errno, rfl, hw, rfl⟩ := outputStep_cases hu
  · intro other hclosed
    obtain ⟨hwriter, houtput⟩ := hs other hclosed
    have heq : other ≠ stream := by
      rintro rfl
      rw [hopen] at hwriter
      cases hwriter
    simp only [childWrites]
    rw [Function.update_of_ne heq]
    refine ⟨?_, houtput⟩
    split
    · rwa [Function.update_of_ne heq]
    · exact hwriter
  · intro other hclosed
    obtain ⟨hwriter, houtput⟩ := hs other hclosed
    have heq : other ≠ stream := by
      rintro rfl
      rw [hopen] at hwriter
      cases hwriter
    simp only [closeWriter]
    rw [Function.update_of_ne heq]
    exact ⟨hwriter, houtput⟩
  · obtain ⟨hwritten, hpipe, hother, hholds, hclose⟩ := dispatch_spec junk h hw interrupts errno
    intro other hclosed
    rw [hpipe, hwritten]
    by_cases heq : other = stream
    · subst heq
      rw [Function.update_self]
      refine ⟨?_, hholds.output (h.zero other)⟩
      obtain ⟨hfull, -, -⟩ | ⟨-, hwatched, -⟩ := hclose
      · exact Bool.eq_false_of_not_eq_true fun hopen => hok hopen hfull
      · rw [hwatched, hw] at hclosed
        cases hclosed
    · rw [Function.update_of_ne heq]
      have hclosed : s.watched other = false := by
        obtain ⟨-, hwatched, -⟩ | ⟨-, hwatched, -⟩ := hclose
        · rwa [hwatched, Function.update_of_ne heq] at hclosed
        · rwa [hwatched] at hclosed
      obtain ⟨hwriter, houtput⟩ := hs other hclosed
      refine ⟨hwriter, ?_⟩
      rw [SvcOutput.output, hother other heq]
      exact houtput

end

theorem throughout_captures_iff (junk : UInt8) (fds : PipeFds) (es : List OutputEvent) :
    Throughout (outputStep junk fds) (Captures junk fds) (OutputRun.init fds) es ↔
      Throughout (outputStep junk fds) ShortPiece (OutputRun.init fds) es :=
  throughout_congr (fun _ _ _ h hu => inv_outputStep junk h hu)
    (fun _ _ _ h hu => captures_iff junk h hu) (inv_outputInit fds) es

/-- Every call stores all that was written and returns `FALSE` only at the end of the file,
and the whole stream is stored in the end, if no call finds the buffer filled by the last
piece, or nothing to read, while the child can still write. -/
theorem output_captured_iff (junk : UInt8) (fds : PipeFds) (es : List OutputEvent) :
    (Throughout (outputStep junk fds) (Captures junk fds) (OutputRun.init fds) es ∧
      Always (outputStep junk fds) Whole (OutputRun.init fds) es) ↔
    Throughout (outputStep junk fds) ShortPiece (OutputRun.init fds) es := by
  constructor
  · intro h
    exact (throughout_captures_iff junk fds es).mp h.1
  · intro h
    refine ⟨(throughout_captures_iff junk fds es).mpr h, ?_⟩
    have hinit : Whole (OutputRun.init fds) := fun _ hclosed => by cases hclosed
    exact (always_of_preserved (I := fun s => s.Inv fds ∧ Whole s)
      (fun s e u hs hok hu =>
        ⟨inv_outputStep junk hs.1 hu, whole_outputStep junk hs.1 hs.2 hok hu⟩)
      ⟨inv_outputInit fds, hinit⟩ h).imp fun _ hs => hs.2

def testFds : PipeFds where
  fd
    | .stdout => 5
    | .stderr => 7
  distinct := by decide

def fullLine : TextBytes where
  val := List.replicate bufReadLen 97
  property h := absurd (List.eq_of_mem_replicate h) (by decide)

theorem not_shortPiece (line : List UInt8) (h : line.length % bufReadLen = 0) :
    ¬ ShortPiece (childWrites (OutputRun.init testFds) .stdout line) (.dispatch .stdout [] 0) :=
  fun hshort => hshort rfl h

/-- The output of a child that goes on after such a line is closed. -/
theorem output_lost :
    ¬ Throughout (outputStep 0 testFds) (Captures 0 testFds) (OutputRun.init testFds)
      [.write .stdout fullLine, .dispatch .stdout [] 0] := by
  rw [throughout_captures_iff]
  intro h
  obtain ⟨-, htail⟩ := h _ rfl
  obtain ⟨hshort, -⟩ := htail _ rfl
  refine not_shortPiece fullLine.1 ?_ hshort
  rw [fullLine, List.length_replicate, Nat.mod_self]

end Matahari.Services
