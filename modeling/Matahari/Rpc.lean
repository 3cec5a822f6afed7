import Mathlib.Data.List.DropRight
import Matahari.SysconfigLinux

set_option autoImplicit false

/-!
# Remote procedure calls

The RPC library: `rpc_server.py`, which runs the procedures of the plugins, and `rpc-python.c` and
`rpc.c`, which the agent calls. `P` is the state of the interpreter, `M` the type of its modules,
`F` that of the things they define and `J` that of the values which JSON stands for.
-/
namespace Matahari.Rpc
open Mainloop Utilities Sysconfig

variable {P M F J : Type}

/-- What `PyErr_Fetch` finds. There may be no value and no traceback, and `str` may fail on the
value. -/
structure PyException where
  name : Text
  value : Option (Option Text)
  traceback : Option Text
  deriving DecidableEq, Repr

structure Python (P M F J : Type) where
  name : M → Text
  dir : P → M → List Text
  getattr : P → M → Text → Option F
  callable : F → Bool
  apply : F → List J → List (Text × J) → P → P × Except PyException J
  attributeError : M → Text → PyException
  loads : Text → Except PyException J
  dumps : J → Except PyException Text

/-! ## `rpc_server.py` -/

def dict {α : Type} (pairs : List (Text × α)) : List (Text × α) :=
  pairs.foldl (fun d p => d.filter (fun q => q.1 ≠ p.1) ++ [p]) []

def procedures (py : Python P M F J) (p : P) (module : M) : Option (List Text) :=
  if (py.dir p module).all fun a => (py.getattr p module a).isSome then
    some ((py.dir p module).filter fun a =>
      (py.getattr p module a).any py.callable && a.head? != some '_')
  else none

def loadsArgs (py : Python P M F J) (argsJson : List Text) : Except PyException (List J) :=
  argsJson.mapM py.loads

def loadsKwargs (py : Python P M F J) (kwargsJson : List (Text × Text)) :
    Except PyException (List (Text × J)) :=
  (kwargsJson.mapM fun kv : Text × Text => (py.loads kv.2).map fun v => (kv.1, v)).map dict

def pluginCall (py : Python P M F J) (module : M) (procedure : Text) (argsJson : List Text)
    (kwargsJson : List (Text × Text)) (p : P) : P × Except PyException Text :=
  match py.getattr p module procedure with
  | none => (p, .error (py.attributeError module procedure))
  | some func =>
    match loadsArgs py argsJson with
    | .error e => (p, .error e)
    | .ok args =>
      match loadsKwargs py kwargsJson with
      | .error e => (p, .error e)
      | .ok kwargs =>
        ((py.apply func args kwargs p).1, (py.apply func args kwargs p).2.bind py.dumps)

def splitext (f : Text) : Text × Text :=
  let ext := f.rtakeWhile (· ≠ '.')
  let root := (f.rdropWhile (· ≠ '.')).dropLast
  if root.any (· ≠ '.') then (root, '.' :: ext) else (f, [])

inductive ImportOutcome (M : Type) where
  | module (m : M)
  | importError
  | otherError

def getPlugins (importModule : Text → P → P × ImportOutcome M) :
    List Text → P → P × Option (List M)
  | [], p => (p, some [])
  | name :: names, p =>
    match importModule name p with
    | (p, .otherError) => (p, none)
    | (p, .importError) => getPlugins importModule names p
    | (p, .module m) => ((getPlugins importModule names p).1,
        (getPlugins importModule names p).2.map (m :: ·))

def plugins (importModule : Text → P → P × ImportOutcome M) (listing : Option (List Text)) (p : P) :
    P × Option (List M) :=
  match listing with
  | none => (p, some [])
  | some files =>
    getPlugins importModule
      (((files.map splitext).filter fun f => f.2 = ".py".toList).map (·.1)) p

/-! ## `rpc-python.c` and `rpc.c` -/

structure MhRpcPlugin (M : Type) where
  name : Text
  type : ℕ
  impl : M

def mhRpcPython : ℕ := 1

structure RpcArg where
  key : Option Text
  val : Text
  deriving DecidableEq, Repr

structure MhRpc where
  procedure : Text
  args : List RpcArg
  kwargs : List RpcArg
  deriving DecidableEq, Repr

def mhRpcCallCreate (procedure : Text) : MhRpc := ⟨cstring procedure, [], []⟩

def addArg (args : List RpcArg) (key : Option Text) (val : Text) : List RpcArg := args ++ [⟨key, val⟩]

def mhRpcCallAddArg (call : MhRpc) (arg : Text) : MhRpc :=
  { call with args := addArg call.args none (cstring arg) }

def mhRpcCallAddKwArg (call : MhRpc) (key arg : Text) : MhRpc :=
  { call with kwargs := addArg call.kwargs (some (cstring key)) (cstring arg) }

structure MhRpcResult where
  result : Option Text
  excType : Option Text
  excValue : Option Text
  excTraceback : Option Text
  deriving DecidableEq, Repr

def MhRpcResult.zero : MhRpcResult := ⟨none, none, none, none⟩

/-- What `encode_exception` comes to. `Py_DECREF` of a null pointer is the crash. -/
inductive Encoded where
  | encoded (output : MhRpcResult)
  | failed
  | crashed
  deriving DecidableEq, Repr

def encodeException (e : PyException) : Encoded :=
  match e.value, e.traceback with
  | some (some value), some traceback =>
    .encoded ⟨none, some (cstring e.name), some (cstring value), some (cstring traceback)⟩
  | some none, some _ => .failed
  | _, _ => .crashed

def callPlugin (py : Python P M F J) (module : M) (call : MhRpc) (p : P) :
    P × Except PyException Text :=
  pluginCall py module call.procedure (call.args.map (·.val))
    (call.kwargs.map fun arg => (arg.key.getD [], arg.val)) p

def pythonInvoke (py : Python P M F J) (module : M) (call : MhRpc) (p : P) :
    P × Option (MhResult × MhRpcResult) :=
  let run := callPlugin py module call p
  match run.2 with
  | .ok result => (run.1, some (.success, { MhRpcResult.zero with result := some (cstring result) }))
  | .error e =>
    match encodeException e with
    | .encoded output => (run.1, some (.success, output))
    | .failed => (run.1, some (.backendError, MhRpcResult.zero))
    | .crashed => (run.1, none)

def getProcedures (py : Python P M F J) (p : P) (module : M) : Option (List Text) :=
  (procedures py p module).map (List.map cstring)

def loadPlugins (py : Python P M F J) (modules : Option (List M)) : List (MhRpcPlugin M) :=
  (modules.getD []).map fun m => ⟨cstring (py.name m), mhRpcPython, m⟩

def apiDefined (type : ℕ) : Bool := type == mhRpcPython

def mhRpcGetProcedures (py : Python P M F J) (p : P) (plugin : MhRpcPlugin M) :
    Option (List Text) :=
  if apiDefined plugin.type then getProcedures py p plugin.impl else none

def mhRpcInvoke (py : Python P M F J) (plugin : MhRpcPlugin M) (call : MhRpc) (p : P) :
    P × Option (MhResult × MhRpcResult) :=
  if apiDefined plugin.type then pythonInvoke py plugin.impl call p
  else (p, some (.backendError, MhRpcResult.zero))

/-! ## What is looked up -/

theorem cstring_eq_self {s : Text} (h : nul ∉ s) : cstring s = s := by
  unfold cstring
  rw [List.takeWhile_eq_self_iff]
  intro c hc
  have hne : c ≠ nul := by
    rintro rfl
    exact h hc
  simpa using hne

theorem nul_notMem_cstring (s : Text) : nul ∉ cstring s := by
  intro hmem
  simpa using List.mem_takeWhile_imp hmem

theorem cstring_cstring (s : Text) : cstring (cstring s) = cstring s :=
  cstring_eq_self (nul_notMem_cstring s)

/-- A procedure that anybody may call. -/
structure IsPublic (py : Python P M F J) (p : P) (module : M) (name : Text) : Prop where
  listed : name ∈ py.dir p module
  callable : ∃ f, py.getattr p module name = some f ∧ py.callable f = true
  visible : name.head? ≠ some '_'

theorem isPublic_of_mem {py : Python P M F J} {p : P} {module : M} {names : List Text}
    {name : Text} (h : procedures py p module = some names) (hmem : name ∈ names) :
    IsPublic py p module name := by
  unfold procedures at h
  split at h
  · cases h
    obtain ⟨hlisted, hname⟩ := List.mem_filter.mp hmem
    rw [Bool.and_eq_true] at hname
    refine ⟨hlisted, ?_, by simpa using hname.2⟩
    cases hf : py.getattr p module name with
    | none =>
      rw [hf] at hname
      cases hname.1
    | some f =>
      rw [hf] at hname
      exact ⟨f, rfl, hname.1⟩
  · cases h

/-! ## Exceptions -/

/-- An exception that `encode_exception` does not survive. -/
def PyException.Incomplete (e : PyException) : Prop := e.value = none ∨ e.traceback = none

theorem encodeException_crashed_iff (e : PyException) :
    encodeException e = .crashed ↔ e.Incomplete := by
  unfold encodeException PyException.Incomplete
  cases hvalue : e.value with
  | none => simp
  | some value =>
    cases htraceback : e.traceback with
    | none =>
      cases value <;> simp
    | some traceback =>
      cases value <;> simp

theorem mhRpcInvoke_none_iff {py : Python P M F J} {plugin : MhRpcPlugin M} {call : MhRpc} {p : P} :
    (mhRpcInvoke py plugin call p).2 = none ↔
      apiDefined plugin.type = true ∧
        ∃ e, (callPlugin py plugin.impl call p).2 = .error e ∧ e.Incomplete := by
  unfold mhRpcInvoke
  cases hapi : apiDefined plugin.type with
  | false => simp
  | true =>
    rw [if_pos rfl]
    unfold pythonInvoke
    dsimp only
    cases hrun : (callPlugin py plugin.impl call p).2 with
    | ok result => simp
    | error e =>
      dsimp only
      constructor
      · intro h
        refine ⟨rfl, e, rfl, (encodeException_crashed_iff e).mp ?_⟩
        cases hencode : encodeException e with
        | crashed => rfl
        | encoded output =>
          rw [hencode] at h
          exact absurd h (Option.some_ne_none _)
        | failed =>
          rw [hencode] at h
          exact absurd h (Option.some_ne_none _)
      · intro h
        obtain ⟨_, e', he', hincomplete⟩ := h
        cases he'
        rw [(encodeException_crashed_iff e).mpr hincomplete]

section
variable {py : Python P M F J} {plugin : MhRpcPlugin M} {call : MhRpc} {p : P}

theorem mhRpcInvoke_fst (hapi : apiDefined plugin.type = true) :
    (mhRpcInvoke py plugin call p).1 = (callPlugin py plugin.impl call p).1 := by
  unfold mhRpcInvoke pythonInvoke
  rw [if_pos hapi]
  dsimp only
  cases (callPlugin py plugin.impl call p).2 with
  | ok result => rfl
  | error e =>
    dsimp only
    cases encodeException e <;> rfl

theorem mhRpcInvoke_ok {result : Text} (hapi : apiDefined plugin.type = true)
    (hrun : (callPlugin py plugin.impl call p).2 = .ok result) :
    (mhRpcInvoke py plugin call p).2 =
      some (.success, { MhRpcResult.zero with result := some (cstring result) }) := by
  unfold mhRpcInvoke pythonInvoke
  rw [if_pos hapi]
  dsimp only
  rw [hrun]

theorem mhRpcInvoke_error {e : PyException} {value traceback : Text}
    (hapi : apiDefined plugin.type = true)
    (hrun : (callPlugin py plugin.impl call p).2 = .error e) (hvalue : e.value = some (some value))
    (htraceback : e.traceback = some traceback) :
    (mhRpcInvoke py plugin call p).2 =
      some (.success, ⟨none, some (cstring e.name), some (cstring value),
        some (cstring traceback)⟩) := by
  unfold mhRpcInvoke pythonInvoke
  rw [if_pos hapi]
  dsimp only
  rw [hrun]
  dsimp only
  unfold encodeException
  rw [hvalue, htraceback]

end

/-! ## JSON -/

/-- A dictionary of pairs whose keys are different has the pairs. -/
theorem dict_eq_self {α : Type} {pairs : List (Text × α)} (h : (pairs.map (·.1)).Nodup) :
    dict pairs = pairs := by
  unfold dict
  induction pairs using List.reverseRecOn with
  | nil => rfl
  | append_singleton pairs pair ih =>
    rw [List.map_append, List.nodup_append] at h
    rw [List.foldl_append, ih h.1, List.foldl_cons, List.foldl_nil, List.filter_eq_self.mpr]
    intro q hq
    have hne := h.2.2 q.1 (List.mem_map_of_mem hq) pair.1 (List.mem_singleton_self _)
    simpa using hne

/-- A value that JSON carries over as this text. -/
structure JsonText (py : Python P M F J) (value : J) (text : Text) : Prop where
  dumps : py.dumps value = .ok text
  loads : py.loads text = .ok value
  plain : nul ∉ text

structure JsonPair (py : Python P M F J) (value : Text × J) (text : Text × Text) : Prop where
  key : text.1 = value.1
  plain : nul ∉ value.1
  json : JsonText py value.2 text.2

theorem loadsArgs_ok {py : Python P M F J} {args : List J} {texts : List Text}
    (h : List.Forall₂ (JsonText py) args texts) :
    loadsArgs py (texts.map cstring) = .ok args := by
  unfold loadsArgs
  induction h with
  | nil => rfl
  | cons hfirst _ ih =>
    rw [List.map_cons, List.mapM_cons, cstring_eq_self hfirst.plain, hfirst.loads, ih]
    rfl

theorem loadsKwargs_ok {py : Python P M F J} {kwargs : List (Text × J)}
    {texts : List (Text × Text)} (hkeys : (kwargs.map (·.1)).Nodup)
    (h : List.Forall₂ (JsonPair py) kwargs texts) :
    loadsKwargs py (texts.map fun kv => (cstring kv.1, cstring kv.2)) = .ok kwargs := by
  have hpairs : (texts.map fun kv => (cstring kv.1, cstring kv.2)).mapM
      (fun kv : Text × Text => (py.loads kv.2).map fun v => (kv.1, v)) = .ok kwargs := by
    clear hkeys
    induction h with
    | nil => rfl
    | @cons value text values texts hfirst _ ih =>
      rw [List.map_cons, List.mapM_cons, cstring_eq_self hfirst.json.plain, hfirst.json.loads,
        hfirst.key, cstring_eq_self hfirst.plain, ih]
      rfl
  unfold loadsKwargs
  rw [hpairs]
  exact congrArg Except.ok (dict_eq_self hkeys)

end Matahari.Rpc
