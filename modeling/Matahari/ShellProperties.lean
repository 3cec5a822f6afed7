import Matahari.ShellDispatch

set_option autoImplicit false

/-!
# The commands of a class

`ClassMode` makes commands from the schema of the selected class, whose arguments are objects of
`types.py`. What python evaluates is a parameter. `perform` stands for what a handler does with
the selected objects.
-/
namespace Matahari.Shell.ClassCommands
open Mainloop Dispatch

/-! ## Python -/

inductive PyValue (O : Type) where
  | int (i : ℤ)
  | bool (b : Bool)
  | list (xs : List O)
  | dict (items : List (O × O))
  | other (value : O)

inductive PyError where
  | nameError
  | syntaxError
  | valueError (message : Text)
  | other (exception : Text)

/-- `eval` without any names, `float`, `unicode`, and the message of the `ValueError` of `int`; the
errors of `float` and `unicode` are a `ValueError`, too. -/
structure Python (O : Type) where
  eval : Text → Except PyError (PyValue O)
  float : Text → Except Text O
  unicode : O → Except Text Text
  noInt : Text → Text

inductive Object (O : Type) where
  | bool (b : Bool)
  | int (i : ℤ)
  | float (value : O)
  | uuid (number : ℤ)
  | list (xs : List O)
  | map (items : List (Text × O))

def pyInt (s : Text) : Option ℤ :=
  let (negative, s) := sign (strip isSpace s)
  let digits := s.dropWhile isSpace
  if digits = [] then none
  else
    (digits.foldlM (fun n c => ((digitValue c).filter (· < 10)).map (10 * n + ·)) 0).map
      fun (n : ℕ) => if negative then -(n : ℤ) else n

/-! ## `types.py` -/

inductive QmfType where
  | u8 | u16 | u32 | u64
  | s8 | s16 | s32 | s64
  | sstr | lstr
  | bool
  | float | double
  | uuid
  | ftable
  | list | array
  | other
  deriving DecidableEq, Repr

structure SchemaArg where
  name : Text
  type : QmfType
  min : Option ℤ
  max : Option ℤ
  maxlen : Option ℕ

def minimum : QmfType → ℤ
  | .u8 | .u16 | .u32 | .u64 => 0
  | .s8 => -2 ^ 7
  | .s16 => -2 ^ 15
  | .s64 => -2 ^ 63
  | _ => -2 ^ 31

def maximum : QmfType → ℤ
  | .u8 => 2 ^ 8 - 1
  | .u16 => 2 ^ 16 - 1
  | .u32 => 2 ^ 32 - 1
  | .u64 => 2 ^ 64 - 1
  | .s8 => 2 ^ 7 - 1
  | .s16 => 2 ^ 15 - 1
  | .s64 => 2 ^ 63 - 1
  | _ => 2 ^ 31 - 1

def intMin (arg : SchemaArg) : ℤ := arg.min.getD (minimum arg.type)
def intMax (arg : SchemaArg) : ℤ := arg.max.getD (maximum arg.type)

def decimal (i : ℤ) : Text :=
  if i < 0 then '-' :: Nat.toDigits 10 i.natAbs else Nat.toDigits 10 i.natAbs

def maxLength (arg : SchemaArg) : ℕ :=
  match arg.maxlen with
  | some (n + 1) => n + 1
  | _ => if arg.type = .sstr then 255 else 65535

section
variable {O : Type}

def stringCall (arg : SchemaArg) (param : Text) : Conversion (Object O) :=
  if maxLength arg < param.length then .valueError "Parameter is too long".toList
  else .value (.str param)

def truthy : List Text := ["true".toList, "t".toList, "1".toList, "y".toList, "yes".toList]
def falsey : List Text := ["false".toList, "f".toList, "0".toList, "n".toList, "no".toList]

def isNot (param : Text) (what : String) : Conversion (Object O) :=
  .valueError ('"' :: param ++ "\" is not ".toList ++ what.toList)

def evalError (param : Text) (what : String) : PyError → Conversion (Object O)
  | .nameError | .syntaxError => isNot param what
  | .valueError message => .valueError message
  | .other exception => .raises exception

def boolCall (py : Python O) (param : Text) : Conversion (Object O) :=
  let lc := param.map Char.toLower
  if truthy.any (· == lc) then .value (.object (.bool true))
  else if falsey.any (· == lc) then .value (.object (.bool false))
  else match py.eval param with
    | .error e => evalError param "a boolean" e
    | .ok (.int i) => .value (.object (.bool (i ≠ 0)))
    | .ok (.bool b) => .value (.object (.bool b))
    | .ok _ => isNot param "a boolean"

def intCall (py : Python O) (arg : SchemaArg) (param : Text) : Conversion (Object O) :=
  match pyInt param with
  | none => .valueError (py.noInt param)
  | some value =>
    if value < intMin arg then
      .valueError ("Value ".toList ++ decimal value ++ " underflows minimum of range (".toList ++
        decimal (intMin arg) ++ ")".toList)
    else if intMax arg < value then
      .valueError ("Value ".toList ++ decimal value ++ " overflows maximum of range (".toList ++
        decimal (intMax arg) ++ ")".toList)
    else .value (.object (.int value))

def floatCall (py : Python O) (param : Text) : Conversion (Object O) :=
  match py.float param with
  | .error message => .valueError message
  | .ok value => .value (.object (.float value))

def uuidCall (param : Text) : Conversion (Object O) :=
  match Uuid.call param with
  | .value (.object n) => .value (.object (.uuid n))
  | .value (.str s) => .value (.str s)
  | .valueError message => .valueError message
  | .invalidArgument message => .invalidArgument message
  | .invalidCommand line message => .invalidCommand line message
  | .raises exception => .raises exception
  | .none => .none

def listCall (py : Python O) (param : Text) : Conversion (Object O) :=
  match py.eval param with
  | .error e => evalError param "a valid list" e
  | .ok (.list xs) => .value (.object (.list xs))
  | .ok _ => isNot param "a list"

def unicodeKeys (py : Python O) (items : List (O × O)) : Except Text (List (Text × O)) :=
  items.mapM fun item => (py.unicode item.1).map fun key => (key, item.2)

def mapCall (py : Python O) (param : Text) : Conversion (Object O) :=
  match py.eval param with
  | .error e => evalError param "a valid map" e
  | .ok (.dict items) => match unicodeKeys py items with
    | .error message => .valueError message
    | .ok items => .value (.object (.map items))
  | .ok _ => isNot param "a map"

/-- `__call__` of the class that `_qmfPropertyTypes` has for the type. -/
def qmfCall (py : Python O) (arg : SchemaArg) (param : Text) : Conversion (Object O) :=
  match arg.type with
  | .u8 | .u16 | .u32 | .u64 | .s8 | .s16 | .s32 | .s64 => intCall py arg param
  | .bool => boolCall py param
  | .float | .double => floatCall py param
  | .uuid => uuidCall param
  | .ftable => mapCall py param
  | .list | .array => listCall py param
  | .sstr | .lstr | .other => stringCall arg param

def isInt : QmfType → Bool
  | .u8 | .u16 | .u32 | .u64 | .s8 | .s16 | .s32 | .s64 => true
  | _ => false

def qmfStr (arg : SchemaArg) : Text :=
  if isInt arg.type && (arg.min.isSome || arg.max.isSome) then
    '<' :: decimal (intMin arg) ++ '-' :: decimal (intMax arg) ++ ['>']
  else arg.name

/-- An argument without a default is never in a group of optional ones here. -/
def qmfProperty (py : Python O) (arg : SchemaArg) : Parameter (Object O) :=
  ⟨qmfStr arg, some (qmfCall py arg), .none, none⟩

end

/-! ## `ClassMode` -/

def readWrite : ℤ := 2

structure SchemaProperty where
  arg : SchemaArg
  access : ℤ

structure MethodArg where
  arg : SchemaArg
  dir : Text

structure SchemaMethod where
  name : Text
  arguments : List MethodArg

/-- `doc` is the docstring that the handler of a command has for a name, as its `help` makes it of
the descriptions that the agent gives. -/
structure Schema where
  properties : List SchemaProperty
  statistics : List Text
  methods : List SchemaMethod
  doc : Text → Text → Text

inductive Action (O : Type) where
  | get (name : Text)
  | set (name : Text) (value : Value (Object O))
  | filter (name : Text) (value : Value (Object O))
  | call (method : Text) (args : List (Value (Object O)))

variable {O σ : Type}

def passed : List (Yielded (Object O)) → List (Value (Object O)) :=
  List.filterMap fun x => match x with
    | .value _ v => some v
    | _ => none

def typeError (s : σ) : Except Raised Bool × σ := (.error (.exception "TypeError".toList), s)

section
variable (py : Python O) (perform : Action O → σ → Except Raised Bool × σ) (doc : Text → Text → Text)

/-- `GetPropertyHandler`, for a property or a statistic, whose `repr` is its name. -/
def getProperty (name : Text) : Handler (Object O) σ :=
  ⟨command "get".toList (.string name .nil), doc "get".toList name, fun args s =>
    match passed args with
    | [_, .str propname] => perform (.get propname) s
    | _ => typeError s⟩

def setProperty (prop : SchemaProperty) : Handler (Object O) σ :=
  ⟨command "set".toList (.string prop.arg.name (.callable (qmfProperty py prop.arg) .nil)),
    doc "set".toList prop.arg.name, fun args s =>
      match passed args with
      | [_, .str propname, value] => perform (.set propname value) s
      | _ => typeError s⟩

def filterProperty (prop : SchemaProperty) : Handler (Object O) σ :=
  ⟨command "select".toList (.string "property".toList
      (.string prop.arg.name (.callable (qmfProperty py prop.arg) .nil))),
    doc "select".toList prop.arg.name, fun args s =>
    match passed args with
    | [_, _, .str argProperty, argValue] => perform (.filter argProperty argValue) s
    | _ => typeError s⟩

def inputs (method : SchemaMethod) : List SchemaArg :=
  (method.arguments.filter fun a => a.dir.contains 'I').map MethodArg.arg

def callables : List (Parameter (Object O)) → Definition (Object O)
  | [] => .nil
  | p :: ps => .callable p (callables ps)

def callMethod (method : SchemaMethod) : Handler (Object O) σ :=
  ⟨command "call".toList (.string method.name (callables ((inputs method).map (qmfProperty py)))),
    doc "call".toList method.name, fun args s =>
      match passed args with
      | _ :: .str methodname :: args => perform (.call methodname args) s
      | _ => typeError s⟩

def classCommands (schema : Schema) : List (Handler (Object O) σ) :=
  (schema.properties.flatMap fun prop =>
      getProperty perform schema.doc prop.arg.name ::
        ((if prop.access = readWrite then [setProperty py perform schema.doc prop] else []) ++
          [filterProperty py perform schema.doc prop])) ++
    schema.statistics.map (getProperty perform schema.doc) ++
      schema.methods.map (callMethod py perform schema.doc)

end

/-! ## The values of a type -/

def Describes (arg : SchemaArg) : Value (Object O) → Prop
  | .str s => (arg.type = .sstr ∨ arg.type = .lstr ∨ arg.type = .other) ∧ s.length ≤ maxLength arg
  | .object (.bool _) => arg.type = .bool
  | .object (.int i) => isInt arg.type = true ∧ intMin arg ≤ i ∧ i ≤ intMax arg
  | .object (.float _) => arg.type = .float ∨ arg.type = .double
  | .object (.uuid _) => arg.type = .uuid
  | .object (.list _) => arg.type = .list ∨ arg.type = .array
  | .object (.map _) => arg.type = .ftable

section
variable {py : Python O} {arg : SchemaArg} {word : Text} {v : Value (Object O)}

theorem stringCall_value (h : stringCall arg word = .value v) :
    ∃ s, v = .str s ∧ s.length ≤ maxLength arg := by
  unfold stringCall at h
  split at h
  · cases h
  · rename_i hlength
    cases h
    exact ⟨word, rfl, not_lt.mp hlength⟩

theorem evalError_ne_value (what : String) (e : PyError) :
    evalError (O := O) word what e ≠ .value v := by
  intro h
  cases e <;> cases h

theorem boolCall_value (h : boolCall py word = .value v) : ∃ b, v = .object (.bool b) := by
  unfold boolCall at h
  dsimp only at h
  split at h
  · cases h
    exact ⟨true, rfl⟩
  · split at h
    · cases h
      exact ⟨false, rfl⟩
    · split at h
      · exact absurd h (evalError_ne_value _ _)
      · cases h
        exact ⟨_, rfl⟩
      · cases h
        exact ⟨_, rfl⟩
      · cases h

theorem intCall_value (h : intCall py arg word = .value v) :
    ∃ i, v = .object (.int i) ∧ intMin arg ≤ i ∧ i ≤ intMax arg := by
  unfold intCall at h
  split at h
  · cases h
  · rename_i value _
    split at h
    · cases h
    · rename_i hmin
      split at h
      · cases h
      · rename_i hmax
        cases h
        exact ⟨value, rfl, not_lt.mp hmin, not_lt.mp hmax⟩

theorem floatCall_value (h : floatCall py word = .value v) : ∃ x, v = .object (.float x) := by
  unfold floatCall at h
  split at h
  · cases h
  · cases h
    exact ⟨_, rfl⟩

theorem uuid_call_object {x : Value ℤ} (h : Uuid.call word = .value x) : ∃ n, x = .object n := by
  unfold Uuid.call at h
  dsimp only at h
  split at h
  · cases h
  · split at h
    · cases h
      exact ⟨_, rfl⟩
    · cases h

theorem uuidCall_value (h : uuidCall word = .value v) : ∃ n, v = .object (.uuid n) := by
  unfold uuidCall at h
  split at h
  · cases h
    exact ⟨_, rfl⟩
  · rename_i hcall
    obtain ⟨n, hn⟩ := uuid_call_object hcall
    cases hn
  · cases h
  · cases h
  · cases h
  · cases h
  · cases h

theorem listCall_value (h : listCall py word = .value v) : ∃ xs, v = .object (.list xs) := by
  unfold listCall at h
  split at h
  · exact absurd h (evalError_ne_value _ _)
  · cases h
    exact ⟨_, rfl⟩
  · cases h

theorem mapCall_value (h : mapCall py word = .value v) : ∃ items, v = .object (.map items) := by
  unfold mapCall at h
  split at h
  · exact absurd h (evalError_ne_value _ _)
  · split at h
    · cases h
    · cases h
      exact ⟨_, rfl⟩
  · cases h

/-- An argument converts words to values of its type only. -/
theorem describes_of_qmfCall (h : qmfCall py arg word = .value v) : Describes arg v := by
  unfold qmfCall at h
  split at h
  case h_9 htype =>
    obtain ⟨b, hv⟩ := boolCall_value h
    rw [hv]
    exact htype
  case h_10 htype =>
    obtain ⟨x, hv⟩ := floatCall_value h
    rw [hv]
    exact .inl htype
  case h_11 htype =>
    obtain ⟨x, hv⟩ := floatCall_value h
    rw [hv]
    exact .inr htype
  case h_12 htype =>
    obtain ⟨n, hv⟩ := uuidCall_value h
    rw [hv]
    exact htype
  case h_13 htype =>
    obtain ⟨items, hv⟩ := mapCall_value h
    rw [hv]
    exact htype
  case h_14 htype =>
    obtain ⟨xs, hv⟩ := listCall_value h
    rw [hv]
    exact .inl htype
  case h_15 htype =>
    obtain ⟨xs, hv⟩ := listCall_value h
    rw [hv]
    exact .inr htype
  case h_16 htype =>
    obtain ⟨s, hv, hlength⟩ := stringCall_value h
    rw [hv]
    exact ⟨.inl htype, hlength⟩
  case h_17 htype =>
    obtain ⟨s, hv, hlength⟩ := stringCall_value h
    rw [hv]
    exact ⟨.inr (.inl htype), hlength⟩
  case h_18 htype =>
    obtain ⟨s, hv, hlength⟩ := stringCall_value h
    rw [hv]
    exact ⟨.inr (.inr htype), hlength⟩
  all_goals
    rename_i htype
    obtain ⟨i, hv, hrange⟩ := intCall_value h
    rw [hv]
    refine ⟨?_, hrange⟩
    rw [htype]
    rfl

theorem qmfProperty_call : (qmfProperty py arg).call word = .ok (some v) ↔
    qmfCall py arg word = .value v := by
  unfold Parameter.call qmfProperty
  dsimp only
  cases qmfCall py arg word with
  | value x =>
    constructor
    · intro h
      cases h
      rfl
    · intro h
      cases h
      rfl
  | none => simp
  | valueError message => simp
  | invalidArgument message => simp
  | invalidCommand line message => simp
  | raises exception => simp

end

end Matahari.Shell.ClassCommands
