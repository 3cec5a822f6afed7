import Matahari.Library.Strtok
import Matahari.Mainloop

set_option autoImplicit false

/-!
# Commands of the shell

`command.py` matches the words of a line against the arguments of a command. The matching is a
chain of generators over one list of words that the arguments take from the front; a group of
optional arguments works on a copy of the list, which replaces it if the group matches. A
`StopIteration` ends the generator it is raised in, and the chain goes on with the next one.
-/
namespace Matahari.Shell
open Mainloop

/-! ## Arguments -/

inductive Value (V : Type) where
  | str (s : Text)
  | object (v : V)

/-- What a function comes to. A `ValueError` without a text counts as the exception that making the
message from it raises. -/
inductive Conversion (V : Type) where
  | value (v : Value V)
  | none
  | valueError (message : Text)
  | invalidArgument (message : Text)
  | invalidCommand (line message : Text)
  | raises (exception : Text)

/-- `convert` is the function of a parameter that is defined by one, `default` and `complete` are
its attributes; `default` is what it comes to if it is a function, too. -/
structure Parameter (V : Type) where
  repr : Text
  convert : Option (Text → Conversion V)
  default : Conversion V
  complete : Option (Text → List Text)

def Parameter.plain {V : Type} (s : Text) : Parameter V := ⟨s, none, .none, none⟩

inductive Leaf (V : Type) where
  | keyword (kw : Text)
  | parameter (p : Parameter V)

inductive ArgList (V : Type) where
  | nil
  | keyword (kw : Text) (rest : ArgList V)
  | parameter (p : Parameter V) (rest : ArgList V)
  | optional (args rest : ArgList V)
  | repeated (args rest : ArgList V)

inductive Definition (V : Type) where
  | nil
  | string (s : Text) (rest : Definition V)
  | callable (p : Parameter V) (rest : Definition V)
  | tuple (args rest : Definition V)
  | list (args rest : Definition V)

variable {V : Type}

def Definition.args : Definition V → ArgList V
  | .nil => .nil
  | .string s rest =>
    if s.map Char.toUpper = s then .parameter (.plain s) rest.args else .keyword s rest.args
  | .callable p rest => .parameter p rest.args
  | .tuple args rest => .optional args.args rest.args
  | .list args rest => .repeated args.args rest.args

def ArgList.length : ArgList V → ℕ
  | .nil => 0
  | .keyword _ rest | .parameter _ rest | .optional _ rest | .repeated _ rest => rest.length + 1

def join : List Text → Text := List.intercalate [' ']

def ArgList.strs : ArgList V → List Text
  | .nil => []
  | .keyword kw rest => kw :: rest.strs
  | .parameter p rest => p.repr.map Char.toUpper :: rest.strs
  | .optional args rest => ('(' :: join args.strs ++ [')']) :: rest.strs
  | .repeated args rest => ('[' :: join args.strs ++ [']']) :: rest.strs

/-! ## Matching -/

inductive Passed (V : Type) where
  | none
  | value (v : Value V)
  | list (xs : List (Passed V))

/-- What the arguments yield. A value comes with the argument that took the word for it, and the
defaults of a group that did not match are kept apart. -/
inductive Yielded (V : Type) where
  | value (taker : Leaf V) (v : Value V)
  | group (xs : List (Yielded V))
  | defaults (xs : List (Passed V))

inductive Raised where
  | invalidArgument (message : Text)
  | invalidCommand (line message : Text)
  | exception (name : Text)
  | unfinished
  deriving DecidableEq, Repr

def stopIteration : Raised := .exception "StopIteration".toList

def Parameter.defaultValue (p : Parameter V) : Except Raised (Passed V) :=
  match p.convert with
  | none => .ok .none
  | some _ => match p.default with
    | .value v => .ok (.value v)
    | .none => .ok .none
    | .valueError _ => .error (.exception "ValueError".toList)
    | .invalidArgument message => .error (.invalidArgument message)
    | .invalidCommand line message => .error (.invalidCommand line message)
    | .raises exception => .error (.exception exception)

/-- The defaults are worked out from left to right, each time that the group is matched. -/
def ArgList.defaults : ArgList V → Except Raised (List (Passed V))
  | .nil => .ok []
  | .keyword _ rest => do
    let ds ← rest.defaults
    return .none :: ds
  | .parameter p rest => do
    let d ← p.defaultValue
    let ds ← rest.defaults
    return d :: ds
  | .optional args rest => do
    let d ← args.defaults
    let ds ← rest.defaults
    return .list d :: ds
  | .repeated _ rest => do
    let ds ← rest.defaults
    return .list [] :: ds

/-- `Parameter.__call__`; the result is `none` for the object `None`. -/
def Parameter.call (p : Parameter V) (arg : Text) : Except Raised (Option (Value V)) :=
  match p.convert with
  | none => .ok (some (.str arg))
  | some convert => match convert arg with
    | .value v => .ok (some v)
    | .none => .ok none
    | .valueError message =>
      .error (.invalidArgument ("Invalid argument value (".toList ++ message ++ [')']))
    | .invalidArgument message => .error (.invalidArgument message)
    | .invalidCommand line message => .error (.invalidCommand line message)
    | .raises exception => .error (.exception exception)

/-- What the generator of a parameter comes to. It yields nothing after a `StopIteration`. -/
inductive Matched (V : Type) where
  | nothing
  | none
  | value (x : Yielded V)

def Parameter.match (p : Parameter V) : List Text → Except Raised (Matched V × List Text)
  | [] => .ok (.none, [])
  | val :: values => match p.call val with
    | .ok none => .ok (.none, values)
    | .ok (some v) => .ok (.value (.value (.parameter p) v), values)
    -- the word has been taken out of the list already
    | .error e => if e = stopIteration then .ok (.nothing, values) else .error e

def matchKeyword (kw : Text) : List Text → Except Raised (Option (Yielded V) × List Text)
  | [] => .ok (none, [])
  | val :: values =>
    if kw ≠ val then .error (.invalidArgument ("Invalid keyword '".toList ++ val ++ "'".toList))
    else .ok (some (.value (.keyword kw) (.str val)), values)

abbrev Collate (V : Type) := List Text → Except Raised (List (Yielded V) × List Text)

/-- `collate` is the matching of the members. The defaults come first, and their exceptions are not
caught here. -/
def matchOptional (collate : Collate V) (defaults : Except Raised (List (Passed V)))
    (values : List Text) : Except Raised (Option (Yielded V) × List Text) :=
  match defaults with
  | .error e => if e = stopIteration then .ok (none, values) else .error e
  | .ok defaults =>
    if values = [] then .ok (some (.defaults defaults), values)
    else match collate values with
      | .ok (args, values) => .ok (some (.group args), values)
      | .error (.invalidArgument _) => .ok (some (.defaults defaults), values)
      | .error e => .error e

def iterations (collate : Collate V) : ℕ → Collate V
  | _, [] => .ok ([], [])
  | 0, _ :: _ => .error .unfinished
  | fuel + 1, val :: values => do
    let (xs, values) ← collate (val :: values)
    let (ys, values) ← iterations collate fuel values
    return (xs ++ ys, values)

def matchRepeated (collate : Collate V) (fuel : ℕ) (values : List Text) :
    Except Raised (List (Yielded V) × List Text) :=
  if values = [] then .error (.invalidArgument "Empty variadic argument list".toList)
  else iterations collate fuel values

/-- `None` ends the list, and the arguments after it are not looked at. -/
def collate (fuel : ℕ) : ArgList V → Collate V
  | .nil, values => .ok ([], values)
  | .keyword kw rest, values => do
    let (x, values) ← matchKeyword kw values
    match x with
    | none => return ([], values)
    | some x =>
      let (xs, values) ← collate fuel rest values
      return (x :: xs, values)
  | .parameter p rest, values => do
    let (x, values) ← p.match values
    match x with
    | .none => return ([], values)
    | .nothing => collate fuel rest values
    | .value x =>
      let (xs, values) ← collate fuel rest values
      return (x :: xs, values)
  | .optional args rest, values => do
    let (x, values) ← matchOptional (collate fuel args) args.defaults values
    let (xs, values) ← collate fuel rest values
    return (x.toList ++ xs, values)
  | .repeated args rest, values => do
    let (xs, values) ← matchRepeated (collate fuel args) fuel values
    let (ys, values) ← collate fuel rest values
    return (xs ++ ys, values)

/-! What is left to the other arguments when the first one takes a word. -/

section
variable {fuel : ℕ}

theorem collate_keyword (kw : Text) (args : ArgList V) (values : List Text) :
    collate fuel (.keyword kw args) (kw :: values) =
      (collate fuel args values).map fun r => (.value (.keyword kw) (.str kw) :: r.1, r.2) := by
  rw [collate, matchKeyword, if_neg (not_not.mpr rfl)]
  change (collate fuel args values >>= fun r => _) = _
  cases collate fuel args values <;> rfl

theorem collate_parameter_of_call {p : Parameter V} {val : Text} {v : Value V}
    (h : p.call val = .ok (some v)) (args : ArgList V) (values : List Text) :
    collate fuel (.parameter p args) (val :: values) =
      (collate fuel args values).map fun r => (.value (.parameter p) v :: r.1, r.2) := by
  rw [collate, Parameter.match, h]
  change (collate fuel args values >>= fun r => _) = _
  cases collate fuel args values <;> rfl

theorem Parameter.match_of_stops {p : Parameter V} {val : Text}
    (h : p.call val = .error stopIteration) (values : List Text) :
    p.match (val :: values) = .ok (.nothing, values) := by
  rw [Parameter.match, h]
  rfl

theorem collate_optional_of_eq {group args : ArgList V} {values mid : List Text}
    {x : Option (Yielded V)}
    (h : matchOptional (collate fuel group) group.defaults values = .ok (x, mid)) :
    collate fuel (.optional group args) values =
      (collate fuel args mid).map fun r => (x.toList ++ r.1, r.2) := by
  rw [collate, h]
  change (collate fuel args mid >>= fun r => _) = _
  cases collate fuel args mid <;> rfl

end

/-! ## Results of the matching -/

theorem bind_eq_ok {ε α β : Type} {x : Except ε α} {f : α → Except ε β} {b : β}
    (h : x >>= f = .ok b) : ∃ a, x = .ok a ∧ f a = .ok b := by
  cases x with
  | error e => cases h
  | ok a => exact ⟨a, rfl, h⟩

theorem bind_eq_error {ε α β : Type} {x : Except ε α} {f : α → Except ε β} {e : ε}
    (h : x >>= f = .error e) : x = .error e ∨ ∃ a, x = .ok a ∧ f a = .error e := by
  cases x with
  | error e' => exact .inl (congrArg _ (Except.error.inj h))
  | ok a => exact .inr ⟨a, rfl, h⟩

theorem map_eq_ok {ε α β : Type} {x : Except ε α} {f : α → β} {b : β} (h : x.map f = .ok b) :
    ∃ a, x = .ok a ∧ f a = b := by
  cases x with
  | error e => cases h
  | ok a => exact ⟨a, rfl, Except.ok.inj h⟩

theorem matchKeyword_self (kw : Text) (values : List Text) :
    matchKeyword (V := V) kw (kw :: values) =
      .ok (some (.value (.keyword kw) (.str kw)), values) := by
  rw [matchKeyword, if_neg (not_not.mpr rfl)]

theorem matchKeyword_some {kw : Text} {values rest : List Text} {x : Yielded V}
    (h : matchKeyword kw values = .ok (some x, rest)) :
    values = kw :: rest ∧ x = .value (.keyword kw) (.str kw) := by
  cases values with
  | nil => cases h
  | cons val values =>
    rw [matchKeyword] at h
    split at h
    · cases h
    · rename_i hkw
      cases h
      rw [not_not.mp hkw]
      exact ⟨rfl, rfl⟩

theorem Parameter.match_of_call {val : Text} {v : Value V} (p : Parameter V)
    (h : p.call val = .ok (some v)) (values : List Text) :
    p.match (val :: values) = .ok (.value (.value (.parameter p) v), values) := by
  rw [Parameter.match, h]

theorem Parameter.match_value {p : Parameter V} {values rest : List Text} {x : Yielded V}
    (h : p.match values = .ok (.value x, rest)) :
    ∃ val v, values = val :: rest ∧ p.call val = .ok (some v) ∧ x = .value (.parameter p) v := by
  cases values with
  | nil => cases h
  | cons val values =>
    rw [Parameter.match] at h
    split at h
    · cases h
    · rename_i v hcall
      cases h
      exact ⟨val, v, rfl, hcall, rfl⟩
    · split at h
      · cases h
      · cases h

theorem Parameter.match_nothing {p : Parameter V} {values rest : List Text}
    (h : p.match values = .ok (.nothing, rest)) :
    ∃ val, values = val :: rest ∧ p.call val = .error stopIteration := by
  cases values with
  | nil => cases h
  | cons val values =>
    rw [Parameter.match] at h
    split at h
    · cases h
    · cases h
    · rename_i hcall
      split at h
      · rename_i hstop
        cases h
        exact ⟨val, rfl, hstop ▸ hcall⟩
      · cases h

theorem Parameter.match_none {p : Parameter V} {values rest : List Text}
    (h : p.match values = .ok (.none, rest)) :
    (values = [] ∧ rest = []) ∨ ∃ val, values = val :: rest ∧ p.call val = .ok none := by
  cases values with
  | nil =>
    cases h
    exact .inl ⟨rfl, rfl⟩
  | cons val values =>
    rw [Parameter.match] at h
    split at h
    · rename_i hcall
      cases h
      exact .inr ⟨val, rfl, hcall⟩
    · cases h
    · split at h
      · cases h
      · cases h

/-- A group is matched, passed with its defaults, or not passed at all. -/
theorem matchOptional_cases {collate : Collate V} {defaults : Except Raised (List (Passed V))}
    {values rest : List Text} {x : Option (Yielded V)}
    (h : matchOptional collate defaults values = .ok (x, rest)) :
    (∃ ds xs, defaults = .ok ds ∧ values ≠ [] ∧ collate values = .ok (xs, rest) ∧
      x = some (.group xs)) ∨
    (∃ ds, defaults = .ok ds ∧ (values = [] ∨ ∃ message,
      collate values = .error (.invalidArgument message)) ∧ x = some (.defaults ds) ∧
      rest = values) ∨
    defaults = .error stopIteration ∧ x = none ∧ rest = values := by
  unfold matchOptional at h
  split at h
  · split at h
    · rename_i hstop
      cases h
      exact .inr (.inr ⟨by rw [hstop], rfl, rfl⟩)
    · cases h
  rename_i ds
  split at h
  · rename_i hvalues
    cases h
    exact .inr (.inl ⟨ds, rfl, .inl hvalues, rfl, rfl⟩)
  rename_i hvalues
  split at h
  · rename_i xs mid hmembers
    cases h
    exact .inl ⟨ds, xs, rfl, hvalues, hmembers, rfl⟩
  · rename_i message hmembers
    cases h
    exact .inr (.inl ⟨ds, rfl, .inr ⟨message, hmembers⟩, rfl, rfl⟩)
  · cases h

/-! What the first argument of a list comes to when the list is matched. -/

section
variable {fuel : ℕ} {args group : ArgList V} {values rest : List Text} {xs : List (Yielded V)}

theorem collate_keyword_cases {kw : Text}
    (h : collate fuel (.keyword kw args) values = .ok (xs, rest)) :
    (values = [] ∧ xs = [] ∧ rest = []) ∨
    ∃ mid ys, values = kw :: mid ∧ collate fuel args mid = .ok (ys, rest) ∧
      xs = .value (.keyword kw) (.str kw) :: ys := by
  cases values with
  | nil =>
    cases h
    exact .inl ⟨rfl, rfl, rfl⟩
  | cons val values =>
    by_cases hkw : kw = val
    · subst hkw
      rw [collate_keyword] at h
      obtain ⟨⟨ys, mid⟩, hrest, hdone⟩ := map_eq_ok h
      cases hdone
      exact .inr ⟨values, ys, rfl, hrest, rfl⟩
    · rw [collate, matchKeyword, if_pos hkw] at h
      cases h

/-- The list ends without a word or with a function that returns `None`; a function that raises
`StopIteration` leaves the word out. -/
theorem collate_parameter_cases {p : Parameter V}
    (h : collate fuel (.parameter p args) values = .ok (xs, rest)) :
    (xs = [] ∧ (values = [] ∧ rest = [] ∨ ∃ val, values = val :: rest ∧ p.call val = .ok none)) ∨
    (∃ val mid, values = val :: mid ∧ p.call val = .error stopIteration ∧
      collate fuel args mid = .ok (xs, rest)) ∨
    ∃ val v mid ys, values = val :: mid ∧ p.call val = .ok (some v) ∧
      collate fuel args mid = .ok (ys, rest) ∧ xs = .value (.parameter p) v :: ys := by
  obtain ⟨⟨x, mid⟩, hmatch, hmore⟩ := bind_eq_ok h
  cases x with
  | none =>
    cases hmore
    exact .inl ⟨rfl, Parameter.match_none hmatch⟩
  | nothing =>
    obtain ⟨val, hval, hstop⟩ := Parameter.match_nothing hmatch
    exact .inr (.inl ⟨val, mid, hval, hstop, hmore⟩)
  | value x =>
    obtain ⟨⟨ys, mid'⟩, hrest, hdone⟩ := bind_eq_ok hmore
    cases hdone
    obtain ⟨val, v, hval, hcall, rfl⟩ := Parameter.match_value hmatch
    exact .inr (.inr ⟨val, v, mid, ys, hval, hcall, hrest, rfl⟩)

theorem collate_optional_cases (h : collate fuel (.optional group args) values = .ok (xs, rest)) :
    ∃ x mid ys, matchOptional (collate fuel group) group.defaults values = .ok (x, mid) ∧
      collate fuel args mid = .ok (ys, rest) ∧ xs = x.toList ++ ys := by
  obtain ⟨⟨x, mid⟩, hmatch, hmore⟩ := bind_eq_ok h
  obtain ⟨⟨ys, mid'⟩, hrest, hdone⟩ := bind_eq_ok hmore
  cases hdone
  exact ⟨x, mid, ys, hmatch, hrest, rfl⟩

theorem collate_repeated_cases (h : collate fuel (.repeated group args) values = .ok (xs, rest)) :
    ∃ zs mid ys, matchRepeated (collate fuel group) fuel values = .ok (zs, mid) ∧
      collate fuel args mid = .ok (ys, rest) ∧ xs = zs ++ ys := by
  obtain ⟨⟨zs, mid⟩, hmatch, hmore⟩ := bind_eq_ok h
  obtain ⟨⟨ys, mid'⟩, hrest, hdone⟩ := bind_eq_ok hmore
  cases hdone
  exact ⟨zs, mid, ys, hmatch, hrest, rfl⟩

end

/-! ## Rounds of a repeated list -/

/-- The words that are there when the members of a repeated list are matched once more. -/
inductive Rounds (collate : Collate V) : List Text → List Text → Prop
  | first {values : List Text} : values ≠ [] → Rounds collate values values
  | next {values mid v : List Text} {xs : List (Yielded V)} : values ≠ [] →
      collate values = .ok (xs, mid) → Rounds collate mid v → Rounds collate values v

theorem rounds_iff {collate : Collate V} {values v mid : List Text} {xs : List (Yielded V)}
    (hvalues : values ≠ []) (h : collate values = .ok (xs, mid)) :
    Rounds collate values v ↔ v = values ∨ Rounds collate mid v := by
  constructor
  · intro hround
    cases hround with
    | first _ => exact .inl rfl
    | next _ hcollate hmore =>
      rw [h] at hcollate
      cases hcollate
      exact .inr hmore
  · intro hround
    obtain rfl | hmore := hround
    · exact .first hvalues
    · exact .next hvalues h hmore

theorem not_rounds_nil {collate : Collate V} {v : List Text} : ¬ Rounds collate [] v := by
  intro h
  cases h with
  | first hne => exact hne rfl
  | next hne => exact hne rfl

/-- What holds when there are no words, and is kept by one more round before the others, holds of
the rounds of a list, which end where there are no words. -/
theorem iterations_induction {collate : Collate V} {P : List Text → List (Yielded V) → Prop}
    (hnil : P [] [])
    (hround : ∀ {values mid : List Text} {ys zs : List (Yielded V)}, values ≠ [] →
      collate values = .ok (ys, mid) → P mid zs → P values (ys ++ zs))
    {count : ℕ} {values rest : List Text} {xs : List (Yielded V)}
    (h : iterations collate count values = .ok (xs, rest)) : rest = [] ∧ P values xs := by
  induction count generalizing values xs with
  | zero =>
    cases values with
    | nil =>
      cases h
      exact ⟨rfl, hnil⟩
    | cons val values => cases h
  | succ count ih =>
    cases values with
    | nil =>
      cases h
      exact ⟨rfl, hnil⟩
    | cons val values =>
      obtain ⟨⟨ys, mid⟩, hmembers, hmore⟩ := bind_eq_ok h
      obtain ⟨⟨zs, mid'⟩, hagain, hdone⟩ := bind_eq_ok hmore
      cases hdone
      obtain ⟨hrest, hlater⟩ := ih hagain
      exact ⟨hrest, hround (List.cons_ne_nil _ _) hmembers hlater⟩

theorem matchRepeated_ok {collate : Collate V} {count : ℕ} {values rest : List Text}
    {xs : List (Yielded V)} (h : matchRepeated collate count values = .ok (xs, rest)) :
    values ≠ [] ∧ iterations collate count values = .ok (xs, rest) := by
  unfold matchRepeated at h
  split at h
  · cases h
  · rename_i hvalues
    exact ⟨hvalues, h⟩

/-! ## The handler -/

structure CommandHandler (V : Type) where
  name : Text
  args : ArgList V

def command (name : Text) (args : Definition V) : CommandHandler V :=
  ⟨name, .keyword name args.args⟩

def isSpace (c : Char) : Bool := c ∈ [' ', '\t', '\n', '\r', '\x0b', '\x0c']

def split (line : Text) : List Text := (Strtok.tokens isSpace 0 line).map Prod.snd

def CommandHandler.call (fuel : ℕ) (h : CommandHandler V) (line : Text) :
    Except Raised (List (Yielded V)) := do
  let (args, vals) ← collate fuel h.args (h.name :: split line)
  if args.length < h.args.length then
    let miss := join (h.args.strs.drop args.length)
    .error (.invalidCommand line ("Missing arguments: '".toList ++ miss ++ "'".toList))
  else if vals ≠ [] then
    .error (.invalidCommand line ("Excess arguments: '".toList ++ join vals ++ "'".toList))
  else return args

theorem CommandHandler.call_ok {fuel : ℕ} {h : CommandHandler V} {line : Text}
    {xs : List (Yielded V)} (hcall : h.call fuel line = .ok xs) :
    collate fuel h.args (h.name :: split line) = .ok (xs, []) := by
  obtain ⟨⟨ys, vals⟩, hcollate, hmore⟩ := bind_eq_ok hcall
  dsimp only at hmore
  split at hmore
  · cases hmore
  split at hmore
  · cases hmore
  · rename_i hvals
    cases hmore
    rw [hcollate, not_not.mp hvals]

end Matahari.Shell
