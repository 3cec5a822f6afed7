import Mathlib.Data.List.Forall2
import Matahari.Library.Brackets
import Matahari.Mainloop

set_option autoImplicit false

/-!
# D-Bus types, D-Bus values and qpid variants

The data that crosses the D-Bus bridge. A `DType` is a single complete type: a
dict entry occurs only as the element of an array, and a struct has a field. A
message body is a list of `Item`s, and the same trees serve for the messages
that are read and for those being written; a container that is being written
records whether it has been closed.

Characters stand for the bytes of C and C++ strings. The limits that libdbus
puts on the length and the nesting of a signature are left out.
-/
namespace Matahari.DbusBridge
open Mainloop BracketScan

inductive IntKind where
  | byte
  | int16
  | uint16
  | int32
  | uint32
  | int64
  | uint64
  deriving DecidableEq, Repr

namespace IntKind

def code : IntKind → Char
  | byte => 'y'
  | int16 => 'n'
  | uint16 => 'q'
  | int32 => 'i'
  | uint32 => 'u'
  | int64 => 'x'
  | uint64 => 't'

def lo : IntKind → ℤ
  | byte | uint16 | uint32 | uint64 => 0
  | int16 => -2 ^ 15
  | int32 => -2 ^ 31
  | int64 => -2 ^ 63

def hi : IntKind → ℤ
  | byte => 2 ^ 8 - 1
  | int16 => 2 ^ 15 - 1
  | uint16 => 2 ^ 16 - 1
  | int32 => 2 ^ 31 - 1
  | uint32 => 2 ^ 32 - 1
  | int64 => 2 ^ 63 - 1
  | uint64 => 2 ^ 64 - 1

abbrev Value (k : IntKind) := {n : ℤ // k.lo ≤ n ∧ n ≤ k.hi}

def ofCode (c : Char) : Option IntKind :=
  if c = 'y' then some byte
  else if c = 'n' then some int16
  else if c = 'q' then some uint16
  else if c = 'i' then some int32
  else if c = 'u' then some uint32
  else if c = 'x' then some int64
  else if c = 't' then some uint64
  else none

@[simp] theorem ofCode_code (k : IntKind) : ofCode k.code = some k := by
  cases k <;> rfl

end IntKind

inductive Basic where
  | boolean
  | integer (kind : IntKind)
  | double
  | string
  | objectPath
  | signature
  | unixFd
  deriving DecidableEq, Repr

def Basic.code : Basic → Char
  | boolean => 'b'
  | integer kind => kind.code
  | double => 'd'
  | string => 's'
  | objectPath => 'o'
  | signature => 'g'
  | unixFd => 'h'

inductive BasicValue where
  | boolean (value : Bool)
  | integer (kind : IntKind) (value : kind.Value)
  | double (bits : BitVec 64)
  | string (text : Text)
  | objectPath (text : Text)
  | signature (text : Text)
  | unixFd (fd : ℕ)
  deriving DecidableEq

def BasicValue.type : BasicValue → Basic
  | boolean _ => .boolean
  | integer kind _ => .integer kind
  | double _ => .double
  | string _ => .string
  | objectPath _ => .objectPath
  | signature _ => .signature
  | unixFd _ => .unixFd

inductive DType where
  | basic (type : Basic)
  | variant
  | array (element : DType)
  | dict (key : Basic) (value : DType)
  | struct (first : DType) (rest : List DType)

def nul : Char := Char.ofNat 0

def entrySignature (key : Basic) (value : Text) : Text := '{' :: key.code :: (value ++ ['}'])

mutual

def DType.signature : DType → Text
  | .basic type => [type.code]
  | .variant => ['v']
  | .array element => 'a' :: element.signature
  | .dict key value => 'a' :: entrySignature key value.signature
  | .struct first rest => '(' :: (first.signature ++ signatures rest ++ [')'])

def signatures : List DType → Text
  | [] => []
  | t :: ts => t.signature ++ signatures ts

end

inductive Item where
  | basic (value : BasicValue)
  | variant (signature : Text) (content : List Item)
  | array (signature : Text) (items : List Item) (closed : Bool)
  | struct (items : List Item) (closed : Bool)
  | dictEntry (items : List Item) (closed : Bool)

inductive QInteger where
  | int8 (value : {n : ℤ // -2 ^ 7 ≤ n ∧ n ≤ 2 ^ 7 - 1})
  | sized (kind : IntKind) (value : kind.Value)

def QInteger.val : QInteger → ℤ
  | int8 value => value
  | sized _ value => value

inductive QVariant where
  | void
  | bool (value : Bool)
  | integer (value : QInteger)
  | float (bits : BitVec 32)
  | double (bits : BitVec 64)
  | string (text : Text)
  | uuid (text : Text)
  | list (values : List QVariant)
  | map (entries : List (Text × QVariant))

def QVariant.asList : QVariant → Option (List QVariant)
  | .list values => some values
  | _ => none

/-- What the bridge takes from qpid and from libdbus. `asInteger` is the family
`asUint8` .. `asInt64`, with `none` for the exception, `doubleOfInt` is the cast
to `double`, and `utf8` is the check that libdbus makes of every string. -/
structure Conversions where
  asInteger : (k : IntKind) → QInteger → Option k.Value
  doubleOfInt : ℤ → BitVec 64
  doubleOfFloat : BitVec 32 → BitVec 64
  utf8 : Text → Bool

def Conversions.Preserve (c : Conversions) : Prop :=
  ∀ k n (h : k.lo ≤ n.val ∧ n.val ≤ k.hi), c.asInteger k n = some ⟨n.val, h⟩

def BasicValue.WellFormed (utf8 : Text → Bool) : BasicValue → Prop
  | .string text => nul ∉ text ∧ utf8 text = true
  | _ => True

inductive HasType (utf8 : Text → Bool) : DType → Item → Prop
  | basic {w : BasicValue} : w.WellFormed utf8 → HasType utf8 (.basic w.type) (.basic w)
  | variant {t : DType} {i : Item} :
      HasType utf8 t i → HasType utf8 .variant (.variant t.signature [i])
  | array {t : DType} {items : List Item} :
      (∀ i ∈ items, HasType utf8 t i) → HasType utf8 (.array t) (.array t.signature items true)
  | dict {key : Basic} {t : DType} {entries : List (BasicValue × Item)} :
      (∀ e ∈ entries, e.1.type = key ∧ e.1.WellFormed utf8) →
      (∀ e ∈ entries, HasType utf8 t e.2) →
      HasType utf8 (.dict key t) (.array (entrySignature key t.signature)
        (entries.map fun e => .dictEntry [.basic e.1, e.2] true) true)
  | struct {t : DType} {ts : List DType} {items : List Item} :
      (t :: ts).length = items.length →
      (∀ p ∈ (t :: ts).zip items, HasType utf8 p.1 p.2) →
      HasType utf8 (.struct t ts) (.struct items true)

theorem Basic.code_ne_bracket (b : Basic) :
    b.code ≠ '(' ∧ b.code ≠ ')' ∧ b.code ≠ '{' ∧ b.code ≠ '}' := by
  rcases b with _ | k | _ | _ | _ | _ | _
  case integer => cases k <;> decide
  all_goals decide

/-- Both kinds of bracket match, each when the other is ignored. -/
def Nested (w : Text) : Prop := Balanced '(' ')' w ∧ Balanced '{' '}' w

theorem Nested.append {u w : Text} (hu : Nested u) (hw : Nested w) : Nested (u ++ w) :=
  ⟨hu.1.append hw.1, hu.2.append hw.2⟩

theorem Nested.cons {x : Char} {w : Text} (hw : Nested w)
    (hx : x ≠ '(' ∧ x ≠ ')' ∧ x ≠ '{' ∧ x ≠ '}') : Nested (x :: w) :=
  ⟨.other hx.1 hx.2.1 hw.1, .other hx.2.2.1 hx.2.2.2 hw.2⟩

theorem Nested.parens {w : Text} (hw : Nested w) : Nested ('(' :: (w ++ [')'])) := by
  have hclose : Balanced '{' '}' [')'] := .other (by decide) (by decide) .nil
  exact ⟨hw.1.bracket, .other (by decide) (by decide) (hw.2.append hclose)⟩

theorem Nested.braces {w : Text} (hw : Nested w) : Nested ('{' :: (w ++ ['}'])) := by
  have hclose : Balanced '(' ')' ['}'] := .other (by decide) (by decide) .nil
  exact ⟨.other (by decide) (by decide) (hw.1.append hclose), hw.2.bracket⟩

theorem nested_nil : Nested [] := ⟨.nil, .nil⟩

mutual

theorem DType.nested : ∀ t : DType, Nested t.signature
  | .basic type => by
    rw [DType.signature]
    exact nested_nil.cons type.code_ne_bracket
  | .variant => by
    rw [DType.signature]
    exact nested_nil.cons (by decide)
  | .array element => by
    rw [DType.signature]
    exact element.nested.cons (by decide)
  | .dict key value => by
    rw [DType.signature]
    have hentry := (value.nested.cons key.code_ne_bracket).braces
    exact hentry.cons (by decide)
  | .struct first rest => by
    rw [DType.signature]
    exact (first.nested.append (signatures_nested rest)).parens

theorem signatures_nested : ∀ ts : List DType, Nested (signatures ts)
  | [] => nested_nil
  | t :: ts => by
    rw [signatures]
    exact t.nested.append (signatures_nested ts)

end

end Matahari.DbusBridge
