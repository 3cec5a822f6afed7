import Matahari.DbusMarshal

set_option autoImplicit false

/-!
# Stepping through signatures

`get_signature_item_length`, and what `message_add_arg` makes of its results when it goes
through the members of a struct or of a dict entry.
-/
namespace Matahari.DbusBridge
open Mainloop BracketScan

inductive SingleType where
  | complete (type : DType)
  | dictEntry (key : Basic) (value : DType)

def SingleType.signature : SingleType → Text
  | .complete type => type.signature
  | .dictEntry key value => entrySignature key value.signature

/-- The subsignatures that the loop over that many values cuts off, and what it leaves. It
stops where no item is left. -/
def fieldSignatures : ℕ → Text → List Text × Text
  | 0, signature => ([], signature)
  | n + 1, signature =>
    let len := getSignatureItemLength signature
    if len < 1 then ([], signature)
    else
      let (fields, rest) := fieldSignatures n (signature.drop len)
      (signature.take len :: fields, rest)

/-! ## The length of an item -/

theorem getSignatureItemLength_le (signature : Text) :
    getSignatureItemLength signature ≤ signature.length := by
  induction signature with
  | nil => exact Nat.le_refl 0
  | cons t rest ih =>
    have hstruct := scan_le_length '(' ')' 1 rest
    have hentry := scan_le_length '{' '}' 1 rest
    rw [getSignatureItemLength, List.length_cons]
    split_ifs <;> omega

theorem getSignatureItemLength_pos (t : Char) (rest : Text) :
    1 ≤ getSignatureItemLength (t :: rest) := by
  rw [getSignatureItemLength]
  split_ifs <;> omega

theorem getSignatureItemLength_single (t : SingleType) (rest : Text) :
    getSignatureItemLength (t.signature ++ rest) = t.signature.length := by
  cases t with
  | complete type => exact getSignatureItemLength_append type rest
  | dictEntry key value => exact getSignatureItemLength_entry key value rest

/-! ## The members of a container -/

/-- Nothing of the signature is lost, and nothing is taken twice. -/
theorem fieldSignatures_flatten (n : ℕ) (signature : Text) :
    (fieldSignatures n signature).1.flatten ++ (fieldSignatures n signature).2 = signature := by
  induction n generalizing signature with
  | zero => rfl
  | succ n ih =>
    rw [fieldSignatures]
    dsimp only
    split
    · rfl
    · dsimp only
      rw [List.flatten_cons, List.append_assoc, ih, List.take_append_drop]

/-- `addFields` gives each value the subsignature that is cut off for it, and fails where
there is none. -/
theorem addFields_eq_fieldSignatures (c : Conversions) (signature : Text) (values : List QVariant) :
    addFields c signature values =
      ((fieldSignatures values.length signature).1.zip values).foldr
        (fun field q => andThen (messageAddArg c field.1 field.2) q)
        (decide ((fieldSignatures values.length signature).1.length = values.length), []) := by
  induction values generalizing signature with
  | nil => rfl
  | cons value values ih =>
    rw [addFields, List.length_cons, fieldSignatures]
    dsimp only
    split
    · rfl
    · dsimp only
      rw [ih, List.zip_cons_cons, List.foldr_cons, List.length_cons]
      simp

/-- Induction on the members; what follows them is left. -/
theorem fieldSignatures_signatures (ts : List DType) (rest : Text) :
    fieldSignatures ts.length (signatures ts ++ rest) = (ts.map DType.signature, rest) := by
  induction ts with
  | nil => rfl
  | cons t ts ih =>
    have hlen := getSignatureItemLength_append t (signatures ts ++ rest)
    have hpos := List.length_pos_iff.mpr t.signature_ne_nil
    rw [signatures, List.append_assoc, List.length_cons, fieldSignatures, hlen]
    dsimp only
    rw [if_neg (by omega), List.drop_left, List.take_left, ih]
    rfl

/-- The length of the first item, and nothing outside of a text that is not a signature. -/
theorem signature_item_length :
    (∀ (t : SingleType) (rest : Text),
      getSignatureItemLength (t.signature ++ rest) = t.signature.length) ∧
    (∀ (first : DType) (ts : List DType),
      fieldSignatures (first :: ts).length ((DType.struct first ts).signature.drop 1) =
        ((first :: ts).map DType.signature, [')'])) ∧
    (∀ (key : Basic) (value : DType),
      fieldSignatures 2 ((SingleType.dictEntry key value).signature.drop 1) =
        ([(DType.basic key).signature, value.signature], ['}'])) ∧
    ∀ (t : Char) (rest : Text), 1 ≤ getSignatureItemLength (t :: rest) ∧
      getSignatureItemLength (t :: rest) ≤ (t :: rest).length := by
  refine ⟨getSignatureItemLength_single, fun first ts => ?_, fun key value => ?_, fun t rest => ?_⟩
  · exact fieldSignatures_signatures (first :: ts) [')']
  · rw [SingleType.signature, entrySignature_eq]
    exact fieldSignatures_signatures [.basic key, value] ['}']
  · exact ⟨getSignatureItemLength_pos t rest, getSignatureItemLength_le (t :: rest)⟩

/-- Brackets of both kinds, each inside the other. -/
example : getSignatureItemLength "(a{s(ii)}v)ai".toList = 11 ∧
    getSignatureItemLength "((a\x7bs".toList = 5 := by decide

end Matahari.DbusBridge
