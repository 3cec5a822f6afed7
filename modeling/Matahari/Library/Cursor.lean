import Mathlib.Data.List.Rotate

set_option autoImplicit false

/-!
# A cursor that goes round a list

The cursor is a position in a list, kept as the part of the list that starts there. It moves
to the next position, and from the last one to the first. A list of visits that follows the
cursor has every position once in each window as long as the list.
-/
namespace CyclicCursor

variable {α : Type}

def advance (all : List α) : List α → List α
  | [] | [_] => all
  | _ :: next :: rest => next :: rest

theorem advance_drop {all : List α} {k : ℕ} (hk : k < all.length) :
    advance all (all.drop k) = all.drop ((k + 1) % all.length) := by
  rw [List.drop_eq_getElem_cons hk]
  by_cases hlast : k + 1 = all.length
  · rw [List.drop_eq_nil_of_le hlast.ge, hlast, Nat.mod_self]
    rfl
  · have hnext : k + 1 < all.length := by omega
    rw [List.drop_eq_getElem_cons hnext, Nat.mod_eq_of_lt hnext, List.drop_eq_getElem_cons hnext]
    rfl

/-- The place of the cursor after one more step than the one that led to `k % all.length`. -/
theorem advance_drop_mod {all : List α} (hne : all ≠ []) (k : ℕ) :
    advance all (all.drop (k % all.length)) = all.drop ((k + 1) % all.length) := by
  rw [advance_drop (Nat.mod_lt _ (List.length_pos_iff.mpr hne)), Nat.mod_add_mod]

/-- The visits from `start` on go round the list. -/
def Follows (all : List α) (start : ℕ) (visits : List α) : Prop :=
  ∀ i, i < visits.length → visits[i]? = all[(start + i) % all.length]?

theorem Follows.window {all visits : List α} {start : ℕ} (h : Follows all start visits) {i : ℕ}
    (hi : i + all.length ≤ visits.length) :
    (visits.drop i).take all.length = all.rotate (start + i) := by
  apply List.ext_getElem?
  intro j
  by_cases hj : j < all.length
  · rw [List.getElem?_take_of_lt hj, List.getElem?_drop, h (i + j) (by omega),
      List.getElem?_rotate hj]
    congr 2
    omega
  · rw [List.getElem?_eq_none (by rw [List.length_take]; omega),
      List.getElem?_eq_none (by rw [List.length_rotate]; omega)]

/-- Each window has every element of the list as often as the list has it. -/
theorem Follows.window_perm {all visits : List α} {start : ℕ} (h : Follows all start visits)
    {i : ℕ} (hi : i + all.length ≤ visits.length) :
    ((visits.drop i).take all.length).Perm all := by
  rw [h.window hi]
  exact List.rotate_perm all (start + i)

end CyclicCursor
