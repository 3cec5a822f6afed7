import Mathlib.Data.List.Basic
import Mathlib.Tactic.Ring

set_option autoImplicit false

/-!
# Skipping to a matching bracket

`scan` walks a text with a count of the brackets still open and stops where the
count reaches zero. A balanced word leaves the count where it was, so a scan
that starts inside a bracket ends at the bracket that matches it.
-/
namespace BracketScan

variable {α : Type}

/-- The number of symbols read until `ends` brackets have been closed. -/
def scan [DecidableEq α] (o c : α) : ℕ → List α → ℕ
  | 0, _ => 0
  | _ + 1, [] => 0
  | n + 1, x :: xs =>
    1 + scan o c (if x = o then n + 2 else if x = c then n else n + 1) xs

inductive Balanced (o c : α) : List α → Prop
  | nil : Balanced o c []
  | other {x : α} {w : List α} : x ≠ o → x ≠ c → Balanced o c w → Balanced o c (x :: w)
  | wrap {u w : List α} : Balanced o c u → Balanced o c w →
      Balanced o c (o :: (u ++ c :: w))

variable {o c : α} {u w : List α}

theorem Balanced.append (hu : Balanced o c u) (hw : Balanced o c w) :
    Balanced o c (u ++ w) := by
  induction hu with
  | nil => exact hw
  | other ho hc _ ih => exact .other ho hc ih
  | wrap hu _ _ ih =>
    rw [List.cons_append, List.append_assoc, List.cons_append]
    exact .wrap hu ih

theorem Balanced.bracket (hu : Balanced o c u) : Balanced o c (o :: (u ++ [c])) :=
  .wrap hu .nil

variable [DecidableEq α]

theorem Balanced.scan_append (hw : Balanced o c w) (hne : o ≠ c) (n : ℕ) (rest : List α) :
    scan o c (n + 1) (w ++ rest) = w.length + scan o c (n + 1) rest := by
  induction hw generalizing n rest with
  | nil => simp
  | other ho hc _ ih =>
    rw [List.cons_append, scan, if_neg ho, if_neg hc, ih, List.length_cons]
    ring
  | @wrap u w _ _ ihu ihw =>
    rw [List.cons_append, List.append_assoc, scan, if_pos rfl, ihu, List.cons_append, scan,
      if_neg hne.symm, if_pos rfl, ihw]
    simp only [List.length_cons, List.length_append]
    ring

/-- Started inside a bracket, the scan ends with the bracket that closes it. -/
theorem Balanced.scan_close (hw : Balanced o c w) (hne : o ≠ c) (rest : List α) :
    scan o c 1 (w ++ c :: rest) = w.length + 1 := by
  rw [hw.scan_append hne 0, scan, if_neg hne.symm, if_pos rfl, scan]

/-- Whatever the text is, the scan does not leave it. -/
theorem scan_le_length (o c : α) (n : ℕ) (xs : List α) : scan o c n xs ≤ xs.length := by
  induction xs generalizing n with
  | nil => cases n <;> exact Nat.zero_le _
  | cons x xs ih =>
    cases n with
    | zero => exact Nat.zero_le _
    | succ n =>
      have hrest := ih (if x = o then n + 2 else if x = c then n else n + 1)
      rw [scan, List.length_cons]
      omega

end BracketScan
