import Mathlib

set_option autoImplicit false

/-!
# Blocks of memory and the strings in them

A block is the list of its bytes. The string that starts at its first byte ends
before the first zero byte, and a copy replaces bytes in the middle of a block.
-/
namespace CString

/-- The bytes before the first zero, or all of them where there is none. -/
def cstring (mem : List UInt8) : List UInt8 := mem.takeWhile (· ≠ 0)

def copyInto (mem : List UInt8) (off : ℕ) (bytes : List UInt8) : List UInt8 :=
  mem.take off ++ bytes ++ mem.drop (off + bytes.length)

/-- `realloc(mem, n)`, where the bytes that are new hold `junk`. -/
def resize (junk : UInt8) (mem : List UInt8) (n : ℕ) : List UInt8 :=
  mem.take n ++ List.replicate (n - mem.length) junk

/-! ## Strings -/

theorem cstring_append_zero {s : List UInt8} (h : 0 ∉ s) (rest : List UInt8) :
    cstring (s ++ 0 :: rest) = s := by
  induction s with
  | nil => rfl
  | cons c s ih =>
    rw [List.mem_cons, not_or] at h
    have hc : c ≠ 0 := fun hc => h.1 hc.symm
    have hs := ih h.2
    unfold cstring at hs ⊢
    rw [List.cons_append, List.takeWhile_cons_of_pos (by simpa using hc), hs]

theorem cstring_length_le (s rest : List UInt8) : (cstring (s ++ 0 :: rest)).length ≤ s.length := by
  induction s with
  | nil => exact Nat.le_refl 0
  | cons c s ih =>
    by_cases hc : c = 0
    · rw [hc]
      exact Nat.zero_le _
    · unfold cstring at ih ⊢
      rw [List.cons_append, List.takeWhile_cons_of_pos (by simpa using hc)]
      exact Nat.succ_le_succ ih

theorem zero_notMem_cstring (mem : List UInt8) : 0 ∉ cstring mem := by
  intro h
  simpa using List.mem_takeWhile_imp h

theorem cstring_eq_nil_iff {mem : List UInt8} (h : mem ≠ []) :
    cstring mem = [] ↔ mem.head? = some 0 := by
  cases mem with
  | nil => exact absurd rfl h
  | cons c mem =>
    by_cases hc : c = 0
    · simp [cstring, hc]
    · simp [cstring, hc]

/-! ## Copies -/

@[simp] theorem copyInto_zero (mem bytes : List UInt8) :
    copyInto mem 0 bytes = bytes ++ mem.drop bytes.length := by
  simp [copyInto]

theorem copyInto_length {mem bytes : List UInt8} {off : ℕ} (h : off + bytes.length ≤ mem.length) :
    (copyInto mem off bytes).length = mem.length := by
  simp only [copyInto, List.length_append, List.length_take, List.length_drop]
  omega

end CString
