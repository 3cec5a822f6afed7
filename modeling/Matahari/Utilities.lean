import Matahari.Mainloop

set_option autoImplicit false

/-!
# C strings in buffers

A buffer is the list of its bytes. The string in it ends before the first NUL.
-/
namespace Matahari.Utilities
open Mainloop

def nul : Char := '\x00'

abbrev CString := {s : Text // nul ∉ s}

def cstring (buffer : List Char) : Text := buffer.takeWhile (· ≠ nul)

/-- The `while` of `mh_string_copy`: the buffer, the offset of `dst` in it, and `dst_len`. -/
def copyLoop : List Char → ℕ → Text → ℕ → List Char × ℕ × ℕ
  | buffer, dst, [], dstLen => (buffer, dst, dstLen)
  | buffer, dst, _ :: _, 0 => (buffer, dst, 0)
  | buffer, dst, c :: src, dstLen + 1 => copyLoop (buffer.set dst c) (dst + 1) src dstLen

def mhStringCopy (buffer : List Char) (src : Text) (origDstLen : ℕ) : List Char :=
  let (buffer, dst, dstLen) := copyLoop buffer 0 src origDstLen
  if origDstLen ≠ 0 then buffer.set (if dstLen = 0 then dst - 1 else dst) nul else buffer

def copyToArray (size : ℕ) (src : Text) : Text :=
  cstring (mhStringCopy (List.replicate size nul) src size)

def snprintf (size : ℕ) (text : Text) : Text := text.take (size - 1)

def mhStrlenZero (s : Text) : Bool := s.isEmpty

section
variable {buffer : List Char} {src : Text}

@[simp] theorem cstring_append_nul (s : Text) (rest : List Char) (h : nul ∉ s) :
    cstring (s ++ nul :: rest) = s := by
  unfold cstring
  rw [List.takeWhile_append_of_pos]
  · simp
  · intro c hc
    simpa using fun heq : c = nul => h (heq ▸ hc)

theorem copyLoop_eq (done : List Char) (src : Text) (rest : List Char) (dstLen : ℕ)
    (h : dstLen ≤ rest.length) :
    copyLoop (done ++ rest) done.length src dstLen =
      (done ++ src.take dstLen ++ rest.drop (min src.length dstLen),
        done.length + min src.length dstLen, dstLen - src.length) := by
  induction src generalizing done rest dstLen with
  | nil => simp [copyLoop]
  | cons c src ih =>
    cases dstLen with
    | zero => simp [copyLoop]
    | succ n =>
      cases rest with
      | nil => simp at h
      | cons x rest =>
        have hset : (done ++ x :: rest).set done.length c = (done ++ [c]) ++ rest := by simp
        have hrec := ih (done ++ [c]) rest n (by simpa using h)
        have hmin : min (src.length + 1) (n + 1) = min src.length n + 1 := by omega
        rw [List.length_append, List.length_singleton] at hrec
        rw [copyLoop, hset, hrec]
        simp only [List.length_cons, List.take_succ_cons, hmin, List.drop_succ_cons,
          List.append_assoc, List.singleton_append, Nat.add_sub_add_right]
        congr 2
        omega

theorem mhStringCopy_eq {n : ℕ} (hn : 0 < n) (h : n ≤ buffer.length) :
    mhStringCopy buffer src n =
      src.take (n - 1) ++ nul :: buffer.drop (min src.length (n - 1) + 1) := by
  have hloop := copyLoop_eq [] src buffer n h
  simp only [List.nil_append, List.length_nil, Nat.zero_add] at hloop
  unfold mhStringCopy
  rw [hloop]
  simp only [show n ≠ 0 by omega, ne_eq, not_false_eq_true, if_true]
  by_cases hfull : n ≤ src.length
  · -- the source fills the buffer, and the terminator replaces its last byte
    have hlen : (src.take n).length = n := by
      rw [List.length_take]
      omega
    have hpos : n - 1 < (src.take n ++ buffer.drop n).length := by
      rw [List.length_append]
      omega
    rw [if_pos (by omega), Nat.min_eq_right hfull, Nat.min_eq_right (by omega),
      List.set_eq_take_append_cons_drop, if_pos hpos,
      List.take_append_of_le_length (by omega), List.take_take, Nat.min_eq_left (by omega),
      show n - 1 + 1 = n by omega, List.drop_left' hlen]
  · have hpos : src.length < (src ++ buffer.drop src.length).length := by
      rw [List.length_append, List.length_drop]
      omega
    rw [if_neg (by omega), Nat.min_eq_left (by omega), Nat.min_eq_left (by omega),
      List.take_of_length_le (by omega), List.take_of_length_le (by omega),
      List.set_eq_take_append_cons_drop, if_pos hpos, List.take_left, List.drop_append,
      List.drop_eq_nil_of_le (by omega), List.nil_append, List.drop_drop]
    congr 2
    simp

theorem copyToArray_eq {n : ℕ} (hn : 0 < n) (h : nul ∉ src) :
    copyToArray n src = src.take (n - 1) := by
  unfold copyToArray
  rw [mhStringCopy_eq hn (by simp)]
  exact cstring_append_nul _ _ fun hmem => h (List.mem_of_mem_take hmem)

/-! ## Where it writes -/

/-- The stores of the `while`, with the offsets they go to, and what `dst` and `dst_len` are
after it. -/
def copyLoopStores : ℕ → Text → ℕ → List (ℕ × Char) × ℕ × ℕ
  | dst, [], dstLen => ([], dst, dstLen)
  | dst, _ :: _, 0 => ([], dst, 0)
  | dst, c :: src, dstLen + 1 =>
    let (stores, dst', dstLen) := copyLoopStores (dst + 1) src dstLen
    ((dst, c) :: stores, dst', dstLen)

def mhStringCopyStores (src : Text) (origDstLen : ℕ) : List (ℕ × Char) :=
  let (stores, dst, dstLen) := copyLoopStores 0 src origDstLen
  if origDstLen ≠ 0 then stores ++ [(if dstLen = 0 then dst - 1 else dst, nul)] else stores

def applyStores (buffer : List Char) (stores : List (ℕ × Char)) : List Char :=
  stores.foldl (fun buffer store => buffer.set store.1 store.2) buffer

theorem copyLoop_eq_stores (buffer : List Char) (dst : ℕ) (src : Text) (dstLen : ℕ) :
    copyLoop buffer dst src dstLen =
      (applyStores buffer (copyLoopStores dst src dstLen).1, (copyLoopStores dst src dstLen).2) := by
  induction src generalizing buffer dst dstLen with
  | nil => cases dstLen <;> rfl
  | cons c src ih =>
    cases dstLen with
    | zero => rfl
    | succ n => exact ih (buffer.set dst c) (dst + 1) n

theorem mhStringCopy_eq_stores (buffer : List Char) (src : Text) (n : ℕ) :
    mhStringCopy buffer src n = applyStores buffer (mhStringCopyStores src n) := by
  unfold mhStringCopy mhStringCopyStores
  rw [copyLoop_eq_stores]
  dsimp only
  split
  · unfold applyStores
    rw [List.foldl_append]
    rfl
  · rfl

theorem copyLoopStores_lt (dst : ℕ) (src : Text) (dstLen : ℕ) :
    (∀ store ∈ (copyLoopStores dst src dstLen).1, store.1 < dst + dstLen) ∧
      (copyLoopStores dst src dstLen).2.1 + (copyLoopStores dst src dstLen).2.2 = dst + dstLen := by
  induction src generalizing dst dstLen with
  | nil => cases dstLen <;> exact ⟨List.forall_mem_nil _, rfl⟩
  | cons c src ih =>
    cases dstLen with
    | zero => exact ⟨List.forall_mem_nil _, rfl⟩
    | succ n =>
      obtain ⟨hstores, hrest⟩ := ih (dst + 1) n
      constructor
      · refine List.forall_mem_cons.mpr ⟨by omega, fun store hstore => ?_⟩
        have hlt := hstores store hstore
        omega
      · change (copyLoopStores (dst + 1) src n).2.1 + (copyLoopStores (dst + 1) src n).2.2 = _
        omega

theorem mhStringCopyStores_lt (src : Text) (n : ℕ) :
    ∀ store ∈ mhStringCopyStores src n, store.1 < n := by
  obtain ⟨hstores, hrest⟩ := copyLoopStores_lt 0 src n
  rw [Nat.zero_add] at hstores hrest
  unfold mhStringCopyStores
  generalize copyLoopStores 0 src n = loop at hstores hrest ⊢
  obtain ⟨stores, dst, dstLen⟩ := loop
  dsimp only at hstores hrest ⊢
  split
  · intro store hstore
    rcases List.mem_append.mp hstore with hstore | hstore
    · exact hstores store hstore
    · rw [List.mem_singleton.mp hstore]
      dsimp only
      split <;> omega
  · exact hstores

/-- The longest part of the source that leaves room for its terminator, and nothing else. -/
theorem string_copy_spec (buffer : List Char) (src : CString) (n : ℕ) (h : n ≤ buffer.length) :
    (n = 0 → mhStringCopy buffer src.1 n = buffer) ∧
    (n ≠ 0 →
      (mhStringCopy buffer src.1 n).length = buffer.length ∧
      (mhStringCopy buffer src.1 n).take (min src.1.length (n - 1)) =
        src.1.take (min src.1.length (n - 1)) ∧
      (mhStringCopy buffer src.1 n)[min src.1.length (n - 1)]? = some nul ∧
      ∀ i, min src.1.length (n - 1) < i → (mhStringCopy buffer src.1 n)[i]? = buffer[i]?) ∧
    ∀ store ∈ mhStringCopyStores src.1 n, store.1 < n := by
  have hempty : n = 0 → mhStringCopy buffer src.1 n = buffer := by
    rintro rfl
    cases src.1 <;> rfl
  refine ⟨hempty, fun hn => ?_, mhStringCopyStores_lt src.1 n⟩
  have htake : src.1.take (n - 1) = src.1.take (min src.1.length (n - 1)) := by
    rw [Nat.min_comm, ← List.take_take, List.take_length]
  have hlen : (src.1.take (min src.1.length (n - 1))).length = min src.1.length (n - 1) := by
    rw [List.length_take]
    omega
  rw [mhStringCopy_eq (Nat.pos_of_ne_zero hn) h, htake]
  generalize min src.1.length (n - 1) = m at hlen htake ⊢
  have hm : m + 1 ≤ n := by
    have hle := List.length_take_le (n - 1) src.1
    rw [htake, hlen] at hle
    omega
  refine ⟨?_, List.take_left' hlen, ?_, fun i hi => ?_⟩
  · rw [List.length_append, List.length_cons, List.length_drop, hlen]
    omega
  · rw [List.getElem?_append_right hlen.le, hlen, Nat.sub_self]
    rfl
  · obtain ⟨k, rfl⟩ := Nat.exists_eq_add_of_lt hi
    rw [List.getElem?_append_right (by omega), hlen, show m + k + 1 - m = k + 1 by omega,
      List.getElem?_cons_succ, List.getElem?_drop]
    congr 1
    omega

theorem string_copy_spec_cut :
    mhStringCopy "abcdefgh".toList "1234".toList 4 = "123".toList ++ nul :: "efgh".toList ∧
    ∀ store ∈ mhStringCopyStores "1234".toList 4, store.1 < 4 :=
  ⟨by decide, (string_copy_spec "abcdefgh".toList ⟨"1234".toList, by decide⟩ 4 (by decide)).2.2⟩
end
end Matahari.Utilities
