import Mathlib

set_option autoImplicit false

/-!
# Drawing by weight without replacement

A draw `m` selects the first element of a list at which the running sum of the
weights reaches `m`. Among the draws `0, …, total` an element is selected as
often as its weight says, and the first element once more. Drawing until the
list is empty leads to the orders that keep the elements of weight zero in
place, provided that these stand in front.
-/
namespace WeightedDraw

variable {α : Type} (w : α → ℕ)

def total (l : List α) : ℕ := (l.map w).sum

def position : List α → ℕ → Option ℕ
  | [], _ => none
  | x :: xs, m => if m ≤ w x then some 0 else (position xs (m - w x)).map (· + 1)

def ZerosFirst (l : List α) : Prop := l.Pairwise fun a b => w b = 0 → w a = 0

/-- The orders in which a list can be drawn. -/
inductive Drawn : List α → List α → Prop
  | nil : Drawn [] []
  | draw {l out : List α} {i m : ℕ} (hi : i < l.length) (hm : m ≤ total w l)
      (h : position w l m = some i) (rest : Drawn (l.eraseIdx i) out) : Drawn l (l[i] :: out)

variable {w}

@[simp] theorem total_nil : total w [] = 0 := rfl

@[simp] theorem total_cons (x : α) (xs : List α) : total w (x :: xs) = w x + total w xs := by
  simp only [total, List.map_cons, List.sum_cons]

theorem total_eraseIdx_le (l : List α) (i : ℕ) : total w (l.eraseIdx i) ≤ total w l := by
  induction l generalizing i with
  | nil => simp
  | cons x xs ih =>
    cases i with
    | zero => simp
    | succ i =>
      have h := ih i
      simp only [List.eraseIdx_cons_succ, total_cons]
      omega

theorem total_take_succ {l : List α} {i : ℕ} (hi : i < l.length) :
    total w (l.take (i + 1)) = total w (l.take i) + w l[i] := by
  induction l generalizing i with
  | nil => exact absurd hi (Nat.not_lt_zero i)
  | cons x xs ih =>
    cases i with
    | zero => simp
    | succ i =>
      have h := ih (i := i) (by simpa using hi)
      simp only [List.take_succ_cons, total_cons, List.getElem_cons_succ, h]
      omega

theorem total_take_le (l : List α) (i : ℕ) : total w (l.take i) ≤ total w l := by
  induction l generalizing i with
  | nil => simp
  | cons x xs ih =>
    cases i with
    | zero => simp
    | succ i =>
      have h := ih i
      simp only [List.take_succ_cons, total_cons]
      omega

theorem position_eq_some_iff {l : List α} {m i : ℕ} (hi : i < l.length) :
    position w l m = some i ↔
      m ≤ total w (l.take (i + 1)) ∧ (0 < i → total w (l.take i) < m) := by
  induction l generalizing m i with
  | nil => exact absurd hi (Nat.not_lt_zero i)
  | cons x xs ih =>
    unfold position
    cases i with
    | zero => by_cases h : m ≤ w x <;> simp [h]
    | succ i =>
      have hi' : i < xs.length := by simpa using hi
      by_cases h : m ≤ w x
      · simp only [h, if_true, List.take_succ_cons, total_cons]
        constructor
        · intro h0
          cases h0
        · intro ⟨_, hlt⟩
          have := hlt (by omega)
          omega
      · have hrec := ih (m := m - w x) hi'
        simp only [h, if_false, Option.map_eq_some_iff, List.take_succ_cons, total_cons]
        constructor
        · rintro ⟨j, hj, hji⟩
          obtain rfl : j = i := by omega
          obtain ⟨hle, hlt⟩ := hrec.mp hj
          refine ⟨by omega, fun _ => ?_⟩
          cases j with
          | zero => simp; omega
          | succ j =>
            have := hlt (by omega)
            omega
        · intro ⟨hle, hlt⟩
          have := hlt (by omega)
          exact ⟨i, hrec.mpr ⟨by omega, fun _ => by omega⟩, rfl⟩

theorem card_position {l : List α} {i : ℕ} (hi : i < l.length) :
    ((Finset.range (total w l + 1)).filter fun m => position w l m = some i).card =
      w l[i] + if i = 0 then 1 else 0 := by
  have hsucc := total_take_succ (w := w) hi
  have hle := total_take_le (w := w) l (i + 1)
  by_cases h0 : i = 0
  · have hset : ((Finset.range (total w l + 1)).filter fun m => position w l m = some i) =
        Finset.range (w l[i] + 1) := by
      ext m
      subst h0
      simp only [Finset.mem_filter, Finset.mem_range, position_eq_some_iff hi]
      simp only [List.take_zero, total_nil] at hsucc
      omega
    rw [hset, Finset.card_range, if_pos h0]
  · have hset : ((Finset.range (total w l + 1)).filter fun m => position w l m = some i) =
        Finset.Ioc (total w (l.take i)) (total w (l.take (i + 1))) := by
      ext m
      simp only [Finset.mem_filter, Finset.mem_range, position_eq_some_iff hi, Finset.mem_Ioc]
      omega
    rw [hset, Nat.card_Ioc, if_neg h0]
    omega

/-- An element other than the first is selected only if it has weight. -/
theorem position_pos {l : List α} {m i : ℕ} (hi : i < l.length) (h : position w l m = some i)
    (h0 : i ≠ 0) : 0 < w l[i] := by
  obtain ⟨hle, hlt⟩ := (position_eq_some_iff hi).mp h
  have hsucc := total_take_succ (w := w) hi
  have := hlt (by omega)
  omega

theorem ZerosFirst.eraseIdx {l : List α} (h : ZerosFirst w l) (i : ℕ) :
    ZerosFirst w (l.eraseIdx i) :=
  List.Pairwise.sublist (List.eraseIdx_sublist l i) h

theorem filter_eraseIdx {l : List α} {i : ℕ} (hi : i < l.length) {p : α → Bool}
    (hp : p l[i] = false) : (l.eraseIdx i).filter p = l.filter p := by
  induction l generalizing i with
  | nil => exact absurd hi (Nat.not_lt_zero i)
  | cons x xs ih =>
    cases i with
    | zero =>
      have hx : p x = false := hp
      simp [hx]
    | succ i =>
      have h := ih (i := i) (by simpa using hi) hp
      simp only [List.eraseIdx_cons_succ, List.filter_cons, h]

theorem Drawn.perm {l out : List α} (h : Drawn w l out) : out.Perm l := by
  induction h with
  | nil => exact List.Perm.nil
  | draw hi _ _ _ ih => exact (ih.cons _).trans (List.getElem_cons_eraseIdx_perm hi)

theorem Drawn.filter_eq {l out : List α} (h : Drawn w l out) :
    out.filter (fun x => w x = 0) = l.filter fun x => w x = 0 := by
  induction h with
  | nil => rfl
  | @draw l out i m hi _ hpos _ ih =>
    by_cases h0 : i = 0
    · subst h0
      cases l with
      | nil => exact absurd hi (Nat.not_lt_zero 0)
      | cons x xs =>
        simp only [List.eraseIdx_cons_zero] at ih
        simp only [List.getElem_cons_zero, List.filter_cons, ih]
    · have hw := position_pos hi hpos h0
      have hzero : decide (w l[i] = 0) = false := by simp; omega
      rw [List.filter_cons, hzero, ih, filter_eraseIdx hi hzero]
      simp

theorem ZerosFirst.head_eq {l rest : List α} {y : α} (h : ZerosFirst w l)
    (hy : l.filter (fun x => w x = 0) = y :: rest) :
    ∃ xs, l = y :: xs ∧ xs.filter (fun x => w x = 0) = rest := by
  cases l with
  | nil => simp at hy
  | cons x xs =>
    have hyw : y ∈ (x :: xs).filter fun x => w x = 0 := by simp [hy]
    obtain ⟨hmem, hzero⟩ := List.mem_filter.mp hyw
    have hx : w x = 0 := by
      rcases List.mem_cons.mp hmem with rfl | hin
      · simpa using hzero
      · exact (List.pairwise_cons.mp h).1 y hin (by simpa using hzero)
    simp only [List.filter_cons, hx, decide_true, if_true, List.cons.injEq] at hy
    exact ⟨xs, by rw [hy.1], hy.2⟩

theorem Drawn.of_perm {l out : List α} (hz : ZerosFirst w l) (hperm : out.Perm l)
    (hfilter : out.filter (fun x => w x = 0) = l.filter fun x => w x = 0) : Drawn w l out := by
  induction out generalizing l with
  | nil =>
    obtain rfl : l = [] := hperm.symm.eq_nil
    exact .nil
  | cons y out ih =>
    by_cases hy : w y = 0
    · rw [List.filter_cons, if_pos (by simpa using hy)] at hfilter
      obtain ⟨xs, rfl, hxs⟩ := hz.head_eq hfilter.symm
      have hrest := ih (List.Pairwise.of_cons hz) (hperm.cons_inv) hxs.symm
      exact .draw (i := 0) (m := 0) (by simp) (Nat.zero_le _) (by simp [position]) hrest
    · obtain ⟨i, hi, rfl⟩ := List.mem_iff_getElem.mp (hperm.subset (List.mem_cons_self))
      have hsucc := total_take_succ (w := w) hi
      have hle := total_take_le (w := w) l (i + 1)
      have hzero : decide (w l[i] = 0) = false := by simp [hy]
      rw [List.filter_cons, hzero] at hfilter
      have hrest := ih (hz.eraseIdx i)
        (hperm.trans (List.getElem_cons_eraseIdx_perm hi).symm).cons_inv
        (by rw [filter_eraseIdx hi hzero]; simpa using hfilter)
      refine .draw hi hle ?_ hrest
      rw [position_eq_some_iff hi]
      omega

/-- The orders that can be drawn are the permutations that keep the elements of
weight zero in their order. -/
theorem drawn_iff {l out : List α} (hz : ZerosFirst w l) :
    Drawn w l out ↔ out.Perm l ∧
      out.filter (fun x => w x = 0) = l.filter fun x => w x = 0 :=
  ⟨fun h => ⟨h.perm, h.filter_eq⟩, fun ⟨hperm, hfilter⟩ => Drawn.of_perm hz hperm hfilter⟩

end WeightedDraw
