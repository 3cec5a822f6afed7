import Matahari.Dnssrv

set_option autoImplicit false

/-!
# The weights of SRV records

As long as the weights of a group do not overflow the range of
`g_random_int_range`, a turn of `apply_weight_sort` is a draw by weight, and the
whole loop draws the group without replacement.
-/
namespace Matahari.Dnssrv
open WeightedDraw

def weight (d : SrvData) : ℕ := d.weight.toNat

def weightTurns (draw : ℕ → ℕ) : ℕ → List Record × List Record → List Record × List Record
  | 0, s => s
  | n + 1, s => weightTurn (draw n) (weightTurns draw n s)

def tmpList (p : UInt16) (records : List Record) : List Record := (moveGroup p records []).1

def remaining (draw : ℕ → ℕ) (n : ℕ) (tmp : List Record) : List Record :=
  (weightTurns draw n (tmp, [])).1

section
variable {records processed : List Record}

theorem toNat_add_toUInt32 {sum : UInt32} {w : UInt16} (h : sum.toNat + w.toNat < 2 ^ 32) :
    (sum + w.toUInt32).toNat = sum.toNat + w.toNat := by
  rw [UInt32.toNat_add, UInt16.toNat_toUInt32]
  exact Nat.mod_eq_of_lt h

theorem toNat_addWeight (records : List Record) {sum : UInt32}
    (h : sum.toNat + total weight (data records) < 2 ^ 32) :
    (addWeight sum records).1.toNat = sum.toNat + total weight (data records) := by
  induction records generalizing sum with
  | nil => rfl
  | cons r rs ih =>
    simp only [data_cons, total_cons, weight] at h
    have hsum := toNat_add_toUInt32 (show sum.toNat + r.weight.toNat < 2 ^ 32 by omega)
    have hrec := @ih (sum + r.weight.toUInt32) (by omega)
    simp only [addWeight, data_cons, total_cons, weight]
    omega

theorem search_eq_position (records : List Record) {sum : UInt32} (magic : UInt32)
    (h : sum.toNat + total weight (data records) < 2 ^ 32) :
    search magic (addWeight sum records).2 =
      position weight (data records) (magic.toNat - sum.toNat) := by
  induction records generalizing sum with
  | nil => rfl
  | cons r rs ih =>
    simp only [data_cons, total_cons, weight] at h
    have hsum := toNat_add_toUInt32 (show sum.toNat + r.weight.toNat < 2 ^ 32 by omega)
    have hrec := @ih (sum + r.weight.toUInt32) (by omega)
    have hiff : magic ≤ sum + r.weight.toUInt32 ↔ magic.toNat - sum.toNat ≤ r.weight.toNat := by
      rw [UInt32.le_iff_toNat_le, hsum]
      omega
    simp only [addWeight, search, data_cons, position, weight, hiff, hrec, hsum, Nat.sub_sub]

/-- In range, a turn selects what the draw does. -/
theorem selected_eq_position (h : total weight (data records) + 1 < 2 ^ 31) (draw : ℕ) :
    selected draw records =
      position weight (data records) (draw % (total weight (data records) + 1)) := by
  have hzero : (0 : UInt32).toNat = 0 := rfl
  have hsum := toNat_addWeight records (show (0 : UInt32).toNat + _ < _ by omega)
  rw [hzero, Nat.zero_add] at hsum
  have hstop : ((addWeight 0 records).1 + 1).toNat = total weight (data records) + 1 := by
    rw [UInt32.toNat_add, hsum]
    exact Nat.mod_eq_of_lt (by change _ + 1 < _; omega)
  have hint : (((addWeight 0 records).1 + 1).toInt32).toInt =
      (total weight (data records) + 1 : ℕ) := by
    rw [toInt_toInt32, hstop, if_pos (by omega)]
  have hmod := Nat.mod_lt draw (show 0 < total weight (data records) + 1 by omega)
  have hmagic : (gRandomIntRange ((addWeight 0 records).1 + 1).toInt32 draw).toNat =
      draw % (total weight (data records) + 1) := by
    rw [gRandomIntRange, hint, if_pos (by omega), UInt32.toNat_ofNat', Int.toNat_natCast]
    exact Nat.mod_eq_of_lt (by omega)
  have hsearch := search_eq_position records
    (gRandomIntRange ((addWeight 0 records).1 + 1).toInt32 draw)
    (show (0 : UInt32).toNat + _ < _ by omega)
  rw [hmagic, hzero, Nat.sub_zero] at hsearch
  exact hsearch

theorem card_selected (h : total weight (data records) + 1 < 2 ^ 31) {i : ℕ}
    (hi : i < (data records).length) :
    ((Finset.range (total weight (data records) + 1)).filter
      fun d => selected d records = some i).card =
        weight (data records)[i] + if i = 0 then 1 else 0 := by
  rw [← card_position hi]
  congr 1
  apply Finset.filter_congr
  intro d hd
  rw [selected_eq_position h, Nat.mod_eq_of_lt (Finset.mem_range.mp hd)]

/-! ## Zero weights stay in front -/

theorem weight_eq_zero_iff (d : SrvData) : weight d = 0 ↔ d.weight = 0 :=
  UInt16.toNat_inj (b := 0)

theorem zerosFirst_tmpList (p : UInt16) (records : List Record) :
    ZerosFirst weight (data (tmpList p records)) := by
  rw [tmpList, moveGroup_eq]
  refine List.pairwise_map.mpr (List.pairwise_append.mpr ⟨?_, ?_, ?_⟩)
  · refine List.pairwise_of_forall_mem_list fun a ha b hb _ => ?_
    simp only [List.append_nil, List.mem_reverse, List.mem_filter, decide_eq_true_eq] at ha
    exact (weight_eq_zero_iff _).mpr ha.2
  · refine List.pairwise_of_forall_mem_list fun a ha b hb hzero => ?_
    simp only [List.mem_filter, decide_eq_true_eq] at hb
    exact absurd ((weight_eq_zero_iff _).mp hzero) hb.2
  · intro a ha b hb hzero
    simp only [List.mem_filter, decide_eq_true_eq] at hb
    exact absurd ((weight_eq_zero_iff _).mp hzero) hb.2

theorem data_weightTurn_fst (draw : ℕ) (s : List Record × List Record) :
    ∃ i, data (weightTurn draw s).1 = (data s.1).eraseIdx i := by
  by_cases hne : s.1 = []
  · refine ⟨0, ?_⟩
    obtain ⟨rs, done⟩ := s
    subst hne
    rfl
  · obtain ⟨i, hi, hsel⟩ := exists_selected hne draw
    exact ⟨i, (data_weightTurn s.2 (by simpa [data] using hi) hsel).1⟩

theorem weightTurns_invariant {bound : ℕ} (s : List Record × List Record)
    (hzeros : ZerosFirst weight (data s.1)) (htotal : total weight (data s.1) ≤ bound)
    (draw : ℕ → ℕ) (n : ℕ) :
    ZerosFirst weight (data (weightTurns draw n s).1) ∧
      total weight (data (weightTurns draw n s).1) ≤ bound := by
  induction n with
  | zero => exact ⟨hzeros, htotal⟩
  | succ n ih =>
    obtain ⟨i, hi⟩ := data_weightTurn_fst (draw n) (weightTurns draw n s)
    rw [weightTurns, hi]
    exact ⟨ih.1.eraseIdx i, (total_eraseIdx_le _ i).trans ih.2⟩

/-! ## The orders -/

theorem drawn_of_applyWeightSort {draw : ℕ → ℕ} {fuel n k : ℕ} {out : List Record}
    (htotal : total weight (data records) + 1 < 2 ^ 31)
    (h : applyWeightSort draw fuel n (records, processed) = some (out, k)) :
    ∃ order, Drawn weight (data records) order ∧ data out = data processed ++ order := by
  induction fuel generalizing n records processed with
  | zero =>
    cases records with
    | nil =>
      cases h
      exact ⟨[], .nil, by simp⟩
    | cons r rs => cases h
  | succ fuel ih =>
    by_cases hne : records = []
    · subst hne
      cases h
      exact ⟨[], .nil, by simp⟩
    · rw [applyWeightSort_succ hne] at h
      obtain ⟨i, hlt, hsel⟩ := exists_selected hne (draw n)
      have hi : i < (data records).length := by simpa [data] using hlt
      obtain ⟨hrest, hdone⟩ := data_weightTurn processed hi hsel
      have hle := total_eraseIdx_le (w := weight) (data records) i
      obtain ⟨order, horder, hout⟩ := @ih (weightTurn (draw n) (records, processed)).1
        (weightTurn (draw n) (records, processed)).2 (n + 1) (by rw [hrest]; omega) h
      rw [hrest] at horder
      rw [selected_eq_position htotal] at hsel
      have hmod := Nat.mod_lt (draw n) (show 0 < total weight (data records) + 1 by omega)
      refine ⟨(data records)[i] :: order, .draw hi (by omega) hsel horder, ?_⟩
      rw [hout, hdone, List.append_assoc, List.singleton_append]

theorem applyWeightSort_congr {draw draw' : ℕ → ℕ} {fuel n : ℕ} {s : List Record × List Record}
    (h : ∀ j, n ≤ j → draw j = draw' j) :
    applyWeightSort draw fuel n s = applyWeightSort draw' fuel n s := by
  induction fuel generalizing n s with
  | zero => rcases s with ⟨_ | _, _⟩ <;> rfl
  | succ fuel ih =>
    rcases s with ⟨_ | ⟨r, rs⟩, done⟩
    · rfl
    · simp only [applyWeightSort, h n (le_refl n)]
      exact ih fun j hj => h j (by omega)

theorem applyWeightSort_of_drawn {order : List SrvData} (h : Drawn weight (data records) order)
    (htotal : total weight (data records) + 1 < 2 ^ 31) (n : ℕ) (processed : List Record) :
    ∃ draw out k, applyWeightSort draw records.length n (records, processed) = some (out, k) ∧
      data out = data processed ++ order := by
  generalize hl : data records = l at h
  induction h generalizing records n processed with
  | nil =>
    obtain rfl : records = [] := by simpa [data] using hl
    exact ⟨fun _ => 0, processed, n, rfl, by simp⟩
  | @draw l order i m hi hm hpos _ ih =>
    subst hl
    have hne : records ≠ [] := by
      rintro rfl
      exact absurd hi (Nat.not_lt_zero i)
    have hsel : selected m records = some i := by
      rw [selected_eq_position htotal, Nat.mod_eq_of_lt (by omega), hpos]
    obtain ⟨hrest, hdone⟩ := data_weightTurn processed hi hsel
    have hle := total_eraseIdx_le (w := weight) (data records) i
    have hlen := length_weightTurn hne m processed
    obtain ⟨draw, out, k, hrun, hout⟩ := ih (by rw [hrest]; omega) (n + 1)
      (weightTurn m (records, processed)).2 hrest
    refine ⟨Function.update draw n m, out, k, ?_, ?_⟩
    · rw [← hlen, applyWeightSort_succ hne, Function.update_self, ← hrun]
      exact applyWeightSort_congr fun j hj => Function.update_of_ne (by omega) m draw
    · rw [hout, hdone, List.append_assoc, List.singleton_append]

/-- For a group of records whose weights sum up within the range of the random numbers: before
every turn the records of weight zero are in front, a record is selected by as many draws as its
weight says, and the first by one more; and the orders that come out are the permutations that
keep the records of weight zero in the order of `tmp_list`. -/
theorem weight_draws_and_orders (p : UInt16) (records : List Record)
    (hsum : total weight (data (tmpList p records)) + 1 < 2 ^ 31) :
    (∀ draw n, ZerosFirst weight (data (remaining draw n (tmpList p records))) ∧
      ∀ i (hi : i < (data (remaining draw n (tmpList p records))).length),
        ((Finset.range (total weight (data (remaining draw n (tmpList p records))) + 1)).filter
          fun d => selected d (remaining draw n (tmpList p records)) = some i).card =
        weight (data (remaining draw n (tmpList p records)))[i] + if i = 0 then 1 else 0) ∧
    ∀ order : List SrvData,
      (∃ draw fuel n k out, applyWeightSort draw fuel n (tmpList p records, []) = some (out, k) ∧
        data out = order) ↔
      order.Perm (data (tmpList p records)) ∧
        order.filter (fun d => weight d = 0) =
          (data (tmpList p records)).filter fun d => weight d = 0 := by
  have hzeros := zerosFirst_tmpList p records
  refine ⟨fun draw n => ?_, fun order => ?_⟩
  · obtain ⟨hfront, hle⟩ := weightTurns_invariant (tmpList p records, []) hzeros (le_refl _) draw n
    exact ⟨hfront, fun i hi => card_selected ((Nat.succ_le_succ hle).trans_lt hsum) hi⟩
  · rw [← drawn_iff hzeros]
    constructor
    · rintro ⟨draw, fuel, n, k, out, hrun, rfl⟩
      obtain ⟨order, hdrawn, hout⟩ := drawn_of_applyWeightSort hsum hrun
      rw [hout]
      exact hdrawn
    · intro hdrawn
      obtain ⟨draw, out, k, hrun, hout⟩ := applyWeightSort_of_drawn hdrawn hsum 0 []
      exact ⟨draw, _, 0, k, out, hrun, hout⟩

def testGroup : List Record :=
  [10, 0, 20, 50, 40].map fun w => ⟨⟨49000, 10, w, "a.example.com".toList⟩, 0⟩

theorem weight_draws_and_orders_testGroup :
    total weight (data (tmpList 10 testGroup)) = 120 ∧
    ∀ order : List SrvData,
      (∃ draw fuel n k out, applyWeightSort draw fuel n (tmpList 10 testGroup, []) = some (out, k) ∧
        data out = order) ↔
      order.Perm (data (tmpList 10 testGroup)) ∧
        order.filter (fun d => weight d = 0) =
          (data (tmpList 10 testGroup)).filter fun d => weight d = 0 := by
  have htotal : total weight (data (tmpList 10 testGroup)) = 120 := by decide
  exact ⟨htotal, (weight_draws_and_orders 10 testGroup (by rw [htotal]; decide)).2⟩

end
end Matahari.Dnssrv
