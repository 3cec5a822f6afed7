import Matahari.Library.WeightedDraw
import Matahari.Mainloop

set_option autoImplicit false

/-!
# Sorting DNS SRV records

`mh_dnssrv_records_sort` of `dnssrv.c` and what it calls. The values that
`g_random_int_range` returns come from a stream `draw`, one element for each
call; both loops take fuel, since nothing in their text bounds them.
-/
namespace Matahari.Dnssrv
open Mainloop

structure SrvData where
  port : UInt16
  priority : UInt16
  weight : UInt16
  host : Text
  deriving DecidableEq, Repr

/-- `malloc` leaves the running sum undefined until `add_weight` writes it. -/
structure Record extends SrvData where
  weightRunningSum : UInt32
  deriving DecidableEq, Repr

def dnssrvRecordPriorityCmp (a b : Record) : ℤ := a.priority.toNat - b.priority.toNat

def gListInsertSorted (r : Record) : List Record → List Record
  | [] => [r]
  | x :: xs =>
    if dnssrvRecordPriorityCmp r x > 0 then x :: gListInsertSorted r xs else r :: x :: xs

def mhDnssrvAddRecord (records : List Record) (r : Record) : List Record :=
  gListInsertSorted r records

def addWeight : UInt32 → List Record → UInt32 × List Record
  | sum, [] => (sum, [])
  | sum, r :: rs =>
    let sum' := sum + r.weight.toUInt32
    let tail := addWeight sum' rs
    (tail.1, { r with weightRunningSum := sum' } :: tail.2)

/-- `g_random_int_range` from zero: a critical warning and zero for an empty range. -/
def gRandomIntRange (stop : Int32) (draw : ℕ) : UInt32 :=
  if 0 < stop.toInt then UInt32.ofNat (draw % stop.toInt.toNat) else 0

def search (magic : UInt32) : List Record → Option ℕ
  | [] => none
  | r :: rs => if magic ≤ r.weightRunningSum then some 0 else (search magic rs).map (· + 1)

def selected (draw : ℕ) (records : List Record) : Option ℕ :=
  let (sumWeights, records) := addWeight 0 records
  search (gRandomIntRange (sumWeights + 1).toInt32 draw) records

def weightTurn (draw : ℕ) (s : List Record × List Record) : List Record × List Record :=
  let records := (addWeight 0 s.1).2
  match selected draw s.1 with
  | some i => (records.eraseIdx i, s.2 ++ (records[i]?).toList)
  | none => (records, s.2)

def applyWeightSort (draw : ℕ → ℕ) : ℕ → ℕ → List Record × List Record → Option (List Record × ℕ)
  | _, n, ([], processed) => some (processed, n)
  | 0, _, (_ :: _, _) => none
  | fuel + 1, n, (r :: rs, processed) =>
    applyWeightSort draw fuel (n + 1) (weightTurn (draw n) (r :: rs, processed))

def moveGroup (curPriority : UInt16) : List Record → List Record → List Record × List Record
  | [], tmp => (tmp, [])
  | r :: rs, tmp =>
    if r.priority ≠ curPriority then (tmp, r :: rs)
    else moveGroup curPriority rs (if r.weight = 0 then r :: tmp else tmp ++ [r])

def recordsSortLoop (draw : ℕ → ℕ) :
    ℕ → ℕ → List Record → List Record → Option (List Record × ℕ)
  | _, n, [], processed => some (processed, n)
  | 0, _, _ :: _, _ => none
  | fuel + 1, n, r :: rs, processed =>
    let group := moveGroup r.priority (r :: rs) []
    (applyWeightSort draw (fuel + 1) n (group.1, [])).bind fun (tmp, n) =>
      recordsSortLoop draw fuel n group.2 (processed ++ tmp)

def mhDnssrvRecordsSort (draw : ℕ → ℕ) (fuel : ℕ) (records : List Record) : Option (List Record) :=
  (recordsSortLoop draw fuel 0 records []).map (·.1)

/-! ## The inner search always ends on a record -/

section
variable {records rest : List Record}

def data (records : List Record) : List SrvData := records.map (·.toSrvData)

@[simp] theorem data_nil : data [] = [] := rfl

@[simp] theorem data_cons (r : Record) (rs : List Record) :
    data (r :: rs) = r.toSrvData :: data rs := rfl

@[simp] theorem data_append (xs ys : List Record) : data (xs ++ ys) = data xs ++ data ys :=
  List.map_append

theorem data_eraseIdx (records : List Record) (i : ℕ) :
    data (records.eraseIdx i) = (data records).eraseIdx i := by
  simp [data, List.eraseIdx_map]

@[simp] theorem data_addWeight (sum : UInt32) (records : List Record) :
    data (addWeight sum records).2 = data records := by
  induction records generalizing sum with
  | nil => rfl
  | cons r rs ih =>
    simp only [addWeight, data_cons, ih]

theorem length_addWeight (sum : UInt32) (records : List Record) :
    (addWeight sum records).2.length = records.length := by
  simpa [data] using congrArg List.length (data_addWeight sum records)

theorem search_lt {magic : UInt32} {i : ℕ} (h : search magic records = some i) :
    i < records.length := by
  induction records generalizing i with
  | nil => cases h
  | cons r rs ih =>
    unfold search at h
    split at h
    · cases h
      simp
    · obtain ⟨j, hj, rfl⟩ := Option.map_eq_some_iff.mp h
      simpa using ih hj

theorem exists_search {magic sum : UInt32} (hne : records ≠ [])
    (h : magic ≤ (addWeight sum records).1) :
    ∃ i, search magic (addWeight sum records).2 = some i := by
  induction records generalizing sum with
  | nil => exact absurd rfl hne
  | cons r rs ih =>
    simp only [addWeight, search] at h ⊢
    split
    · exact ⟨0, rfl⟩
    · rename_i hlt
      by_cases hrs : rs = []
      · subst hrs
        exact absurd h hlt
      · obtain ⟨i, hi⟩ := ih hrs h
        exact ⟨i + 1, by simp [hi]⟩

theorem toInt_toInt32 (x : UInt32) :
    x.toInt32.toInt = if x.toNat < 2 ^ 31 then (x.toNat : ℤ) else x.toNat - 2 ^ 32 := by
  change x.toBitVec.toInt = _
  rw [BitVec.toInt_eq_toNat_cond]
  change (if 2 * x.toNat < 2 ^ 32 then (x.toNat : ℤ) else x.toNat - (2 ^ 32 : ℕ)) = _
  have := x.toNat_lt
  split <;> split <;> omega

/-- Whatever the sum wraps to, the draw is not above it. -/
theorem gRandomIntRange_le (sum : UInt32) (draw : ℕ) :
    gRandomIntRange (sum + 1).toInt32 draw ≤ sum := by
  have hstop := toInt_toInt32 (sum + 1)
  have hsum : (sum + 1).toNat ≤ sum.toNat + 1 := by
    rw [UInt32.toNat_add]
    exact Nat.mod_le _ _
  unfold gRandomIntRange
  split
  · rename_i hpos
    have hmod := Nat.mod_lt draw (show 0 < (sum + 1).toInt32.toInt.toNat by omega)
    rw [UInt32.le_iff_toNat_le, UInt32.toNat_ofNat']
    have hle := Nat.mod_le (draw % (sum + 1).toInt32.toInt.toNat) (2 ^ 32)
    have := (sum + 1).toNat_lt
    split at hstop <;> omega
  · exact UInt32.zero_le

theorem exists_selected (hne : records ≠ []) (draw : ℕ) :
    ∃ i, i < records.length ∧ selected draw records = some i := by
  obtain ⟨i, hi⟩ := exists_search hne (gRandomIntRange_le (addWeight 0 records).1 draw)
  exact ⟨i, by simpa [length_addWeight] using search_lt hi, hi⟩

theorem data_weightTurn {draw i : ℕ} (processed : List Record) (hi : i < (data records).length)
    (h : selected draw records = some i) :
    data (weightTurn draw (records, processed)).1 = (data records).eraseIdx i ∧
      data (weightTurn draw (records, processed)).2 = data processed ++ [(data records)[i]] := by
  have hlen : i < (addWeight 0 records).2.length := by
    simpa [length_addWeight, data] using hi
  have hget : ((addWeight 0 records).2[i]).toSrvData = (data records)[i] := by
    simpa [data] using List.getElem_of_eq (data_addWeight 0 records) (by simpa [data] using hlen)
  simp [weightTurn, h, data_eraseIdx, List.getElem?_eq_getElem hlen, hget]

theorem length_weightTurn (hne : records ≠ []) (draw : ℕ) (processed : List Record) :
    (weightTurn draw (records, processed)).1.length + 1 = records.length := by
  obtain ⟨i, hi, hsel⟩ := exists_selected hne draw
  have hdata : i < (data records).length := by simpa [data] using hi
  have h := congrArg List.length (data_weightTurn processed hdata hsel).1
  simp only [data, List.length_map, List.length_eraseIdx] at h
  rw [h]
  simp only [hi, if_true]
  omega

theorem perm_weightTurn (hne : records ≠ []) (draw : ℕ) (processed : List Record) :
    (data (weightTurn draw (records, processed)).2 ++
      data (weightTurn draw (records, processed)).1).Perm (data processed ++ data records) := by
  obtain ⟨i, hi, hsel⟩ := exists_selected hne draw
  have hdata : i < (data records).length := by simpa [data] using hi
  obtain ⟨hrest, hdone⟩ := data_weightTurn processed hdata hsel
  rw [hrest, hdone, List.append_assoc, List.singleton_append]
  exact (List.getElem_cons_eraseIdx_perm hdata).append_left _

/-! ## The loops end, and keep the records -/

theorem applyWeightSort_succ (hne : records ≠ []) (draw : ℕ → ℕ) (fuel n : ℕ)
    (processed : List Record) :
    applyWeightSort draw (fuel + 1) n (records, processed) =
      applyWeightSort draw fuel (n + 1) (weightTurn (draw n) (records, processed)) := by
  cases records with
  | nil => exact absurd rfl hne
  | cons r rs => rfl

theorem applyWeightSort_perm (draw : ℕ → ℕ) (n : ℕ) (records processed : List Record) :
    ∃ out k, (∀ fuel, records.length ≤ fuel →
      applyWeightSort draw fuel n (records, processed) = some (out, k)) ∧
      (data out).Perm (data processed ++ data records) := by
  induction hlen : records.length generalizing n records processed with
  | zero =>
    obtain rfl := List.length_eq_zero_iff.mp hlen
    refine ⟨processed, n, fun fuel _ => ?_, by simp⟩
    cases fuel <;> rfl
  | succ len ih =>
    have hne : records ≠ [] := List.ne_nil_of_length_eq_add_one hlen
    have hturn := length_weightTurn hne (draw n) processed
    obtain ⟨out, k, hrun, hperm⟩ := ih (n + 1) (weightTurn (draw n) (records, processed)).1
      (weightTurn (draw n) (records, processed)).2 (by omega)
    refine ⟨out, k, fun fuel hfuel => ?_, hperm.trans (perm_weightTurn hne (draw n) processed)⟩
    cases fuel with
    | zero => omega
    | succ fuel =>
      rw [applyWeightSort_succ hne]
      exact hrun fuel (by omega)

theorem moveGroup_eq (p : UInt16) (records tmp : List Record) :
    moveGroup p records tmp =
      (((records.takeWhile (·.priority = p)).filter (·.weight = 0)).reverse ++ tmp ++
        (records.takeWhile (·.priority = p)).filter (fun r => ¬ r.weight = 0),
      records.dropWhile (·.priority = p)) := by
  induction records generalizing tmp with
  | nil => simp [moveGroup]
  | cons r rs ih =>
    unfold moveGroup
    by_cases hp : r.priority = p
    · by_cases hw : r.weight = 0 <;> simp [hp, hw, ih]
    · simp [hp]

theorem perm_moveGroup (p : UInt16) (records : List Record) :
    ((moveGroup p records []).1).Perm (records.takeWhile (·.priority = p)) := by
  rw [moveGroup_eq]
  simp only [List.append_nil]
  refine (List.Perm.append_right _ (List.reverse_perm _)).trans ?_
  simpa using List.filter_append_perm (fun r : Record => decide (r.weight = 0))
    (records.takeWhile (·.priority = p))

def Ordered (xs : List SrvData) : Prop := xs.Pairwise fun a b => a.priority ≤ b.priority

theorem data_perm {xs ys : List Record} (h : xs.Perm ys) : (data xs).Perm (data ys) := h.map _

theorem length_moveGroup_le (p : UInt16) (records : List Record) :
    (moveGroup p records []).1.length ≤ records.length := by
  rw [(perm_moveGroup p records).length_eq]
  exact (List.takeWhile_sublist _).length_le

theorem priority_of_moveGroup {p : UInt16} {records : List Record} {d : SrvData}
    (h : d ∈ data (moveGroup p records []).1) : d.priority = p := by
  obtain ⟨r, hr, rfl⟩ := List.mem_map.mp h
  have := List.mem_takeWhile_imp ((perm_moveGroup p records).mem_iff.mp hr)
  simpa using this

theorem recordsSortLoop_spec (draw : ℕ → ℕ) (n : ℕ) (records processed : List Record)
    (hsorted : Ordered (data records)) :
    ∃ out k, (∀ fuel, records.length ≤ fuel →
      recordsSortLoop draw fuel n records processed = some (processed ++ out, k)) ∧
      (data out).Perm (data records) ∧ Ordered (data out) := by
  induction hlen : records.length using Nat.strong_induction_on generalizing n records processed with
  | _ len ih =>
    cases records with
    | nil =>
      refine ⟨[], n, fun fuel _ => ?_, .nil, .nil⟩
      cases fuel <;> simp [recordsSortLoop]
    | cons r rs =>
      set group := moveGroup r.priority (r :: rs) [] with hgroup
      have hrest : group.2 = rs.dropWhile (·.priority = r.priority) := by
        rw [hgroup, moveGroup_eq]
        simp
      have hshort : group.2.length ≤ rs.length := by
        rw [hrest]
        exact (List.dropWhile_sublist _).length_le
      have hsub : (data group.2).Sublist (data (r :: rs)) := by
        rw [hrest]
        exact ((List.dropWhile_sublist _).trans (List.sublist_cons_self r rs)).map _
      obtain ⟨tmp, k, htmp, hperm⟩ := applyWeightSort_perm draw n group.1 []
      have hfit : group.1.length ≤ rs.length + 1 := length_moveGroup_le r.priority (r :: rs)
      simp only [List.length_cons] at hlen
      obtain ⟨out, k', hout, hperm', hordered⟩ := ih group.2.length (by omega) k group.2
        (processed ++ tmp) (hsorted.sublist hsub) rfl
      refine ⟨tmp ++ out, k', fun fuel hfuel => ?_, ?_, ?_⟩
      · cases fuel with
        | zero => omega
        | succ fuel =>
          simp only [recordsSortLoop, ← hgroup, htmp (fuel + 1) (by omega), Option.bind_some,
            hout fuel (by omega), List.append_assoc]
      · rw [data_append]
        refine (hperm.append hperm').trans ?_
        have hsplit := data_perm (perm_moveGroup r.priority (r :: rs))
        have hback := List.takeWhile_append_dropWhile (p := fun x : Record =>
          decide (x.priority = r.priority)) (l := r :: rs)
        refine (hsplit.append_right _).trans ?_
        rw [hgroup, moveGroup_eq, ← data_append, hback]
      · rw [data_append]
        refine List.pairwise_append.mpr ⟨?_, hordered, ?_⟩
        · refine List.pairwise_of_forall_mem_list fun a ha b hb => ?_
          rw [priority_of_moveGroup (hperm.mem_iff.mp ha), priority_of_moveGroup (hperm.mem_iff.mp hb)]
          exact UInt16.le_refl _
        · intro a ha b hb
          have hmem := hsub.subset (hperm'.mem_iff.mp hb)
          rw [priority_of_moveGroup (hperm.mem_iff.mp ha)]
          rcases List.mem_cons.mp hmem with rfl | hin
          · exact UInt16.le_refl _
          · exact (List.pairwise_cons.mp hsorted).1 b hin

theorem perm_gListInsertSorted (r : Record) (records : List Record) :
    (gListInsertSorted r records).Perm (r :: records) := by
  induction records with
  | nil => exact .refl _
  | cons x xs ih =>
    unfold gListInsertSorted
    split
    · exact (ih.cons x).trans (List.Perm.swap r x xs)
    · exact .refl _

theorem ordered_gListInsertSorted (r : Record) {records : List Record}
    (h : Ordered (data records)) : Ordered (data (gListInsertSorted r records)) := by
  induction records with
  | nil => exact List.pairwise_singleton _ _
  | cons x xs ih =>
    obtain ⟨hx, hxs⟩ := List.pairwise_cons.mp h
    unfold gListInsertSorted dnssrvRecordPriorityCmp
    split
    · rename_i hgt
      refine List.pairwise_cons.mpr ⟨fun b hb => ?_, ih hxs⟩
      rcases List.mem_cons.mp ((data_perm (perm_gListInsertSorted r xs)).mem_iff.mp hb) with rfl | hin
      · change x.priority ≤ r.priority
        rw [UInt16.le_iff_toNat_le]
        omega
      · exact hx b hin
    · rename_i hle
      have hrx : r.priority ≤ x.priority := by
        rw [UInt16.le_iff_toNat_le]
        omega
      refine List.pairwise_cons.mpr ⟨fun b hb => ?_, h⟩
      rcases List.mem_cons.mp hb with rfl | hin
      · exact hrx
      · exact UInt16.le_trans hrx (hx b hin)

theorem addRecords_spec (rs records : List Record) (h : Ordered (data records)) :
    (rs.foldl mhDnssrvAddRecord records).Perm (rs ++ records) ∧
      Ordered (data (rs.foldl mhDnssrvAddRecord records)) := by
  induction rs generalizing records with
  | nil => exact ⟨.refl _, h⟩
  | cons r rs ih =>
    obtain ⟨hperm, hordered⟩ := ih _ (ordered_gListInsertSorted r h)
    refine ⟨hperm.trans ?_, hordered⟩
    exact ((perm_gListInsertSorted r records).append_left rs).trans List.perm_middle

/-- Sorting ends whatever is drawn and whatever the sums of the weights wrap to. It returns
the records that were added, by priority. -/
theorem recordsSort_perm_ordered (rs : List Record) (draw : ℕ → ℕ) :
    ∃ out, (∀ fuel, rs.length ≤ fuel →
        mhDnssrvRecordsSort draw fuel (rs.foldl mhDnssrvAddRecord []) = some out) ∧
      (data out).Perm (data rs) ∧ out.Pairwise fun a b => a.priority ≤ b.priority := by
  obtain ⟨hperm, hordered⟩ := addRecords_spec rs [] List.Pairwise.nil
  rw [List.append_nil] at hperm
  obtain ⟨out, k, hrun, hdata, hout⟩ := recordsSortLoop_spec draw 0 _ [] hordered
  refine ⟨out, fun fuel hfuel => ?_, hdata.trans (data_perm hperm),
    by simpa [Ordered, data, List.pairwise_map] using hout⟩
  rw [mhDnssrvRecordsSort, hrun fuel (by rwa [hperm.length_eq])]
  rfl

end
end Matahari.Dnssrv
