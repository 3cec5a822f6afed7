import Matahari.ServicesAction

set_option autoImplicit false

/-!
# The identity of an action

An action is registered under `name_action_interval`, and `services_action_cancel`
prints the same text into a buffer to look it up. Neither escapes the separator.
-/
namespace Matahari.Services
open Mainloop

/-! ## Texts joined by a separator -/

section
variable {α : Type} {c : α} {x y x' y' : List α}

/-- Two ways to cut a text at a separator agree, or the cut of one lies inside a part
of the other. -/
theorem cut_cases (h : x ++ c :: y = x' ++ c :: y') :
    x = x' ∧ y = y' ∨ (∃ t, x' = x ++ c :: t ∧ y = t ++ c :: y') ∨
      ∃ t, x = x' ++ c :: t ∧ y' = t ++ c :: y := by
  rcases List.append_eq_append_iff.mp h with ⟨t, hx, hy⟩ | ⟨t, hx, hy⟩
  · cases t with
    | nil =>
      rw [List.append_nil] at hx
      rw [List.nil_append, List.cons_inj_right] at hy
      exact .inl ⟨hx.symm, hy⟩
    | cons d t =>
      rw [List.cons_append, List.cons.injEq] at hy
      obtain ⟨rfl, hy⟩ := hy
      exact .inr (.inl ⟨t, hx, hy⟩)
  · cases t with
    | nil =>
      rw [List.append_nil] at hx
      rw [List.nil_append, List.cons_inj_right] at hy
      exact .inl ⟨hx, hy.symm⟩
    | cons d t =>
      rw [List.cons_append, List.cons.injEq] at hy
      obtain ⟨rfl, hy⟩ := hy
      exact .inr (.inr ⟨t, hx, hy⟩)

/-- The last separator cuts off a part without one. -/
theorem last_cut (hy : c ∉ y) (hy' : c ∉ y') (h : x ++ c :: y = x' ++ c :: y') :
    x = x' ∧ y = y' := by
  rcases cut_cases h with heq | ⟨t, -, rfl⟩ | ⟨t, -, rfl⟩
  · exact heq
  · exact absurd (List.mem_append_right t List.mem_cons_self) hy
  · exact absurd (List.mem_append_right t List.mem_cons_self) hy'

theorem mem_tail_of_cut {t : List α} (hx : x ≠ []) : c ∈ (x ++ c :: t).tail := by
  rw [List.tail_append_of_ne_nil hx]
  exact List.mem_append_right _ List.mem_cons_self

theorem mem_dropLast_of_cut {t : List α} (hy : y ≠ []) : c ∈ (t ++ c :: y).dropLast := by
  rw [List.dropLast_append_cons, List.dropLast_cons_of_ne_nil hy]
  exact List.mem_append_right _ List.mem_cons_self

end

/-! ## The printed interval -/

theorem notMem_decimal {c : Char} (hdigit : c.isDigit = false) (hsign : c ≠ '-') (i : ℤ) :
    c ∉ decimal i := by
  have hdigits : c ∉ Nat.toDigits 10 i.natAbs := by
    intro hmem
    rw [Nat.isDigit_of_mem_toDigits (by decide) (by decide) hmem] at hdigit
    cases hdigit
  unfold decimal
  split
  · rw [List.mem_cons, not_or]
    exact ⟨hsign, hdigits⟩
  · exact hdigits

theorem underscore_notMem_decimal (i : ℤ) : '_' ∉ decimal i :=
  notMem_decimal (by decide) (by decide) i

theorem toDigits_inj {m n : ℕ} (h : Nat.toDigits 10 m = Nat.toDigits 10 n) : m = n := by
  have hread := congrArg (fun ds => Nat.ofDigitChars 10 ds 0) h
  simpa only [Nat.ofDigitChars_ten_toDigits] using hread

theorem toDigits_ne_minus (m n : ℕ) : Nat.toDigits 10 m ≠ '-' :: Nat.toDigits 10 n := by
  intro h
  have hmem : '-' ∈ Nat.toDigits 10 m := by
    rw [h]
    exact List.mem_cons_self
  have hdigit := Nat.isDigit_of_mem_toDigits (by decide) (by decide) hmem
  exact absurd hdigit (by decide)

theorem decimal_inj {i j : ℤ} (h : decimal i = decimal j) : i = j := by
  unfold decimal at h
  split at h
  · split at h
    · rw [List.cons_inj_right] at h
      have := toDigits_inj h
      omega
    · exact absurd h.symm (toDigits_ne_minus _ _)
  · split at h
    · exact absurd h (toDigits_ne_minus _ _)
    · have := toDigits_inj h
      omega

/-! ## Which keys identify their action -/

theorem actionId_eq (n a : Text) (i : ℤ) : actionId n a i = (n ++ '_' :: a) ++ '_' :: decimal i := by
  simp only [actionId, List.append_assoc, List.cons_append]

/-- The interval can be read back from an id, and so can the text before it. -/
theorem actionId_inj {n a n' a' : Text} {i i' : ℤ} (h : actionId n a i = actionId n' a' i') :
    n ++ '_' :: a = n' ++ '_' :: a' ∧ i = i' := by
  rw [actionId_eq, actionId_eq] at h
  obtain ⟨hjoin, hdecimal⟩ :=
    last_cut (underscore_notMem_decimal i) (underscore_notMem_decimal i') h
  exact ⟨hjoin, decimal_inj hdecimal⟩

/-- The key looked up for these arguments is the id of this action and of no other. -/
def Identifies (n a : Text) (i : ℤ) : Prop :=
  ∀ n' a' i', n' ≠ [] → a' ≠ [] → (cancelId n a i = actionId n' a' i' ↔ n = n' ∧ a = a' ∧ i = i')

theorem Identifies.short {n a : Text} {i : ℤ} (hn : n ≠ []) (ha : a ≠ [])
    (h : Identifies n a i) : (actionId n a i).length < 512 := by
  have hkey := (h n a i hn ha).mpr ⟨rfl, rfl, rfl⟩
  have hlen := congrArg List.length hkey
  rw [cancelId, List.length_take] at hlen
  omega

theorem Identifies.cut {n a : Text} {i : ℤ} (hn : n ≠ []) (ha : a ≠ [])
    (h : Identifies n a i) (n' a' : Text) (hn' : n' ≠ []) (ha' : a' ≠ [])
    (hjoin : n ++ '_' :: a = n' ++ '_' :: a') : n = n' ∧ a = a' := by
  have hkey : cancelId n a i = actionId n' a' i := by
    rw [cancelId_of_short (h.short hn ha), actionId_eq, hjoin, actionId_eq]
  obtain ⟨hnn, haa, -⟩ := (h n' a' i hn' ha').mp hkey
  exact ⟨hnn, haa⟩

theorem Identifies.name {n a : Text} {i : ℤ} (hn : n ≠ []) (ha : a ≠ [])
    (h : Identifies n a i) : '_' ∉ n.tail := by
  intro hmem
  obtain ⟨p, q, hpq⟩ := List.append_of_mem hmem
  obtain ⟨c, t, rfl⟩ := List.exists_cons_of_ne_nil hn
  obtain rfl : t = p ++ '_' :: q := hpq
  have hcut := h.cut hn ha (c :: p) (q ++ '_' :: a) (by simp) (by simp) (by simp)
  have hlen := congrArg List.length hcut.1
  simp at hlen

theorem Identifies.action {n a : Text} {i : ℤ} (hn : n ≠ []) (ha : a ≠ [])
    (h : Identifies n a i) : '_' ∉ a.dropLast := by
  intro hmem
  obtain ⟨p, q, hpq⟩ := List.append_of_mem hmem
  have hlast : a = p ++ '_' :: q ++ [a.getLast ha] := by
    rw [← hpq]
    exact (List.dropLast_append_getLast ha).symm
  have hjoin : n ++ '_' :: a = (n ++ '_' :: p) ++ '_' :: (q ++ [a.getLast ha]) := by
    conv_lhs => rw [hlast]
    simp
  have hcut := h.cut hn ha _ _ (by simp) (by simp) hjoin
  have hlen := congrArg List.length hcut.1
  simp at hlen

/-- The key identifies the action if it fits into the buffer and no underscore of the
two names but the one between them has text on both sides. -/
theorem identifies_iff (n a : Text) (i : ℤ) (hn : n ≠ []) (ha : a ≠ []) :
    Identifies n a i ↔
      (actionId n a i).length < 512 ∧ '_' ∉ n.tail ∧ '_' ∉ a.dropLast := by
  constructor
  · intro h
    exact ⟨h.short hn ha, h.name hn ha, h.action hn ha⟩
  · rintro ⟨hshort, hname, haction⟩ n' a' i' hn' ha'
    rw [cancelId_of_short hshort]
    constructor
    · intro h
      obtain ⟨hjoin, hi⟩ := actionId_inj h
      rcases cut_cases hjoin with ⟨hnn, haa⟩ | ⟨t, -, rfl⟩ | ⟨t, rfl, -⟩
      · exact ⟨hnn, haa, hi⟩
      · exact absurd (mem_dropLast_of_cut ha') haction
      · exact absurd (mem_tail_of_cut hn') hname
    · rintro ⟨rfl, rfl, rfl⟩
      rfl

theorem identifies_httpd :
    "httpd".toList ≠ [] ∧ "monitor".toList ≠ [] ∧
    (Identifies "httpd".toList "monitor".toList 10 ↔
      (actionId "httpd".toList "monitor".toList 10).length < 512 ∧
        '_' ∉ "httpd".toList.tail ∧ '_' ∉ "monitor".toList.dropLast) :=
  ⟨by decide, by decide, identifies_iff _ _ 10 (by decide) (by decide)⟩

/-- Cancelling `b_c` of `a` finds `c` of `a_b`, and the key of a name of 512 letters is
cut short. -/
theorem identity_confused :
    (cancelId "a".toList "b_c".toList 10 = actionId "a_b".toList "c".toList 10 ∧
      "a".toList ≠ "a_b".toList) ∧
    cancelId (List.replicate 512 'a') "b".toList 10 ≠
      actionId (List.replicate 512 'a') "b".toList 10 := by
  refine ⟨⟨by decide, by decide⟩, ?_⟩
  intro h
  have hlen := congrArg List.length h
  rw [cancelId, List.length_take] at hlen
  simp only [actionId, List.length_append, List.length_replicate] at hlen
  omega

end Matahari.Services
