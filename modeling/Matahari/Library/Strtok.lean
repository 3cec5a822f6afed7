import Mathlib

set_option autoImplicit false

/-!
# Tokens of a buffer that is cut up in place

`strtok` of the C library over any alphabet with a terminator `z`. A call returns
the buffer, the position to go on from, and the offset of the token; it writes a
terminator over the separator that ends the token. `tokens` is the specification: the
maximal runs without separators, each with its offset.
-/
namespace Strtok

variable {α : Type} (sep : α → Bool)

/-- The tokens from offset `o` on, given the token that is being read. -/
def tokensFrom : ℕ → Option (ℕ × List α) → List α → List (ℕ × List α)
  | _, current, [] => current.toList
  | o, none, c :: cs =>
    if sep c then tokensFrom (o + 1) none cs else tokensFrom (o + 1) (some (o, [c])) cs
  | o, some (b, t), c :: cs =>
    if sep c then (b, t) :: tokensFrom (o + 1) none cs
    else tokensFrom (o + 1) (some (b, t ++ [c])) cs

def tokens (o : ℕ) (s : List α) : List (ℕ × List α) := tokensFrom sep o none s

variable {sep}

theorem tokensFrom_word {o b : ℕ} {t word : List α} (h : ∀ c ∈ word, sep c = false) (s : List α) :
    tokensFrom sep o (some (b, t)) (word ++ s) =
      tokensFrom sep (o + word.length) (some (b, t ++ word)) s := by
  induction word generalizing o t with
  | nil => simp
  | cons c word ih =>
    rw [List.forall_mem_cons] at h
    have hrec := @ih (o + 1) (t ++ [c]) h.2
    rw [List.cons_append, tokensFrom, h.1]
    simpa [Nat.add_comm 1, Nat.add_assoc] using hrec

theorem tokens_skip {o : ℕ} {skip : List α} (h : ∀ c ∈ skip, sep c = true) (s : List α) :
    tokens sep o (skip ++ s) = tokens sep (o + skip.length) s := by
  induction skip generalizing o with
  | nil => rfl
  | cons c skip ih =>
    rw [List.forall_mem_cons] at h
    have hrec := @ih (o + 1) h.2
    rw [tokens] at hrec ⊢
    rw [List.cons_append, tokensFrom, h.1]
    simpa [tokens, Nat.add_comm 1, Nat.add_assoc] using hrec

theorem tokens_word {o : ℕ} {word : List α} (hne : word ≠ []) (h : ∀ c ∈ word, sep c = false)
    (s : List α) :
    tokens sep o (word ++ s) = tokensFrom sep (o + word.length) (some (o, word)) s := by
  cases word with
  | nil => exact absurd rfl hne
  | cons c word =>
    rw [List.forall_mem_cons] at h
    have hrec := tokensFrom_word (t := [c]) (o := o + 1) (b := o) h.2 s
    rw [tokens, List.cons_append, tokensFrom, h.1]
    simpa [Nat.add_comm 1, Nat.add_assoc] using hrec

theorem tokensFrom_text {o b : ℕ} {t : List α} (ht : t ≠ []) (s : List α) :
    ((tokensFrom sep o none s).map Prod.snd = (s.splitOnP sep).filter (· ≠ [])) ∧
    ((tokensFrom sep o (some (b, t)) s).map Prod.snd =
      ((s.splitOnP sep).modifyHead (t ++ ·)).filter (· ≠ [])) := by
  induction s generalizing o b t with
  | nil => simp [tokensFrom, ht]
  | cons c s ih =>
    simp only [tokensFrom, List.splitOnP_cons_eq_if_modifyHead]
    have hmodify : ((s.splitOnP sep).modifyHead (c :: ·)).modifyHead (t ++ ·) =
        (s.splitOnP sep).modifyHead (t ++ [c] ++ ·) := by
      rw [List.modifyHead_modifyHead]
      congr 1
      funext u
      simp
    cases sep c with
    | true =>
      have hnone := (@ih (o + 1) b t ht).1
      simp [hnone, ht]
    | false =>
      have hfirst := (@ih (o + 1) o [c] (by simp)).2
      have hmore := (@ih (o + 1) b (t ++ [c]) (by simp)).2
      simp only [Bool.false_eq_true, if_false, hmodify]
      exact ⟨by simpa using hfirst, hmore⟩

/-- The tokens are the pieces between separators that are not empty. -/
theorem tokens_text (o : ℕ) (s : List α) :
    (tokens sep o s).map Prod.snd = (s.splitOnP sep).filter (· ≠ []) := by
  cases s with
  | nil => rfl
  | cons c s => exact (tokensFrom_text (b := 0) (List.cons_ne_nil c []) (c :: s)).1

theorem tokensFrom_nonempty {o : ℕ} {current : Option (ℕ × List α)}
    (hcurrent : ∀ x ∈ current, x.2 ≠ [] ∧ ∀ c ∈ x.2, sep c = false) {s : List α} {x : ℕ × List α}
    (h : x ∈ tokensFrom sep o current s) : x.2 ≠ [] ∧ ∀ c ∈ x.2, sep c = false := by
  induction s generalizing o current with
  | nil => exact hcurrent x (Option.mem_toList.mp h)
  | cons c s ih =>
    rcases current with _ | ⟨b, t⟩
    · rw [tokensFrom] at h
      split at h
      · exact ih (by simp) h
      · rename_i hc
        exact ih (by simpa using hc) h
    · obtain ⟨-, hword⟩ := hcurrent (b, t) rfl
      rw [tokensFrom] at h
      split at h
      · rcases List.mem_cons.mp h with rfl | hin
        · exact hcurrent (b, t) rfl
        · exact ih (by simp) hin
      · rename_i hc
        refine ih (fun y hy => ?_) h
        obtain rfl : (b, t ++ [c]) = y := Option.some.inj hy
        refine ⟨by simp, fun d hd => ?_⟩
        rcases List.mem_append.mp hd with hold | hnew
        · exact hword d hold
        · rw [List.mem_singleton.mp hnew]
          exact Bool.not_eq_true _ ▸ hc

theorem tokens_nonempty {o : ℕ} {s : List α} {x : ℕ × List α} (h : x ∈ tokens sep o s) :
    x.2 ≠ [] ∧ ∀ c ∈ x.2, sep c = false :=
  tokensFrom_nonempty (by simp) h

theorem tokensFrom_offset {o b : ℕ} {t : List α} {current : Option (ℕ × List α)} {s : List α}
    (h : (b, t) ∈ tokensFrom sep o current s) : o ≤ b ∨ ∃ u, current = some (b, u) := by
  induction s generalizing o current with
  | nil =>
    obtain rfl : current = some (b, t) := by simpa [tokensFrom] using h
    exact .inr ⟨t, rfl⟩
  | cons c s ih =>
    rcases current with _ | ⟨b', t'⟩
    · rw [tokensFrom] at h
      split at h
      · rcases ih h with hle | ⟨u, hu⟩
        · exact .inl (by omega)
        · cases hu
      · rcases ih h with hle | ⟨u, hu⟩
        · exact .inl (by omega)
        · cases hu
          exact .inl (le_refl _)
    · rw [tokensFrom] at h
      split at h
      · rcases List.mem_cons.mp h with heq | hin
        · cases heq
          exact .inr ⟨_, rfl⟩
        · rcases ih hin with hle | ⟨u, hu⟩
          · exact .inl (by omega)
          · cases hu
      · rcases ih h with hle | ⟨u, hu⟩
        · exact .inl (by omega)
        · cases hu
          exact .inr ⟨_, rfl⟩

theorem tokens_offset {o b : ℕ} {t s : List α} (h : (b, t) ∈ tokens sep o s) : o ≤ b := by
  rcases tokensFrom_offset h with hle | ⟨u, hu⟩
  · exact hle
  · cases hu

/-- A string has no token, or it starts with separators and a token, after which it ends
or goes on with a separator. -/
theorem tokens_cases (sep : α → Bool) (s : List α) :
    (∀ c ∈ s, sep c = true) ∨
    ∃ skip word, (∀ c ∈ skip, sep c = true) ∧ word ≠ [] ∧ (∀ c ∈ word, sep c = false) ∧
      (s = skip ++ word ∨ ∃ d rest, sep d = true ∧ s = skip ++ word ++ d :: rest) := by
  by_cases hall : s.dropWhile sep = []
  · exact .inl (List.dropWhile_eq_nil_iff.mp hall)
  · refine .inr ⟨s.takeWhile sep, (s.dropWhile sep).takeWhile (! sep ·), ?_, ?_, ?_, ?_⟩
    · intro c hc
      exact List.mem_takeWhile_imp hc
    · cases hw : s.dropWhile sep with
      | nil => exact absurd hw hall
      | cons c cs =>
        have hc : sep c = false := by
          have := List.head_dropWhile_not sep (l := s) (by simp [hw])
          simpa [hw] using this
        simp [hc]
    · intro c hc
      simpa using List.mem_takeWhile_imp hc
    · cases hr : (s.dropWhile sep).dropWhile (! sep ·) with
      | nil =>
        left
        have hsplit := List.takeWhile_append_dropWhile (p := (! sep ·)) (l := s.dropWhile sep)
        rw [hr, List.append_nil] at hsplit
        rw [hsplit, List.takeWhile_append_dropWhile]
      | cons d rest =>
        right
        have hd : sep d = true := by
          have := List.head_dropWhile_not (! sep ·) (l := s.dropWhile sep) (by simp [hr])
          simpa [hr] using this
        have hsplit := List.takeWhile_append_dropWhile (p := (! sep ·)) (l := s.dropWhile sep)
        rw [hr] at hsplit
        exact ⟨d, rest, hd, by rw [List.append_assoc, hsplit, List.takeWhile_append_dropWhile]⟩

theorem takeWhile_skip_word {skip word : List α} (hskip : ∀ c ∈ skip, sep c = true) (hne : word ≠ [])
    (hword : ∀ c ∈ word, sep c = false) (s : List α) :
    (skip ++ (word ++ s)).takeWhile sep = skip ∧
      (skip ++ (word ++ s)).dropWhile sep = word ++ s := by
  cases word with
  | nil => exact absurd rfl hne
  | cons c word =>
    have hc : sep c = false := hword c (by simp)
    rw [List.takeWhile_append_of_pos hskip, List.dropWhile_append_of_pos hskip]
    simp [hc]

/-! ## What a call does -/

section
variable [DecidableEq α] (z : α) (sep)

def stringAt (buffer : List α) (pos : ℕ) : List α := (buffer.drop pos).takeWhile (· ≠ z)

def strtok (buffer : List α) (start : ℕ) : List α × ℕ × Option ℕ :=
  let s := stringAt z buffer start
  let token := start + (s.takeWhile sep).length
  let word := s.dropWhile sep
  let stop := token + (word.takeWhile (! sep ·)).length
  if word = [] then (buffer, token, none)
  else if word.dropWhile (! sep ·) = [] then (buffer, stop, some token)
  else (buffer.set stop z, stop + 1, some token)

variable {z sep}
variable (pre post : List α) {skip word more : List α} {d : α}

theorem stringAt_append {s : List α} (h : z ∉ s) :
    stringAt z (pre ++ (s ++ z :: post)) pre.length = s := by
  unfold stringAt
  rw [List.drop_left, List.takeWhile_append_of_pos]
  · simp
  · intro c hc
    simpa using fun heq : c = z => h (heq ▸ hc)

theorem strtok_none (hskip : ∀ c ∈ skip, sep c = true) (hz : z ∉ skip) :
    strtok sep z (pre ++ (skip ++ z :: post)) pre.length =
      (pre ++ (skip ++ z :: post), pre.length + skip.length, none) := by
  unfold strtok
  rw [stringAt_append pre _ hz]
  have htake : skip.takeWhile sep = skip := List.takeWhile_eq_self_iff.mpr hskip
  have hdrop : skip.dropWhile sep = [] := List.dropWhile_eq_nil_iff.mpr hskip
  simp [htake, hdrop]

theorem strtok_last (hskip : ∀ c ∈ skip, sep c = true) (hne : word ≠ [])
    (hword : ∀ c ∈ word, sep c = false) (hz : z ∉ skip ++ word) :
    strtok sep z (pre ++ (skip ++ word ++ z :: post)) pre.length =
      (pre ++ (skip ++ word ++ z :: post), pre.length + skip.length + word.length,
        some (pre.length + skip.length)) := by
  obtain ⟨htake, hdrop⟩ := takeWhile_skip_word hskip hne hword []
  simp only [List.append_nil] at htake hdrop
  have hall : word.takeWhile (! sep ·) = word :=
    List.takeWhile_eq_self_iff.mpr fun c hc => by simp [hword c hc]
  have hend : word.dropWhile (! sep ·) = [] :=
    List.dropWhile_eq_nil_iff.mpr fun c hc => by simp [hword c hc]
  unfold strtok
  rw [stringAt_append pre _ hz]
  simp only [htake, hdrop, hall, hend, hne, if_false, if_true]

theorem strtok_cut (hskip : ∀ c ∈ skip, sep c = true) (hne : word ≠ [])
    (hword : ∀ c ∈ word, sep c = false) (hd : sep d = true)
    (hz : z ∉ skip ++ word ++ d :: more) :
    strtok sep z (pre ++ (skip ++ word ++ d :: more ++ z :: post)) pre.length =
      (pre ++ (skip ++ word ++ z :: (more ++ z :: post)),
        pre.length + skip.length + word.length + 1, some (pre.length + skip.length)) := by
  obtain ⟨htake, hdrop⟩ := takeWhile_skip_word hskip hne hword (d :: more)
  rw [← List.append_assoc] at htake hdrop
  have hword' : ∀ c ∈ word, (! sep c) = true := fun c hc => by simp [hword c hc]
  have hall : (word ++ d :: more).takeWhile (! sep ·) = word := by
    rw [List.takeWhile_append_of_pos hword']
    simp [hd]
  have hrest : (word ++ d :: more).dropWhile (! sep ·) = d :: more := by
    rw [List.dropWhile_append_of_pos hword']
    simp [hd]
  unfold strtok
  rw [stringAt_append pre _ hz]
  have hset : (pre ++ (skip ++ word ++ d :: more ++ z :: post)).set
      (pre.length + skip.length + word.length) z =
        pre ++ (skip ++ word ++ z :: (more ++ z :: post)) := by
    rw [show pre ++ (skip ++ word ++ d :: more ++ z :: post) =
        (pre ++ skip ++ word) ++ d :: (more ++ z :: post) by simp,
      show pre.length + skip.length + word.length = (pre ++ skip ++ word).length by simp; omega,
      List.set_append_right _ _ (le_refl _)]
    simp
  have hmore : word ++ d :: more ≠ [] := by simp
  simp only [htake, hdrop, hall, hrest, hset, hmore, reduceCtorEq, if_false]

end
end Strtok
