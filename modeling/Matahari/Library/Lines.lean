import Mathlib

set_option autoImplicit false

/-!
# Searching a text that has lines

`strchr` and `strstr` search a list from an offset on and give the offset that they find.
A text is a line and then, each after a separator, the other lines; a search for something
without separators stays in a line if it succeeds there.
-/
namespace Lines

/-- The lines after the first, each with the separator before it. -/
def following {α : Type} (nl : α) (ls : List (List α)) : List α := ls.flatMap (nl :: ·)

def unlines {α : Type} (nl : α) (ls : List (List α)) : List α := ls.flatMap (· ++ [nl])

theorem length_following {α : Type} (nl : α) (ls : List (List α)) :
    ls.length ≤ (following nl ls).length := by
  induction ls with
  | nil => exact Nat.le_refl 0
  | cons l ls ih =>
    rw [following] at ih ⊢
    rw [List.flatMap_cons, List.length_append, List.length_cons, List.length_cons]
    omega

theorem length_unlines {α : Type} (nl : α) (ls : List (List α)) :
    ls.length ≤ (unlines nl ls).length := by
  induction ls with
  | nil => exact Nat.le_refl 0
  | cons l ls ih =>
    rw [unlines] at ih ⊢
    rw [List.flatMap_cons, List.length_append, List.length_append, List.length_singleton,
      List.length_cons]
    omega

variable {α : Type} [DecidableEq α]

def strchr (c : α) (s : List α) (i : ℕ) : Option ℕ :=
  ((s.drop i).findIdx? (· = c)).map (i + ·)

/-- Where `needle` begins for the first time. -/
def infixIdx (needle : List α) : List α → Option ℕ
  | [] => if needle = [] then some 0 else none
  | c :: s => if needle.isPrefixOf (c :: s) then some 0 else (infixIdx needle s).map (· + 1)

def strstr (needle s : List α) (i : ℕ) : Option ℕ := (infixIdx needle (s.drop i)).map (i + ·)

section
variable {nl : α} {needle line rest done : List α}

theorem splitOn_eq (nl : α) (s : List α) : ∃ l ls, s.splitOn nl = l :: ls ∧
    s = l ++ following nl ls ∧ ∀ x ∈ l :: ls, nl ∉ x := by
  induction hn : s.length using Nat.strong_induction_on generalizing s with
  | _ n ih =>
    by_cases hs : nl ∈ s
    · obtain ⟨l, rest, rfl, hl⟩ := List.eq_append_cons_of_mem hs
      have hlt : rest.length < n := by
        rw [List.length_append, List.length_cons] at hn
        omega
      obtain ⟨m, ls, hsplit, hrest, hno⟩ := ih rest.length hlt rest rfl
      refine ⟨l, m :: ls, ?_, ?_, ?_⟩
      · rw [List.splitOn_append_cons_self_of_not_mem hl, hsplit]
      · rw [following, List.flatMap_cons, List.cons_append, ← following, ← hrest]
      · exact List.forall_mem_cons.mpr ⟨hl, hno⟩
    · refine ⟨s, [], List.splitOn_eq_singleton hs, (List.append_nil s).symm, ?_⟩
      exact List.forall_mem_singleton.mpr hs

theorem takeWhile_following (hline : nl ∉ line) (ls : List (List α)) :
    (line ++ following nl ls).takeWhile (· ≠ nl) = line := by
  rw [List.takeWhile_append_of_pos]
  · cases ls with
    | nil => exact List.append_nil line
    | cons l ls => simp [following]
  · intro c hc
    exact decide_eq_true fun heq => hline (heq ▸ hc)

theorem following_inj {ls ls' : List (List α)} (h : ∀ l ∈ ls, nl ∉ l) (h' : ∀ l ∈ ls', nl ∉ l)
    (heq : following nl ls = following nl ls') : ls = ls' := by
  induction ls generalizing ls' with
  | nil =>
    cases ls' with
    | nil => rfl
    | cons => exact absurd heq (List.cons_ne_nil _ _).symm
  | cons l ls ih =>
    cases ls' with
    | nil => exact absurd heq (List.cons_ne_nil _ _)
    | cons l' ls' =>
      obtain ⟨hl, hls⟩ := List.forall_mem_cons.mp h
      obtain ⟨hl', hls'⟩ := List.forall_mem_cons.mp h'
      have htail : l ++ following nl ls = l' ++ following nl ls' :=
        List.tail_eq_of_cons_eq heq
      have hhead : l = l' := by
        rw [← takeWhile_following hl ls, htail, takeWhile_following hl' ls']
      subst hhead
      rw [ih hls hls' (List.append_cancel_left htail)]

theorem strchr_append (hline : nl ∉ line) :
    strchr nl (done ++ (line ++ nl :: rest)) done.length = some (done.length + line.length) := by
  have hidx : (line ++ nl :: rest).findIdx? (· = nl) = some line.length := by
    rw [List.findIdx?_append, List.findIdx?_eq_none_iff.mpr]
    · simp [List.findIdx?_cons]
    · intro x hx
      exact decide_eq_false fun heq => hline (heq ▸ hx)
  rw [strchr, List.drop_left, hidx, Option.map_some]

theorem strchr_eq_none (hline : nl ∉ line) : strchr nl (done ++ line) done.length = none := by
  rw [strchr, List.drop_left, Option.map_eq_none_iff, List.findIdx?_eq_none_iff]
  intro x hx
  exact decide_eq_false fun heq => hline (heq ▸ hx)

theorem strstr_append (needle done rest : List α) :
    strstr needle (done ++ rest) done.length = (infixIdx needle rest).map (done.length + ·) := by
  rw [strstr, List.drop_left]

theorem isPrefixOf_append_cons (hneedle : nl ∉ needle) (line rest : List α) :
    needle.isPrefixOf (line ++ nl :: rest) = needle.isPrefixOf line := by
  induction needle generalizing line with
  | nil => simp
  | cons c needle ih =>
    rw [List.mem_cons, not_or] at hneedle
    cases line with
    | nil =>
      have hc : (c == nl) = false := beq_eq_false_iff_ne.mpr (Ne.symm hneedle.1)
      change ((c == nl) && needle.isPrefixOf rest) = false
      rw [hc, Bool.false_and]
    | cons d line =>
      rw [List.cons_append, List.isPrefixOf, List.isPrefixOf, ih hneedle.2]

/-- A search that fails in the line goes on after it. -/
theorem infixIdx_append_cons (hneedle : nl ∉ needle) (hne : needle ≠ []) (line rest : List α) :
    infixIdx needle (line ++ nl :: rest) =
      (infixIdx needle line).or ((infixIdx needle rest).map (line.length + 1 + ·)) := by
  induction line with
  | nil =>
    have hpre := isPrefixOf_append_cons hneedle [] rest
    rw [List.nil_append] at hpre ⊢
    have hno : needle.isPrefixOf ([] : List α) = false := by
      cases needle with
      | nil => exact absurd rfl hne
      | cons => rfl
    rw [hno] at hpre
    simp only [infixIdx, hpre, if_neg hne, Bool.false_eq_true, if_false, Option.none_or]
    congr 1
    funext k
    simp only [List.length_nil]
    omega
  | cons d line ih =>
    have hpre := isPrefixOf_append_cons hneedle (d :: line) rest
    rw [List.cons_append] at hpre ⊢
    rw [infixIdx, hpre, ih, infixIdx]
    split
    · rfl
    · rw [Option.map_or, Option.map_map]
      congr 2
      funext k
      simp only [Function.comp_apply, List.length_cons]
      omega

theorem infixIdx_le {s : List α} {k : ℕ} (h : infixIdx needle s = some k) : k ≤ s.length := by
  induction s generalizing k with
  | nil =>
    rw [infixIdx] at h
    split at h <;> cases h
    exact Nat.le_refl 0
  | cons c s ih =>
    rw [infixIdx] at h
    split at h
    · cases h
      exact Nat.zero_le _
    · obtain ⟨j, hj, rfl⟩ := Option.map_eq_some_iff.mp h
      have := ih hj
      rw [List.length_cons]
      omega

end
end Lines
