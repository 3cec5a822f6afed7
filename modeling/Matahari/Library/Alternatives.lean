import Mathlib.Data.List.Basic
import Mathlib.Data.Sum.Basic

set_option autoImplicit false

/-!
# Alternatives that are tried in turn

An alternative answers or declines, and may change the state in both cases. The first answer
counts; where there is none, the reasons for declining are what is left.
-/
namespace Alternatives

variable {α σ ρ φ : Type} (attempt : α → σ → (ρ ⊕ φ) × σ)

def firstOf : List α → List φ → σ → (ρ ⊕ List φ) × σ
  | [], reasons, s => (.inr reasons, s)
  | a :: alts, reasons, s => match attempt a s with
    | (.inl r, s) => (.inl r, s)
    | (.inr f, s) => firstOf alts (reasons ++ [f]) s

/-- The alternative declines in every state, for the same reason and without an effect. -/
def Declines (f : φ) (a : α) : Prop := ∀ s, attempt a s = (.inr f, s)

/-- At most one of the two does anything. -/
def Apart (a b : α) : Prop := (∃ f, Declines attempt f a) ∨ ∃ f, Declines attempt f b

def Same (x y : (ρ ⊕ List φ) × σ) : Prop :=
  Sum.LiftRel Eq List.Perm x.1 y.1 ∧ x.2 = y.2

variable {attempt}

theorem Apart.symm {a b : α} (h : Apart attempt a b) : Apart attempt b a := Or.symm h

theorem Same.trans {x y z : (ρ ⊕ List φ) × σ} (hxy : Same x y) (hyz : Same y z) : Same x z := by
  obtain ⟨x, s⟩ := x
  obtain ⟨y, t⟩ := y
  obtain ⟨z, u⟩ := z
  refine ⟨?_, hxy.2.trans hyz.2⟩
  cases hxy.1 with
  | inl h =>
    cases hyz.1 with
    | inl h' => exact .inl (h.trans h')
  | inr h =>
    cases hyz.1 with
    | inr h' => exact .inr (h.trans h')

theorem Same.symm {x y : (ρ ⊕ List φ) × σ} (h : Same x y) : Same y x := by
  obtain ⟨x, s⟩ := x
  obtain ⟨y, t⟩ := y
  refine ⟨?_, h.2.symm⟩
  cases h.1 with
  | inl heq => exact .inl (Eq.symm heq)
  | inr hperm => exact .inr (List.Perm.symm hperm)

theorem firstOf_cons_of_declines {f : φ} {a : α} (h : Declines attempt f a) (alts : List α)
    (reasons : List φ) (s : σ) :
    firstOf attempt (a :: alts) reasons s = firstOf attempt alts (reasons ++ [f]) s := by
  rw [firstOf, h s]

theorem firstOf_cons_of_answers {r : ρ} {a : α} {s t : σ} (h : attempt a s = (.inl r, t))
    (alts : List α) (reasons : List φ) : firstOf attempt (a :: alts) reasons s = (.inl r, t) := by
  rw [firstOf, h]

/-- The alternatives that decline before another one only add their reasons. -/
theorem firstOf_append {alts : List α} {fs : List φ} (h : List.Forall₂ (Declines attempt) fs alts)
    (rest : List α) (reasons : List φ) (s : σ) :
    firstOf attempt (alts ++ rest) reasons s = firstOf attempt rest (reasons ++ fs) s := by
  induction h generalizing reasons with
  | nil => rw [List.nil_append, List.append_nil]
  | cons hf _ ih =>
    rw [List.cons_append, firstOf_cons_of_declines hf, ih, List.append_assoc]
    rfl

/-- The reasons that are there before do not matter for what follows. -/
theorem firstOf_reasons (alts : List α) {reasons reasons' : List φ} (h : reasons.Perm reasons')
    (s : σ) : Same (firstOf attempt alts reasons s) (firstOf attempt alts reasons' s) := by
  induction alts generalizing reasons reasons' s with
  | nil => exact ⟨.inr h, rfl⟩
  | cons a alts ih =>
    unfold firstOf
    cases attempt a s with
    | mk outcome t =>
      cases outcome with
      | inl r => exact ⟨.inl rfl, rfl⟩
      | inr f => exact ih (h.append_right [f]) t

theorem firstOf_swap_of_declines {f : φ} {a : α} (h : Declines attempt f a) (b : α)
    (alts : List α) (reasons : List φ) (s : σ) :
    Same (firstOf attempt (a :: b :: alts) reasons s)
      (firstOf attempt (b :: a :: alts) reasons s) := by
  rw [firstOf_cons_of_declines h]
  unfold firstOf
  cases attempt b s with
  | mk outcome t =>
    cases outcome with
    | inl r => exact ⟨.inl rfl, rfl⟩
    | inr g =>
      dsimp only
      rw [firstOf_cons_of_declines h]
      apply firstOf_reasons
      rw [List.append_assoc, List.append_assoc]
      exact (List.Perm.swap g f []).append_left reasons

/-- The order does not matter where no two alternatives do something. -/
theorem firstOf_perm {alts alts' : List α} (hperm : alts.Perm alts')
    (hapart : alts.Pairwise (Apart attempt)) (reasons : List φ) (s : σ) :
    Same (firstOf attempt alts reasons s) (firstOf attempt alts' reasons s) := by
  induction hperm generalizing reasons s with
  | nil => exact firstOf_reasons [] (.refl _) s
  | cons a hperm ih =>
    unfold firstOf
    cases attempt a s with
    | mk outcome t =>
      cases outcome with
      | inl r => exact ⟨.inl rfl, rfl⟩
      | inr f => exact ih (List.pairwise_cons.mp hapart).2 (reasons ++ [f]) t
  | swap a b alts =>
    have hba : Apart attempt b a := (List.pairwise_cons.mp hapart).1 a List.mem_cons_self
    rcases hba with ⟨f, hb⟩ | ⟨f, ha⟩
    · exact firstOf_swap_of_declines hb a alts reasons s
    · exact (firstOf_swap_of_declines ha b alts reasons s).symm
  | trans hperm _ ih ih' =>
    have hmid := hperm.pairwise hapart fun h => h.symm
    exact (ih hapart reasons s).trans (ih' hmid reasons s)

end Alternatives
