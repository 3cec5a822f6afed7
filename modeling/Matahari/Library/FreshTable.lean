import Mathlib

set_option autoImplicit false

/-!
# A store whose keys are handed out in order

`FreshTable α` maps natural keys to values. A new value gets the next unused
key; keys are never given out twice, and key zero is never given out, so that
zero can stand for "none" where the stored keys are kept in an integer.
-/

structure FreshTable (α : Type) where
  entry : ℕ → Option α
  next : ℕ
  positive : 0 < next
  zero : entry 0 = none
  fresh : ∀ k, next ≤ k → entry k = none

namespace FreshTable

variable {α : Type}

def empty : FreshTable α :=
  ⟨fun _ => none, 1, Nat.one_pos, rfl, fun _ _ => rfl⟩

def add (t : FreshTable α) (x : α) : FreshTable α where
  entry := Function.update t.entry t.next (some x)
  next := t.next + 1
  positive := Nat.succ_pos _
  zero := by
    rw [Function.update_of_ne (Nat.ne_of_lt t.positive)]
    exact t.zero
  fresh k hk := by
    rw [Function.update_of_ne (by omega)]
    exact t.fresh k (by omega)

def remove (t : FreshTable α) (k : ℕ) : FreshTable α where
  entry := Function.update t.entry k none
  next := t.next
  positive := t.positive
  zero := by
    by_cases h : 0 = k
    · rw [h, Function.update_self]
    · rw [Function.update_of_ne h]
      exact t.zero
  fresh j hj := by
    by_cases h : j = k
    · rw [h, Function.update_self]
    · rw [Function.update_of_ne h]
      exact t.fresh j hj

def modify (t : FreshTable α) (k : ℕ) (f : α → α) : FreshTable α where
  entry := Function.update t.entry k ((t.entry k).map f)
  next := t.next
  positive := t.positive
  zero := by
    by_cases h : 0 = k
    · rw [h, Function.update_self, ← h, t.zero]
      rfl
    · rw [Function.update_of_ne h]
      exact t.zero
  fresh j hj := by
    by_cases h : j = k
    · rw [h, Function.update_self, ← h, t.fresh j hj]
      rfl
    · rw [Function.update_of_ne h]
      exact t.fresh j hj

def any (t : FreshTable α) (f : α → Bool) : Bool :=
  (List.range t.next).any fun k => (t.entry k).any f

@[simp] theorem empty_entry (k : ℕ) : (empty : FreshTable α).entry k = none := rfl

theorem add_entry (t : FreshTable α) (x : α) (k : ℕ) :
    (t.add x).entry k = if k = t.next then some x else t.entry k := by
  simp only [add, Function.update_apply]

theorem remove_entry (t : FreshTable α) (j k : ℕ) :
    (t.remove j).entry k = if k = j then none else t.entry k := by
  simp only [remove, Function.update_apply]

theorem modify_entry (t : FreshTable α) (j k : ℕ) (f : α → α) :
    (t.modify j f).entry k = if k = j then (t.entry j).map f else t.entry k := by
  simp only [modify, Function.update_apply]

@[simp] theorem next_entry (t : FreshTable α) : t.entry t.next = none :=
  t.fresh t.next (le_refl _)

theorem lt_next {t : FreshTable α} {k : ℕ} {x : α} (h : t.entry k = some x) : k < t.next := by
  by_contra hk
  rw [t.fresh k (by omega)] at h
  cases h

theorem ne_next {t : FreshTable α} {k : ℕ} {x : α} (h : t.entry k = some x) : k ≠ t.next :=
  Nat.ne_of_lt (lt_next h)

/-- What a larger table holds under an old key was there before. -/
theorem add_entry_some {t : FreshTable α} {x y : α} {k : ℕ}
    (h : (t.add x).entry k = some y) : (k = t.next ∧ y = x) ∨ t.entry k = some y := by
  rw [add_entry] at h
  split at h
  · rename_i hk
    cases h
    exact .inl ⟨hk, rfl⟩
  · exact .inr h

theorem remove_entry_some {t : FreshTable α} {y : α} {j k : ℕ}
    (h : (t.remove j).entry k = some y) : k ≠ j ∧ t.entry k = some y := by
  rw [remove_entry] at h
  split at h
  · cases h
  · exact ⟨‹_›, h⟩

theorem any_iff {t : FreshTable α} {f : α → Bool} :
    t.any f = true ↔ ∃ k x, t.entry k = some x ∧ f x = true := by
  simp only [any, List.any_eq_true, List.mem_range, Option.any_eq_true]
  constructor
  · rintro ⟨k, -, x, hx, hf⟩
    exact ⟨k, x, hx, hf⟩
  · rintro ⟨k, x, hx, hf⟩
    exact ⟨k, lt_next hx, x, hx, hf⟩

end FreshTable
