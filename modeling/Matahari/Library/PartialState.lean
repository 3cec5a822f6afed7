import Mathlib.Logic.Relation
import Mathlib.Data.Option.Basic

set_option autoImplicit false

/-!
# Partial computations with a state

A computation of `StateT σ Option` either returns a value and the next state or
does not return. `Completes` says that it returns, and `Relates` that every return
relates the states before and after; both are read off a computation by its
binds.
-/
namespace PartialState

variable {σ α β : Type}

def Completes (m : StateT σ Option α) (s : σ) : Prop := ∃ a s', m s = some (a, s')

def Relates (R : σ → σ → Prop) (m : StateT σ Option α) : Prop :=
  ∀ s a s', m s = some (a, s') → R s s'

def fault : StateT σ Option α := fun _ => none

theorem bind_eq_some {m : StateT σ Option α} {f : α → StateT σ Option β} {s : σ}
    {r : β × σ} :
    (m >>= f) s = some r ↔ ∃ a s', m s = some (a, s') ∧ f a s' = some r := by
  change ((m s).bind fun p => f p.1 p.2) = some r ↔ _
  rw [Option.bind_eq_some_iff]
  constructor
  · rintro ⟨⟨a, s'⟩, hm, hf⟩
    exact ⟨a, s', hm, hf⟩
  · rintro ⟨a, s', hm, hf⟩
    exact ⟨(a, s'), hm, hf⟩

theorem bind_of_eq {m : StateT σ Option α} {s s' : σ} {a : α} (h : m s = some (a, s'))
    (f : α → StateT σ Option β) : (m >>= f) s = f a s' := by
  change ((m s).bind fun p => f p.1 p.2) = f a s'
  rw [h, Option.bind_some]

@[simp] theorem completes_pure (a : α) (s : σ) : Completes (pure a : StateT σ Option α) s :=
  ⟨a, s, rfl⟩

@[simp] theorem completes_fault (s : σ) : ¬ Completes (fault : StateT σ Option α) s := by
  rintro ⟨a, s', h⟩
  cases h

@[simp] theorem completes_modify (f : σ → σ) (s : σ) :
    Completes (modify f : StateT σ Option PUnit) s := ⟨⟨⟩, f s, rfl⟩

theorem completes_bind {m : StateT σ Option α} {f : α → StateT σ Option β} {s : σ} :
    Completes (m >>= f) s ↔
      Completes m s ∧ ∀ a s', m s = some (a, s') → Completes (f a) s' := by
  constructor
  · rintro ⟨b, u, h⟩
    rcases bind_eq_some.mp h with ⟨a, s', hm, hf⟩
    refine ⟨⟨a, s', hm⟩, ?_⟩
    intro a' t ht
    rw [hm] at ht
    cases ht
    exact ⟨b, u, hf⟩
  · rintro ⟨⟨a, s', hm⟩, hf⟩
    rcases hf a s' hm with ⟨b, u, hb⟩
    exact ⟨b, u, bind_eq_some.mpr ⟨a, s', hm, hb⟩⟩

theorem completes_bind_of_eq {m : StateT σ Option α} {f : α → StateT σ Option β} {s s' : σ}
    {a : α} (h : m s = some (a, s')) : Completes (m >>= f) s ↔ Completes (f a) s' := by
  rw [completes_bind]
  constructor
  · rintro ⟨_, hf⟩
    exact hf a s' h
  · intro hf
    refine ⟨⟨a, s', h⟩, ?_⟩
    intro b t ht
    rw [h] at ht
    cases ht
    exact hf

section
variable {R S T : σ → σ → Prop}

theorem Relates.fault : Relates R (fault : StateT σ Option α) := by
  intro s a s' h
  cases h

/-- What the two parts of a sequence do to the state, composed. -/
theorem Relates.bind (hcomp : ∀ {s t u}, R s t → S t u → T s u) {m : StateT σ Option α}
    {f : α → StateT σ Option β} (hm : Relates R m) (hf : ∀ a, Relates S (f a)) :
    Relates T (m >>= f) := by
  intro s b u h
  rcases bind_eq_some.mp h with ⟨a, t, ha, hb⟩
  exact hcomp (hm s a t ha) (hf a t b u hb)

theorem Relates.modify {f : σ → σ} (hf : ∀ s, R s (f s)) :
    Relates R (modify f : StateT σ Option PUnit) := by
  intro s a s' h
  cases h
  exact hf s

end

end PartialState
