import Mathlib

set_option autoImplicit false

/-!
# Answering calls

A machine answers a sequence of calls one after another. Two machines whose states stay
related answer alike.
-/
namespace CallSimulation

variable {σ τ ε ρ : Type}

def answers (step : σ → ε → ρ × σ) : σ → List ε → List ρ × σ
  | s, [] => ([], s)
  | s, e :: es =>
    let rest := answers step (step s e).2 es
    ((step s e).1 :: rest.1, rest.2)

theorem answers_eq {R : σ → τ → Prop} {ok : ε → Prop} {step : σ → ε → ρ × σ}
    {spec : τ → ε → ρ × τ}
    (hstep : ∀ s t e, R s t → ok e → (step s e).1 = (spec t e).1 ∧ R (step s e).2 (spec t e).2)
    {s : σ} {t : τ} (hR : R s t) {es : List ε} (hok : ∀ e ∈ es, ok e) :
    (answers step s es).1 = (answers spec t es).1 ∧
      R (answers step s es).2 (answers spec t es).2 := by
  induction es generalizing s t with
  | nil => exact ⟨rfl, hR⟩
  | cons e es ih =>
    rw [List.forall_mem_cons] at hok
    obtain ⟨hanswer, hnext⟩ := hstep s t e hR hok.1
    obtain ⟨hrest, hend⟩ := ih hnext hok.2
    simp only [answers]
    exact ⟨by rw [hanswer, hrest], hend⟩

end CallSimulation
