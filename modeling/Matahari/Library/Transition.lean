import Mathlib

set_option autoImplicit false

/-!
# Runs of a partial transition function

A system is a function `step` that takes a state and an event and is undefined
where the event is not enabled. `Always` speaks about every state a run passes
through, `Throughout` about every step it takes together with the state before
the step.
-/
namespace TransitionRuns

variable {σ ε : Type}

def exec (step : σ → ε → Option σ) : σ → List ε → Option σ
  | s, [] => some s
  | s, e :: es => (step s e).bind fun u => exec step u es

/-- `P` holds in every state of the run, the first and the last included. A run
ends at the first event that is not enabled. -/
def Always (step : σ → ε → Option σ) (P : σ → Prop) : σ → List ε → Prop
  | s, [] => P s
  | s, e :: es => P s ∧ ∀ u, u ∈ step s e → Always step P u es

/-- `ok` holds of every step the run takes, read in the state before the step. -/
def Throughout (step : σ → ε → Option σ) (ok : σ → ε → Prop) : σ → List ε → Prop
  | _, [] => True
  | s, e :: es => ∀ u, u ∈ step s e → ok s e ∧ Throughout step ok u es

instance decidableThroughout (step : σ → ε → Option σ) (ok : σ → ε → Prop)
    [∀ s e, Decidable (ok s e)] : ∀ s es, Decidable (Throughout step ok s es)
  | _, [] => inferInstanceAs (Decidable True)
  | s, e :: es =>
    have : ∀ u, Decidable (Throughout step ok u es) := fun u =>
      decidableThroughout step ok u es
    inferInstanceAs (Decidable (∀ u, u ∈ step s e → ok s e ∧ Throughout step ok u es))

section

variable {step : σ → ε → Option σ}

@[simp] theorem exec_nil (s : σ) : exec step s [] = some s := rfl

theorem exec_cons {s u : σ} {e : ε} {es : List ε} (h : step s e = some u) :
    exec step s (e :: es) = exec step u es := by
  simp only [exec, h, Option.bind_some]

theorem exec_cons_some {s v : σ} {e : ε} {es : List ε} (h : exec step s (e :: es) = some v) :
    ∃ u, step s e = some u ∧ exec step u es = some v := by
  simpa only [exec, Option.bind_eq_some_iff] using h

theorem exec_append (s : σ) (es fs : List ε) :
    exec step s (es ++ fs) = (exec step s es).bind fun u => exec step u fs := by
  induction es generalizing s with
  | nil => rfl
  | cons e es ih =>
    simp only [List.cons_append, exec, Option.bind_assoc]
    exact congrArg (Option.bind (step s e)) (funext ih)

theorem Always.head {P : σ → Prop} {s : σ} {es : List ε} (h : Always step P s es) : P s := by
  cases es with
  | nil => exact h
  | cons e es => exact h.1

theorem Always.imp {P Q : σ → Prop} (hPQ : ∀ s, P s → Q s) {s : σ} {es : List ε}
    (h : Always step P s es) : Always step Q s es := by
  induction es generalizing s with
  | nil => exact hPQ s h
  | cons e es ih => exact ⟨hPQ s h.1, fun u hu => ih (h.2 u hu)⟩

theorem Always.take {P : σ → Prop} {s : σ} (es fs : List ε) (h : Always step P s (es ++ fs)) :
    Always step P s es := by
  induction es generalizing s with
  | nil => exact h.head
  | cons e es ih => exact ⟨h.1, fun u hu => ih (h.2 u hu)⟩

theorem Always.final {P : σ → Prop} {s v : σ} {es : List ε} (h : Always step P s es)
    (hv : exec step s es = some v) : P v := by
  induction es generalizing s with
  | nil =>
    obtain rfl : s = v := by simpa using hv
    exact h
  | cons e es ih =>
    obtain ⟨u, hu, hv⟩ := exec_cons_some hv
    exact ih (h.2 u hu) hv

theorem Throughout.of_forall {ok : σ → ε → Prop} {es : List ε} (h : ∀ e ∈ es, ∀ s, ok s e)
    (s : σ) : Throughout step ok s es := by
  induction es generalizing s with
  | nil => trivial
  | cons e es ih =>
    rw [List.forall_mem_cons] at h
    exact fun u _ => ⟨h.1 s, ih h.2 u⟩

/-- The invariant rule: what the allowed steps preserve holds in every state of
a run that takes allowed steps only. -/
theorem always_of_preserved {I : σ → Prop} {ok : σ → ε → Prop}
    (preserved : ∀ s e u, I s → ok s e → step s e = some u → I u)
    {s : σ} {es : List ε} (hs : I s) (h : Throughout step ok s es) :
    Always step I s es := by
  induction es generalizing s with
  | nil => exact hs
  | cons e es ih =>
    refine ⟨hs, fun u hu => ?_⟩
    obtain ⟨hok, htail⟩ := h u hu
    exact ih (preserved s e u hs hok hu) htail

/-- The converse rule: if a forbidden step from an invariant state leads out of
`P` at once, a run that stays in `P` takes allowed steps only. -/
theorem throughout_of_always {I P : σ → Prop} {ok : σ → ε → Prop}
    (preserved : ∀ s e u, I s → ok s e → step s e = some u → I u)
    (leaves : ∀ s e u, I s → ¬ ok s e → step s e = some u → ¬ P u)
    {s : σ} {es : List ε} (hs : I s) (h : Always step P s es) :
    Throughout step ok s es := by
  induction es generalizing s with
  | nil => trivial
  | cons e es ih =>
    intro u hu
    have hok : ok s e := by
      by_contra hn
      exact leaves s e u hs hn hu (h.2 u hu).head
    exact ⟨hok, ih (preserved s e u hs hok hu) (h.2 u hu)⟩

/-- What every step preserves holds where a run ends. -/
theorem exec_preserved {P : σ → Prop} (preserved : ∀ s e u, P s → step s e = some u → P u)
    {s v : σ} {es : List ε} (hs : P s) (hv : exec step s es = some v) : P v := by
  induction es generalizing s with
  | nil =>
    obtain rfl : s = v := by simpa using hv
    exact hs
  | cons e es ih =>
    obtain ⟨u, hu, hv⟩ := exec_cons_some hv
    exact ih (preserved s e u hs hu) hv

/-- What the allowed steps preserve may be used to allow them. -/
theorem Throughout.imp_of_preserved {I : σ → Prop} {ok ok' : σ → ε → Prop} {s : σ} {es : List ε}
    (h : Throughout step ok s es)
    (preserved : ∀ s e u, I s → ok s e → step s e = some u → I u)
    (imp : ∀ s e, I s → ok s e → ok' s e) (hs : I s) : Throughout step ok' s es := by
  induction es generalizing s with
  | nil => trivial
  | cons e es ih =>
    intro u hu
    obtain ⟨hok, htail⟩ := h u hu
    exact ⟨imp s e hs hok, ih htail (preserved s e u hs hok hu)⟩

theorem Throughout.drop {ok : σ → ε → Prop} {s u : σ} {es fs : List ε}
    (h : Throughout step ok s (es ++ fs)) (hu : exec step s es = some u) :
    Throughout step ok u fs := by
  induction es generalizing s with
  | nil =>
    obtain rfl : s = u := by simpa using hu
    exact h
  | cons e es ih =>
    obtain ⟨v, hv, hu⟩ := exec_cons_some hu
    exact ih (h v hv).2 hu

theorem Throughout.take {ok : σ → ε → Prop} {s : σ} {es fs : List ε}
    (h : Throughout step ok s (es ++ fs)) : Throughout step ok s es := by
  induction es generalizing s with
  | nil => trivial
  | cons e es ih => exact fun u hu => ⟨(h u hu).1, ih (h u hu).2⟩

end

section

variable {step : σ → ε → Option σ}

/-- Two conditions that agree in the invariant states hold of the same runs. -/
theorem throughout_congr {I : σ → Prop} {ok ok' : σ → ε → Prop}
    (preserved : ∀ s e u, I s → step s e = some u → I u)
    (agree : ∀ s e u, I s → step s e = some u → (ok s e ↔ ok' s e)) {s : σ} (hs : I s)
    (es : List ε) : Throughout step ok s es ↔ Throughout step ok' s es := by
  induction es generalizing s with
  | nil => exact Iff.rfl
  | cons e es ih =>
    apply forall_congr'
    intro u
    apply imp_congr_right
    intro hu
    exact and_congr (agree s e u hs hu) (ih (preserved s e u hs hu))

end

/-! ## Runs that end -/

/-- Every run from the state ends, within a bound that does not depend on the run. -/
def Ends (step : σ → ε → Option σ) (s : σ) : Prop :=
  ∃ n, ∀ es v, exec step s es = some v → es.length ≤ n

section

variable {step : σ → ε → Option σ}

/-- A measure that every step from an invariant state lowers bounds the runs. -/
theorem ends_of_measure {I : σ → Prop} (μ : σ → ℕ)
    (lower : ∀ s e u, I s → step s e = some u → I u ∧ μ u < μ s) {s : σ} (hs : I s) :
    Ends step s := by
  refine ⟨μ s, ?_⟩
  intro es v hv
  induction es generalizing s with
  | nil => exact Nat.zero_le _
  | cons e es ih =>
    obtain ⟨u, hu, hv⟩ := exec_cons_some hv
    obtain ⟨hIu, hlt⟩ := lower s e u hs hu
    have hlen := ih hIu hv
    rw [List.length_cons]
    omega

/-- Where a step that keeps `P` is always possible, there are runs of every length. -/
theorem not_ends_of_live {P : σ → Prop}
    (live : ∀ s, P s → ∃ e u, step s e = some u ∧ P u) {s : σ} (hs : P s) :
    ¬ Ends step s := by
  have hruns : ∀ n s, P s → ∃ es v, es.length = n ∧ exec step s es = some v := by
    intro n
    induction n with
    | zero => exact fun s _ => ⟨[], s, rfl, rfl⟩
    | succ n ih =>
      intro s hs
      obtain ⟨e, u, hu, hPu⟩ := live s hs
      obtain ⟨es, v, hlen, hv⟩ := ih u hPu
      refine ⟨e :: es, v, ?_, ?_⟩
      · rw [List.length_cons, hlen]
      · rw [exec_cons hu, hv]
  rintro ⟨n, hn⟩
  obtain ⟨es, v, hlen, hv⟩ := hruns (n + 1) s hs
  have := hn es v hv
  omega

end
end TransitionRuns
