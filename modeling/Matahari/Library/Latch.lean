import Matahari.Library.Transition

set_option autoImplicit false

/-!
# Abstractions of runs, and a one-bit latch

A run of a system is a run of an abstract one when every step stands for a run of
the abstract system between the views of its two states. The latch is such an
abstract system: a bit that requests raise and that one service clears.
-/
namespace TransitionRuns

section

variable {σ ε τ η : Type} {step : σ → ε → Option σ}

def trace (step : σ → ε → Option σ) (label : σ → ε → List η) : σ → List ε → List η
  | _, [] => []
  | s, e :: es => label s e ++ (step s e).elim [] fun u => trace step label u es

theorem trace_cons {label : σ → ε → List η} {s u : σ} {e : ε} (es : List ε)
    (h : step s e = some u) :
    trace step label s (e :: es) = label s e ++ trace step label u es := by
  simp only [trace, h, Option.elim_some]

theorem notMem_trace {label : σ → ε → List η} {y : η} (I : σ → Prop) (ok : ε → Prop)
    (h : ∀ s e u, I s → ok e → step s e = some u → I u ∧ y ∉ label s e)
    {s v : σ} {es : List ε} (hs : I s) (hok : ∀ e ∈ es, ok e) (hv : exec step s es = some v) :
    y ∉ trace step label s es := by
  induction es generalizing s with
  | nil => exact List.not_mem_nil
  | cons e es ih =>
    rw [List.forall_mem_cons] at hok
    obtain ⟨u, hu, hv⟩ := exec_cons_some hv
    obtain ⟨hIu, hy⟩ := h s e u hs hok.1 hu
    rw [trace_cons es hu, List.mem_append, not_or]
    exact ⟨hy, ih hIu hok.2 hv⟩

/-- The simulation rule: a run is, seen through `view`, a run of the abstract system. -/
theorem exec_trace {astep : τ → η → Option τ} (view : σ → τ) {label : σ → ε → List η}
    (I : σ → Prop)
    (simulates : ∀ s e u, I s → step s e = some u →
      I u ∧ exec astep (view s) (label s e) = some (view u))
    {s v : σ} {es : List ε} (hs : I s) (hv : exec step s es = some v) :
    exec astep (view s) (trace step label s es) = some (view v) := by
  induction es generalizing s with
  | nil =>
    obtain rfl : s = v := by simpa using hv
    rfl
  | cons e es ih =>
    obtain ⟨u, hu, hv⟩ := exec_cons_some hv
    obtain ⟨hIu, hlabel⟩ := simulates s e u hs hu
    rw [trace_cons es hu, exec_append, hlabel]
    exact ih hIu hv

theorem count_trace_le [DecidableEq η] {label : σ → ε → List η} {y : η} {p : ε → Bool}
    (h : ∀ s e, (label s e).count y ≤ (p e).toNat) (s : σ) (es : List ε) :
    (trace step label s es).count y ≤ es.countP p := by
  induction es generalizing s with
  | nil => exact Nat.le_refl _
  | cons e es ih =>
    have hrest : ((step s e).elim [] fun u => trace step label u es).count y ≤ es.countP p := by
      cases step s e with
      | none => exact Nat.zero_le _
      | some u => exact ih u
    have hhead := h s e
    have hcount : (e :: es).countP p = es.countP p + (p e).toNat := by
      rw [List.countP_cons]
      cases p e <;> rfl
    rw [trace, List.count_append, hcount]
    omega

/-- A measure that grows by no more than the abstract events of one kind. -/
theorem measure_le_count_trace [DecidableEq η] {label : σ → ε → List η} {y : η} (μ : σ → ℕ)
    (I : σ → Prop) (h : ∀ s e u, I s → step s e = some u →
      I u ∧ μ u ≤ μ s + (label s e).count y)
    {s v : σ} {es : List ε} (hs : I s) (hv : exec step s es = some v) :
    μ v ≤ μ s + (trace step label s es).count y := by
  induction es generalizing s with
  | nil =>
    obtain rfl : s = v := by simpa using hv
    exact Nat.le_add_right _ _
  | cons e es ih =>
    obtain ⟨u, hu, hv⟩ := exec_cons_some hv
    obtain ⟨hIu, hle⟩ := h s e u hs hu
    have hrest := ih hIu hv
    rw [trace_cons es hu, List.count_append]
    omega

/-- A measure that grows by at least the abstract events of one kind. -/
theorem count_trace_le_measure [DecidableEq η] {label : σ → ε → List η} {y : η} (μ : σ → ℕ)
    (I : σ → Prop) (ok : ε → Prop) (h : ∀ s e u, I s → ok e → step s e = some u →
      I u ∧ μ s + (label s e).count y ≤ μ u)
    {s v : σ} {es : List ε} (hs : I s) (hok : ∀ e ∈ es, ok e) (hv : exec step s es = some v) :
    μ s + (trace step label s es).count y ≤ μ v := by
  induction es generalizing s with
  | nil =>
    obtain rfl : s = v := by simpa using hv
    exact Nat.le_refl _
  | cons e es ih =>
    rw [List.forall_mem_cons] at hok
    obtain ⟨u, hu, hv⟩ := exec_cons_some hv
    obtain ⟨hIu, hle⟩ := h s e u hs hok.1 hu
    have hrest := ih hIu hok.2 hv
    rw [trace_cons es hu, List.count_append]
    omega

end

/-! ## The latch -/

inductive LatchEvent where
  | raise
  | serve
  | reset
  deriving DecidableEq, Repr

/-- A service needs the bit. -/
def latchStep (b : Bool) : LatchEvent → Option Bool
  | .raise => some true
  | .serve => if b then some false else none
  | .reset => some false

/-- Every service answers a request of its own: requests may be answered together,
but none is answered twice. -/
theorem latch_serve_le_raise {b c : Bool} {es : List LatchEvent}
    (h : exec latchStep b es = some c) :
    es.count .serve + c.toNat ≤ es.count .raise + b.toNat := by
  induction es generalizing b with
  | nil =>
    obtain rfl : b = c := by simpa using h
    exact Nat.le_refl _
  | cons e es ih =>
    obtain ⟨d, hd, hc⟩ := exec_cons_some h
    have hrest := ih hc
    have hone : b.toNat ≤ 1 := Bool.toNat_le b
    cases e with
    | raise =>
      obtain rfl : true = d := by simpa [latchStep] using hd
      simp only [List.count_cons_self, List.count_cons, Bool.toNat_true] at hrest ⊢
      simp only [reduceCtorEq, beq_iff_eq, if_false] at hrest ⊢
      omega
    | serve =>
      cases b with
      | false => cases hd
      | true =>
        obtain rfl : false = d := by simpa [latchStep] using hd
        simp only [List.count_cons_self, List.count_cons, Bool.toNat_true, Bool.toNat_false]
          at hrest ⊢
        simp only [reduceCtorEq, beq_iff_eq, if_false] at hrest ⊢
        omega
    | reset =>
      obtain rfl : false = d := by simpa [latchStep] using hd
      simp only [List.count_cons, Bool.toNat_false] at hrest ⊢
      simp only [reduceCtorEq, beq_iff_eq, if_false] at hrest ⊢
      omega

/-- A request that is not withdrawn waits until it is served. -/
theorem latch_waits {c : Bool} {es : List LatchEvent} (hreset : .reset ∉ es)
    (h : exec latchStep true es = some c) : c = true ∨ .serve ∈ es := by
  induction es with
  | nil =>
    left
    simpa using h.symm
  | cons e es ih =>
    obtain ⟨d, hd, hc⟩ := exec_cons_some h
    cases e with
    | raise =>
      obtain rfl : true = d := by simpa [latchStep] using hd
      rcases ih (fun hm => hreset (List.mem_cons_of_mem _ hm)) hc with hc | hs
      · exact .inl hc
      · exact .inr (List.mem_cons_of_mem _ hs)
    | serve => exact .inr List.mem_cons_self
    | reset => exact absurd List.mem_cons_self hreset

end TransitionRuns
