import Mathlib.Data.List.Induction

set_option autoImplicit false

/-!
# Values on demand

A value that is computed when it is asked for, and kept until what it depends on is changed. The
computation may fail, and what it comes to depends on the circumstances of the moment too.
-/
namespace OnDemand

variable {ι ν ω : Type}

structure Cell (ι ν : Type) where
  inputs : ι
  kept : Option ν

inductive Event (ι ω : Type) where
  | change (f : ι → ι)
  | read (circumstances : ω)

def Cell.read (compute : ι → ω → Option ν) (c : Cell ι ν) (w : ω) : Cell ι ν × Option ν :=
  match c.kept with
  | some v => (c, some v)
  | none => ({ c with kept := compute c.inputs w }, compute c.inputs w)

def Cell.step (compute : ι → ω → Option ν) (c : Cell ι ν) : Event ι ω → Cell ι ν
  | .change f => ⟨f c.inputs, none⟩
  | .read w => (c.read compute w).1

def Cell.run (compute : ι → ω → Option ν) (c : Cell ι ν) (es : List (Event ι ω)) : Cell ι ν :=
  es.foldl (Cell.step compute) c

def Event.IsRead (e : Event ι ω) : Prop := ∃ w, e = .read w

/-- One of the reads since the last change computed the value. -/
def ReadSince (es : List (Event ι ω)) (w : ω) : Prop :=
  ∃ before after, es = before ++ .read w :: after ∧ ∀ e ∈ after, e.IsRead

section
variable {compute : ι → ω → Option ν} {c : Cell ι ν} {es : List (Event ι ω)} {w : ω} {v : ν}

theorem ReadSince.last (es : List (Event ι ω)) (w : ω) : ReadSince (es ++ [.read w]) w :=
  ⟨es, [], rfl, fun _ he => absurd he List.not_mem_nil⟩

theorem ReadSince.read (h : ReadSince es w) (x : ω) : ReadSince (es ++ [.read x]) w := by
  obtain ⟨before, after, rfl, hafter⟩ := h
  refine ⟨before, after ++ [.read x], by rw [List.append_assoc]; rfl, fun e he => ?_⟩
  rcases List.mem_append.mp he with he | he
  · exact hafter e he
  · exact ⟨x, List.mem_singleton.mp he⟩

theorem run_concat (c : Cell ι ν) (es : List (Event ι ω)) (e : Event ι ω) :
    c.run compute (es ++ [e]) = (c.run compute es).step compute e := by
  unfold Cell.run
  rw [List.foldl_append]
  rfl

theorem read_inputs (c : Cell ι ν) (w : ω) : (c.read compute w).1.inputs = c.inputs := by
  unfold Cell.read
  cases c.kept <;> rfl

theorem read_kept (c : Cell ι ν) (w : ω) : (c.read compute w).1.kept = (c.read compute w).2 := by
  unfold Cell.read
  cases hkept : c.kept with
  | none => rfl
  | some v => exact hkept

theorem read_eq (c : Cell ι ν) (w : ω) :
    (c.read compute w).2 = c.kept.or (compute c.inputs w) := by
  unfold Cell.read
  cases c.kept <;> rfl

/-- Induction from the last event back: what is kept depends on the inputs of now. -/
theorem kept_current (hc : c.kept = none) (h : (c.run compute es).kept = some v) :
    ∃ w, ReadSince es w ∧ compute (c.run compute es).inputs w = some v := by
  induction es using List.reverseRecOn with
  | nil => exact absurd (hc.symm.trans h) (Option.some_ne_none v).symm
  | append_singleton es e ih =>
    rw [run_concat] at h ⊢
    cases e with
    | change f => exact absurd h (Option.some_ne_none v).symm
    | read x =>
      change ((c.run compute es).read compute x).1.kept = some v at h
      rw [read_kept, read_eq] at h
      change ∃ w, _ ∧ compute ((c.run compute es).read compute x).1.inputs w = some v
      rw [read_inputs]
      cases hkept : (c.run compute es).kept with
      | none =>
        rw [hkept, Option.none_or] at h
        exact ⟨x, ReadSince.last es x, h⟩
      | some u =>
        rw [hkept, Option.some_or] at h
        obtain ⟨w, hw, hcompute⟩ := ih (hkept.trans h)
        exact ⟨w, hw.read x, hcompute⟩

/-- What a read gives was computed from the inputs of now, in the circumstances of a read since
they were changed. -/
theorem read_current (hc : c.kept = none) (h : ((c.run compute es).read compute w).2 = some v) :
    ∃ x, ReadSince (es ++ [.read w]) x ∧ compute (c.run compute es).inputs x = some v := by
  have hkept : (c.run compute (es ++ [.read w])).kept = some v := by
    rw [run_concat]
    exact (read_kept _ w).trans h
  obtain ⟨x, hx, hcompute⟩ := kept_current hc hkept
  rw [run_concat] at hcompute
  change compute ((c.run compute es).read compute w).1.inputs x = some v at hcompute
  rw [read_inputs] at hcompute
  exact ⟨x, hx, hcompute⟩

end

end OnDemand
