import Mathlib.Data.List.Basic
import Mathlib.Data.Option.Basic

set_option autoImplicit false

/-!
# The last write counts

A list of events writes a map, each event under some of the keys. What is under a key afterwards
is what was written last, or what was there before.
-/
namespace LastWrite

variable {ε κ ν σ : Type}

def last (writes : ε → κ → Option ν) (es : List ε) (k : κ) : Option ν :=
  (es.filterMap fun e => writes e k).getLast?

section
variable {writes : ε → κ → Option ν}

@[simp] theorem last_nil (k : κ) : last writes [] k = none := rfl

theorem last_cons (e : ε) (es : List ε) (k : κ) :
    last writes (e :: es) k = (last writes es k).or (writes e k) := by
  unfold last
  rw [List.filterMap_cons]
  cases hwrite : writes e k with
  | none => rw [Option.or_none]
  | some v =>
    dsimp only
    rw [List.getLast?_cons]
    cases (es.filterMap fun e => writes e k).getLast? <;> rfl

theorem last_eq_none_iff {es : List ε} {k : κ} :
    last writes es k = none ↔ ∀ e ∈ es, writes e k = none := by
  unfold last
  rw [List.getLast?_eq_none_iff, List.filterMap_eq_nil_iff]

theorem last_eq_none {es : List ε} {k : κ} (h : ∀ e ∈ es, writes e k = none) :
    last writes es k = none :=
  last_eq_none_iff.mpr h

theorem last_append (es es' : List ε) (k : κ) :
    last writes (es ++ es') k = (last writes es' k).or (last writes es k) := by
  unfold last
  rw [List.filterMap_append, List.getLast?_append]

theorem exists_of_last_eq {es : List ε} {k : κ} {v : ν} (h : last writes es k = some v) :
    ∃ e ∈ es, writes e k = some v := by
  unfold last at h
  exact List.mem_filterMap.mp (List.mem_of_getLast? h)

/-- Where the writes under a key agree, any of them is the last. -/
theorem last_eq_some {es : List ε} {k : κ} {e : ε} {v : ν} (he : e ∈ es) (hwrite : writes e k = some v)
    (h : ∀ e' ∈ es, ∀ v', writes e' k = some v' → v' = v) : last writes es k = some v := by
  cases hlast : last writes es k with
  | none =>
    rw [last_eq_none_iff.mp hlast e he] at hwrite
    cases hwrite
  | some v' =>
    have hevent := exists_of_last_eq hlast
    obtain ⟨e', he', hwrite'⟩ := hevent
    rw [h e' he' v' hwrite']

/-- The order of the events does not matter to a key exactly when the writes under it agree. -/
theorem last_perm_iff {es : List ε} {k : κ} :
    (∀ es', es'.Perm es → last writes es' k = last writes es k) ↔
      ∀ e ∈ es, ∀ e' ∈ es, ∀ v v', writes e k = some v → writes e' k = some v' → v = v' := by
  constructor
  · intro h e he e' he' v v' hv hv'
    -- an event can be put last, and then it is what counts
    have hlast : ∀ d ∈ es, ∀ u, writes d k = some u → last writes es k = some u := by
      intro d hd u hu
      have hsplit := List.append_of_mem hd
      obtain ⟨before, after, hes⟩ := hsplit
      have hperm : ((before ++ after) ++ [d]).Perm es := by
        rw [hes, List.append_assoc]
        exact (List.perm_append_singleton d after).append_left before
      rw [← h _ hperm, last_append, last_cons, last_nil, Option.none_or, hu, Option.some_or]
    have hboth := (hlast e he v hv).symm.trans (hlast e' he' v' hv')
    exact Option.some.inj hboth
  · intro h es' hperm
    cases hlast : last writes es k with
    | none =>
      apply last_eq_none
      intro e he
      exact last_eq_none_iff.mp hlast e (hperm.mem_iff.mp he)
    | some v =>
      have hevent := exists_of_last_eq hlast
      obtain ⟨e, he, hwrite⟩ := hevent
      apply last_eq_some (hperm.mem_iff.mpr he) hwrite
      intro e' he' v' hwrite'
      exact h e' (hperm.mem_iff.mp he') e he v' v hwrite' hwrite

theorem last_map {μ ι : Type} {writes' : ε → ι → Option μ} {f : μ → ν} {es : List ε} {k : κ} {i : ι}
    (h : ∀ e ∈ es, writes e k = (writes' e i).map f) :
    last writes es k = (last writes' es i).map f := by
  induction es with
  | nil => rfl
  | cons e es ih =>
    have hrest := ih fun e' he' => h e' (List.mem_cons_of_mem e he')
    rw [last_cons, last_cons, hrest, h e List.mem_cons_self]
    cases last writes' es i <;> rfl

end

/-- The fold rule: a step that writes under its keys and leaves the others alone. -/
theorem foldl_eq {step : σ → ε → σ} {read : σ → κ → Option ν} (writes : ε → κ → Option ν)
    {es : List ε} (h : ∀ e ∈ es, ∀ s k, read (step s e) k = (writes e k).or (read s k)) (s : σ)
    (k : κ) : read (es.foldl step s) k = (last writes es k).or (read s k) := by
  induction es generalizing s with
  | nil => rfl
  | cons e es ih =>
    have hrest := ih (fun e' he' => h e' (List.mem_cons_of_mem e he')) (step s e)
    rw [List.foldl_cons, hrest, h e List.mem_cons_self, last_cons, Option.or_assoc]

end LastWrite
