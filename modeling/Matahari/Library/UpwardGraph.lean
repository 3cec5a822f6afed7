import Mathlib

set_option autoImplicit false

/-!
# Paths in a graph whose edges lead upward

The nodes are the numbers below `size`. A node may have no list of successors at all, and then it
is a leaf; an empty list is something else. `paths` follows the edges in all ways and keeps the
paths that end in a leaf.
-/

/-- The edges lead to larger numbers below `size`, so that every path ends. -/
structure UpwardGraph where
  size : ℕ
  edges : ℕ → Option (List ℕ)
  upward : ∀ n l, edges n = some l → ∀ m ∈ l, n < m ∧ m < size

namespace UpwardGraph

variable (g : UpwardGraph)

def isLeaf (n : ℕ) : Bool := (g.edges n).isNone

def next (n : ℕ) : List ℕ := (g.edges n).getD []

variable {g} in
theorem upward_of_mem_next {n m : ℕ} (h : m ∈ g.next n) : n < m ∧ m < g.size := by
  unfold next at h
  cases hedges : g.edges n with
  | none =>
    rw [hedges] at h
    cases h
  | some l =>
    rw [hedges] at h
    exact g.upward n l hedges m h

def pathsFrom (visited : List ℕ) (n : ℕ) : List (List ℕ) :=
  ((g.next n).filter g.isLeaf).map (fun m => visited ++ [m]) ++
    ((g.next n).filter fun m => !g.isLeaf m).attach.flatMap fun m =>
      pathsFrom (visited ++ [m.1]) m.1
termination_by g.size - n
decreasing_by
  have hmem := (List.mem_filter.mp m.2).1
  have hup := upward_of_mem_next hmem
  omega

def paths (first : ℕ) : List (List ℕ) :=
  if g.isLeaf first then [[first]] else g.pathsFrom [first] first

variable {g} {n m : ℕ} {visited path : List ℕ}

theorem pathsFrom_eq :
    g.pathsFrom visited n = ((g.next n).filter g.isLeaf).map (fun m => visited ++ [m]) ++
      ((g.next n).filter fun m => !g.isLeaf m).flatMap fun m => g.pathsFrom (visited ++ [m]) m := by
  rw [pathsFrom, List.flatMap_subtype (g := fun m => g.pathsFrom (visited ++ [m]) m)
    fun _ _ => rfl, List.unattach_attach]

theorem mem_pathsFrom :
    path ∈ g.pathsFrom visited n ↔
      (∃ m ∈ g.next n, g.isLeaf m = true ∧ path = visited ++ [m]) ∨
      ∃ m ∈ g.next n, g.isLeaf m = false ∧ path ∈ g.pathsFrom (visited ++ [m]) m := by
  rw [pathsFrom, List.mem_append]
  constructor
  · rintro (hleaf | hmore)
    · obtain ⟨m, hm, rfl⟩ := List.mem_map.mp hleaf
      obtain ⟨hnext, hisLeaf⟩ := List.mem_filter.mp hm
      exact Or.inl ⟨m, hnext, hisLeaf, rfl⟩
    · obtain ⟨m, -, hpath⟩ := List.mem_flatMap.mp hmore
      obtain ⟨hnext, hnot⟩ := List.mem_filter.mp m.2
      exact Or.inr ⟨m.1, hnext, by simpa using hnot, hpath⟩
  · rintro (⟨m, hnext, hisLeaf, rfl⟩ | ⟨m, hnext, hnot, hpath⟩)
    · exact Or.inl (List.mem_map.mpr ⟨m, List.mem_filter.mpr ⟨hnext, hisLeaf⟩, rfl⟩)
    · refine Or.inr (List.mem_flatMap.mpr ⟨⟨m, ?_⟩, List.mem_attach _ _, hpath⟩)
      exact List.mem_filter.mpr ⟨hnext, by simpa using hnot⟩

theorem isLeaf_of_mem_next (h : m ∈ g.next n) : g.isLeaf n = false := by
  unfold isLeaf
  unfold next at h
  cases hedges : g.edges n with
  | none =>
    rw [hedges] at h
    cases h
  | some l => rfl

theorem mem_pathsFrom_of_chain {rest : List ℕ} {last : ℕ}
    (hchain : List.IsChain (fun a b => b ∈ g.next a) (n :: (rest ++ [last])))
    (hlast : g.isLeaf last = true) : visited ++ (rest ++ [last]) ∈ g.pathsFrom visited n := by
  induction rest generalizing n visited with
  | nil =>
    rw [mem_pathsFrom]
    obtain ⟨hnext, -⟩ := List.isChain_cons_cons.mp hchain
    exact Or.inl ⟨last, hnext, hlast, rfl⟩
  | cons m rest ih =>
    rw [mem_pathsFrom]
    obtain ⟨hnext, hrest⟩ := List.isChain_cons_cons.mp hchain
    have hnot : g.isLeaf m = false := by
      cases rest with
      | nil => exact isLeaf_of_mem_next (List.isChain_cons_cons.mp hrest).1
      | cons k rest => exact isLeaf_of_mem_next (List.isChain_cons_cons.mp hrest).1
    have hmem := @ih m (visited ++ [m]) hrest
    rw [List.append_assoc] at hmem
    exact Or.inr ⟨m, hnext, hnot, hmem⟩

theorem mem_paths_of_chain {first last : ℕ} {rest : List ℕ}
    (hchain : List.IsChain (fun a b => b ∈ g.next a) (first :: rest))
    (hlast : (first :: rest).getLast? = some last) (hleaf : g.isLeaf last = true) :
    first :: rest ∈ g.paths first := by
  unfold paths
  rcases List.eq_nil_or_concat rest with rfl | ⟨front, m, rfl⟩
  · obtain rfl : first = last := by simpa using hlast
    rw [if_pos hleaf]
    exact List.mem_singleton_self _
  · obtain rfl : m = last := by
      rw [List.concat_eq_append, ← List.cons_append, List.getLast?_concat] at hlast
      exact Option.some.inj hlast
    have hnot : g.isLeaf first = false := by
      cases front with
      | nil => exact isLeaf_of_mem_next (List.isChain_cons_cons.mp hchain).1
      | cons k front => exact isLeaf_of_mem_next (List.isChain_cons_cons.mp hchain).1
    rw [hnot, if_neg (by simp)]
    rw [List.concat_eq_append] at hchain ⊢
    have hmem := @mem_pathsFrom_of_chain g first [first] front m hchain hleaf
    exact hmem

theorem exists_leaf_of_mem_pathsFrom (h : path ∈ g.pathsFrom visited n) :
    ∃ m, m < g.size ∧ g.isLeaf m = true := by
  induction hsize : g.size - n using Nat.strong_induction_on generalizing n visited with
  | _ k ih =>
    rcases mem_pathsFrom.mp h with ⟨m, hnext, hleaf, -⟩ | ⟨m, hnext, -, hmore⟩
    · exact ⟨m, (upward_of_mem_next hnext).2, hleaf⟩
    · have hup := upward_of_mem_next hnext
      exact ih (g.size - m) (by omega) hmore rfl

theorem paths_eq_nil {first : ℕ} (hfirst : first < g.size)
    (hnone : ∀ m, m < g.size → g.isLeaf m = false) : g.paths first = [] := by
  unfold paths
  rw [hnone first hfirst, if_neg (by simp), List.eq_nil_iff_forall_not_mem]
  intro path hpath
  obtain ⟨m, hm, hleaf⟩ := exists_leaf_of_mem_pathsFrom hpath
  rw [hnone m hm] at hleaf
  cases hleaf

end UpwardGraph
