import Matahari.Library.UpwardGraph
import Matahari.ShellCommand

set_option autoImplicit false

/-!
# Completion of commands

`ArgGraph` holds the arguments of a command as a graph in which a path from the first argument to
a leaf is an allowed sequence. `complete` tries the words of the line on all of these.
-/
namespace Matahari.Shell
open Mainloop

variable {V : Type}

/-! ## The graph -/

inductive Node (V : Type) where
  | leaf (l : Leaf V)
  | repeated (args : ArgList V)

/-- The variables of `_addargs` and the dictionary `edges`. The arguments are numbered in the
order in which they are added, and stand for themselves by their numbers. -/
structure Adding (V : Type) where
  nodes : List (Node V)
  edges : ℕ → Option (List ℕ)
  rootsFound : Bool
  roots : List ℕ
  leaves : List ℕ

def addEdges (edges : ℕ → Option (List ℕ)) (srcs dests : List ℕ) : ℕ → Option (List ℕ) :=
  srcs.foldl (fun edges s => Function.update edges s (some ((edges s).getD [] ++ dests))) edges

def Adding.enter (s : Adding V) : Adding V :=
  { s with rootsFound := false, roots := [], leaves := [] }

def Adding.handleOptArgs (s inner : Adding V) : Adding V where
  nodes := inner.nodes
  edges := addEdges inner.edges s.leaves inner.roots
  rootsFound := s.rootsFound
  roots := if s.rootsFound then s.roots else s.roots ++ inner.roots
  leaves := s.leaves ++ inner.leaves

def Adding.handleArg (s : Adding V) (arg : Node V) : Adding V where
  nodes := s.nodes ++ [arg]
  edges := addEdges s.edges s.leaves [s.nodes.length]
  rootsFound := true
  roots := if s.rootsFound then s.roots else s.roots ++ [s.nodes.length]
  leaves := [s.nodes.length]

def addArgs : ArgList V → Adding V → Adding V
  | .nil, s => s
  | .keyword kw rest, s => addArgs rest (s.handleArg (.leaf (.keyword kw)))
  | .parameter p rest, s => addArgs rest (s.handleArg (.leaf (.parameter p)))
  | .optional args rest, s => addArgs rest (s.handleOptArgs (addArgs args s.enter))
  | .repeated args rest, s => addArgs rest (s.handleArg (.repeated args))

def Adding.start : Adding V := ⟨[], fun _ => none, false, [], []⟩

section
variable {edges : ℕ → Option (List ℕ)} {srcs dests : List ℕ} {n m : ℕ}

theorem addEdges_of_not_mem (h : n ∉ srcs) : addEdges edges srcs dests n = edges n := by
  induction srcs generalizing edges with
  | nil => rfl
  | cons s srcs ih =>
    rw [List.mem_cons, not_or] at h
    unfold addEdges
    rw [List.foldl_cons]
    exact (ih h.2).trans (Function.update_of_ne h.1 _ _)

theorem mem_addEdges (hm : m ∈ (addEdges edges srcs dests n).getD []) :
    m ∈ (edges n).getD [] ∨ (n ∈ srcs ∧ m ∈ dests) := by
  induction srcs generalizing edges with
  | nil => exact Or.inl hm
  | cons s srcs ih =>
    unfold addEdges at hm
    rw [List.foldl_cons] at hm
    rcases ih hm with hold | ⟨hn, hd⟩
    · by_cases hs : n = s
      · rw [hs, Function.update_self, Option.getD_some, List.mem_append] at hold
        rcases hold with hold | hd
        · exact Or.inl (hs ▸ hold)
        · exact Or.inr ⟨hs ▸ List.mem_cons_self, hd⟩
      · rw [Function.update_of_ne hs] at hold
        exact Or.inl hold
    · exact Or.inr ⟨List.mem_cons_of_mem _ hn, hd⟩

theorem addEdges_mono (hm : m ∈ (edges n).getD []) :
    m ∈ (addEdges edges srcs dests n).getD [] := by
  induction srcs generalizing edges with
  | nil => exact hm
  | cons s srcs ih =>
    unfold addEdges
    rw [List.foldl_cons]
    apply ih
    by_cases hs : n = s
    · rw [hs, Function.update_self, Option.getD_some]
      exact List.mem_append_left _ (hs ▸ hm)
    · rwa [Function.update_of_ne hs]

theorem addEdges_of_mem (hn : n ∈ srcs) (hd : m ∈ dests) :
    m ∈ (addEdges edges srcs dests n).getD [] := by
  induction srcs generalizing edges with
  | nil => cases hn
  | cons s srcs ih =>
    unfold addEdges
    rw [List.foldl_cons]
    by_cases hs : n ∈ srcs
    · exact ih hs
    · have heq : n = s := (List.mem_cons.mp hn).resolve_right hs
      apply addEdges_mono
      rw [heq, Function.update_self, Option.getD_some]
      exact List.mem_append_right _ hd

theorem addEdges_isSome (hn : n ∈ srcs) : (addEdges edges srcs dests n).isSome = true := by
  induction srcs generalizing edges with
  | nil => cases hn
  | cons s srcs ih =>
    unfold addEdges
    rw [List.foldl_cons]
    by_cases hs : n ∈ srcs
    · exact ih hs
    · have heq : n = s := (List.mem_cons.mp hn).resolve_right hs
      rw [← addEdges, addEdges_of_not_mem hs, heq, Function.update_self]
      rfl

end

/-- The numbers in use are below the next one, and edges lead to larger numbers. The roots are
those found since `base`. -/
structure Adding.Upward (base : ℕ) (s : Adding V) : Prop where
  base_le : base ≤ s.nodes.length
  roots : ∀ n ∈ s.roots, base ≤ n ∧ n < s.nodes.length
  leaves : ∀ n ∈ s.leaves, n < s.nodes.length
  edges : ∀ n m, m ∈ (s.edges n).getD [] → n < m ∧ m < s.nodes.length
  fresh : ∀ n, s.nodes.length ≤ n → s.edges n = none

theorem Adding.Upward.handleArg {base : ℕ} {s : Adding V} (hs : s.Upward base) (arg : Node V) :
    (s.handleArg arg).Upward base := by
  have hlen : (s.handleArg arg).nodes.length = s.nodes.length + 1 := List.length_append
  refine ⟨by rw [hlen]; exact Nat.le_succ_of_le hs.base_le, ?_, ?_, ?_, ?_⟩
  · intro n hn
    rw [hlen]
    unfold Adding.handleArg at hn
    dsimp only at hn
    split at hn
    · have hroot := hs.roots n hn
      omega
    · rcases List.mem_append.mp hn with hold | hnew
      · have hroot := hs.roots n hold
        omega
      · have heq := List.mem_singleton.mp hnew
        have hbase := hs.base_le
        omega
  · intro n hn
    have heq : n = s.nodes.length := List.mem_singleton.mp hn
    omega
  · intro n m hm
    rw [hlen]
    rcases mem_addEdges hm with hold | ⟨hn, hd⟩
    · have hedge := hs.edges n m hold
      omega
    · have hleaf := hs.leaves n hn
      have heq := List.mem_singleton.mp hd
      omega
  · intro n hn
    rw [hlen] at hn
    have hnot : n ∉ s.leaves := fun hmem => absurd (hs.leaves n hmem) (by omega)
    exact (addEdges_of_not_mem hnot).trans (hs.fresh n (by omega))

theorem Adding.Upward.handleOptArgs {base : ℕ} {s inner : Adding V} (hs : s.Upward base)
    (hinner : inner.Upward s.nodes.length) : (s.handleOptArgs inner).Upward base := by
  have hlen := hinner.base_le
  refine ⟨hs.base_le.trans hlen, ?_, ?_, ?_, ?_⟩
  · intro n hn
    change base ≤ n ∧ n < inner.nodes.length
    unfold Adding.handleOptArgs at hn
    dsimp only at hn
    have hbase := hs.base_le
    split at hn
    · have hroot := hs.roots n hn
      omega
    · rcases List.mem_append.mp hn with hold | hnew
      · have hroot := hs.roots n hold
        omega
      · have hroot := hinner.roots n hnew
        omega
  · intro n hn
    change n < inner.nodes.length
    rcases List.mem_append.mp hn with hold | hnew
    · have hleaf := hs.leaves n hold
      omega
    · exact hinner.leaves n hnew
  · intro n m hm
    change n < m ∧ m < inner.nodes.length
    rcases mem_addEdges hm with hold | ⟨hn, hd⟩
    · exact hinner.edges n m hold
    · have hleaf := hs.leaves n hn
      have hroot := hinner.roots m hd
      omega
  · intro n hn
    have hn : inner.nodes.length ≤ n := hn
    have hnot : n ∉ s.leaves := fun hmem => absurd (hs.leaves n hmem) (by omega)
    exact (addEdges_of_not_mem hnot).trans (hinner.fresh n hn)

theorem Adding.Upward.enter {base : ℕ} {s : Adding V} (hs : s.Upward base) :
    s.enter.Upward s.nodes.length :=
  ⟨le_refl _, fun _ h => (List.not_mem_nil h).elim, fun _ h => (List.not_mem_nil h).elim,
    hs.edges, hs.fresh⟩

theorem Adding.upward_start : (Adding.start : Adding V).Upward 0 :=
  ⟨le_refl _, fun _ h => (List.not_mem_nil h).elim, fun _ h => (List.not_mem_nil h).elim,
    fun _ _ h => (List.not_mem_nil h).elim, fun _ _ => rfl⟩

theorem addArgs_upward {base : ℕ} (args : ArgList V) {s : Adding V} (hs : s.Upward base) :
    (addArgs args s).Upward base := by
  induction args generalizing base s with
  | nil => exact hs
  | keyword kw rest ih => exact ih (hs.handleArg _)
  | parameter p rest ih => exact ih (hs.handleArg _)
  | repeated group rest _ ih => exact ih (hs.handleArg _)
  | optional group rest ihgroup ih => exact ih (hs.handleOptArgs (ihgroup hs.enter))

def argGraph (args : ArgList V) : UpwardGraph where
  size := (addArgs args .start).nodes.length
  edges := (addArgs args .start).edges
  upward n l hl m hm := by
    apply (addArgs_upward args Adding.upward_start).edges
    rw [hl]
    exact hm

/-! ## Completing a word -/

def Leaf.complete : Leaf V → Text → Except Raised (List Text)
  | .keyword kw, value => .ok (if value.isPrefixOf kw then [kw ++ [' ']] else [])
  | .parameter p, value => match p.complete with
    | some complete => .ok (complete value)
    | none =>
      if value = [] then .ok [[]]
      else match p.call value with
        | .ok _ => .ok [value ++ [' ']]
        | .error (.invalidArgument _) => .ok []
        | .error e => .error e

/-- The members of a list of arguments; one that is a list itself has no `complete`. -/
def ArgList.members : ArgList V → List (Option (Leaf V))
  | .nil => []
  | .keyword kw rest => some (.keyword kw) :: rest.members
  | .parameter p rest => some (.parameter p) :: rest.members
  | .optional _ rest | .repeated _ rest => none :: rest.members

def cycleTake {α : Type} (xs : List α) (n : ℕ) : List α :=
  (List.range n).filterMap fun i => xs[i % xs.length]?

def chainTake : ℕ → List (Node V) → List (Option (Leaf V))
  | 0, _ | _, [] => []
  | n + 1, .leaf l :: path => some l :: chainTake n path
  | n + 1, .repeated args :: path =>
    if args.members = [] then chainTake (n + 1) path else cycleTake args.members (n + 1)

def completions : List (Option (Leaf V)) → List Text → Except Raised (List Text)
  | _, [] => .ok []
  | [], _ :: _ => .ok []
  | none :: _, _ :: _ => .error (.exception "AttributeError".toList)
  | some a :: arglist, v :: values => do
    let m ← a.complete v
    if m = [] then return []
    else if values = [] then return m
    else completions arglist values

def argPaths (args : ArgList V) : List (List (Node V)) :=
  let s := addArgs args .start
  match s.roots with
  | [] => []
  | first :: _ => ((argGraph args).paths first).map fun path => path.filterMap (s.nodes[·]?)

def CommandHandler.complete (h : CommandHandler V) (text line : Text) :
    Except Raised (Finset Text) :=
  let values := split line
  match values.getLast? with
  | none => .error (.exception "IndexError".toList)
  | some last => do
    let values := if last ≠ text then values ++ [text] else values
    let candidates ← (argPaths h.args).mapM fun path =>
      completions (chainTake values.length path) values
    return candidates.flatten.toFinset

end Matahari.Shell
