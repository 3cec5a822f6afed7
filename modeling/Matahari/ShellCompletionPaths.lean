import Matahari.ShellCompletion

set_option autoImplicit false

/-!
# Completion offers what execution accepts

Both the matcher and the graph are compared with the words over the arguments that a definition
allows: the matcher follows a word until the line ends, and every word is a way along edges of
the graph, from which the graph leads on to its last argument.
-/
namespace Matahari.Shell
open Mainloop

variable {V : Type}

/-! ## Words -/

def ArgList.size : ArgList V → ℕ
  | .nil => 0
  | .keyword _ rest | .parameter _ rest | .repeated _ rest => rest.size + 1
  | .optional args rest => args.size + rest.size

/-- The sequences of arguments that a definition allows, each argument with its number, where the
first has the number `i`. -/
inductive Word : ℕ → ArgList V → List (ℕ × Node V) → Prop where
  | nil {i : ℕ} : Word i .nil []
  | keyword {i : ℕ} {kw : Text} {rest : ArgList V} {w : List (ℕ × Node V)}
      (h : Word (i + 1) rest w) : Word i (.keyword kw rest) ((i, .leaf (.keyword kw)) :: w)
  | parameter {i : ℕ} {p : Parameter V} {rest : ArgList V} {w : List (ℕ × Node V)}
      (h : Word (i + 1) rest w) : Word i (.parameter p rest) ((i, .leaf (.parameter p)) :: w)
  | repeated {i : ℕ} {args rest : ArgList V} {w : List (ℕ × Node V)}
      (h : Word (i + 1) rest w) : Word i (.repeated args rest) ((i, .repeated args) :: w)
  | skip {i : ℕ} {args rest : ArgList V} {w : List (ℕ × Node V)}
      (h : Word (i + args.size) rest w) : Word i (.optional args rest) w
  | take {i : ℕ} {args rest : ArgList V} {w w' : List (ℕ × Node V)}
      (h : Word i args w) (h' : Word (i + args.size) rest w') :
      Word i (.optional args rest) (w ++ w')

def ArgList.nodes : ArgList V → List (Node V)
  | .nil => []
  | .keyword kw rest => .leaf (.keyword kw) :: rest.nodes
  | .parameter p rest => .leaf (.parameter p) :: rest.nodes
  | .repeated args rest => .repeated args :: rest.nodes
  | .optional args rest => args.nodes ++ rest.nodes

theorem ArgList.length_nodes (args : ArgList V) : args.nodes.length = args.size := by
  induction args with
  | nil => rfl
  | keyword kw rest ih => exact congrArg (· + 1) ih
  | parameter p rest ih => exact congrArg (· + 1) ih
  | repeated args rest _ ih => exact congrArg (· + 1) ih
  | optional args rest ihgroup ih =>
    rw [ArgList.nodes, List.length_append, ihgroup, ih]
    rfl

theorem Word.full (args : ArgList V) (i : ℕ) :
    Word i args (args.nodes.zipIdx i |>.map Prod.swap) := by
  induction args generalizing i with
  | nil => exact .nil
  | keyword kw rest ih => exact .keyword (ih (i + 1))
  | parameter p rest ih => exact .parameter (ih (i + 1))
  | repeated args rest _ ih => exact .repeated (ih (i + 1))
  | optional args rest ihgroup ih =>
    rw [ArgList.nodes, List.zipIdx_append, List.map_append, args.length_nodes]
    exact .take (ihgroup i) (ih (i + args.size))

theorem addArgs_nodes (args : ArgList V) (s : Adding V) :
    (addArgs args s).nodes = s.nodes ++ args.nodes := by
  induction args generalizing s with
  | nil => exact (List.append_nil _).symm
  | keyword kw rest ih => exact (ih _).trans (List.append_assoc _ _ _)
  | parameter p rest ih => exact (ih _).trans (List.append_assoc _ _ _)
  | repeated args rest _ ih => exact (ih _).trans (List.append_assoc _ _ _)
  | optional args rest ihgroup ih =>
    refine (ih _).trans ?_
    rw [show (s.handleOptArgs (addArgs args s.enter)).nodes = (addArgs args s.enter).nodes from rfl,
      ihgroup, List.append_assoc]
    rfl

theorem Word.sublist {i : ℕ} {args : ArgList V} {w : List (ℕ × Node V)} (h : Word i args w) :
    w.Sublist (args.nodes.zipIdx i |>.map Prod.swap) := by
  induction h with
  | nil => exact List.Sublist.refl _
  | keyword _ ih => exact ih.cons_cons _
  | parameter _ ih => exact ih.cons_cons _
  | repeated _ ih => exact ih.cons_cons _
  | @skip i args rest w _ ih =>
    rw [ArgList.nodes, List.zipIdx_append, List.map_append, args.length_nodes]
    exact ih.trans (List.sublist_append_right _ _)
  | @take i args rest w w' _ _ ih ih' =>
    rw [ArgList.nodes, List.zipIdx_append, List.map_append, args.length_nodes]
    exact ih.append ih'

theorem Word.node {args : ArgList V} {w : List (ℕ × Node V)} (h : Word 0 args w) {x : ℕ × Node V}
    (hx : x ∈ w) : args.nodes[x.1]? = some x.2 := by
  obtain ⟨y, hy, rfl⟩ := List.mem_map.mp (h.sublist.subset hx)
  exact List.mem_zipIdx_iff_getElem?.mp hy

/-! ## Words are ways along edges -/

def Adding.next (s : Adding V) (n : ℕ) : List ℕ := (s.edges n).getD []

section
variable {s : Adding V}

theorem handleArg_next_mono (arg : Node V) {n m : ℕ} (h : m ∈ s.next n) :
    m ∈ (s.handleArg arg).next n := addEdges_mono h

theorem handleOptArgs_next_mono (inner : Adding V) {n m : ℕ} (h : m ∈ inner.next n) :
    m ∈ (s.handleOptArgs inner).next n := addEdges_mono h

theorem addArgs_mono (args : ArgList V) (s : Adding V) :
    (∀ n m, m ∈ s.next n → m ∈ (addArgs args s).next n) ∧ s.roots ⊆ (addArgs args s).roots := by
  have harg : ∀ (s : Adding V) arg, s.roots ⊆ (s.handleArg arg).roots := by
    intro s arg
    change s.roots ⊆ if s.rootsFound then s.roots else s.roots ++ _
    split
    · exact List.Subset.refl _
    · exact List.subset_append_left _ _
  induction args generalizing s with
  | nil => exact ⟨fun _ _ h => h, List.Subset.refl _⟩
  | keyword kw rest ih =>
    exact ⟨fun n m h => (ih _).1 n m (handleArg_next_mono _ h), List.Subset.trans (harg s _) (ih _).2⟩
  | parameter p rest ih =>
    exact ⟨fun n m h => (ih _).1 n m (handleArg_next_mono _ h), List.Subset.trans (harg s _) (ih _).2⟩
  | repeated args rest _ ih =>
    exact ⟨fun n m h => (ih _).1 n m (handleArg_next_mono _ h), List.Subset.trans (harg s _) (ih _).2⟩
  | optional args rest ihgroup ih =>
    constructor
    · intro n m h
      exact (ih _).1 n m (handleOptArgs_next_mono _ ((ihgroup s.enter).1 n m h))
    · refine List.Subset.trans ?_ (ih _).2
      change s.roots ⊆ if s.rootsFound then s.roots else s.roots ++ _
      split
      · exact List.Subset.refl _
      · exact List.subset_append_left _ _

/-- Where a word begins and ends in the graph: its arguments follow each other, the first follows
the leaves so far, and is a root if there is none yet, and the last is a leaf; the empty word keeps
the leaves. -/
structure Follows (s t : Adding V) (ids : List ℕ) : Prop where
  chain : List.IsChain (fun a b => b ∈ t.next a) ids
  enter : ∀ y ∈ s.leaves, ∀ x ∈ ids.head?, x ∈ t.next y
  root : s.rootsFound = false → ∀ x ∈ ids.head?, x ∈ t.roots
  leave : ∀ x ∈ ids.getLast?, x ∈ t.leaves
  empty : ids = [] → s.leaves ⊆ t.leaves

theorem Follows.handleArg {arg : Node V} {rest : ArgList V} {ids : List ℕ}
    (h : Follows (s.handleArg arg) (addArgs rest (s.handleArg arg)) ids) :
    Follows s (addArgs rest (s.handleArg arg)) (s.nodes.length :: ids) := by
  have hnew : s.nodes.length ∈ (s.handleArg arg).leaves := List.mem_singleton_self _
  refine ⟨?_, ?_, ?_, ?_, fun hnil => by cases hnil⟩
  · cases ids with
    | nil => exact List.isChain_singleton _
    | cons x ids => exact List.isChain_cons_cons.mpr ⟨h.enter _ hnew x rfl, h.chain⟩
  · intro y hy x hx
    obtain rfl : s.nodes.length = x := by simpa using hx
    exact (addArgs_mono rest _).1 _ _ (addEdges_of_mem hy (List.mem_singleton_self _))
  · intro hfound x hx
    obtain rfl : s.nodes.length = x := by simpa using hx
    apply (addArgs_mono rest _).2
    change _ ∈ if s.rootsFound then s.roots else s.roots ++ [s.nodes.length]
    rw [hfound, if_neg (by simp)]
    exact List.mem_append_right _ (List.mem_singleton_self _)
  · intro x hx
    cases ids with
    | nil =>
      obtain rfl : s.nodes.length = x := by simpa using hx
      exact h.empty rfl hnew
    | cons y ids =>
      rw [List.getLast?_cons_cons] at hx
      exact h.leave x hx

theorem Follows.skip (t : Adding V) : Follows s.enter t [] :=
  ⟨.nil, fun _ h => (List.not_mem_nil h).elim, fun _ _ h => (by cases h), fun _ h => (by cases h),
    fun _ => List.nil_subset _⟩

theorem Follows.handleOptArgs {args rest : ArgList V} {ids ids' : List ℕ}
    (h : Follows s.enter (addArgs args s.enter) ids)
    (h' : Follows (s.handleOptArgs (addArgs args s.enter))
      (addArgs rest (s.handleOptArgs (addArgs args s.enter))) ids') :
    Follows s (addArgs rest (s.handleOptArgs (addArgs args s.enter))) (ids ++ ids') := by
  have hmono := addArgs_mono rest (s.handleOptArgs (addArgs args s.enter))
  have hleft : s.leaves ⊆ (s.handleOptArgs (addArgs args s.enter)).leaves :=
    List.subset_append_left _ _
  have hright : (addArgs args s.enter).leaves ⊆ (s.handleOptArgs (addArgs args s.enter)).leaves :=
    List.subset_append_right _ _
  refine ⟨?_, ?_, ?_, ?_, ?_⟩
  · rw [List.isChain_append]
    refine ⟨h.chain.imp fun a b hab => hmono.1 a b (handleOptArgs_next_mono _ hab), h'.chain, ?_⟩
    intro x hx y hy
    exact h'.enter x (hright (h.leave x hx)) y hy
  · intro y hy x hx
    cases ids with
    | nil => exact h'.enter y (hleft hy) x hx
    | cons z ids =>
      exact hmono.1 y x (addEdges_of_mem hy (h.root rfl x hx))
  · intro hfound x hx
    cases ids with
    | nil => exact h'.root hfound x hx
    | cons z ids =>
      apply hmono.2
      change x ∈ if s.rootsFound then s.roots else s.roots ++ (addArgs args s.enter).roots
      rw [hfound, if_neg (by simp)]
      exact List.mem_append_right _ (h.root rfl x hx)
  · intro x hx
    cases ids' with
    | nil =>
      rw [List.append_nil] at hx
      exact h'.empty rfl (hright (h.leave x hx))
    | cons z ids' =>
      rw [List.getLast?_append_cons] at hx
      exact h'.leave x hx
  · intro hnil
    obtain ⟨rfl, rfl⟩ := List.append_eq_nil_iff.mp hnil
    exact List.Subset.trans hleft (h'.empty rfl)

theorem Word.follows {i : ℕ} {args : ArgList V} {w : List (ℕ × Node V)} (h : Word i args w)
    {s : Adding V} (hi : s.nodes.length = i) : Follows s (addArgs args s) (w.map Prod.fst) := by
  have hlen : ∀ (s : Adding V) arg, (s.handleArg arg).nodes.length = s.nodes.length + 1 :=
    fun _ _ => List.length_append
  have hgroup : ∀ (s : Adding V) (args : ArgList V),
      (s.handleOptArgs (addArgs args s.enter)).nodes.length = s.nodes.length + args.size := by
    intro s args
    change (addArgs args s.enter).nodes.length = _
    rw [addArgs_nodes, List.length_append, args.length_nodes]
    rfl
  induction h generalizing s with
  | nil => exact ⟨.nil, fun _ _ _ h => (by cases h), fun _ _ h => (by cases h), fun _ h => (by cases h),
      fun _ => List.Subset.refl _⟩
  | keyword _ ih =>
    subst hi
    exact (ih (hlen s _)).handleArg
  | parameter _ ih =>
    subst hi
    exact (ih (hlen s _)).handleArg
  | repeated _ ih =>
    subst hi
    exact (ih (hlen s _)).handleArg
  | skip _ ih =>
    subst hi
    exact (Follows.skip _).handleOptArgs (ih (hgroup s _))
  | take _ _ ih ih' =>
    subst hi
    rw [List.map_append]
    exact (ih (s := s.enter) rfl).handleOptArgs (ih' (hgroup s _))

end

/-! ## The last argument -/

def ArgList.endsEmpty : ArgList V → Bool
  | .nil => false
  | .keyword _ rest | .parameter _ rest | .repeated _ rest => rest.endsEmpty
  | .optional args .nil => args.size = 0 || args.endsEmpty
  | .optional _ rest => rest.endsEmpty

theorem ArgList.endsEmpty_optional (args : ArgList V) {rest : ArgList V} (h : rest ≠ .nil) :
    (ArgList.optional args rest).endsEmpty = rest.endsEmpty := by
  cases rest with
  | nil => exact absurd rfl h
  | keyword kw rest => rfl
  | parameter p rest => rfl
  | repeated args rest => rfl
  | optional args rest => rfl

theorem ArgList.endsEmpty_of_size_zero {args : ArgList V} (h : args.size = 0) :
    args.endsEmpty = false ↔ args = .nil := by
  induction args with
  | nil => exact ⟨fun _ => rfl, fun _ => rfl⟩
  | keyword kw rest => cases h
  | parameter p rest => cases h
  | repeated args rest => cases h
  | optional args rest _ ih =>
    obtain ⟨hgroup, hrest⟩ := Nat.add_eq_zero_iff.mp h
    by_cases hnil : rest = .nil
    · subst hnil
      simp [ArgList.endsEmpty, hgroup]
    · rw [ArgList.endsEmpty_optional args hnil, ih hrest]
      exact ⟨fun h => absurd h hnil, fun h => by cases h⟩

/-- Groups without arguments leave the leaves and the roots alone. But the leaves get a list of
edges, which may be empty. -/
theorem addArgs_of_size_zero {args : ArgList V} (h : args.size = 0) (s : Adding V) :
    (addArgs args s).leaves = s.leaves ∧ (addArgs args s).roots = s.roots ∧
      (∀ n ∉ s.leaves, (addArgs args s).edges n = s.edges n) ∧
      ∀ n ∈ s.leaves, (addArgs args s).edges n = none ↔ s.edges n = none ∧ args = .nil := by
  induction args generalizing s with
  | nil => exact ⟨rfl, rfl, fun _ _ => rfl, fun _ _ => ⟨fun hnone => ⟨hnone, rfl⟩, fun hb => hb.1⟩⟩
  | keyword kw rest => cases h
  | parameter p rest => cases h
  | repeated args rest => cases h
  | optional args rest ihgroup ih =>
    obtain ⟨hgroup, hrest⟩ := Nat.add_eq_zero_iff.mp h
    obtain ⟨hleaves, hroots, hedges, -⟩ := ihgroup hgroup s.enter
    obtain ⟨hleaves', hroots', hedges', hnone⟩ := ih hrest (s.handleOptArgs (addArgs args s.enter))
    have hsame : (s.handleOptArgs (addArgs args s.enter)).leaves = s.leaves := by
      change s.leaves ++ (addArgs args s.enter).leaves = s.leaves
      rw [hleaves]
      exact List.append_nil _
    have hadd : (s.handleOptArgs (addArgs args s.enter)).edges = addEdges s.edges s.leaves [] := by
      change addEdges (addArgs args s.enter).edges s.leaves (addArgs args s.enter).roots = _
      rw [hroots, show (addArgs args s.enter).edges = s.edges from
        funext fun n => hedges n (List.not_mem_nil)]
      rfl
    rw [hsame] at hleaves' hedges' hnone
    refine ⟨hleaves', hroots'.trans ?_, fun n hn => ?_, fun n hn => ?_⟩
    · change (if s.rootsFound then s.roots else s.roots ++ (addArgs args s.enter).roots) = s.roots
      rw [hroots]
      split
      · rfl
      · exact List.append_nil _
    · rw [addArgs, hedges' n hn, hadd, addEdges_of_not_mem hn]
    · have hsome : (addEdges s.edges s.leaves [] n).isSome = true := addEdges_isSome hn
      rw [addArgs, hnone n hn, hadd]
      constructor
      · rintro ⟨heq, -⟩
        rw [heq] at hsome
        cases hsome
      · rintro ⟨-, heq⟩
        cases heq

def LastLeaf (args : ArgList V) (t : Adding V) : Prop :=
  t.nodes.length - 1 ∈ t.leaves ∧
    (t.edges (t.nodes.length - 1) = none ↔ args.endsEmpty = false)

theorem lastLeaf_handleArg {base : ℕ} {s : Adding V} (hs : s.Upward base) (arg : Node V)
    {rest : ArgList V}
    (ih : 0 < rest.size → LastLeaf rest (addArgs rest (s.handleArg arg))) :
    LastLeaf rest (addArgs rest (s.handleArg arg)) := by
  rcases Nat.eq_zero_or_pos rest.size with hzero | hpos
  case inr => exact ih hpos
  obtain ⟨hleaves, -, -, hnone⟩ := addArgs_of_size_zero hzero (s.handleArg arg)
  have hlast : (addArgs rest (s.handleArg arg)).nodes.length - 1 = s.nodes.length := by
    rw [addArgs_nodes, List.length_append, rest.length_nodes, hzero]
    exact congrArg (· - 1) List.length_append
  have hmem : s.nodes.length ∈ (s.handleArg arg).leaves := List.mem_singleton_self _
  have hfree : (s.handleArg arg).edges s.nodes.length = none := by
    have hnot : s.nodes.length ∉ s.leaves := fun h => absurd (hs.leaves _ h) (lt_irrefl _)
    exact (addEdges_of_not_mem hnot).trans (hs.fresh _ (le_refl _))
  unfold LastLeaf
  rw [hlast, hleaves, hnone _ hmem, ArgList.endsEmpty_of_size_zero hzero]
  exact ⟨hmem, fun h => h.2, fun h => ⟨hfree, h⟩⟩

theorem addArgs_last {args : ArgList V} (hpos : 0 < args.size) {base : ℕ} {s : Adding V}
    (hs : s.Upward base) : LastLeaf args (addArgs args s) := by
  induction args generalizing base s with
  | nil => cases hpos
  | keyword kw rest ih => exact lastLeaf_handleArg hs _ fun h => ih h (hs.handleArg _)
  | parameter p rest ih => exact lastLeaf_handleArg hs _ fun h => ih h (hs.handleArg _)
  | repeated args rest _ ih => exact lastLeaf_handleArg hs _ fun h => ih h (hs.handleArg _)
  | optional args rest ihgroup ih =>
    have hinner := addArgs_upward args hs.enter
    rcases Nat.eq_zero_or_pos rest.size with hzero | hrest
    case inr =>
      obtain ⟨hmem, hedges⟩ := ih hrest (hs.handleOptArgs hinner)
      have hne : rest ≠ .nil := by
        rintro rfl
        cases hrest
      rw [← ArgList.endsEmpty_optional args hne] at hedges
      exact ⟨hmem, hedges⟩
    have hgroup : 0 < args.size := by
      change 0 < args.size + rest.size at hpos
      omega
    obtain ⟨hmem, hedges⟩ := ihgroup hgroup hs.enter
    obtain ⟨hleaves, -, -, hnone⟩ :=
      addArgs_of_size_zero hzero (s.handleOptArgs (addArgs args s.enter))
    have hnodes : (addArgs (.optional args rest) s).nodes.length =
        (addArgs args s.enter).nodes.length := by
      rw [addArgs, addArgs_nodes, List.length_append, rest.length_nodes, hzero]
      rfl
    have hin : (addArgs args s.enter).nodes.length - 1 ∈
        (s.handleOptArgs (addArgs args s.enter)).leaves := List.mem_append_right _ hmem
    -- the last node belongs to the group, and the edges to its roots come from nodes before it
    have hold : (s.handleOptArgs (addArgs args s.enter)).edges
        ((addArgs args s.enter).nodes.length - 1) =
        (addArgs args s.enter).edges ((addArgs args s.enter).nodes.length - 1) := by
      apply addEdges_of_not_mem
      intro hleaf
      have hlt := hs.leaves _ hleaf
      have hlen : (addArgs args s.enter).nodes.length = s.nodes.length + args.size := by
        rw [addArgs_nodes, List.length_append, args.length_nodes]
        rfl
      omega
    unfold LastLeaf
    rw [hnodes, addArgs, hleaves, hnone _ hin, hold, hedges]
    refine ⟨hin, ?_⟩
    by_cases hnil : rest = .nil
    · subst hnil
      have hne : args.size ≠ 0 := by omega
      simp [ArgList.endsEmpty, hne]
    · rw [ArgList.endsEmpty_optional args hnil, ArgList.endsEmpty_of_size_zero hzero]
      exact ⟨fun h => h.2, fun h => absurd h hnil⟩

/-! ## The paths of the graph -/

theorem addArgs_roots (args : ArgList V) {s : Adding V} (h : s.rootsFound = true) :
    (addArgs args s).roots = s.roots := by
  have harg : ∀ {s : Adding V} (arg : Node V), s.rootsFound = true →
      (s.handleArg arg).roots = s.roots := fun _ hfound => if_pos hfound
  induction args generalizing s with
  | nil => rfl
  | keyword kw rest ih => exact (ih rfl).trans (harg _ h)
  | parameter p rest ih => exact (ih rfl).trans (harg _ h)
  | repeated args rest _ ih => exact (ih rfl).trans (harg _ h)
  | optional args rest _ ih =>
    have hgroup : (s.handleOptArgs (addArgs args s.enter)).roots = s.roots := if_pos h
    exact (ih (s := s.handleOptArgs (addArgs args s.enter)) h).trans hgroup

section
variable {name : Text} {args : ArgList V}

theorem argPaths_eq (name : Text) (args : ArgList V) :
    argPaths (.keyword name args) = ((argGraph (.keyword name args)).paths 0).map fun path =>
      path.filterMap ((ArgList.keyword name args).nodes[·]?) := by
  have hroots : (addArgs (.keyword name args) .start).roots = [0] := addArgs_roots args rfl
  have hnodes : (addArgs (.keyword name args) .start).nodes = (ArgList.keyword name args).nodes :=
    addArgs_nodes _ _
  unfold argPaths
  dsimp only
  rw [hroots, hnodes]

theorem size_argGraph (args : ArgList V) : (argGraph args).size = args.size := by
  change (addArgs args .start).nodes.length = _
  rw [addArgs_nodes, List.length_append, args.length_nodes]
  exact Nat.zero_add _

theorem argGraph_chain (args : ArgList V) :
    List.IsChain (fun a b => b ∈ (argGraph args).next a) (List.range' 0 args.size) := by
  have hfollows := (Word.full args 0).follows (s := .start) rfl
  have hids : (args.nodes.zipIdx 0 |>.map Prod.swap).map Prod.fst = List.range' 0 args.size := by
    rw [List.map_map, ← args.length_nodes]
    exact List.zipIdx_map_snd 0 args.nodes
  rw [hids] at hfollows
  exact hfollows.chain

theorem mem_next_succ (args : ArgList V) {n : ℕ} (h : n + 1 < args.size) :
    n + 1 ∈ (argGraph args).next n := by
  have hchain := argGraph_chain args
  rw [show args.size = (n + 1) + (args.size - (n + 1)) by omega, ← List.range'_append_1,
    List.isChain_append] at hchain
  refine hchain.2.2 n ?_ (n + 1) ?_
  · simp [List.getLast?_range']
  · rw [List.head?_range', if_neg (by omega)]
    simp

theorem argGraph_chain_from (args : ArgList V) {n : ℕ} (h : n < args.size) :
    List.IsChain (fun a b => b ∈ (argGraph args).next a)
      (n :: List.range' (n + 1) (args.size - (n + 1))) := by
  have hchain := argGraph_chain args
  rw [show args.size = n + (args.size - n) by omega, ← List.range'_append_1,
    List.isChain_append, Nat.zero_add, show args.size - n = args.size - (n + 1) + 1 by omega,
    List.range'_succ] at hchain
  exact hchain.2.1

theorem isLeaf_argGraph {n : ℕ} (h : n < (ArgList.keyword name args).size) :
    (argGraph (.keyword name args)).isLeaf n = true ↔
      n + 1 = (ArgList.keyword name args).size ∧ args.endsEmpty = false := by
  unfold UpwardGraph.isLeaf
  rw [Option.isNone_iff_eq_none]
  by_cases hlast : n + 1 = (ArgList.keyword name args).size
  · have hpos : 0 < (ArgList.keyword name args).size := Nat.succ_pos _
    have hleaf := (addArgs_last hpos Adding.upward_start).2
    have hn : (addArgs (.keyword name args) Adding.start).nodes.length - 1 = n := by
      rw [show (addArgs (.keyword name args) Adding.start).nodes.length =
        (ArgList.keyword name args).size from size_argGraph _]
      omega
    rw [hn] at hleaf
    exact ⟨fun h => ⟨hlast, hleaf.mp h⟩, fun h => hleaf.mpr h.2⟩
  · have hnot := UpwardGraph.isLeaf_of_mem_next (mem_next_succ (.keyword name args) (n := n) (by omega))
    unfold UpwardGraph.isLeaf at hnot
    refine ⟨fun h => ?_, fun h => absurd h.1 hlast⟩
    rw [h] at hnot
    cases hnot

theorem Word.extends {w : List (ℕ × Node V)} (h : Word 0 (.keyword name args) w)
    (hends : args.endsEmpty = false) :
    ∃ more, w.map Prod.snd ++ more ∈ argPaths (.keyword name args) := by
  have hchain := (h.follows (s := .start) rfl).chain
  have hnode : ∀ x ∈ w, (ArgList.keyword name args).nodes[x.1]? = some x.2 := fun x hx => h.node hx
  have hmap : (w.map Prod.fst).filterMap ((ArgList.keyword name args).nodes[·]?) =
      w.map Prod.snd := by
    rw [List.filterMap_map, ← List.filterMap_eq_map]
    exact List.filterMap_congr hnode
  cases h with
  | @keyword _ _ _ w h =>
    obtain ⟨last, hlast⟩ : ∃ x, (((0, Node.leaf (.keyword name)) :: w).map Prod.fst).getLast? =
        some x := Option.isSome_iff_exists.mp (by simp)
    have hbound : last < (ArgList.keyword name args).size := by
      obtain ⟨x, hx, rfl⟩ := List.mem_map.mp (List.mem_of_getLast? hlast)
      rw [← ArgList.length_nodes]
      exact (List.getElem?_eq_some_iff.mp (hnode x hx)).1
    obtain ⟨hlink, hrest⟩ := List.isChain_cons.mp
      (argGraph_chain_from (.keyword name args) hbound)
    have hway : List.IsChain (fun a b => b ∈ (argGraph (.keyword name args)).next a)
        (0 :: (w.map Prod.fst ++
          List.range' (last + 1) ((ArgList.keyword name args).size - (last + 1)))) := by
      rw [← List.cons_append, List.isChain_append]
      refine ⟨hchain, hrest, fun x hx y hy => ?_⟩
      obtain rfl : last = x := Option.some.inj (hlast.symm.trans hx)
      exact hlink y hy
    have hend : (0 :: (w.map Prod.fst ++
        List.range' (last + 1) ((ArgList.keyword name args).size - (last + 1)))).getLast? =
        some ((ArgList.keyword name args).size - 1) := by
      rw [← List.cons_append, List.getLast?_append, List.getLast?_range']
      split
      · refine hlast.trans (congrArg some ?_)
        omega
      · refine congrArg some ?_
        omega
    have hleaf : (argGraph (.keyword name args)).isLeaf ((ArgList.keyword name args).size - 1) =
        true := by
      rw [isLeaf_argGraph (by omega)]
      exact ⟨by omega, hends⟩
    refine ⟨(List.range' (last + 1) ((ArgList.keyword name args).size - (last + 1))).filterMap
      ((ArgList.keyword name args).nodes[·]?), ?_⟩
    rw [argPaths_eq, ← hmap, ← List.filterMap_append]
    exact List.mem_map_of_mem (UpwardGraph.mem_paths_of_chain hway hend hleaf)

theorem argPaths_eq_nil (name : Text) (hends : args.endsEmpty = true) :
    argPaths (.keyword name args) = [] := by
  rw [argPaths_eq, UpwardGraph.paths_eq_nil]
  · rfl
  · rw [size_argGraph]
    exact Nat.succ_pos _
  · intro n hn
    rw [size_argGraph] at hn
    rw [← Bool.not_eq_true, isLeaf_argGraph hn]
    rintro ⟨-, hno⟩
    rw [hends] at hno
    cases hno

end

end Matahari.Shell
