import Matahari.Library.Lines
import Matahari.DbusReplies

set_option autoImplicit false

/-!
# The paths of the objects on a bus

A service has a tree of objects. `getObjectPaths` asks for the document of each of them,
and gives the paths of those that have something else in it than nodes.
-/
namespace Matahari.DbusBridge
open Mainloop PartialState Lines

structure Node where
  fails : Bool
  hasContent : Bool
  deriving DecidableEq, Repr

/-- The objects right below one, in the order of its document, with those below them. -/
inductive Forest where
  | nil
  | cons (name : Text) (node : Node) (children rest : Forest)

namespace Forest

def names : Forest → List Text
  | nil => []
  | cons name _ _ rest => name :: rest.names

def WellNamed : Forest → Prop
  | nil => True
  | cons name _ children rest =>
    name ≠ [] ∧ '/' ∉ name ∧ name ∉ rest.names ∧ children.WellNamed ∧ rest.WellNamed

/-- All objects in post-order. An object is the line of those from the top down to it. -/
def postOrder : Forest → List (List (Text × Node))
  | nil => []
  | cons name node children rest =>
    children.postOrder.map ((name, node) :: ·) ++ [[(name, node)]] ++ rest.postOrder

inductive Line : Forest → List (Text × Node) → Prop
  | here (name : Text) (node : Node) (children rest : Forest) :
      Line (cons name node children rest) [(name, node)]
  | inside {name : Text} {node : Node} {children rest : Forest} {line : List (Text × Node)} :
      Line children line → Line (cons name node children rest) ((name, node) :: line)
  | after {name : Text} {node : Node} {children rest : Forest} {line : List (Text × Node)} :
      Line rest line → Line (cons name node children rest) line

end Forest

structure ObjectTree where
  root : Node
  children : Forest
  wellNamed : children.WellNamed

namespace ObjectTree

def postOrder (t : ObjectTree) : List (List (Text × Node)) := t.children.postOrder ++ [[]]

def Line (t : ObjectTree) (line : List (Text × Node)) : Prop :=
  line = [] ∨ t.children.Line line

/-- The introspections down to the object succeed, and its document has content. -/
def listed (t : ObjectTree) (line : List (Text × Node)) : Bool :=
  !t.root.fails && line.all (!·.2.fails) && ((line.map (·.2)).getLast?.getD t.root).hasContent

end ObjectTree

def pathOf (line : List (Text × Node)) : Text :=
  if line = [] then "/".toList else following '/' (line.map (·.1))

/-- The bus answers for the objects that the elements of a document name, for each under its own
path and as often as it is asked. `above` is the line of the object whose document it is. -/
inductive Reports (bus : Bus) (busName : Text) : List (Text × Node) → List Xml → Forest → Prop
  | nil (above : List (Text × Node)) : Reports bus busName above [] .nil
  | content {above : List (Text × Node)} {x : Xml} {xs : List Xml} {forest : Forest} :
      x.hasTag "node" = false → Reports bus busName above xs forest →
      Reports bus busName above (x :: xs) forest
  | failing {above : List (Text × Node)} {x : Xml} {xs : List Xml} {name : Text} {node : Node}
      {children rest : Forest} :
      x.hasTag "node" = true → x.getProp "name" = some name → node.fails = true →
      (∀ n ys, bus.introspect busName (pathOf (above ++ [(name, node)])) n ≠ .xml ys) →
      Reports bus busName above xs rest →
      Reports bus busName above (x :: xs) (.cons name node children rest)
  | object {above : List (Text × Node)} {x : Xml} {xs ys : List Xml} {name : Text} {node : Node}
      {children rest : Forest} :
      x.hasTag "node" = true → x.getProp "name" = some name → node.fails = false →
      (∀ n, bus.introspect busName (pathOf (above ++ [(name, node)])) n = .xml ys) →
      node.hasContent = ys.any (!·.hasTag "node") →
      Reports bus busName (above ++ [(name, node)]) ys children →
      Reports bus busName above xs rest →
      Reports bus busName above (x :: xs) (.cons name node children rest)

def ObjectTree.Reported (t : ObjectTree) (bus : Bus) (busName : Text) : Prop :=
  if t.root.fails then ∀ n ys, bus.introspect busName (pathOf []) n ≠ .xml ys
  else ∃ ys, (∀ n, bus.introspect busName (pathOf []) n = .xml ys) ∧
    t.root.hasContent = ys.any (!·.hasTag "node") ∧ Reports bus busName [] ys t.children

def Forest.listing : Forest → Text → List Text
  | nil, _ => []
  | cons name node children rest, objectPath =>
    (if node.fails then []
      else if node.hasContent then
        children.listing (childPath objectPath name) ++ [childPath objectPath name]
      else children.listing (childPath objectPath name)) ++ rest.listing objectPath

section
variable {bus : Bus}

theorem getObjectPaths_failing {busName objectPath : Text} {depth : ℕ} (hdepth : 1 ≤ depth)
    (h : ∀ n ys, bus.introspect busName objectPath n ≠ .xml ys) (s : Agent) :
    getObjectPaths bus busName depth objectPath s = some ([], s.ticked) := by
  obtain ⟨k, rfl⟩ := Nat.exists_eq_add_of_le' hdepth
  exact getObjectPaths_refused (h s.clock)

theorem getObjectPaths_xml {s s' : Agent} {busName objectPath : Text} {depth : ℕ}
    {ys : List Xml} {r : List Text × Bool}
    (hys : ∀ n, bus.introspect busName objectPath n = .xml ys)
    (hvisit : visitNodes (getObjectPaths bus busName depth) objectPath ys s.ticked =
      some (r, s')) :
    getObjectPaths bus busName (depth + 1) objectPath s =
      some (if r.2 then r.1 ++ [objectPath] else r.1, s') := by
  rw [getObjectPaths, bind_of_eq (dbusIntrospect_apply busName objectPath s), hys]
  exact bind_of_eq hvisit _

theorem childPath_pathOf {above : List (Text × Node)} (habove : ∀ x ∈ above, x.1 ≠ [])
    (name : Text) (node : Node) :
    childPath (pathOf above) name = pathOf (above ++ [(name, node)]) := by
  cases above with
  | nil => exact congrArg ('/' :: ·) (List.append_nil name).symm
  | cons x above =>
    have hfirst : 0 < x.1.length := List.length_pos_iff.mpr (habove x List.mem_cons_self)
    have hpath : pathOf (x :: above) = '/' :: (x.1 ++ following '/' (above.map (·.1))) := rfl
    have hlong : (pathOf (x :: above)).length > 1 := by
      rw [hpath, List.length_cons, List.length_append]
      omega
    have hbelow : pathOf (x :: above ++ [(name, node)]) =
        following '/' ((x :: above ++ [(name, node)]).map (·.1)) := rfl
    rw [childPath, if_pos hlong, hbelow, following, List.map_append, List.flatMap_append]
    exact congrArg _ (List.append_nil ('/' :: name)).symm

/-- The loop over a document finds what is below the object, at every sufficient depth. -/
theorem visitNodes_reports {busName : Text} {above : List (Text × Node)} {xs : List Xml}
    {forest : Forest} (h : Reports bus busName above xs forest) (hwell : forest.WellNamed)
    (habove : ∀ x ∈ above, x.1 ≠ []) :
    ∃ bound, ∀ depth, bound ≤ depth → ∀ s : Agent,
      ∃ s', visitNodes (getObjectPaths bus busName depth) (pathOf above) xs s =
        some ((forest.listing (pathOf above), xs.any (!·.hasTag "node")), s') := by
  induction h with
  | nil above => exact ⟨0, fun depth _ s => ⟨s, rfl⟩⟩
  | @content above x xs forest hx _ ih =>
    obtain ⟨bound, ih⟩ := ih hwell habove
    refine ⟨bound, fun depth hd s => ?_⟩
    obtain ⟨s', hrest⟩ := ih depth hd s
    refine ⟨s', ?_⟩
    rw [visitNodes, if_neg (by simp [hx]), bind_of_eq hrest, List.any_cons, hx]
    rfl
  | @failing above x xs name node children rest hx hname hfails hno _ ih =>
    obtain ⟨_, _, _, _, hrest⟩ := hwell
    obtain ⟨bound, ih⟩ := ih hrest habove
    refine ⟨bound + 1, fun depth hd s => ?_⟩
    obtain ⟨s', hrest⟩ := ih depth (by omega) s.ticked
    have hchild := getObjectPaths_failing (show 1 ≤ depth by omega) hno s
    rw [← childPath_pathOf habove] at hchild
    refine ⟨s', ?_⟩
    rw [visitNodes, if_pos hx, hname, List.any_cons, hx, Forest.listing, if_pos hfails]
    dsimp only
    rw [bind_of_eq hchild, bind_of_eq hrest]
    rfl
  | @object above x xs ys name node children rest hx hname hfails hys hcontent _ _ ihy ih =>
    obtain ⟨hne, _, _, hchildren, hrest⟩ := hwell
    have hinside : ∀ y ∈ above ++ [(name, node)], y.1 ≠ [] := by
      rw [List.forall_mem_append, List.forall_mem_singleton]
      exact ⟨habove, hne⟩
    obtain ⟨bound₁, ihy⟩ := ihy hchildren hinside
    obtain ⟨bound₂, ih⟩ := ih hrest habove
    refine ⟨bound₁ + bound₂ + 1, fun depth hd s => ?_⟩
    obtain ⟨k, rfl⟩ := Nat.exists_eq_add_of_le' hd
    obtain ⟨t, hbelow⟩ := ihy (k + (bound₁ + bound₂)) (by omega) s.ticked
    obtain ⟨s', hrest⟩ := ih (k + (bound₁ + bound₂ + 1)) (by omega) t
    have hchild := getObjectPaths_xml hys hbelow
    rw [← childPath_pathOf habove] at hchild
    refine ⟨s', ?_⟩
    rw [visitNodes, if_pos hx, hname, List.any_cons, hx, Forest.listing, hfails, hcontent]
    dsimp only
    change (getObjectPaths bus busName (k + (bound₁ + bound₂) + 1)
      (childPath (pathOf above) name) >>= _) s = _
    rw [bind_of_eq hchild]
    exact bind_of_eq hrest _

end

/-! ## The lines of the tree -/

section
variable {forest : Forest} {line : List (Text × Node)}

theorem Forest.mem_postOrder (forest : Forest) (line : List (Text × Node)) :
    line ∈ forest.postOrder ↔ forest.Line line := by
  constructor
  · intro h
    induction forest generalizing line with
    | nil => cases h
    | cons name node children rest ihc ihr =>
      rw [postOrder, List.mem_append, List.mem_append, List.mem_map, List.mem_singleton] at h
      obtain (⟨line, hline, rfl⟩ | rfl) | h := h
      · exact .inside (ihc line hline)
      · exact .here name node children rest
      · exact .after (ihr line h)
  · intro h
    induction h with
    | here name node children rest =>
      exact List.mem_append_left _ (List.mem_append_right _ (List.mem_singleton_self _))
    | inside _ ih =>
      exact List.mem_append_left _ (List.mem_append_left _ (List.mem_map_of_mem ih))
    | after _ ih => exact List.mem_append_right _ ih

theorem Forest.Line.ne_nil (h : forest.Line line) : line ≠ [] := by
  induction h with
  | here => exact List.cons_ne_nil _ _
  | inside => exact List.cons_ne_nil _ _
  | after _ ih => exact ih

theorem Forest.Line.head_mem (h : forest.Line line) :
    ∃ name node below, line = (name, node) :: below ∧ name ∈ forest.names := by
  induction h with
  | here name node children rest => exact ⟨name, node, [], rfl, List.mem_cons_self⟩
  | @inside name node children rest line _ _ => exact ⟨name, node, line, rfl, List.mem_cons_self⟩
  | after _ ih =>
    obtain ⟨name, node, below, hline, hname⟩ := ih
    exact ⟨name, node, below, hline, List.mem_cons_of_mem _ hname⟩

theorem Forest.Line.components (hwell : forest.WellNamed) (h : forest.Line line) :
    ∀ name ∈ line.map (·.1), name ≠ [] ∧ '/' ∉ name := by
  induction h with
  | here name node children rest =>
    exact List.forall_mem_singleton.mpr ⟨hwell.1, hwell.2.1⟩
  | inside _ ih =>
    exact List.forall_mem_cons.mpr ⟨⟨hwell.1, hwell.2.1⟩, ih hwell.2.2.2.1⟩
  | after _ ih => exact ih hwell.2.2.2.2

/-- No two objects have the same names above and at them. -/
theorem Forest.nodup_names (hwell : forest.WellNamed) :
    (forest.postOrder.map (·.map (·.1))).Nodup := by
  induction forest with
  | nil => exact List.nodup_nil
  | cons name node children rest ihc ihr =>
    obtain ⟨_, _, hname, hchildren, hrest⟩ := hwell
    have hinside : ((children.postOrder.map ((name, node) :: ·)).map (·.map (·.1))).Nodup := by
      have hmap : (children.postOrder.map ((name, node) :: ·)).map (·.map (·.1)) =
          (children.postOrder.map (·.map (·.1))).map (name :: ·) := by
        rw [List.map_map, List.map_map]
        rfl
      rw [hmap]
      exact (ihc hchildren).map (List.cons_injective)
    rw [postOrder, List.map_append, List.map_append]
    refine List.Nodup.append (List.Nodup.append hinside (List.nodup_singleton _) ?_) (ihr hrest) ?_
    · rw [List.disjoint_left]
      intro address haddress hself
      obtain ⟨line', hline', rfl⟩ := List.mem_map.mp haddress
      obtain ⟨line, hline, rfl⟩ := List.mem_map.mp hline'
      have hnil : line.map (·.1) = [] := List.tail_eq_of_cons_eq (List.mem_singleton.mp hself)
      exact ((children.mem_postOrder line).mp hline).ne_nil (List.map_eq_nil_iff.mp hnil)
    · rw [List.disjoint_left]
      intro address haddress hafter
      have hhead : address.head? = some name := by
        rcases List.mem_append.mp haddress with hmem | hmem
        · obtain ⟨line', hline', rfl⟩ := List.mem_map.mp hmem
          obtain ⟨line, _, rfl⟩ := List.mem_map.mp hline'
          rfl
        · rw [List.mem_singleton.mp hmem]
          rfl
      obtain ⟨line, hline, rfl⟩ := List.mem_map.mp hafter
      obtain ⟨name', node', below, rfl, hmem⟩ := ((rest.mem_postOrder line).mp hline).head_mem
      cases hhead
      exact hname hmem

def stem (objectPath : Text) : Text := if objectPath.length > 1 then objectPath else []

theorem childPath_eq {objectPath : Text} (hpath : objectPath = "/".toList ∨ objectPath.length > 1)
    (name : Text) : childPath objectPath name = stem objectPath ++ '/' :: name := by
  rw [childPath, stem]
  obtain rfl | hlong := hpath
  · rfl
  · rw [if_pos hlong, if_pos hlong]

def listedBelow (above : Node) (line : List (Text × Node)) : Bool :=
  line.all (!·.2.fails) && ((line.map (·.2)).getLast?.getD above).hasContent

theorem listedBelow_cons (above : Node) (name : Text) (node : Node) (line : List (Text × Node)) :
    listedBelow above ((name, node) :: line) = (!node.fails && listedBelow node line) := by
  rw [listedBelow, listedBelow, List.all_cons, List.map_cons, List.getLast?_cons, Bool.and_assoc]
  rfl

/-- The code finds the objects in post-order. -/
theorem Forest.listing_eq (hwell : forest.WellNamed) (above : Node) {objectPath : Text}
    (hpath : objectPath = "/".toList ∨ objectPath.length > 1) :
    forest.listing objectPath = (forest.postOrder.filter (listedBelow above)).map fun line =>
      stem objectPath ++ following '/' (line.map (·.1)) := by
  induction forest generalizing objectPath above with
  | nil => rfl
  | cons name node children rest ihc ihr =>
    obtain ⟨hne, _, _, hchildren, hrest⟩ := hwell
    have hchild := childPath_eq hpath name
    have hlong : (childPath objectPath name).length > 1 := by
      rw [hchild, List.length_append, List.length_cons]
      have := List.length_pos_iff.mpr hne
      omega
    have hinside := ihc hchildren node (.inr hlong)
    rw [listing, ihr hrest above hpath, postOrder, List.filter_append, List.filter_append,
      List.map_append, List.map_append, List.filter_map, List.map_map]
    congr 1
    have hpred : listedBelow above ∘ ((name, node) :: ·) =
        fun line => !node.fails && listedBelow node line :=
      funext fun line => listedBelow_cons above name node line
    have hself : listedBelow above [(name, node)] = (!node.fails && node.hasContent) :=
      listedBelow_cons above name node []
    rw [hpred]
    cases hfails : node.fails with
    | true => simp [hself, hfails]
    | false =>
      have hpaths : ∀ line : List (Text × Node),
          stem objectPath ++ following '/' (((name, node) :: line).map (·.1)) =
            stem (childPath objectPath name) ++ following '/' (line.map (·.1)) := by
        intro line
        rw [show stem (childPath objectPath name) = _ from if_pos hlong, hchild, List.append_assoc]
        rfl
      have hmap : ((children.postOrder.filter (listedBelow node)).map
          ((fun line => stem objectPath ++ following '/' (line.map (·.1))) ∘
            ((name, node) :: ·))) = children.listing (childPath objectPath name) := by
        rw [hinside]
        exact List.map_congr_left fun line _ => hpaths line
      have hown : stem objectPath ++ following '/' [name] = childPath objectPath name := by
        rw [hchild]
        exact congrArg _ (List.append_nil _)
      simp only [Bool.not_false, Bool.true_and, Bool.false_eq_true, if_false, hmap]
      cases hcontent : node.hasContent with
      | true => simp [hself, hfails, hcontent, hown]
      | false => simp [hself, hfails, hcontent]

theorem pathOf_inj {line line' : List (Text × Node)}
    (h : ∀ name ∈ line.map (·.1), name ≠ [] ∧ '/' ∉ name)
    (h' : ∀ name ∈ line'.map (·.1), name ≠ [] ∧ '/' ∉ name) (heq : pathOf line = pathOf line') :
    line.map (·.1) = line'.map (·.1) := by
  have hroot : ∀ {x : Text × Node} {line : List (Text × Node)}, x.1 ≠ [] →
      pathOf (x :: line) ≠ pathOf [] := by
    intro x line hne hpath
    have htail : x.1 ++ following '/' (line.map (·.1)) = [] := List.tail_eq_of_cons_eq hpath
    exact hne (List.append_eq_nil_iff.mp htail).1
  cases line with
  | nil =>
    cases line' with
    | nil => rfl
    | cons x line' => exact absurd heq.symm (hroot (h' x.1 List.mem_cons_self).1)
  | cons x line =>
    cases line' with
    | nil => exact absurd heq (hroot (h x.1 List.mem_cons_self).1)
    | cons x' line' =>
      exact following_inj (fun name hname => (h name hname).2) (fun name hname => (h' name hname).2)
        heq

end

namespace ObjectTree
variable {t : ObjectTree} {bus : Bus}

theorem mem_postOrder (t : ObjectTree) (line : List (Text × Node)) :
    line ∈ t.postOrder ↔ t.Line line := by
  rw [postOrder, List.mem_append, List.mem_singleton, t.children.mem_postOrder, Line, or_comm]

theorem Line.components {line : List (Text × Node)} (h : t.Line line) :
    ∀ name ∈ line.map (·.1), name ≠ [] ∧ '/' ∉ name := by
  obtain rfl | h := h
  · exact fun _ hname => absurd hname (List.not_mem_nil)
  · exact h.components t.wellNamed

theorem nodup_names (t : ObjectTree) : (t.postOrder.map (·.map (·.1))).Nodup := by
  rw [postOrder, List.map_append]
  refine List.Nodup.append (Forest.nodup_names t.wellNamed) (List.nodup_singleton _) ?_
  rw [List.disjoint_left]
  intro address haddress hroot
  obtain ⟨line, hline, rfl⟩ := List.mem_map.mp haddress
  have hnil : line.map (·.1) = [] := List.mem_singleton.mp hroot
  exact ((t.children.mem_postOrder line).mp hline).ne_nil (List.map_eq_nil_iff.mp hnil)

/-- Different objects have different paths. -/
theorem nodup_paths (t : ObjectTree) : (t.postOrder.map pathOf).Nodup := by
  refine List.Nodup.map_on ?_ t.nodup_names.of_map
  intro line hmem line' hmem' heq
  have hnames := pathOf_inj ((t.mem_postOrder line).mp hmem).components
    ((t.mem_postOrder line').mp hmem').components heq
  exact List.inj_on_of_nodup_map t.nodup_names hmem hmem' hnames

theorem getObjectPaths_eq {busName : Text} (h : t.Reported bus busName) (s : Agent) :
    ∃ bound, ∀ depth, bound ≤ depth → ∃ s',
      getObjectPaths bus busName depth "/".toList s =
        some ((t.postOrder.filter t.listed).map pathOf, s') := by
  rw [Reported] at h
  cases hfails : t.root.fails with
  | true =>
    rw [if_pos hfails] at h
    have hnone : t.postOrder.filter t.listed = [] := by
      rw [List.filter_eq_nil_iff]
      intro line _
      rw [listed, hfails]
      exact Bool.false_ne_true
    refine ⟨1, fun depth hd => ⟨s.ticked, ?_⟩⟩
    rw [hnone]
    exact getObjectPaths_failing hd h s
  | false =>
    rw [if_neg (by simp [hfails])] at h
    obtain ⟨ys, hys, hcontent, hreports⟩ := h
    obtain ⟨bound, hvisit⟩ := visitNodes_reports hreports t.wellNamed
      fun x hx => absurd hx List.not_mem_nil
    have hlisted : t.listed = listedBelow t.root := by
      funext line
      rw [listed, hfails, listedBelow]
      rfl
    have hbelow : t.children.listing "/".toList =
        (t.children.postOrder.filter t.listed).map pathOf := by
      rw [Forest.listing_eq t.wellNamed t.root (.inl rfl), hlisted]
      refine List.map_congr_left fun line hline => ?_
      have hline := (t.children.mem_postOrder line).mp (List.mem_of_mem_filter hline)
      rw [pathOf, if_neg hline.ne_nil]
      rfl
    have hroot : t.listed [] = t.root.hasContent := by
      rw [listed, hfails]
      rfl
    refine ⟨bound + 1, fun depth hd => ?_⟩
    obtain ⟨k, rfl⟩ := Nat.exists_eq_add_of_le' hd
    obtain ⟨s', hdone⟩ := hvisit (k + bound) (by omega) s.ticked
    have hpaths := getObjectPaths_xml hys hdone
    refine ⟨s', ?_⟩
    change getObjectPaths bus busName (k + (bound + 1)) (pathOf []) s = _
    rw [← Nat.add_assoc, hpaths, ← hcontent, show t.children.listing (pathOf []) = _ from hbelow,
      postOrder, List.filter_append, List.map_append]
    cases hroot' : t.root.hasContent with
    | true => simp [hroot, hroot', pathOf]
    | false => simp [hroot, hroot']

end ObjectTree

/-! ## A bus for every tree -/

def Forest.elements : Forest → List Xml
  | nil => []
  | cons name _ _ rest => .element "node".toList [("name".toList, name)] [] :: rest.elements

def document (node : Node) (children : Forest) : List Xml :=
  if node.hasContent then .element "interface".toList [] [] :: children.elements
  else children.elements

def reply (node : Node) (children : Forest) : IntrospectReply :=
  if node.fails then .noReply [] else .xml (document node children)

def Forest.replies : List (Text × Node) → Forest → List (Text × IntrospectReply)
  | _, nil => []
  | above, cons name node children rest =>
    (pathOf (above ++ [(name, node)]), reply node children) ::
      (children.replies (above ++ [(name, node)]) ++ rest.replies above)

def ObjectTree.replies (t : ObjectTree) : List (Text × IntrospectReply) :=
  (pathOf [], reply t.root t.children) :: t.children.replies []

def ObjectTree.bus (t : ObjectTree) (bus : Bus) : Bus :=
  { bus with introspect := fun _ objectPath _ => (t.replies.lookup objectPath).getD (.noReply []) }

section
variable {bus : Bus}

theorem any_elements (forest : Forest) : forest.elements.any (!·.hasTag "node") = false := by
  induction forest with
  | nil => rfl
  | cons name node children rest _ ih =>
    rw [Forest.elements, List.any_cons, ih]
    rfl

theorem any_document (node : Node) (children : Forest) :
    (document node children).any (!·.hasTag "node") = node.hasContent := by
  cases hcontent : node.hasContent with
  | true =>
    rw [document, if_pos hcontent, List.any_cons]
    rfl
  | false => rw [document, if_neg (by simp [hcontent]), any_elements]

theorem Reports.document {busName : Text} {above : List (Text × Node)} {node : Node}
    {children : Forest} (h : Reports bus busName above children.elements children) :
    Reports bus busName above (DbusBridge.document node children) children := by
  rw [DbusBridge.document]
  split
  · exact .content rfl h
  · exact h

theorem reports_of_replies {busName : Text} {forest : Forest} {above : List (Text × Node)}
    (h : ∀ p r, (p, r) ∈ forest.replies above → ∀ n, bus.introspect busName p n = r) :
    Reports bus busName above forest.elements forest := by
  induction forest generalizing above with
  | nil => exact .nil above
  | cons name node children rest ihc ihr =>
    have hself := h _ _ List.mem_cons_self
    have hbelow := ihc fun p r hr => h p r (List.mem_cons_of_mem _ (List.mem_append_left _ hr))
    have hafter := ihr fun p r hr => h p r (List.mem_cons_of_mem _ (List.mem_append_right _ hr))
    cases hfails : node.fails with
    | true =>
      rw [reply, if_pos hfails] at hself
      refine .failing rfl rfl hfails (fun n ys hys => ?_) hafter
      rw [hself n] at hys
      cases hys
    | false =>
      rw [reply, if_neg (by simp [hfails])] at hself
      exact .object rfl rfl hfails hself (any_document node children).symm hbelow.document hafter

theorem replies_perm (forest : Forest) (above : List (Text × Node)) :
    ((forest.replies above).map (·.1)).Perm
      (forest.postOrder.map fun line => pathOf (above ++ line)) := by
  induction forest generalizing above with
  | nil => exact .nil
  | cons name node children rest ihc ihr =>
    have hinside : (children.postOrder.map ((name, node) :: ·)).map
        (fun line => pathOf (above ++ line)) =
          children.postOrder.map fun line => pathOf ((above ++ [(name, node)]) ++ line) := by
      rw [List.map_map]
      exact List.map_congr_left fun line _ => congrArg pathOf (List.append_cons _ _ _)
    rw [Forest.replies, List.map_cons, List.map_append, Forest.postOrder, List.map_append,
      List.map_append, hinside, List.append_assoc]
    exact (((ihc _).append (ihr above)).cons _).trans List.perm_middle.symm

theorem lookup_of_mem {p : Text} {r : IntrospectReply} {l : List (Text × IntrospectReply)}
    (hnodup : (l.map (·.1)).Nodup) (h : (p, r) ∈ l) : l.lookup p = some r := by
  obtain ⟨front, back, rfl⟩ := List.append_of_mem h
  rw [List.lookup_eq_some_iff]
  refine ⟨front, back, rfl, fun x hx => ?_⟩
  rw [List.map_append, List.map_cons] at hnodup
  have hnot := (List.nodup_middle.mp hnodup).notMem
  rw [bne_iff_ne]
  rintro rfl
  have hmem : x.1 ∈ front.map (·.1) := List.mem_map_of_mem hx
  exact hnot (List.mem_append_left _ hmem)

end

/-- Every tree is reported by a bus. -/
theorem ObjectTree.reported_bus (t : ObjectTree) (bus : Bus) (busName : Text) :
    t.Reported (t.bus bus) busName := by
  have hperm : (t.replies.map (·.1)).Perm (t.postOrder.map pathOf) := by
    rw [replies, postOrder, List.map_cons, List.map_append]
    exact ((replies_perm t.children []).cons _).trans (List.perm_append_singleton _ _).symm
  have hreply : ∀ p r, (p, r) ∈ t.replies → ∀ n, (t.bus bus).introspect busName p n = r := by
    intro p r hr n
    have hlookup := lookup_of_mem (hperm.nodup_iff.mpr t.nodup_paths) hr
    change (t.replies.lookup p).getD (.noReply []) = r
    rw [hlookup]
    rfl
  have hroot := hreply _ _ List.mem_cons_self
  have hbelow := reports_of_replies fun p r hr => hreply p r (List.mem_cons_of_mem _ hr)
  rw [Reported]
  cases hfails : t.root.fails with
  | true =>
    rw [reply, if_pos hfails] at hroot
    rw [if_pos rfl]
    intro n ys hys
    rw [hroot n] at hys
    cases hys
  | false =>
    rw [reply, if_neg (by simp [hfails])] at hroot
    rw [if_neg Bool.false_ne_true]
    exact ⟨_, hroot, (any_document t.root t.children).symm, hbelow.document⟩

/-- An object with content below the root, and another below it that cannot be introspected. -/
def smallTree : ObjectTree where
  root := ⟨false, false⟩
  children := .cons "a".toList ⟨false, true⟩ (.cons "b".toList ⟨true, true⟩ .nil .nil) .nil
  wellNamed := by simp [Forest.WellNamed, Forest.names]

def smallBus : Bus where
  introspect busName objectPath _ :=
    if busName ≠ "x".toList then .noReply []
    else if objectPath = "/".toList then .xml (document ⟨false, false⟩ smallTree.children)
    else if objectPath = "/a".toList then
      .xml (document ⟨false, true⟩ (.cons "b".toList ⟨true, true⟩ .nil .nil))
    else .noReply []
  call _ := ⟨true, .ok []⟩
  addMatch _ := none
  addFilter _ := true

end Matahari.DbusBridge
