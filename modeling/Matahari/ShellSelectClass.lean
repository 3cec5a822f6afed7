import Matahari.ShellCompletion

set_option autoImplicit false

/-!
# The command for selecting a class

`select class (package PACKAGE) CLASS` passes the package from one validator to the other through
an object that both of them share, which completion uses as well as execution.
-/
namespace Matahari.Shell
open Mainloop

/-- The set of packages of `state`, and the classes of one or of all of them. -/
structure Schemas where
  listPackages : List Text
  listClassnames : Option Text → List Text

/-! ## `types.py` -/

@[ext]
structure SharedInfo where
  last : Option Text
  default : Option Text
  deriving DecidableEq

namespace SharedInfo

def init (default : Option Text) : SharedInfo := ⟨default, default⟩

def set (last : Option Text) : StateM SharedInfo Unit :=
  modify fun info => { info with last := last }

def setdefault : StateM SharedInfo Unit :=
  modify fun info => { info with last := info.default }

def get : StateM SharedInfo (Option Text) := do
  let info ← getThe SharedInfo
  setdefault
  return info.last

end SharedInfo

variable (m : Schemas)

def Package.call (param : Text) : StateM SharedInfo (Except Text Text) := do
  if param ∉ m.listPackages then
    SharedInfo.setdefault
    return .error ("Package \"".toList ++ param ++ "\" not found".toList)
  else
    SharedInfo.set (some param)
    return .ok param

def Package.default : StateM SharedInfo (Option Text) := do
  SharedInfo.setdefault
  return (← getThe SharedInfo).default

def offersOf (names : List Text) (param : Text) : List Text :=
  (names.filter (param.isPrefixOf ·)).map (· ++ [' '])

def Package.complete (param : Text) : StateM SharedInfo (List Text) := do
  if param ∈ m.listPackages then SharedInfo.set (some param) else SharedInfo.setdefault
  return offersOf m.listPackages param

def Class.notFound (package : Option Text) (param : Text) : Text :=
  let fq := package.elim param fun package => package ++ ':' :: param
  "Class \"".toList ++ fq ++ "\" not found".toList

def Class.call (param : Text) : StateM SharedInfo (Except Text Text) := do
  let package ← SharedInfo.get
  if param ∉ m.listClassnames package then return .error (Class.notFound package param)
  else return .ok param

def Class.complete (param : Text) : StateM SharedInfo (List Text) := do
  let package ← SharedInfo.get
  return offersOf (m.listClassnames package) param

/-! ## The arguments of the command -/

namespace SelectClass

inductive Arg where
  | keyword (kw : Text)
  | package
  | klass

inductive Item where
  | arg (a : Arg)
  | optional (args : List Arg)

def selectArg : Arg := .keyword "select".toList

def classArg : Arg := .keyword "class".toList

def packageKeyword : Text := "package".toList

def group : List Arg := [.keyword packageKeyword, .package]

def items : List Item := [.arg selectArg, .arg classArg, .optional group, .arg .klass]

/-- What an exception leaves behind is there afterwards. -/
abbrev Matching (α : Type) := ExceptT Raised (StateM SharedInfo) α

def parameterCall (validator : Text → StateM SharedInfo (Except Text Text)) (arg : Text) :
    Matching (Passed Empty) := do
  match ← validator arg with
  | .ok v => return .value (.str v)
  | .error message =>
    throw (.invalidArgument ("Invalid argument value (".toList ++ message ++ [')']))

def Arg.default : Arg → StateM SharedInfo (Passed Empty)
  | .keyword _ | .klass => return .none
  | .package => do return (← Package.default).elim .none fun package => .value (.str package)

def Arg.match : Arg → List Text → Matching (Option (Passed Empty) × List Text)
  | _, [] => return (none, [])
  | .keyword kw, val :: values => do
    if kw ≠ val then throw (.invalidArgument ("Invalid keyword '".toList ++ val ++ "'".toList))
    else return (some (.value (.str val)), values)
  | .package, val :: values => return (some (← parameterCall (Package.call m) val), values)
  | .klass, val :: values => return (some (← parameterCall (Class.call m) val), values)

def collate : List Arg → List Text → Matching (List (Passed Empty) × List Text)
  | [], values => return ([], values)
  | a :: args, values => do
    let (x, values) ← a.match m values
    match x with
    | none => return ([], values)
    | some x =>
      let (xs, values) ← collate args values
      return (x :: xs, values)

/-- `OptionalArguments.match`, which asks for the defaults before it looks at the words. -/
def matchOptional (args : List Arg) (values : List Text) : Matching (Passed Empty × List Text) := do
  let defaults ← args.mapM fun a => (a.default : Matching (Passed Empty))
  if values = [] then return (.list defaults, values)
  else
    let matching : Matching (Passed Empty × List Text) := do
      let (xs, values) ← collate m args values
      return (.list xs, values)
    matching.tryCatch fun
      | .invalidArgument _ => return (.list defaults, values)
      | e => throw e

def collateItems : List Item → List Text → Matching (List (Passed Empty) × List Text)
  | [], values => return ([], values)
  | .arg a :: items, values => do
    let (x, values) ← a.match m values
    match x with
    | none => return ([], values)
    | some x =>
      let (xs, values) ← collateItems items values
      return (x :: xs, values)
  | .optional args :: items, values => do
    let (x, values) ← matchOptional m args values
    let (xs, values) ← collateItems items values
    return (x :: xs, values)

def Arg.str : Arg → Text
  | .keyword kw => kw
  | .package => "PACKAGE".toList
  | .klass => "CLASS".toList

def Item.str : Item → Text
  | .arg a => a.str
  | .optional args => '(' :: join (args.map Arg.str) ++ [')']

def call (line : Text) : Matching (List (Passed Empty)) := do
  let (args, vals) ← collateItems m items ("select".toList :: split line)
  if args.length < items.length then
    let miss := join ((items.map Item.str).drop args.length)
    throw (.invalidCommand line ("Missing arguments: '".toList ++ miss ++ "'".toList))
  else if vals ≠ [] then
    throw (.invalidCommand line ("Excess arguments: '".toList ++ join vals ++ "'".toList))
  else return args

def Arg.complete : Arg → Text → StateM SharedInfo (List Text)
  | .keyword kw, value => return if value.isPrefixOf kw then [kw ++ [' ']] else []
  | .package, value => Package.complete m value
  | .klass, value => Class.complete m value

def completions : List Arg → List Text → StateM SharedInfo (List Text)
  | _, [] | [], _ :: _ => return []
  | a :: arglist, v :: values => do
    let offers ← a.complete m v
    if offers = [] then return []
    else if values = [] then return offers
    else completions arglist values

def shortPath : List Arg := [selectArg, classArg, .klass]

def longPath : List Arg := [selectArg, classArg, .keyword packageKeyword, .package, .klass]

def valuesOf (text line : Text) : List Text :=
  match (split line).getLast? with
  | none => []
  | some last => if last ≠ text then split line ++ [text] else split line

def complete (text line : Text) : Matching (Finset Text) := do
  match (split line).getLast? with
  | none => throw (.exception "IndexError".toList)
  | some _ =>
    let candidates ← (completions m shortPath (valuesOf text line) : Matching (List Text))
    let more ← (completions m longPath (valuesOf text line) : Matching (List Text))
    return (candidates ++ more).toFinset

/-! ## Histories -/

inductive Request where
  | complete (text line : Text)
  | execute (line : Text)

inductive Reply where
  | offers (offers : Except Raised (Finset Text))
  | called (args : Except Raised (List (Passed Empty)))

def serve (info : SharedInfo) : Request → Reply × SharedInfo
  | .complete text line => ((complete m text line).run.run info).map .offers id
  | .execute line => ((call m line).run.run info).map .called id

def defaultPackage : Text := "org.matahariproject".toList

def fresh : SharedInfo := (SharedInfo.setdefault.run (.init (some defaultPackage))).2

def after (history : List Request) : SharedInfo :=
  history.foldl (fun info request => (serve m info request).2) fresh

/-! ## The command with the package given -/

def packageParameter : Parameter Empty where
  repr := "Package".toList
  convert := some fun param =>
    if param ∉ m.listPackages then
      .valueError ("Package \"".toList ++ param ++ "\" not found".toList)
    else .value (.str param)
  default := .value (.str defaultPackage)
  complete := some (offersOf m.listPackages)

def classParameter (package : Option Text) : Parameter Empty where
  repr := "Class".toList
  convert := some fun param =>
    if param ∉ m.listClassnames package then .valueError (Class.notFound package param)
    else .value (.str param)
  default := .none
  complete := some (offersOf (m.listClassnames package))

theorem packageParameter_convert : (packageParameter m).convert = some fun param =>
    if param ∉ m.listPackages then
      .valueError ("Package \"".toList ++ param ++ "\" not found".toList)
    else .value (.str param) := rfl

theorem classParameter_convert (package : Option Text) :
    (classParameter m package).convert = some fun param =>
      if param ∉ m.listClassnames package then .valueError (Class.notFound package param)
      else .value (.str param) := rfl

def selectClass (package : Option Text) : CommandHandler Empty :=
  command "select".toList (.string "class".toList
    (.tuple (.string packageKeyword (.callable (packageParameter m) .nil))
      (.callable (classParameter m package) .nil)))

def pureGroup : ArgList Empty := .keyword packageKeyword (.parameter (packageParameter m) .nil)

def groupDefaults : List (Passed Empty) := [.none, .value (.str defaultPackage)]

mutual

def passed : Yielded Empty → Passed Empty
  | .value _ v => .value v
  | .group xs => .list (passedAll xs)
  | .defaults xs => .list xs

def passedAll : List (Yielded Empty) → List (Passed Empty)
  | [] => []
  | x :: xs => passed x :: passedAll xs

end

def Request.values : Request → List Text
  | .complete text line => valuesOf text line
  | .execute line => "select".toList :: split line

/-- Whether the word stands for the keyword: completion takes the beginning of it. -/
def Request.takesKeyword : Request → Text → Bool
  | .complete _ _, word => word.isPrefixOf packageKeyword
  | .execute _, word => word = packageKeyword

def namedIn (takes : Text → Bool) : List Text → Text
  | kw :: x :: _ => if takes kw ∧ x ∈ m.listPackages then x else defaultPackage
  | _ => defaultPackage

def Request.package (request : Request) : Text :=
  namedIn m request.takesKeyword (request.values.drop 2)

/-- What the line gets when the class is looked up in the package that the line names, or in the
default package. -/
def ownReply (request : Request) : Reply :=
  let handler := selectClass m (some (request.package m))
  match request with
  | .complete text line => .offers (handler.complete text line)
  | .execute line => .called ((handler.call 0 line).map passedAll)

def comesIn : List Text → Bool
  | v :: w :: _ :: _ => v.isPrefixOf "select".toList && w.isPrefixOf "class".toList
  | _ => false

def Request.comesToClass : Request → Bool
  | .complete text line => comesIn (valuesOf text line)
  | .execute line => (split line).head? = some "class".toList

/-- A line that ends after the package leaves it to the next one. -/
def Request.leaves (last : Text) (request : Request) : Text :=
  if request.comesToClass then
    if request.values.length = 4 then request.package m else defaultPackage
  else last

/-! ## Completion -/

def Arg.leaf (package : Option Text) : Arg → Leaf Empty
  | .keyword kw => .keyword kw
  | .package => .parameter (packageParameter m)
  | .klass => .parameter (classParameter m package)

theorem argPaths_selectClass (package : Option Text) :
    argPaths (selectClass m package).args =
      [shortPath, longPath].map fun path => path.map fun a => .leaf (a.leaf m package) := by
  have hpaths : (argGraph (selectClass m package).args).paths 0 = [[0, 1, 4], [0, 1, 2, 3, 4]] := by
    let g := argGraph (selectClass m package).args
    have hnext : g.next 0 = [1] ∧ g.next 1 = [2, 4] ∧ g.next 2 = [3] ∧ g.next 3 = [4] :=
      ⟨rfl, rfl, rfl, rfl⟩
    have hleaf : g.isLeaf 0 = false ∧ g.isLeaf 1 = false ∧ g.isLeaf 2 = false ∧
        g.isLeaf 3 = false ∧ g.isLeaf 4 = true := ⟨rfl, rfl, rfl, rfl, rfl⟩
    have hfrom3 : ∀ visited, g.pathsFrom visited 3 = [visited ++ [4]] := by
      intro visited
      rw [UpwardGraph.pathsFrom_eq]
      simp [hnext, hleaf]
    have hfrom2 : ∀ visited, g.pathsFrom visited 2 = [visited ++ [3, 4]] := by
      intro visited
      rw [UpwardGraph.pathsFrom_eq]
      simp [hnext, hleaf, hfrom3]
    have hfrom1 : ∀ visited, g.pathsFrom visited 1 = [visited ++ [4], visited ++ [2, 3, 4]] := by
      intro visited
      rw [UpwardGraph.pathsFrom_eq]
      simp [hnext, hleaf, hfrom2]
    change g.paths 0 = _
    rw [UpwardGraph.paths, UpwardGraph.pathsFrom_eq]
    simp [hnext, hleaf, hfrom1]
  unfold argPaths
  dsimp only
  rw [show (addArgs (selectClass m package).args .start).roots = [0] from rfl]
  dsimp only
  rw [hpaths]
  rfl

section
variable {m} {a : Arg} {arglist : List Arg} {v : Text} {values : List Text} {info : SharedInfo}
  {package : Option Text}

theorem completions_cons :
    (completions m (a :: arglist) (v :: values)).run info =
      if ((a.complete m v).run info).1 = [] then ([], ((a.complete m v).run info).2)
      else if values = [] then (a.complete m v).run info
      else (completions m arglist values).run ((a.complete m v).run info).2 := by
  rw [completions, StateT.run_bind]
  obtain ⟨offers, left⟩ := (a.complete m v).run info
  by_cases hoffers : offers = []
  · subst hoffers
    rfl
  · change (if offers = [] then _ else _ : StateM SharedInfo (List Text)).run left = _
    rw [if_neg hoffers, if_neg hoffers]
    split_ifs
    · rfl
    · rfl

theorem completions_leaf {l : Leaf Empty} {leaves : List (Option (Leaf Empty))} {offers : List Text}
    (h : l.complete v = .ok offers) :
    Shell.completions (some l :: leaves) (v :: values) =
      if offers = [] then .ok []
      else if values = [] then .ok offers else Shell.completions leaves values := by
  rw [Shell.completions, h]
  rfl

theorem completions_leaf_keyword {kw : Text} {leaves : List (Option (Leaf Empty))}
    (hvalues : values ≠ []) :
    Shell.completions (some (.keyword kw) :: leaves) (v :: values) =
      if v.isPrefixOf kw then Shell.completions leaves values else .ok [] := by
  have hfirst : (Leaf.keyword kw : Leaf Empty).complete v =
      .ok (if v.isPrefixOf kw then [kw ++ [' ']] else []) := rfl
  rw [completions_leaf hfirst]
  by_cases hprefix : v.isPrefixOf kw = true
  · rw [if_pos hprefix, if_pos hprefix, if_neg (List.cons_ne_nil _ _), if_neg hvalues]
  · rw [if_neg hprefix, if_neg hprefix, if_pos rfl]

theorem complete_keyword_run (kw : Text) :
    ((Arg.keyword kw).complete m v).run info =
      (if v.isPrefixOf kw then [kw ++ [' ']] else [], info) := rfl

theorem complete_package_run :
    (Arg.package.complete m v).run info =
      (offersOf m.listPackages v,
        ⟨if v ∈ m.listPackages then some v else info.default, info.default⟩) := by
  by_cases hmem : v ∈ m.listPackages
  · simp only [Arg.complete, Package.complete, if_pos hmem]
    rfl
  · simp only [Arg.complete, Package.complete, if_neg hmem]
    rfl

theorem complete_klass_run :
    (Arg.klass.complete m v).run info =
      (offersOf (m.listClassnames info.last) v, ⟨info.default, info.default⟩) := rfl

theorem offersOf_ne_nil {names : List Text} (h : v ∈ names) : offersOf names v ≠ [] := by
  have hmem : v ++ [' '] ∈ offersOf names v :=
    List.mem_map_of_mem (List.mem_filter.mpr ⟨h, by simp⟩)
  exact List.ne_nil_of_mem hmem

def Agrees (m : Schemas) (package : Option Text) (path : List Arg) (values : List Text)
    (info : SharedInfo) : Prop :=
  Shell.completions (path.map fun a => some (a.leaf m package)) values =
    .ok ((completions m path values).run info).1

theorem agrees_nil (path : List Arg) : Agrees m package path [] info := by
  cases path with
  | nil => rfl
  | cons a path => rfl

theorem agrees_cons
    (hfirst : (a.leaf m package).complete v = .ok ((a.complete m v).run info).1)
    (hrest : ((a.complete m v).run info).1 ≠ [] →
      Agrees m package arglist values ((a.complete m v).run info).2) :
    Agrees m package (a :: arglist) (v :: values) info := by
  rw [Agrees, List.map_cons, completions_leaf hfirst, completions_cons]
  by_cases hoffers : ((a.complete m v).run info).1 = []
  · rw [if_pos hoffers, if_pos hoffers]
  rw [if_neg hoffers, if_neg hoffers]
  by_cases hvalues : values = []
  · rw [if_pos hvalues, if_pos hvalues]
  · rw [if_neg hvalues, if_neg hvalues]
    exact hrest hoffers

theorem agrees_keyword {kw : Text}
    (hrest : v.isPrefixOf kw = true → Agrees m package arglist values info) :
    Agrees m package (.keyword kw :: arglist) (v :: values) info := by
  apply agrees_cons
  · rfl
  · intro hoffers
    apply hrest
    by_contra hprefix
    rw [complete_keyword_run, if_neg hprefix] at hoffers
    exact hoffers rfl

theorem agrees_klass (hlast : info.last = package) :
    Agrees m package [.klass] (v :: values) info := by
  subst hlast
  apply agrees_cons
  · rfl
  · intro _
    cases values <;> rfl

theorem agrees_long {values : List Text}
    (hpackage : ∀ v w kw x rest, values = v :: w :: kw :: x :: rest →
      kw.isPrefixOf packageKeyword = true →
      package = if x ∈ m.listPackages then some x else info.default) :
    Agrees m package longPath values info := by
  match values with
  | [] => exact agrees_nil _
  | [v] => exact agrees_keyword fun _ => agrees_nil _
  | [v, w] => exact agrees_keyword fun _ => agrees_keyword fun _ => agrees_nil _
  | [v, w, kw] =>
    exact agrees_keyword fun _ => agrees_keyword fun _ => agrees_keyword fun _ => agrees_nil _
  | v :: w :: kw :: x :: values =>
    refine agrees_keyword fun _ => agrees_keyword fun _ => agrees_keyword fun hkw => ?_
    have heq := hpackage v w kw x values rfl hkw
    apply agrees_cons
    · rw [complete_package_run]
      rfl
    · intro _
      rw [complete_package_run]
      cases values with
      | nil => exact agrees_nil _
      | cons c values => exact agrees_klass heq.symm

theorem short_completions (package : Option Text) (v w x : Text) (values : List Text) :
    Shell.completions (shortPath.map fun a => some (a.leaf m package)) (v :: w :: x :: values) =
      .ok (if (v.isPrefixOf "select".toList && w.isPrefixOf "class".toList) ∧ values = []
        then offersOf (m.listClassnames package) x else []) := by
  have hklass : (Leaf.parameter (classParameter m package)).complete x =
      .ok (offersOf (m.listClassnames package) x) := rfl
  change Shell.completions [some (.keyword "select".toList), some (.keyword "class".toList),
    some (.parameter (classParameter m package))] _ = _
  rw [completions_leaf_keyword (List.cons_ne_nil _ _),
    completions_leaf_keyword (List.cons_ne_nil _ _), completions_leaf hklass]
  cases v.isPrefixOf "select".toList with
  | false => rfl
  | true =>
    cases w.isPrefixOf "class".toList with
    | false => rfl
    | true =>
      cases values with
      | nil => by_cases hoffers : offersOf (m.listClassnames package) x = [] <;> simp [hoffers]
      | cons c values => simp [Shell.completions]

/-- With more or fewer words than three it makes no difference where the class is looked up. -/
theorem agrees_short (values : List Text)
    (h : values.length = 3 → comesIn values = true → info.last = package) :
    Agrees m package shortPath values info := by
  match values with
  | [] => exact agrees_nil _
  | [v] => exact agrees_keyword fun _ => agrees_nil _
  | [v, w] => exact agrees_keyword fun _ => agrees_keyword fun _ => agrees_nil _
  | [v, w, x] =>
    exact agrees_keyword fun hv => agrees_keyword fun hw =>
      agrees_klass (h rfl (Bool.and_eq_true_iff.mpr ⟨hv, hw⟩))
  | v :: w :: x :: c :: values =>
    have hlast : Agrees m info.last shortPath (v :: w :: x :: c :: values) info :=
      agrees_keyword fun _ => agrees_keyword fun _ => agrees_klass rfl
    rw [Agrees] at hlast ⊢
    rw [← hlast, short_completions, short_completions, if_neg (by simp), if_neg (by simp)]

theorem completions_keyword_run {kw : Text} (hvalues : values ≠ []) :
    (completions m (.keyword kw :: arglist) (v :: values)).run info =
      if v.isPrefixOf kw then (completions m arglist values).run info else ([], info) := by
  rw [completions_cons, complete_keyword_run]
  by_cases hprefix : v.isPrefixOf kw = true
  · rw [if_pos hprefix, if_pos hprefix, if_neg (List.cons_ne_nil _ _), if_neg hvalues]
  · rw [if_neg hprefix, if_neg hprefix, if_pos rfl]

theorem long_offers {v w x : Text} (hcomes : comesIn [v, w, x] = true) :
    ((completions m longPath [v, w, x]).run info).1 =
      if x.isPrefixOf packageKeyword then [packageKeyword ++ [' ']] else [] := by
  obtain ⟨hv, hw⟩ := Bool.and_eq_true_iff.mp hcomes
  rw [longPath, selectArg, classArg, completions_keyword_run (List.cons_ne_nil _ _), if_pos hv,
    completions_keyword_run (List.cons_ne_nil _ _), if_pos hw, completions_cons,
    complete_keyword_run]
  by_cases hx : x.isPrefixOf packageKeyword = true
  · rw [if_pos hx, if_neg (List.cons_ne_nil _ _), if_pos rfl]
  · rw [if_neg hx, if_pos rfl]

/-! ### What is left -/

theorem completions_nil : (completions m arglist []).run info = ([], info) := by
  cases arglist <;> rfl

theorem keyword_left {kw : Text} :
    ((completions m (.keyword kw :: arglist) (v :: values)).run info).2 =
      if v.isPrefixOf kw then ((completions m arglist values).run info).2 else info := by
  rw [completions_cons, complete_keyword_run]
  by_cases hprefix : v.isPrefixOf kw = true
  · rw [if_pos hprefix, if_pos hprefix, if_neg (List.cons_ne_nil _ _)]
    cases values with
    | nil => rw [if_pos rfl, completions_nil]
    | cons c values => rw [if_neg (List.cons_ne_nil _ _)]
  · rw [if_neg hprefix, if_neg hprefix, if_pos rfl]

theorem klass_left :
    ((completions m [.klass] (v :: values)).run info).2 = ⟨info.default, info.default⟩ := by
  rw [completions_cons, complete_klass_run]
  split_ifs
  · rfl
  · rfl
  · cases values <;> rfl

theorem package_left :
    ((completions m [.package, .klass] (v :: values)).run info).2 =
      ⟨if values = [] ∧ v ∈ m.listPackages then some v else info.default, info.default⟩ := by
  rw [completions_cons, complete_package_run]
  by_cases hoffers : offersOf m.listPackages v = []
  · have hmem : v ∉ m.listPackages := fun hmem => offersOf_ne_nil hmem hoffers
    rw [if_pos hoffers, if_neg hmem, if_neg fun h => hmem h.2]
  rw [if_neg hoffers]
  cases values with
  | nil => simp
  | cons c values =>
    have hne : ¬ (c :: values = [] ∧ v ∈ m.listPackages) := fun h => List.cons_ne_nil _ _ h.1
    rw [if_neg (List.cons_ne_nil _ _), klass_left, if_neg hne]

theorem short_left (values : List Text) (info : SharedInfo) :
    ((completions m shortPath values).run info).2 =
      if comesIn values then ⟨info.default, info.default⟩ else info := by
  match values with
  | [] => rfl
  | [v] =>
    rw [shortPath, selectArg, keyword_left, completions_nil, ite_self]
    rfl
  | [v, w] =>
    rw [shortPath, selectArg, classArg, keyword_left, keyword_left, completions_nil, ite_self, ite_self]
    rfl
  | v :: w :: x :: values =>
    rw [shortPath, selectArg, classArg, keyword_left, keyword_left, klass_left, comesIn]
    cases v.isPrefixOf "select".toList <;> cases w.isPrefixOf "class".toList <;> rfl

theorem short_default (values : List Text) (info : SharedInfo) :
    ((completions m shortPath values).run info).2.default = info.default := by
  rw [short_left]
  split_ifs <;> rfl

theorem long_left (values : List Text) (hdefault : info.default = some defaultPackage)
    (hlast : comesIn values = true → info.last = some defaultPackage) :
    ((completions m longPath values).run info).2 =
      if comesIn values = true ∧ values.length = 4 then
        ⟨some (namedIn m (·.isPrefixOf packageKeyword) (values.drop 2)), some defaultPackage⟩
      else info := by
  rw [longPath, selectArg, classArg]
  match values with
  | [] => rfl
  | [v] =>
    rw [keyword_left, completions_nil, ite_self]
    rfl
  | [v, w] =>
    rw [keyword_left, keyword_left, completions_nil, ite_self, ite_self]
    rfl
  | [v, w, kw] =>
    rw [keyword_left, keyword_left, keyword_left, completions_nil, ite_self, ite_self, ite_self,
      if_neg (by simp)]
  | v :: w :: kw :: x :: values =>
    rw [keyword_left, keyword_left, keyword_left, package_left, hdefault]
    have hreset : comesIn (v :: w :: kw :: x :: values) = true →
        (⟨some defaultPackage, some defaultPackage⟩ : SharedInfo) = info := by
      intro hcomes
      exact SharedInfo.ext (hlast hcomes).symm hdefault.symm
    rw [comesIn] at hreset ⊢
    cases hv : v.isPrefixOf "select".toList with
    | false => rfl
    | true =>
      cases hw : w.isPrefixOf "class".toList with
      | false => rfl
      | true =>
        rw [hv, hw] at hreset
        have heq := hreset rfl
        cases values with
        | nil =>
          by_cases hkw : kw.isPrefixOf packageKeyword = true
          · by_cases hx : x ∈ m.listPackages
            · simp [namedIn, hkw, hx]
            · simp [namedIn, hkw, hx]
          · simp [namedIn, hkw, heq]
        | cons c values =>
          have hne : ¬ (c :: values = [] ∧ x ∈ m.listPackages) := fun h => List.cons_ne_nil _ _ h.1
          rw [if_neg hne, heq, ite_self, ite_self, ite_self, if_neg (by simp)]

theorem completions_chainTake (path : List (Leaf Empty)) (values : List Text) :
    Shell.completions (chainTake values.length (path.map .leaf)) values =
      Shell.completions (path.map some) values := by
  induction path generalizing values with
  | nil => cases values <;> rfl
  | cons l path ih =>
    cases values with
    | nil => rfl
    | cons v values =>
      change Shell.completions (some l :: chainTake values.length (path.map .leaf)) _ =
        Shell.completions (some l :: path.map some) _
      rw [Shell.completions, Shell.completions, ih]

theorem selectClass_complete {text line : Text} {offers more : List Text}
    (hline : split line ≠ [])
    (hshort : Shell.completions (shortPath.map fun a => some (a.leaf m package))
      (valuesOf text line) = .ok offers)
    (hlong : Shell.completions (longPath.map fun a => some (a.leaf m package))
      (valuesOf text line) = .ok more) :
    (selectClass m package).complete text line = .ok (offers ++ more).toFinset := by
  have htake : ∀ path : List Arg,
      Shell.completions (chainTake (valuesOf text line).length
        (path.map fun a => .leaf (a.leaf m package))) (valuesOf text line) =
      Shell.completions (path.map fun a => some (a.leaf m package)) (valuesOf text line) := by
    intro path
    have htake := completions_chainTake (path.map (Arg.leaf m package)) (valuesOf text line)
    rwa [List.map_map, List.map_map] at htake
  obtain ⟨last, hlast⟩ := Option.isSome_iff_exists.mp (List.getLast?_isSome.mpr hline)
  have hvalues : valuesOf text line =
      if last ≠ text then split line ++ [text] else split line := by
    rw [valuesOf, hlast]
  rw [CommandHandler.complete]
  simp only [hlast]
  rw [← hvalues, argPaths_selectClass, List.map_cons, List.map_cons, List.map_nil,
    List.mapM_cons, List.mapM_cons, List.mapM_nil, htake, htake, hshort, hlong]
  change Except.ok ([offers, more].flatten.toFinset) = _
  simp

theorem complete_run {text line : Text} (hline : split line ≠ []) :
    ((complete m text line).run).run info =
      let short := (completions m shortPath (valuesOf text line)).run info
      let long := (completions m longPath (valuesOf text line)).run short.2
      (.ok (short.1 ++ long.1).toFinset, long.2) := by
  obtain ⟨last, hlast⟩ := Option.isSome_iff_exists.mp (List.getLast?_isSome.mpr hline)
  rw [complete, hlast]
  rfl

theorem valuesOf_nil {text line : Text} (hline : split line = []) : valuesOf text line = [] := by
  rw [valuesOf, hline]
  rfl

theorem serve_complete_nil {text line : Text} (hline : split line = []) :
    serve m info (.complete text line) =
      (.offers (.error (.exception "IndexError".toList)), info) := by
  rw [serve, complete, hline]
  rfl

theorem serve_complete_left (last text line : Text) :
    (serve m ⟨some last, some defaultPackage⟩ (.complete text line)).2 =
      ⟨some ((Request.complete text line).leaves m last), some defaultPackage⟩ := by
  by_cases hline : split line = []
  · rw [serve_complete_nil hline, Request.leaves, Request.comesToClass, valuesOf_nil hline]
    rfl
  · rw [serve, complete_run hline]
    dsimp only [Prod.map, id]
    have hshort := short_left (m := m) (valuesOf text line) ⟨some last, some defaultPackage⟩
    rw [long_left _ (short_default _ _) fun hcomes => by rw [hshort, if_pos hcomes], hshort, Request.leaves,
      Request.comesToClass, Request.package, Request.values]
    cases comesIn (valuesOf text line) with
    | false => rfl
    | true =>
      by_cases hlength : (valuesOf text line).length = 4
      · rw [if_pos ⟨rfl, hlength⟩, if_pos rfl, if_pos hlength]
        rfl
      · rw [if_neg fun h => hlength h.2, if_pos rfl, if_pos rfl, if_neg hlength]

theorem serve_complete_reply (last text line : Text)
    (h : (valuesOf text line).length = 3 → comesIn (valuesOf text line) = true →
      last = defaultPackage) :
    (serve m ⟨some last, some defaultPackage⟩ (.complete text line)).1 =
      ownReply m (.complete text line) := by
  by_cases hline : split line = []
  · rw [serve_complete_nil hline, ownReply, CommandHandler.complete, hline]
    rfl
  have hshort : Agrees m (some ((Request.complete text line).package m)) shortPath
      (valuesOf text line) ⟨some last, some defaultPackage⟩ := by
    apply agrees_short
    intro hlength hcomes
    rw [h hlength hcomes, Request.package, Request.values]
    match valuesOf text line, hlength with
    | [v, w, x], _ => rfl
  have hlong : Agrees m (some ((Request.complete text line).package m)) longPath
      (valuesOf text line)
      ((completions m shortPath (valuesOf text line)).run ⟨some last, some defaultPackage⟩).2 := by
    apply agrees_long
    intro v w kw x rest hvalues hkw
    rw [short_default, Request.package, Request.values, hvalues, List.drop_succ_cons,
      List.drop_succ_cons, List.drop_zero, namedIn]
    have htakes : (Request.complete text line).takesKeyword kw = true := hkw
    by_cases hx : x ∈ m.listPackages
    · rw [if_pos hx, if_pos ⟨htakes, hx⟩]
    · rw [if_neg hx, if_neg fun h => hx h.2]
  rw [serve, complete_run hline, ownReply]
  dsimp only
  rw [selectClass_complete hline hshort hlong]
  rfl

def offersWith (names : List Text) (x : Text) : Finset Text :=
  (offersOf names x ++
    if x.isPrefixOf packageKeyword then [packageKeyword ++ [' ']] else []).toFinset

/-- With three words the class is looked up where the last line has left the package. -/
theorem serve_complete_three {last text line v w x : Text} (hvalues : valuesOf text line = [v, w, x])
    (hcomes : comesIn [v, w, x] = true) :
    (serve m ⟨some last, some defaultPackage⟩ (.complete text line)).1 =
      .offers (.ok (offersWith (m.listClassnames (some last)) x)) := by
  have hline : split line ≠ [] := by
    intro hnil
    rw [valuesOf_nil hnil] at hvalues
    cases hvalues
  have hshort : Agrees m (some last) shortPath [v, w, x] ⟨some last, some defaultPackage⟩ :=
    agrees_short _ fun _ _ => rfl
  rw [Agrees, short_completions, if_pos ⟨hcomes, rfl⟩] at hshort
  rw [serve, complete_run hline, hvalues]
  dsimp only [Prod.map]
  rw [← Except.ok.inj hshort, long_offers hcomes, offersWith]

/-! ## Execution -/

section
variable {α β : Type} {x : Matching α} {left : SharedInfo}

theorem bind_of_ok {f : α → Matching β} {r : α} (h : x.run.run info = (.ok r, left)) :
    (x >>= f).run.run info = (f r).run.run left := by
  rw [ExceptT.run_bind, StateT.run_bind, h]
  rfl

theorem bind_of_error {f : α → Matching β} {e : Raised} (h : x.run.run info = (.error e, left)) :
    (x >>= f).run.run info = (.error e, left) := by
  rw [ExceptT.run_bind, StateT.run_bind, h]
  rfl

theorem tryCatch_of_ok {f : Raised → Matching α} {r : α} (h : x.run.run info = (.ok r, left)) :
    (x.tryCatch f).run.run info = (.ok r, left) := by
  change (x.run >>= _).run info = _
  rw [StateT.run_bind, h]
  rfl

theorem tryCatch_of_error {f : Raised → Matching α} {e : Raised}
    (h : x.run.run info = (.error e, left)) :
    (x.tryCatch f).run.run info = (f e).run.run left := by
  change (x.run >>= _).run info = _
  rw [StateT.run_bind, h]
  rfl

end

theorem lift_run {α : Type} {x : StateM SharedInfo α} {r : α} {left : SharedInfo}
    (h : x.run info = (r, left)) : (liftM x : Matching α).run.run info = (.ok r, left) := by
  change (Except.ok (x.run info).1, (x.run info).2) = _
  rw [h]

theorem parameterCall_ok {validator : Text → StateM SharedInfo (Except Text Text)} {r : Text}
    {left : SharedInfo} (h : (validator v).run info = (.ok r, left)) :
    (parameterCall validator v).run.run info = (.ok (.value (.str r)), left) := by
  rw [parameterCall]
  exact bind_of_ok (lift_run h)

theorem parameterCall_error {validator : Text → StateM SharedInfo (Except Text Text)}
    {message : Text} {left : SharedInfo} (h : (validator v).run info = (.error message, left)) :
    (parameterCall validator v).run.run info =
      (.error (.invalidArgument ("Invalid argument value (".toList ++ message ++ [')'])), left) := by
  rw [parameterCall]
  exact bind_of_ok (lift_run h)

theorem package_run_of_mem (hv : v ∈ m.listPackages) :
    (Arg.package.match m (v :: values)).run.run info =
      (.ok (some (.value (.str v)), values), ⟨some v, info.default⟩) := by
  have hcall : (Package.call m v).run info = (.ok v, ⟨some v, info.default⟩) := by
    rw [Package.call, if_neg (not_not.mpr hv)]
    rfl
  exact bind_of_ok (parameterCall_ok hcall)

theorem package_run_of_not_mem (hv : v ∉ m.listPackages) :
    ∃ message, (Arg.package.match m (v :: values)).run.run info =
        (.error (.invalidArgument message), ⟨info.default, info.default⟩) ∧
      (packageParameter m).match (v :: values) = .error (.invalidArgument message) := by
  have hcall : (Package.call m v).run info =
      (.error ("Package \"".toList ++ v ++ "\" not found".toList),
        ⟨info.default, info.default⟩) := by
    rw [Package.call, if_pos hv]
    rfl
  refine ⟨_, bind_of_error (parameterCall_error hcall), ?_⟩
  rw [Parameter.match, Parameter.call, packageParameter_convert]
  dsimp only
  rw [if_pos hv]
  rfl

theorem klass_run (hlast : info.last = package) (v : Text) (values : List Text) :
    (∃ y, (classParameter m package).match (v :: values) = .ok (.value y, values) ∧
      (Arg.klass.match m (v :: values)).run.run info =
        (.ok (some (passed y), values), ⟨info.default, info.default⟩)) ∨
    ∃ e, (classParameter m package).match (v :: values) = .error e ∧
      (Arg.klass.match m (v :: values)).run.run info =
        (.error e, ⟨info.default, info.default⟩) := by
  subst hlast
  by_cases hv : v ∈ m.listClassnames info.last
  · have hcall : (Class.call m v).run info = (.ok v, ⟨info.default, info.default⟩) := by
      change (if v ∉ m.listClassnames info.last then _ else _ : StateM SharedInfo _).run _ = _
      rw [if_neg (not_not.mpr hv)]
      rfl
    refine .inl ⟨.value (.parameter (classParameter m info.last)) (.str v), ?_,
      bind_of_ok (parameterCall_ok hcall)⟩
    rw [Parameter.match, Parameter.call, classParameter_convert]
    dsimp only
    rw [if_neg (not_not.mpr hv)]
  · have hcall : (Class.call m v).run info =
        (.error (Class.notFound info.last v), ⟨info.default, info.default⟩) := by
      change (if v ∉ m.listClassnames info.last then _ else _ : StateM SharedInfo _).run _ = _
      rw [if_pos hv]
      rfl
    refine .inr ⟨_, ?_, bind_of_error (parameterCall_error hcall)⟩
    rw [Parameter.match, Parameter.call, classParameter_convert]
    dsimp only
    rw [if_pos hv]
    rfl

theorem group_taken {x : Text} (hx : x ∈ m.listPackages) (values : List Text) (info : SharedInfo) :
    (matchOptional m group (packageKeyword :: x :: values)).run.run info =
        (.ok (.list [.value (.str packageKeyword), .value (.str x)], values),
          ⟨some x, info.default⟩) ∧
      ∃ y, Shell.matchOptional (Shell.collate 0 (pureGroup m)) (.ok groupDefaults)
          (packageKeyword :: x :: values) = .ok (some y, values) ∧
        passed y = .list [.value (.str packageKeyword), .value (.str x)] := by
  constructor
  · have hcollate : (collate m group (packageKeyword :: x :: values)).run.run
        ⟨info.default, info.default⟩ =
        (.ok ([.value (.str packageKeyword), .value (.str x)], values), ⟨some x, info.default⟩) := by
      have hlast : (collate m [.package] (x :: values)).run.run ⟨info.default, info.default⟩ =
          (.ok ([.value (.str x)], values), ⟨some x, info.default⟩) := by
        rw [collate]
        exact bind_of_ok (package_run_of_mem hx)
      exact bind_of_ok hlast
    exact tryCatch_of_ok (bind_of_ok hcollate)
  · refine ⟨.group [.value (.keyword packageKeyword) (.str packageKeyword),
      .value (.parameter (packageParameter m)) (.str x)], ?_, rfl⟩
    have hcall : (packageParameter m).match (x :: values) =
        .ok (.value (.value (.parameter (packageParameter m)) (.str x)), values) := by
      rw [Parameter.match, Parameter.call, packageParameter_convert]
      dsimp only
      rw [if_neg (not_not.mpr hx)]
    have hcollate : Shell.collate 0 (pureGroup m) (packageKeyword :: x :: values) =
        .ok ([.value (.keyword packageKeyword) (.str packageKeyword),
          .value (.parameter (packageParameter m)) (.str x)], values) := by
      change (Shell.collate 0 (.parameter (packageParameter m) .nil) (x :: values) >>= _) = _
      rw [Shell.collate, hcall]
      rfl
    rw [Shell.matchOptional, if_neg (List.cons_ne_nil _ _), hcollate]

/-- The words are as they were, for the arguments after the group. -/
theorem group_declined (last : Option Text) (values : List Text)
    (h : v ≠ packageKeyword ∨ ∃ x rest, values = x :: rest ∧ x ∉ m.listPackages) :
    (matchOptional m group (v :: values)).run.run ⟨last, some defaultPackage⟩ =
        (.ok (.list groupDefaults, v :: values), ⟨some defaultPackage, some defaultPackage⟩) ∧
      Shell.matchOptional (Shell.collate 0 (pureGroup m)) (.ok groupDefaults) (v :: values) =
        .ok (some (.defaults groupDefaults), v :: values) := by
  have hfails : ∃ message,
      (collate m group (v :: values)).run.run ⟨some defaultPackage, some defaultPackage⟩ =
          (.error (.invalidArgument message), ⟨some defaultPackage, some defaultPackage⟩) ∧
        Shell.collate 0 (pureGroup m) (v :: values) = .error (.invalidArgument message) := by
    by_cases hv : packageKeyword = v
    · subst hv
      obtain ⟨x, rest, rfl, hx⟩ := h.resolve_left fun hne => hne rfl
      obtain ⟨message, hrun, hmatch⟩ := package_run_of_not_mem hx
      refine ⟨message, ?_, ?_⟩
      · have hlast : (collate m [.package] (x :: rest)).run.run
            ⟨some defaultPackage, some defaultPackage⟩ =
            (.error (.invalidArgument message), ⟨some defaultPackage, some defaultPackage⟩) := by
          rw [collate]
          exact bind_of_error hrun
        change (collate m [.package] (x :: rest) >>= _ : Matching _).run.run _ = _
        exact bind_of_error hlast
      · change (Shell.collate 0 (.parameter (packageParameter m) .nil) (x :: rest) >>= _) = _
        rw [Shell.collate, hmatch]
        rfl
    · refine ⟨"Invalid keyword '".toList ++ v ++ "'".toList, ?_, ?_⟩
      · rw [group, collate, Arg.match, if_pos hv]
        rfl
      · rw [pureGroup, Shell.collate, matchKeyword, if_pos hv]
        rfl
  obtain ⟨message, hrun, hpure⟩ := hfails
  constructor
  · exact tryCatch_of_error (bind_of_error hrun)
  · rw [Shell.matchOptional, if_neg (List.cons_ne_nil _ _), hpure]

theorem tail_run (hlast : info.last = package) (values : List Text) :
    (collateItems m [.arg .klass] values).run.run info =
      ((Shell.collate 0 (.parameter (classParameter m package) .nil) values).map
          (Prod.map passedAll id),
        if values = [] then info else ⟨info.default, info.default⟩) := by
  cases values with
  | nil => rfl
  | cons v values =>
    rw [if_neg (List.cons_ne_nil _ _), Shell.collate, collateItems]
    obtain ⟨y, hmatch, hrun⟩ | ⟨e, hmatch, hrun⟩ := klass_run (m := m) hlast v values
    · rw [hmatch]
      exact bind_of_ok hrun
    · rw [hmatch]
      exact bind_of_error hrun

theorem cons_run {x : Matching (List (Passed Empty) × List Text)}
    {found : Except Raised (List (Yielded Empty) × List Text)} {left : SharedInfo}
    (y : Yielded Empty) (h : x.run.run info = (found.map (Prod.map passedAll id), left)) :
    (x >>= fun r => return (passed y :: r.1, r.2)).run.run info =
      ((found.map fun r => (y :: r.1, r.2)).map (Prod.map passedAll id), left) := by
  cases found with
  | error e => exact bind_of_error h
  | ok r => exact bind_of_ok h

theorem group_tail_run {g : Passed Empty} {y : Yielded Empty} {rest : List Text}
    {mid : SharedInfo}
    (hrun : (matchOptional m group values).run.run info = (.ok (g, rest), mid))
    (hpure : Shell.matchOptional (Shell.collate 0 (pureGroup m)) (.ok groupDefaults) values =
      .ok (some y, rest))
    (hpassed : passed y = g) (hlast : mid.last = package) :
    (collateItems m [.optional group, .arg .klass] values).run.run info =
      ((Shell.collate 0 (.optional (pureGroup m) (.parameter (classParameter m package) .nil))
          values).map (Prod.map passedAll id),
        if rest = [] then mid else ⟨mid.default, mid.default⟩) := by
  subst hpassed
  have hmore : Shell.matchOptional (Shell.collate 0 (pureGroup m)) (pureGroup m).defaults values =
      .ok (some y, rest) := hpure
  rw [collate_optional_of_eq hmore, collateItems, bind_of_ok hrun]
  exact cons_run y (tail_run hlast rest)

theorem after_class_run (last : Option Text) (words : List Text) :
    (collateItems m [.optional group, .arg .klass] words).run.run ⟨last, some defaultPackage⟩ =
      ((Shell.collate 0 (.optional (pureGroup m)
          (.parameter (classParameter m (some (namedIn m (· = packageKeyword) words))) .nil))
          words).map (Prod.map passedAll id),
        ⟨some (if words.length = 2 then namedIn m (· = packageKeyword) words else defaultPackage),
          some defaultPackage⟩) := by
  match words with
  | [] =>
    have hpure : Shell.matchOptional (Shell.collate 0 (pureGroup m)) (.ok groupDefaults) [] =
        .ok (some (.defaults groupDefaults), []) := rfl
    exact group_tail_run rfl hpure rfl rfl
  | [kw] =>
    by_cases hkw : kw = packageKeyword
    · subst hkw
      have hpure :
          Shell.matchOptional (Shell.collate 0 (pureGroup m)) (.ok groupDefaults) [packageKeyword] =
          .ok (some (.group [.value (.keyword packageKeyword) (.str packageKeyword)]), []) := rfl
      exact group_tail_run rfl hpure rfl rfl
    · obtain ⟨hrun, hpure⟩ := group_declined (m := m) last [] (Or.inl hkw)
      exact group_tail_run hrun hpure rfl rfl
  | kw :: x :: words =>
    by_cases hnamed : decide (kw = packageKeyword) = true ∧ x ∈ m.listPackages
    · have hkw : kw = packageKeyword := of_decide_eq_true hnamed.1
      obtain ⟨hrun, y, hpure, hpassed⟩ :=
        group_taken hnamed.2 words ⟨last, some defaultPackage⟩
      rw [namedIn, if_pos hnamed, hkw, group_tail_run hrun hpure hpassed rfl]
      cases words with
      | nil => rfl
      | cons c words => rw [if_neg (List.cons_ne_nil _ _), if_neg (by simp)]
    · have hdeclined : kw ≠ packageKeyword ∨
          ∃ x' rest, x :: words = x' :: rest ∧ x' ∉ m.listPackages := by
        by_cases hkw : kw = packageKeyword
        · exact Or.inr ⟨x, words, rfl, fun hx => hnamed ⟨decide_eq_true hkw, hx⟩⟩
        · exact Or.inl hkw
      obtain ⟨hrun, hpure⟩ := group_declined (m := m) last (x :: words) hdeclined
      rw [namedIn, if_neg hnamed, group_tail_run hrun hpure rfl rfl, ite_self, ite_self]

theorem keyword_items_run {kw : Text} {rest : List Item} {args : ArgList Empty}
    {left : SharedInfo}
    (h : (collateItems m rest values).run.run info =
      ((Shell.collate 0 args values).map (Prod.map passedAll id), left)) :
    (collateItems m (.arg (.keyword kw) :: rest) (kw :: values)).run.run info =
      ((Shell.collate 0 (.keyword kw args) (kw :: values)).map (Prod.map passedAll id), left) := by
  have hmatch : ((Arg.keyword kw).match m (kw :: values)).run.run info =
      (.ok (some (.value (.str kw)), values), info) := by
    rw [Arg.match, if_neg (not_not.mpr rfl)]
    rfl
  rw [collate_keyword, collateItems, bind_of_ok hmatch]
  exact cons_run (.value (.keyword kw) (.str kw)) h

theorem keyword_items_error {kw : Text} {rest : List Item} {args : ArgList Empty} (hkw : kw ≠ v) :
    (collateItems m (.arg (.keyword kw) :: rest) (v :: values)).run.run info =
      ((Shell.collate 0 (.keyword kw args) (v :: values)).map (Prod.map passedAll id), info) := by
  rw [Shell.collate, matchKeyword, if_pos hkw, collateItems, Arg.match, if_pos hkw]
  rfl

theorem call_of_collate {line : Text} {left : SharedInfo}
    (h : (collateItems m items ("select".toList :: split line)).run.run info =
      ((Shell.collate 0 (selectClass m package).args ("select".toList :: split line)).map
        (Prod.map passedAll id), left)) :
    (call m line).run.run info = (((selectClass m package).call 0 line).map passedAll, left) := by
  have hlength : ∀ xs : List (Yielded Empty), (passedAll xs).length = xs.length := by
    intro xs
    induction xs with
    | nil => rfl
    | cons x xs ih => rw [passedAll, List.length_cons, List.length_cons, ih]
  have hstrs : (selectClass m package).args.strs = items.map Item.str := rfl
  have hitems : (selectClass m package).args.length = items.length := rfl
  have hname : (selectClass m package).name = "select".toList := rfl
  rw [CommandHandler.call, hname, hstrs, hitems]
  cases hfound : Shell.collate 0 (selectClass m package).args ("select".toList :: split line) with
  | error e =>
    rw [hfound] at h
    exact bind_of_error h
  | ok found =>
    obtain ⟨args, vals⟩ := found
    rw [hfound] at h
    have hrun : (collateItems m items ("select".toList :: split line)).run.run info =
        (.ok (passedAll args, vals), left) := h
    refine (bind_of_ok hrun).trans ?_
    change (if (passedAll args).length < items.length then _ else _ : Matching _).run.run left =
      ((if args.length < items.length then _ else _ : Except Raised _).map passedAll, left)
    rw [hlength]
    by_cases hmissing : args.length < items.length
    · rw [if_pos hmissing, if_pos hmissing]
      rfl
    rw [if_neg hmissing, if_neg hmissing]
    by_cases hexcess : vals ≠ []
    · rw [if_pos hexcess, if_pos hexcess]
      rfl
    · rw [if_neg hexcess, if_neg hexcess]
      rfl

/-- Execution has a reply that the line decides, whatever was left. -/
theorem serve_execute (last line : Text) :
    serve m ⟨some last, some defaultPackage⟩ (.execute line) =
      (ownReply m (.execute line),
        ⟨some ((Request.execute line).leaves m last), some defaultPackage⟩) := by
  have hcollate : (collateItems m items ("select".toList :: split line)).run.run
        ⟨some last, some defaultPackage⟩ =
      ((Shell.collate 0 (selectClass m (some ((Request.execute line).package m))).args
          ("select".toList :: split line)).map (Prod.map passedAll id),
        ⟨some ((Request.execute line).leaves m last), some defaultPackage⟩) := by
    rw [Request.leaves, Request.comesToClass, Request.package, Request.values]
    cases hline : split line with
    | nil => rfl
    | cons w rest =>
      by_cases hw : "class".toList = w
      · subst hw
        have hrun := after_class_run (m := m) (some last) rest
        refine (keyword_items_run (keyword_items_run hrun)).trans ?_
        have hlength : (("select".toList :: "class".toList :: rest).length = 4) =
            (rest.length = 2) := by simp
        simp only [hlength]
        rfl
      · have hcomes : ¬ decide ((w :: rest).head? = some "class".toList) = true := by
          intro h
          exact hw (Option.some.inj (of_decide_eq_true h)).symm
        rw [if_neg hcomes]
        exact keyword_items_run (keyword_items_error hw)
  have hcall := call_of_collate hcollate
  rw [serve, hcall]
  rfl

end

/-! ## Every history -/

/-- The package that the lines before have left. -/
def leftover (history : List Request) : Text :=
  history.foldl (fun last request => request.leaves m last) defaultPackage

theorem after_eq (history : List Request) :
    after m history = ⟨some (leftover m history), some defaultPackage⟩ := by
  have hstep : ∀ (last : Text) (request : Request),
      (serve m ⟨some last, some defaultPackage⟩ request).2 =
        ⟨some (request.leaves m last), some defaultPackage⟩ := by
    intro last request
    cases request with
    | complete text line => exact serve_complete_left last text line
    | execute line => rw [serve_execute]
  exact List.foldl_hom (fun last : Text => (⟨some last, some defaultPackage⟩ : SharedInfo)) hstep

def SameClasses (package : Text) : Prop :=
  ∀ name ≠ packageKeyword,
    name ∈ m.listClassnames (some package) ↔ name ∈ m.listClassnames (some defaultPackage)

/-- Every line gets what it gets in a new mode, and that with the class looked up in the package
it names. -/
def HistoryFree (history : List Request) : Prop :=
  ∀ request, (serve m (after m history) request).1 = (serve m fresh request).1 ∧
    (serve m (after m history) request).1 = ownReply m request

variable {m}

theorem fresh_eq : fresh = ⟨some defaultPackage, some defaultPackage⟩ := rfl

theorem serve_fresh (request : Request) : (serve m fresh request).1 = ownReply m request := by
  cases request with
  | complete text line => exact serve_complete_reply _ text line fun _ _ => rfl
  | execute line => exact congrArg Prod.fst (serve_execute _ line)

theorem offersWith_congr {as bs : List Text} (x : Text)
    (h : ∀ name ≠ packageKeyword, name ∈ as ↔ name ∈ bs) : offersWith as x = offersWith bs x := by
  have hsub : ∀ {as bs : List Text}, (∀ name ≠ packageKeyword, name ∈ as ↔ name ∈ bs) →
      offersWith as x ⊆ offersWith bs x := by
    intro as bs h offer hoffer
    rw [offersWith, List.mem_toFinset, List.mem_append] at hoffer ⊢
    rcases hoffer with hoffer | hoffer
    · obtain ⟨name, hname, rfl⟩ := List.mem_map.mp hoffer
      obtain ⟨hmem, hprefix⟩ := List.mem_filter.mp hname
      by_cases hkw : name = packageKeyword
      · subst hkw
        rw [if_pos hprefix]
        exact Or.inr List.mem_cons_self
      · exact Or.inl (List.mem_map_of_mem (List.mem_filter.mpr ⟨(h name hkw).mp hmem, hprefix⟩))
    · exact Or.inr hoffer
  exact Finset.Subset.antisymm (hsub h) (hsub fun name hne => (h name hne).symm)

theorem mem_offersWith {names : List Text} {name : Text} (hname : name ≠ packageKeyword) :
    name ++ [' '] ∈ offersWith names [] ↔ name ∈ names := by
  have hinj : Function.Injective fun name : Text => name ++ [' '] := List.append_left_injective _
  rw [offersWith, List.mem_toFinset, List.mem_append, offersOf,
    List.mem_map_of_injective hinj, List.mem_filter]
  constructor
  · rintro (⟨hmem, -⟩ | hkw)
    · exact hmem
    · exact absurd (hinj (List.mem_singleton.mp hkw)) hname
  · intro hmem
    exact Or.inl ⟨hmem, rfl⟩

theorem serve_eq_own_iff (last : Text) :
    (∀ request, (serve m ⟨some last, some defaultPackage⟩ request).1 = ownReply m request) ↔
      SameClasses m last := by
  constructor
  · intro h
    have hvalues : valuesOf [] "select class ".toList =
        ["select".toList, "class".toList, []] := by decide
    have hthree := h (.complete [] "select class ".toList)
    have hsame := hthree.trans (serve_fresh _).symm
    rw [fresh_eq, serve_complete_three hvalues rfl, serve_complete_three hvalues rfl] at hsame
    intro name hname
    have hmem : name ++ [' '] ∈ offersWith (m.listClassnames (some last)) [] ↔
        name ++ [' '] ∈ offersWith (m.listClassnames (some defaultPackage)) [] := by
      have heq := congrArg (name ++ [' '] ∈ ·) (Except.ok.inj (Reply.offers.inj hsame))
      exact heq.to_iff
    rwa [mem_offersWith hname, mem_offersWith hname] at hmem
  · intro h request
    cases request with
    | execute line => rw [serve_execute]
    | complete text line =>
      by_cases hthree : (valuesOf text line).length = 3 ∧ comesIn (valuesOf text line) = true
      · rw [← serve_fresh, fresh_eq]
        match hvalues : valuesOf text line, hthree with
        | [v, w, x], ⟨_, hcomes⟩ =>
          rw [serve_complete_three hvalues hcomes, serve_complete_three hvalues hcomes,
            offersWith_congr x h]
      · apply serve_complete_reply
        intro hlength hcomes
        exact absurd ⟨hlength, hcomes⟩ hthree

theorem historyFree_iff (history : List Request) :
    HistoryFree m history ↔ SameClasses m (leftover m history) := by
  rw [← serve_eq_own_iff, HistoryFree, after_eq]
  constructor
  · intro h request
    exact (h request).2
  · intro h request
    exact ⟨(h request).trans (serve_fresh request).symm, h request⟩

def twoPackages : Schemas where
  listPackages := [defaultPackage, "org.foo".toList]
  listClassnames package := if package = some "org.foo".toList then ["Bar".toList] else ["Host".toList]

/-- After a request for completion at the end of `select class package org.foo`, the classes offered
for `select class ` are those of org.foo. -/
theorem twoPackages_leftover : ¬ ∀ (m : Schemas) (history : List Request), HistoryFree m history := by
  intro h
  have hfree := (h twoPackages
    [.complete "org.foo".toList "select class package org.foo".toList]
    (.complete [] "select class ".toList)).1
  have hvalues : valuesOf [] "select class ".toList =
      ["select".toList, "class".toList, []] := by decide
  have hleft : after twoPackages [.complete "org.foo".toList "select class package org.foo".toList] =
      ⟨some "org.foo".toList, some defaultPackage⟩ := by
    rw [after_eq]
    decide
  rw [hleft, fresh_eq, serve_complete_three hvalues rfl, serve_complete_three hvalues rfl] at hfree
  have hmem : "Bar ".toList ∈ offersWith (twoPackages.listClassnames (some defaultPackage)) [] := by
    rw [← Except.ok.inj (Reply.offers.inj hfree)]
    decide
  exact absurd hmem (by decide)

end SelectClass
end Matahari.Shell
