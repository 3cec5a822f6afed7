import Matahari.DbusEffects

set_option autoImplicit false

/-!
# Every request is answered once

`invoke` has one reply on every path on which it returns. It does not return
where a conversion or a look-up throws, or where a missing attribute or a list
that is too short is read past its end; `Served` lists these places by the kind
of request.
-/
namespace Matahari.DbusBridge
open Mainloop PartialState

section
variable {q : Qpid} {bus : Bus} {s : Agent}

theorem dbusIntrospect_apply (busName objectPath : Text) (s : Agent) :
    dbusIntrospect bus busName objectPath s =
      some (introspection busName objectPath (bus.introspect busName objectPath s.clock),
        s.ticked) := rfl

def ArgsTyped (xs : List Xml) : Prop :=
  ∀ x ∈ xs, x.hasTag "arg" = true → (x.getProp "type").isSome = true

def MemberReadable (x : Xml) : Prop :=
  (x.hasTag "method" = true ∨ x.hasTag "signal" = true →
    (x.getProp "name").isSome = true ∧ ArgsTyped x.children) ∧
  (x.hasTag "property" = true → (x.getProp "type").isSome = true)

/-- Every interface up to the one looked for has a name, and the members of that
one are readable. -/
def Readable (interface : Text) : List Xml → Prop
  | [] => True
  | x :: xs =>
    if x.hasTag "interface" then
      ∃ name, x.getProp "name" = some name ∧
        if name = interface then ∀ m ∈ x.children, MemberReadable m else Readable interface xs
    else Readable interface xs

theorem isSome_bind {α β : Type} {o : Option α} {f : α → Option β} {P : Prop}
    (hf : ∀ a, (f a).isSome = true ↔ P) :
    (o >>= f).isSome = true ↔ o.isSome = true ∧ P := by
  cases o with
  | none => simp
  | some a => simpa using hf a

theorem argOfXml_isSome (x : Xml) (index : ℕ) :
    (Arg.ofXml x index).isSome = (x.getProp "type").isSome := by
  rw [Arg.ofXml, Option.isSome_map]

theorem argsOfXml_isSome (index : ℕ) (xs : List Xml) :
    (argsOfXml index xs).isSome = true ↔ ArgsTyped xs := by
  induction xs generalizing index with
  | nil => simp [argsOfXml, ArgsTyped]
  | cons x xs ih =>
    unfold ArgsTyped at ih ⊢
    rw [argsOfXml, List.forall_mem_cons]
    by_cases hx : x.hasTag "arg" = true
    · rw [if_pos hx, isSome_bind fun arg => isSome_bind (P := True) fun args => by simp,
        argOfXml_isSome, ih (index + 1)]
      simp [hx]
    · rw [if_neg hx, ih index]
      simp [hx]

theorem named_isSome {α : Type} (x : Xml) (f : Text → List Arg → α) :
    (x.getProp "name" >>= fun name => argsOfXml 0 x.children >>= fun args =>
      pure (f name args) : Option α).isSome = true ↔
      (x.getProp "name").isSome = true ∧ ArgsTyped x.children := by
  rw [isSome_bind fun name => isSome_bind (P := True) fun args => by simp, argsOfXml_isSome]
  simp

theorem membersOfXml_isSome (xs : List Xml) :
    (Members.ofXml xs).isSome = true ↔ ∀ x ∈ xs, MemberReadable x := by
  induction xs with
  | nil => simp [Members.ofXml]
  | cons x xs ih =>
    rw [List.forall_mem_cons, Members.ofXml, isSome_bind (P := MemberReadable x), ih, and_comm]
    intro rest
    have hexcl : ∀ {a b : String}, x.hasTag a = true → a.toList ≠ b.toList →
        x.hasTag b = false := by
      intro a b ha hab
      rw [Xml.hasTag, decide_eq_true_eq] at ha
      rw [Xml.hasTag, decide_eq_false_iff_not, ha]
      exact hab
    unfold MemberReadable
    split_ifs with hm hp hs
    · rw [hexcl hm (by decide : "method".toList ≠ "property".toList)]
      rw [Method.ofXml, isSome_bind (P := True) fun m => by simp, named_isSome]
      simp [hm]
    · rw [hexcl hp (by decide : "property".toList ≠ "signal".toList)]
      rw [isSome_bind (P := True) fun m => by simp, argOfXml_isSome]
      simp [hm, hp]
    · rw [Signal.ofXml, isSome_bind (P := True) fun m => by simp, named_isSome]
      simp [hp, hs]
    · simp [hm, hp, hs]

theorem findInterface_isSome (interface : Text) (xs : List Xml) :
    (findInterface interface xs).isSome = true ↔ Readable interface xs := by
  induction xs with
  | nil => simp [findInterface, Readable]
  | cons x xs ih =>
    rw [findInterface, Readable]
    split_ifs with hx
    · cases hn : x.getProp "name" with
      | none => simp
      | some name =>
        by_cases hname : name = interface
        · simp [hname, ← membersOfXml_isSome]
        · simp [hname, ih]
    · exact ih

/-- The document of the object that the operation numbered `n` asks for, if it comes, can be read
for the interface. -/
def Described (bus : Bus) (busName objectPath : Text) (n : ℕ) (interface : Text) : Prop :=
  ∀ elements, bus.introspect busName objectPath n = .xml elements → Readable interface elements

theorem completes_newDBusObject {busName objectPath interface : Text} {listen : Bool} :
    Completes (newDBusObject bus busName objectPath interface listen) s ↔
      Described bus busName objectPath s.clock interface := by
  unfold newDBusObject Described
  rw [completes_bind_of_eq (dbusIntrospect_apply busName objectPath s)]
  cases bus.introspect busName objectPath s.clock with
  | noReply message => simp [introspection]
  | badArguments message => simp [introspection]
  | xml elements =>
    have hread := findInterface_isSome interface elements
    simp only [introspection, IntrospectReply.xml.injEq, forall_eq']
    rw [← hread]
    rcases findInterface interface elements with _ | _ | members <;> simp

theorem completes_callMethod (m : Method) (args : List QVariant) :
    Completes (callMethod q bus m args) s := by
  unfold callMethod
  rw [completes_bind_of_eq (show tick s = some (s.clock, s.ticked) from rfl)]
  dsimp only
  split <;> simp

theorem completes_staticCall {busName objectPath interface methodName : Text}
    {args : List QVariant} :
    Completes (staticCall q bus busName objectPath interface methodName args) s ↔
      Described bus busName objectPath s.clock interface := by
  unfold staticCall
  rw [completes_bind, completes_newDBusObject, and_iff_left]
  intro r s' _
  cases r with
  | error text => simp
  | ok o =>
    dsimp only
    split
    · simp
    · exact completes_callMethod _ _

def Reachable (bus : Bus) (s : Agent) (busName objectPath interface : Text) : Prop :=
  s.dbusObjects.lookup (objectName busName objectPath interface) = none →
    Described bus busName objectPath s.clock interface

theorem completes_getDBusObject {busName objectPath interface : Text} {listen : Bool} :
    Completes (getDBusObject bus busName objectPath interface listen) s ↔
      Reachable bus s busName objectPath interface := by
  unfold getDBusObject Reachable
  rw [completes_bind_of_eq (show (get : Act Agent) s = some (s, s) from rfl)]
  cases s.dbusObjects.lookup (objectName busName objectPath interface) with
  | some o => simp
  | none =>
    rw [completes_bind, completes_newDBusObject]
    simp only [true_imp_iff]
    rw [and_iff_left]
    intro r s' _
    cases r with
    | error text => simp
    | ok o =>
      refine completes_bind.mpr ⟨completes_modify _ _, ?_⟩
      intro a t _
      simp

def Pairs (v : QVariant) : Prop :=
  ∃ items, v = .list items ∧ ∀ item ∈ items, ∃ key value rest, item = .list (key :: value :: rest)

theorem propertyMap_isSome (items : List QVariant) :
    (propertyMap q items).isSome = true ↔
      ∀ item ∈ items, ∃ key value rest, item = .list (key :: value :: rest) := by
  induction items with
  | nil => simp [propertyMap]
  | cons item items ih =>
    rw [propertyMap, List.forall_mem_cons, ← ih]
    cases item with
    | list vs =>
      rcases vs with _ | ⟨key, _ | ⟨value, rest⟩⟩ <;> simp [QVariant.asList]
    | _ => simp [QVariant.asList]

theorem pairs_iff {v : QVariant} :
    (v.asList.bind (propertyMap q)).isSome = true ↔ Pairs v := by
  cases v <;> simp [QVariant.asList, Pairs, propertyMap_isSome]

def PropertiesReadable (q : Qpid) (bus : Bus) (o : DBusObject) (s : Agent) : Prop :=
  Described bus o.busName o.objectPath s.clock propertiesIface ∧
    ∀ props rest s', getAll q bus o s = some (.ok (props :: rest), s') → Pairs props

theorem completes_getPropertyValues {o : DBusObject} :
    Completes (getPropertyValues q bus o) s ↔ PropertiesReadable q bus o s := by
  unfold getPropertyValues PropertiesReadable
  rw [completes_bind, getAll, completes_staticCall]
  refine and_congr_right fun _ => ?_
  constructor
  · intro h props rest s' hs'
    have hprops := h _ _ hs'
    dsimp only at hprops
    rw [← pairs_iff (q := q)]
    split at hprops
    · exact absurd hprops (completes_fault _)
    · rename_i hsome
      rw [hsome, Option.isSome_some]
  · intro h r s' hs'
    rcases r with text | _ | ⟨props, rest⟩
    · simp
    · simp
    · have hprops := pairs_iff (q := q).mpr (h props rest s' hs')
      dsimp only
      split
      · rename_i hnone
        rw [hnone] at hprops
        cases hprops
      · simp

/-- Every property is known, until one is unknown or `Set` fails. -/
def SetsReadable (q : Qpid) (bus : Bus) (o : DBusObject) : List (Text × QVariant) → Agent → Prop
  | [], _ => True
  | (name, value) :: values, s =>
    (o.getProperty name).isSome = true →
      Described bus o.busName o.objectPath s.clock propertiesIface ∧
      ∀ results s', staticCall q bus o.busName o.objectPath propertiesIface "Set".toList
        [.string o.interface, .string name, value] s = some (.ok results, s') →
        SetsReadable q bus o values s'

theorem completes_setPropertyValues {o : DBusObject} {values : List (Text × QVariant)} :
    Completes (setPropertyValues q bus o values) s ↔ SetsReadable q bus o values s := by
  induction values generalizing s with
  | nil => simp [setPropertyValues, SetsReadable]
  | cons e values ih =>
    rcases e with ⟨name, value⟩
    rw [setPropertyValues, SetsReadable]
    by_cases hname : (o.getProperty name).isSome = true
    · rw [if_neg (by simpa [Option.isSome_iff_ne_none] using hname), completes_bind,
        completes_staticCall]
      simp only [hname, true_imp_iff]
      refine and_congr_right fun _ => ?_
      constructor
      · intro h results s' hs'
        exact ih.mp (h _ _ hs')
      · intro h r s' hs'
        cases r with
        | error text => simp
        | ok results => exact ih.mpr (h results s' hs')
    · rw [if_pos (by simpa using hname)]
      simp [hname]

def NamedValues (q : Qpid) (o : DBusObject) (v : QVariant) : Prop :=
  ∃ items, v = .list items ∧ ∀ item ∈ items, ∃ key rest, item = .list (key :: rest) ∧
    ((o.getProperty (q.asString key)).isSome = true → rest ≠ [])

theorem initialValues_isSome (o : DBusObject) (items : List QVariant) :
    (initialValues q o items).isSome = true ↔
      ∀ item ∈ items, ∃ key rest, item = .list (key :: rest) ∧
        ((o.getProperty (q.asString key)).isSome = true → rest ≠ []) := by
  induction items with
  | nil => simp [initialValues]
  | cons item items ih =>
    rw [initialValues, List.forall_mem_cons, ← ih]
    cases item with
    | list vs =>
      rcases vs with _ | ⟨key, rest⟩
      · simp [QVariant.asList]
      · by_cases hkey : (o.getProperty (q.asString key)).isSome = true
        · cases rest with
          | nil =>
            have hne : o.getProperty (q.asString key) ≠ none := Option.isSome_iff_ne_none.mp hkey
            simp [QVariant.asList, hne]
          | cons value rest => simp [QVariant.asList, hkey]
        · simp [QVariant.asList, hkey]
    | _ => simp [QVariant.asList]

theorem namedValues_iff {o : DBusObject} {v : QVariant} :
    (v.asList.bind (initialValues q o)).isSome = true ↔ NamedValues q o v := by
  cases v <;> simp [QVariant.asList, NamedValues, initialValues_isSome]

def ValuesReadable (q : Qpid) (bus : Bus) (o : DBusObject) (n : ℕ) : Prop :=
  o.members.properties ≠ [] →
    Described bus o.busName o.objectPath n propertiesIface ∧
    ∀ props rest s', getAll q bus o { clock := n } = some (.ok (props :: rest), s') →
      NamedValues q o props

theorem completes_loadValues {o : DBusObject} :
    Completes (loadValues q bus o) s ↔ ValuesReadable q bus o s.clock := by
  unfold loadValues ValuesReadable
  split_ifs with hprops
  · simp [hprops]
  · have hquery : Query (getAll q bus o) := query_staticCall _ _ _ _ _
    rw [completes_bind, getAll, completes_staticCall]
    simp only [ne_eq, hprops, not_false_eq_true, true_imp_iff]
    refine and_congr_right fun _ => ?_
    constructor
    · intro h props rest s' hs'
      have hvalues := h _ _ (hquery.eq_some hs' rfl)
      dsimp only at hvalues
      rw [← namedValues_iff]
      split at hvalues
      · exact absurd hvalues (completes_fault _)
      · rename_i hsome
        rw [hsome, Option.isSome_some]
    · intro h r s' hs'
      rcases r with text | _ | ⟨props, rest⟩
      · simp
      · simp
      · have hvalues := namedValues_iff.mpr (h props rest _ (hquery.eq_some hs' rfl))
        dsimp only
        split
        · rename_i hnone
          rw [hnone] at hvalues
          cases hvalues
        · simp

theorem completes_addFilter (name : Text) (error : Option Text) :
    Completes (addFilter bus name error) s := by
  unfold addFilter
  rw [completes_bind_of_eq (show tick s = some (s.clock, s.ticked) from rfl)]
  split_ifs
  · exact completes_bind.mpr ⟨completes_modify _ _, fun _ _ _ => completes_pure _ _⟩
  · simp

theorem completes_addData {name : Text} {o : DBusObject} :
    Completes (addData q bus name o) s ↔ ValuesReadable q bus o s.clock := by
  unfold addData
  rw [completes_bind_of_eq (show registerSchemas [o.dataSchema] s = some (⟨⟩, _) from rfl),
    completes_bind, completes_loadValues]
  refine and_iff_left fun r s' _ => ?_
  refine completes_bind.mpr ⟨completes_modify _ _, ?_⟩
  intro _ t _
  exact completes_addFilter _ _

/-- The part of a registration that depends on replies; an object that is
registered, or whose match rule is refused, asks for nothing. -/
def RegistrationReadable (q : Qpid) (bus : Bus) (o : DBusObject) (n : ℕ) : Prop :=
  o.isRegistered = false →
    if o.listenForSignals = true ∧ o.members.signals ≠ [] then
      bus.addMatch n = none → ValuesReadable q bus o (n + 1)
    else ValuesReadable q bus o n

theorem completes_addToSchema {name : Text} {o : DBusObject} :
    Completes (addToSchema q bus name o) s ↔ RegistrationReadable q bus o s.clock := by
  unfold addToSchema RegistrationReadable
  by_cases hreg : o.isRegistered = true
  · simp [hreg]
  rw [if_neg hreg]
  simp only [Bool.eq_false_iff.mpr hreg, true_imp_iff]
  rw [completes_bind_of_eq (show setObject name o.registered s = some (⟨⟩, _) from rfl)]
  by_cases hlisten : o.listenForSignals = true
  · rw [if_pos hlisten, completes_bind_of_eq (show registerSchemas _ _ = some (⟨⟩, _) from rfl)]
    by_cases hsignals : o.members.signals = []
    · rw [if_pos hsignals, completes_addData, if_neg (fun h => h.2 hsignals)]
      rfl
    · rw [if_neg hsignals, if_pos ⟨hlisten, hsignals⟩]
      set u := (s.put name o.registered).register (o.members.signals.map o.eventSchema)
      have hclock : u.clock = s.clock := rfl
      rw [← hclock]
      cases hmatch : bus.addMatch u.clock with
      | some message =>
        rw [completes_bind_of_eq (busAddMatch_refused _ hmatch)]
        simp
      | none =>
        rw [completes_bind_of_eq (busAddMatch_added _ hmatch)]
        simp only [true_imp_iff]
        exact completes_addData
  · rw [if_neg hlisten, completes_addData, if_neg (fun h => hlisten h.1)]
    rfl

def AddsReadable (q : Qpid) (bus : Bus) (busName objectPath : Text) : List Text → Agent → Prop
  | [], _ => True
  | interface :: interfaces, s =>
    Reachable bus s busName objectPath (cStr interface) ∧
    ∀ o s', getDBusObject bus busName objectPath (cStr interface) true s = some (.ok o, s') →
      RegistrationReadable q bus o s'.clock ∧
      ∀ s'', addToSchema q bus (objectName busName objectPath (cStr interface)) o s' =
        some (none, s'') → AddsReadable q bus busName objectPath interfaces s''

theorem completes_addInterfaces {busName objectPath : Text} {interfaces : List Text} :
    Completes (addInterfaces q bus busName objectPath interfaces) s ↔
      AddsReadable q bus busName objectPath interfaces s := by
  induction interfaces generalizing s with
  | nil => simp [addInterfaces, AddsReadable]
  | cons interface interfaces ih =>
    rw [addInterfaces, AddsReadable, completes_bind, completes_getDBusObject]
    refine and_congr_right fun _ => ?_
    constructor
    · intro h o s' hs'
      have ho := h _ _ hs'
      dsimp only at ho
      rw [completes_bind, completes_addToSchema] at ho
      exact ⟨ho.1, fun s'' hs'' => ih.mp (ho.2 _ _ hs'')⟩
    · intro h r s' hs'
      cases r with
      | error text => simp
      | ok o =>
        rcases h o s' hs' with ⟨hreg, hrest⟩
        refine completes_bind.mpr ⟨completes_addToSchema.mpr hreg, ?_⟩
        intro error s'' hs''
        cases error with
        | some text => simp
        | none => exact ih.mpr (hrest s'' hs'')

def InterfacesNamed (bus : Bus) (busName objectPath : Text) (n : ℕ) : Prop :=
  ∀ elements, bus.introspect busName objectPath n = .xml elements →
    ∀ x ∈ elements, x.hasTag "interface" = true → (x.getProp "name").isSome = true

theorem interfaceNames_isSome (xs : List Xml) :
    (interfaceNames xs).isSome = true ↔
      ∀ x ∈ xs, x.hasTag "interface" = true → (x.getProp "name").isSome = true := by
  induction xs with
  | nil => simp [interfaceNames]
  | cons x xs ih =>
    rw [interfaceNames, List.forall_mem_cons, ← ih]
    by_cases hx : x.hasTag "interface" = true
    · rw [if_pos hx, isSome_bind fun name => isSome_bind (P := True) fun names => by simp]
      simp [hx]
    · rw [if_neg hx]
      simp [hx]

theorem completes_getInterfaces {busName objectPath : Text} :
    Completes (getInterfaces bus busName objectPath) s ↔
      InterfacesNamed bus busName objectPath s.clock := by
  unfold getInterfaces InterfacesNamed
  rw [completes_bind_of_eq (dbusIntrospect_apply busName objectPath s)]
  cases bus.introspect busName objectPath s.clock with
  | noReply message => simp [introspection]
  | badArguments message => simp [introspection]
  | xml elements =>
    simp only [introspection, IntrospectReply.xml.injEq, forall_eq']
    rw [← interfaceNames_isSome]
    cases interfaceNames elements <;> simp

/-- The elements of a document are gone through from the operation numbered `n` on,
and the objects below them before the next element: the nesting that the bus
reports is finite, and every node has a name. -/
inductive Walk (bus : Bus) (busName : Text) : Text → ℕ → List Xml → ℕ → Prop
  | nil (objectPath : Text) (n : ℕ) : Walk bus busName objectPath n [] n
  | content {objectPath : Text} {n n' : ℕ} {x : Xml} {xs : List Xml} :
      x.hasTag "node" = false → Walk bus busName objectPath n xs n' →
      Walk bus busName objectPath n (x :: xs) n'
  | refused {objectPath name : Text} {n n' : ℕ} {x : Xml} {xs : List Xml} :
      x.hasTag "node" = true → x.getProp "name" = some name →
      (∀ ys, bus.introspect busName (childPath objectPath name) n ≠ .xml ys) →
      Walk bus busName objectPath (n + 1) xs n' → Walk bus busName objectPath n (x :: xs) n'
  | object {objectPath name : Text} {n m n' : ℕ} {x : Xml} {xs ys : List Xml} :
      x.hasTag "node" = true → x.getProp "name" = some name →
      bus.introspect busName (childPath objectPath name) n = .xml ys →
      Walk bus busName (childPath objectPath name) (n + 1) ys m →
      Walk bus busName objectPath m xs n' → Walk bus busName objectPath n (x :: xs) n'

theorem walk_of_visitNodes {busName : Text} {depth : ℕ}
    (ih : ∀ {p : Text} {s s' : Agent} {paths : List Text},
      getObjectPaths bus busName depth p s = some (paths, s') →
        (∀ ys, bus.introspect busName p s.clock ≠ .xml ys) ∧ s'.clock = s.clock + 1 ∨
        ∃ ys, bus.introspect busName p s.clock = .xml ys ∧
          Walk bus busName p (s.clock + 1) ys s'.clock)
    {objectPath : Text} {xs : List Xml} {s s' : Agent} {r : List Text × Bool}
    (h : visitNodes (getObjectPaths bus busName depth) objectPath xs s = some (r, s')) :
    Walk bus busName objectPath s.clock xs s'.clock := by
  induction xs generalizing s r with
  | nil =>
    cases h
    exact .nil _ _
  | cons x xs ihxs =>
    rw [visitNodes] at h
    split_ifs at h with hx
    · cases hn : x.getProp "name" with
      | none => simp [hn, PartialState.fault] at h
      | some name =>
        rw [hn] at h
        rcases bind_eq_some.mp h with ⟨paths, t, ht, hrest⟩
        rcases bind_eq_some.mp hrest with ⟨r', u, hu, hr⟩
        cases hr
        rcases ih ht with ⟨hno, hclock⟩ | ⟨ys, hys, hwalk⟩
        · exact .refused hx hn hno (hclock ▸ ihxs hu)
        · exact .object hx hn hys hwalk (ihxs hu)
    · rcases bind_eq_some.mp h with ⟨r', u, hu, hr⟩
      cases hr
      exact .content (Bool.eq_false_iff.mpr hx) (ihxs hu)

theorem walk_of_getObjectPaths {busName : Text} {depth : ℕ} {objectPath : Text} {s s' : Agent}
    {paths : List Text} (h : getObjectPaths bus busName depth objectPath s = some (paths, s')) :
    (∀ ys, bus.introspect busName objectPath s.clock ≠ .xml ys) ∧ s'.clock = s.clock + 1 ∨
      ∃ ys, bus.introspect busName objectPath s.clock = .xml ys ∧
        Walk bus busName objectPath (s.clock + 1) ys s'.clock := by
  induction depth generalizing objectPath s s' paths with
  | zero => cases h
  | succ depth ih =>
    rw [getObjectPaths] at h
    rcases bind_eq_some.mp h with ⟨r, t, ht, hr⟩
    rw [dbusIntrospect_apply] at ht
    cases ht
    cases hreply : bus.introspect busName objectPath s.clock with
    | noReply message =>
      rw [hreply] at hr
      cases hr
      exact .inl ⟨by simp, rfl⟩
    | badArguments message =>
      rw [hreply] at hr
      cases hr
      exact .inl ⟨by simp, rfl⟩
    | xml elements =>
      rw [hreply] at hr
      rcases bind_eq_some.mp hr with ⟨r', u, hu, hr'⟩
      cases hr'
      exact .inr ⟨elements, rfl, walk_of_visitNodes ih hu⟩

theorem getObjectPaths_refused {busName objectPath : Text} {depth : ℕ}
    (h : ∀ ys, bus.introspect busName objectPath s.clock ≠ .xml ys) :
    getObjectPaths bus busName (depth + 1) objectPath s = some ([], s.ticked) := by
  rw [getObjectPaths, bind_eq_some]
  refine ⟨_, _, dbusIntrospect_apply busName objectPath s, ?_⟩
  cases hreply : bus.introspect busName objectPath s.clock with
  | noReply message => rfl
  | badArguments message => rfl
  | xml elements => exact absurd hreply (h elements)

/-- Every depth from some point on is enough for a walk. -/
theorem Walk.visitNodes {busName objectPath : Text} {n n' : ℕ} {xs : List Xml}
    (h : Walk bus busName objectPath n xs n') :
    ∃ bound, ∀ depth, bound ≤ depth → ∀ s : Agent, s.clock = n →
      ∃ r s', visitNodes (getObjectPaths bus busName depth) objectPath xs s = some (r, s') ∧
        s'.clock = n' := by
  induction h with
  | nil objectPath n => exact ⟨0, fun depth _ s hs => ⟨_, s, rfl, hs⟩⟩
  | @content objectPath n n' x xs hx _ ih =>
    rcases ih with ⟨bound, ih⟩
    refine ⟨bound, fun depth hd s hs => ?_⟩
    rcases ih depth hd s hs with ⟨r, s', hr, hs'⟩
    refine ⟨(r.1, true), s', ?_, hs'⟩
    rw [DbusBridge.visitNodes, if_neg (by simp [hx]), bind_eq_some]
    exact ⟨r, s', hr, rfl⟩
  | @refused objectPath name n n' x xs hx hname hno _ ih =>
    rcases ih with ⟨bound, ih⟩
    refine ⟨bound + 1, fun depth hd s hs => ?_⟩
    rcases Nat.exists_eq_add_of_le' hd with ⟨k, rfl⟩
    subst hs
    rcases ih (k + (bound + 1)) (by omega) s.ticked rfl with ⟨r, s', hr, hs'⟩
    refine ⟨([] ++ r.1, r.2), s', ?_, hs'⟩
    rw [DbusBridge.visitNodes, if_pos hx, hname]
    refine bind_eq_some.mpr ⟨[], s.ticked, getObjectPaths_refused hno, ?_⟩
    exact bind_eq_some.mpr ⟨r, s', hr, rfl⟩
  | @object objectPath name n m n' x xs ys hx hname hys _ _ ihy ihx =>
    rcases ihy with ⟨bound₁, ihy⟩
    rcases ihx with ⟨bound₂, ihx⟩
    refine ⟨bound₁ + bound₂ + 1, fun depth hd s hs => ?_⟩
    rcases Nat.exists_eq_add_of_le' hd with ⟨k, rfl⟩
    subst hs
    rcases ihy (k + (bound₁ + bound₂)) (by omega) s.ticked rfl with ⟨r₁, t, hr₁, ht⟩
    rcases ihx (k + (bound₁ + bound₂ + 1)) (by omega) t ht with ⟨r, s', hr, hs'⟩
    rw [DbusBridge.visitNodes, if_pos hx, hname]
    have hchild : getObjectPaths bus busName (k + (bound₁ + bound₂ + 1))
        (childPath objectPath name) s =
          some (if r₁.2 then r₁.1 ++ [childPath objectPath name] else r₁.1, t) := by
      change getObjectPaths bus busName (k + (bound₁ + bound₂) + 1) _ s = _
      rw [getObjectPaths, bind_eq_some]
      refine ⟨_, _, dbusIntrospect_apply busName _ s, ?_⟩
      rw [hys]
      exact bind_eq_some.mpr ⟨r₁, t, hr₁, rfl⟩
    refine ⟨_, s', bind_eq_some.mpr ⟨_, t, hchild, bind_eq_some.mpr ⟨r, s', hr, rfl⟩⟩, hs'⟩

def PathsFinite (bus : Bus) (busName objectPath : Text) (n : ℕ) : Prop :=
  ∀ elements, bus.introspect busName objectPath n = .xml elements →
    ∃ n', Walk bus busName objectPath (n + 1) elements n'

theorem completes_getObjectPaths {busName objectPath : Text} :
    (∃ depth, Completes (getObjectPaths bus busName depth objectPath) s) ↔
      PathsFinite bus busName objectPath s.clock := by
  constructor
  · rintro ⟨depth, paths, s', h⟩ elements helements
    rcases walk_of_getObjectPaths h with ⟨hno, _⟩ | ⟨ys, hys, hwalk⟩
    · exact absurd helements (hno elements)
    · rw [helements] at hys
      cases hys
      exact ⟨_, hwalk⟩
  · intro h
    by_cases hxml : ∃ elements, bus.introspect busName objectPath s.clock = .xml elements
    · rcases hxml with ⟨elements, helements⟩
      rcases h elements helements with ⟨n', hwalk⟩
      rcases hwalk.visitNodes with ⟨bound, hbound⟩
      rcases hbound bound le_rfl s.ticked rfl with ⟨r, s', hr, _⟩
      refine ⟨bound + 1, ?_⟩
      rw [getObjectPaths, completes_bind_of_eq (dbusIntrospect_apply busName objectPath s),
        helements]
      exact (completes_bind_of_eq hr).mpr (completes_pure _ _)
    · push Not at hxml
      exact ⟨1, _, _, getObjectPaths_refused hxml⟩

def CallServed (q : Qpid) (bus : Bus) (ev : Event) (s : Agent) : Prop :=
  Reachable bus s (ev.text q "bus_name") (ev.text q "object_path") (ev.text q "interface") ∧
  ∀ o s', getDBusObject bus (ev.text q "bus_name") (ev.text q "object_path")
      (ev.text q "interface") false s = some (.ok o, s') →
    (o.getMethod (q.asString (ev.arg "method_name"))).isSome = true →
      (ev.arg "args").asList.isSome = true

theorem completes_callRequest {ev : Event} :
    Completes (callRequest q bus ev) s ↔ CallServed q bus ev s := by
  unfold callRequest CallServed
  rw [completes_bind, completes_getDBusObject]
  refine and_congr_right fun _ => ?_
  constructor
  · intro h o s' hs' hm
    have ho := h _ _ hs'
    rcases Option.isSome_iff_exists.mp hm with ⟨m, hm⟩
    dsimp only at ho
    rw [hm] at ho
    cases hargs : (ev.arg "args").asList with
    | none => simp [hargs] at ho
    | some args => rfl
  · intro h r s' hs'
    cases r with
    | error text => exact completes_modify _ _
    | ok o =>
      dsimp only
      cases hm : o.getMethod (q.asString (ev.arg "method_name")) with
      | none => exact completes_modify _ _
      | some m =>
        have hargs := h o s' hs' (by rw [hm, Option.isSome_some])
        rcases Option.isSome_iff_exists.mp hargs with ⟨args, hargs⟩
        dsimp only
        rw [hargs]
        refine completes_bind.mpr ⟨completes_callMethod m args, fun r t _ => ?_⟩
        cases r with
        | error text => exact completes_modify _ _
        | ok results => exact completes_modify _ _

/-- `list_dbus_objects`: the replies to `ListNames` and `ListActivatableNames`
begin with a list, and `only_well_known` is convertible when it is looked at. -/
def NamesServed (q : Qpid) (bus : Bus) (ev : Event) (s : Agent) : Prop :=
  Described bus dbusName "/".toList s.clock dbusName ∧
  ∀ first rest s', listNames q bus "ListNames" s = some (.ok (first :: rest), s') →
    first.asList.isSome = true ∧ (q.asBool (ev.arg "only_well_known")).isSome = true ∧
    Described bus dbusName "/".toList s'.clock dbusName ∧
    ∀ second rest' s'', listNames q bus "ListActivatableNames" s' =
      some (.ok (second :: rest'), s'') → second.asList.isSome = true

theorem completes_listDbusObjects {ev : Event} :
    Completes (listDbusObjects q bus ev) s ↔ NamesServed q bus ev s := by
  unfold listDbusObjects NamesServed
  rw [completes_bind, listNames, completes_staticCall]
  refine and_congr_right fun _ => ?_
  constructor
  · intro h first rest s' hs'
    have hfirst := h _ _ hs'
    dsimp only at hfirst
    split at hfirst
    · rename_i names wellKnown hnames hbool
      rw [completes_bind, listNames, completes_staticCall] at hfirst
      refine ⟨by rw [hnames, Option.isSome_some], by rw [hbool, Option.isSome_some],
        hfirst.1, ?_⟩
      intro second rest' s'' hs''
      have hsecond := hfirst.2 _ _ hs''
      cases hlist : second.asList with
      | none => simp [hlist] at hsecond
      | some activatable => rfl
    · exact absurd hfirst (completes_fault _)
  · intro h r s' hs'
    rcases r with text | _ | ⟨first, rest⟩
    · exact completes_modify _ _
    · exact completes_modify _ _
    · rcases h first rest s' hs' with ⟨hnames, hbool, hdesc, hsecond⟩
      rcases Option.isSome_iff_exists.mp hnames with ⟨names, hnames⟩
      rcases Option.isSome_iff_exists.mp hbool with ⟨wellKnown, hbool⟩
      dsimp only
      rw [hnames, hbool]
      refine completes_bind.mpr ⟨completes_staticCall.mpr hdesc, fun r t ht => ?_⟩
      rcases r with text | _ | ⟨second, rest⟩
      · exact completes_modify _ _
      · exact completes_modify _ _
      · rcases Option.isSome_iff_exists.mp (hsecond second rest t ht) with ⟨activatable, hlist⟩
        dsimp only
        rw [hlist]
        exact completes_modify _ _

def AllInterfaces (q : Qpid) (ev : Event) : Prop :=
  ∀ v, ev.arguments.lookup "interface".toList = some v → q.asString v = []

def AddServed (q : Qpid) (bus : Bus) (ev : Event) (s : Agent) : Prop :=
  (AllInterfaces q ev →
    InterfacesNamed bus (ev.text q "bus_name") (ev.text q "object_path") s.clock) ∧
  ∀ interfaces s', requestedInterfaces q bus ev s = some (interfaces, s') →
    AddsReadable q bus (ev.text q "bus_name") (ev.text q "object_path") interfaces s'

theorem completes_requestedInterfaces {ev : Event} :
    Completes (requestedInterfaces q bus ev) s ↔
      (AllInterfaces q ev →
        InterfacesNamed bus (ev.text q "bus_name") (ev.text q "object_path") s.clock) := by
  have hlist : ∀ f : List Text → List Text,
      Completes (getInterfaces bus (ev.text q "bus_name") (ev.text q "object_path") >>=
        fun interfaces => (pure (f interfaces) : Act (List Text))) s ↔
          InterfacesNamed bus (ev.text q "bus_name") (ev.text q "object_path") s.clock := by
    intro f
    rw [completes_bind, completes_getInterfaces]
    exact and_iff_left fun _ _ _ => completes_pure _ _
  unfold requestedInterfaces AllInterfaces
  cases ev.arguments.lookup "interface".toList with
  | none => simpa using hlist _
  | some v =>
    by_cases hv : q.asString v = []
    · simpa [hv] using hlist _
    · have hlen : (q.asString v).length > 0 := List.length_pos_iff.mpr hv
      simp [hlen, hv]

theorem completes_addDbusObject {ev : Event} :
    Completes (addDbusObject q bus ev) s ↔ AddServed q bus ev s := by
  unfold addDbusObject AddServed
  rw [completes_bind, completes_requestedInterfaces]
  refine and_congr_right fun _ => forall_congr' fun interfaces => forall_congr' fun s' =>
    imp_congr_right fun _ => ?_
  rw [completes_bind, completes_addInterfaces]
  refine and_iff_left fun error t _ => ?_
  cases error with
  | some text => exact completes_modify _ _
  | none => exact completes_modify _ _

theorem argMapToList_isSome (arguments : List (Text × QVariant)) (args : List Arg) :
    (argMapToList arguments args).isSome = true ↔
      ∀ arg ∈ args, arg.name ≠ [] → (arguments.lookup arg.name).isSome = true := by
  induction args with
  | nil => simp [argMapToList]
  | cons arg args ih =>
    rw [argMapToList, List.forall_mem_cons, ← ih,
      isSome_bind fun v => isSome_bind (P := True) fun vs => by simp]
    by_cases hname : arg.name = []
    · simp [argValue, hname]
    · have hlen : arg.name.length > 0 := List.length_pos_iff.mpr hname
      simp [argValue, hlen, hname]

/-- A request to an object that is had: `values` is a map for `Set`, the reply to
`GetAll` is a list of pairs for `Get`, and a method that is declared is given all
of its input arguments. -/
def MemberServed (q : Qpid) (bus : Bus) (o : DBusObject) (ev : Event) (s : Agent) : Prop :=
  if cStr ev.methodName = "Set".toList then
    ∃ values, ev.arg "values" = .map values ∧ SetsReadable q bus o values s
  else if cStr ev.methodName = "Get".toList then PropertiesReadable q bus o s
  else
    ∀ m, o.getMethod (cStr ev.methodName) = some m →
      ∀ arg ∈ m.inArgs, arg.name ≠ [] → (ev.arguments.lookup arg.name).isSome = true

theorem completes_setRequest {o : DBusObject} {ev : Event} :
    Completes (setRequest q bus o ev) s ↔
      ∃ values, ev.arg "values" = .map values ∧ SetsReadable q bus o values s := by
  unfold setRequest
  cases hv : ev.arg "values" with
  | map values =>
    simp only [QVariant.asMap, QVariant.map.injEq, exists_eq_left']
    rw [completes_bind, completes_setPropertyValues]
    refine and_iff_left fun error t _ => ?_
    cases error with
    | some text => exact completes_modify _ _
    | none => exact completes_modify _ _
  | _ => simp [QVariant.asMap]

theorem completes_getRequest {o : DBusObject} :
    Completes (getRequest q bus o) s ↔ PropertiesReadable q bus o s := by
  unfold getRequest
  rw [completes_bind, completes_getPropertyValues]
  refine and_iff_left fun r t _ => ?_
  cases r with
  | error text => exact completes_modify _ _
  | ok values => exact completes_modify _ _

theorem completes_methodRequest {o : DBusObject} {interface : Text} {ev : Event} :
    Completes (methodRequest q bus o interface ev) s ↔
      ∀ m, o.getMethod (cStr ev.methodName) = some m →
        ∀ arg ∈ m.inArgs, arg.name ≠ [] → (ev.arguments.lookup arg.name).isSome = true := by
  unfold methodRequest
  cases o.getMethod (cStr ev.methodName) with
  | none => exact iff_of_true (completes_modify _ _) (by simp)
  | some m =>
    simp only [Option.some.injEq, forall_eq']
    rw [← argMapToList_isSome]
    cases argMapToList ev.arguments m.inArgs with
    | none => simp
    | some args =>
      simp only [Option.isSome_some, iff_true]
      refine completes_bind.mpr ⟨completes_callMethod m args, fun r t _ => ?_⟩
      cases r with
      | error text => exact completes_modify _ _
      | ok results =>
        dsimp only
        split_ifs
        · exact completes_modify _ _
        · exact completes_modify _ _

def ObjectServed (q : Qpid) (bus : Bus) (name : Text) (ev : Event) (s : Agent) : Prop :=
  let busName := cStr (splitName name).1
  let objectPath := cStr (splitName (splitName name).2).1
  let interface := cStr (splitName (splitName name).2).2
  Reachable bus s busName objectPath interface ∧
  ∀ o s', getDBusObject bus busName objectPath interface false s = some (.ok o, s') →
    MemberServed q bus o ev s'

theorem completes_objectRequest {name : Text} {ev : Event} :
    Completes (objectRequest q bus name ev) s ↔ ObjectServed q bus name ev s := by
  have hmember : ∀ {interface : Text} {o : DBusObject} {s' : Agent},
      Completes (if cStr ev.methodName = "Set".toList then setRequest q bus o ev
        else if cStr ev.methodName = "Get".toList then getRequest q bus o
        else methodRequest q bus o interface ev) s' ↔ MemberServed q bus o ev s' := by
    intro interface o s'
    unfold MemberServed
    split_ifs
    · exact completes_setRequest
    · exact completes_getRequest
    · exact completes_methodRequest
  unfold objectRequest ObjectServed
  rw [completes_bind, completes_getDBusObject]
  refine and_congr_right fun _ => ?_
  constructor
  · intro h o s' hs'
    exact hmember.mp (h _ _ hs')
  · intro h r s' hs'
    cases r with
    | error text => exact completes_modify _ _
    | ok o => exact hmember.mpr (h o s' hs')

def BridgeServed (q : Qpid) (bus : Bus) (ev : Event) (s : Agent) : Prop :=
  if ev.methodName = "call".toList then CallServed q bus ev s
  else if ev.methodName = "list_dbus_objects".toList then NamesServed q bus ev s
  else if ev.methodName = "list_object_paths".toList then
    PathsFinite bus (ev.text q "bus_name") "/".toList s.clock
  else if ev.methodName = "list_interfaces".toList then
    InterfacesNamed bus (ev.text q "bus_name") (ev.text q "object_path") s.clock
  else if ev.methodName = "add_dbus_object".toList then AddServed q bus ev s
  else True

theorem completes_bridgeRequest {ev : Event} :
    (∃ depth, Completes (bridgeRequest q bus depth ev) s) ↔ BridgeServed q bus ev s := by
  unfold bridgeRequest BridgeServed
  split_ifs
  · rw [← completes_callRequest, exists_const]
  · rw [← completes_listDbusObjects, exists_const]
  · rw [← completes_getObjectPaths]
    refine exists_congr fun depth => ?_
    rw [listObjectPaths, completes_bind]
    exact and_iff_left fun _ _ _ => completes_modify _ _
  · rw [exists_const, listInterfaces, completes_bind, completes_getInterfaces]
    exact and_iff_left fun _ _ _ => completes_modify _ _
  · rw [← completes_addDbusObject, exists_const]
  · exact iff_of_true ⟨0, completes_modify _ _⟩ trivial

def Served (q : Qpid) (bus : Bus) (name : Text) (ev : Event) (s : Agent) : Prop :=
  if name = bridgeName then BridgeServed q bus ev s else ObjectServed q bus name ev s

end

/-- `invoke` returns from a method call with one reply sent exactly where nothing
that it reads is missing. -/
theorem answered_once_iff (q : Qpid) (bus : Bus) (name methodName : Text)
    (arguments : List (Text × QVariant)) (s : Agent) :
    (∃ depth s' reply,
      invoke q bus depth ⟨true, some name, methodName, arguments⟩ s = some (⟨⟩, s') ∧
        s'.replies = reply :: s.replies) ↔
      Served q bus name ⟨true, some name, methodName, arguments⟩ s := by
  have hcompletes : (∃ depth, Completes
      (invoke q bus depth ⟨true, some name, methodName, arguments⟩) s) ↔
        Served q bus name ⟨true, some name, methodName, arguments⟩ s := by
    unfold invoke Served
    dsimp only
    split_ifs
    · exact completes_bridgeRequest
    · rw [exists_const, completes_objectRequest]
  rw [← hcompletes]
  constructor
  · rintro ⟨depth, s', _, h, _⟩
    exact ⟨depth, ⟨⟩, s', h⟩
  · rintro ⟨depth, _, s', h⟩
    rcases answered_invoke depth name methodName arguments s _ s' h with
      ⟨t, reply, hgrows, rfl⟩
    exact ⟨depth, _, reply, h, by rw [hgrows.replies]⟩

def methodInterface : Xml :=
  .element "interface".toList [("name".toList, "i".toList)]
    [.element "method".toList [("name".toList, "m".toList)] []]

def callWithoutArgs : List (Text × QVariant) :=
  [("bus_name".toList, .string "b".toList), ("object_path".toList, .string "/o".toList),
    ("interface".toList, .string "i".toList), ("method_name".toList, .string "m".toList)]

/-- A `call` without `args` takes the daemon down. -/
theorem missing_args_not_answered :
    ¬ ∃ depth s' reply,
      invoke exactQpid (busOf methodInterface) depth
          ⟨true, some bridgeName, "call".toList, callWithoutArgs⟩ {} = some (⟨⟩, s') ∧
        s'.replies = reply :: ({} : Agent).replies := by
  rintro ⟨depth, s', reply, h, _⟩
  have hfault : invoke exactQpid (busOf methodInterface) depth
      ⟨true, some bridgeName, "call".toList, callWithoutArgs⟩ {} = none := rfl
  rw [hfault] at h
  cases h

end Matahari.DbusBridge
