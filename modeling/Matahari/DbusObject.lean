import Matahari.Library.PartialState
import Matahari.DbusMethod

set_option autoImplicit false

/-!
# Bridged D-Bus objects

`DBusObject` of `dbusobject.cpp`: its construction from introspection data, the
static calls, properties, and the registration with the QMF session. An agent is
a state that these operations change; an operation that ends in an uncaught
exception or in undefined behaviour does not return.

libdbus is the environment. Its operations are numbered by a clock, and a `Bus`
gives the outcome of each of them.
-/
namespace Matahari.DbusBridge
open Mainloop PartialState

/-- An element of an introspection document; text and comments are left out, as
the code skips them. -/
inductive Xml where
  | element (tag : Text) (attributes : List (Text × Text)) (children : List Xml)

def Xml.tag : Xml → Text
  | element tag _ _ => tag

def Xml.children : Xml → List Xml
  | element _ _ children => children

def Xml.getProp (x : Xml) (name : String) : Option Text :=
  match x with
  | element _ attributes _ => attributes.lookup name.toList

def Xml.hasTag (x : Xml) (name : String) : Bool := x.tag = name.toList

def Arg.ofXml (x : Xml) (index : ℕ) : Option Arg :=
  (x.getProp "type").map fun type =>
    { name := match x.getProp "name" with
        | some name => if name.length > 0 then name else (toString index).toList
        | none => (toString index).toList
      type := type
      dir := if x.getProp "direction" = some "out".toList then .dirOut else .dirIn
      access := if x.getProp "access" = some "read".toList then .readOnly else .readWrite }

def argsOfXml (index : ℕ) : List Xml → Option (List Arg)
  | [] => some []
  | x :: xs =>
    if x.hasTag "arg" then do
      let arg ← Arg.ofXml x index
      let args ← argsOfXml (index + 1) xs
      pure (arg :: args)
    else argsOfXml index xs

def Method.ofXml (x : Xml) : Option Method := do
  let name ← x.getProp "name"
  let args ← argsOfXml 0 x.children
  pure ⟨name, args⟩

inductive SchemaType where
  | data
  | event
  deriving DecidableEq, Repr

/-- A QMF schema: `properties` are the arguments it was made from, and `methods`
the names of its methods. -/
structure Schema where
  type : SchemaType
  package : Text
  cls : Text
  properties : List Arg
  methods : List Text := []
  deriving DecidableEq, Repr

structure Signal where
  name : Text
  args : List Arg
  schema : Option Schema := none
  deriving DecidableEq, Repr

def Signal.ofXml (x : Xml) : Option Signal := do
  let name ← x.getProp "name"
  let args ← argsOfXml 0 x.children
  pure { name := name, args := args }

structure Members where
  methods : List Method := []
  properties : List Arg := []
  signals : List Signal := []
  deriving DecidableEq, Repr

def Members.ofXml : List Xml → Option Members
  | [] => some {}
  | x :: xs => do
    let rest ← Members.ofXml xs
    if x.hasTag "method" then
      let method ← Method.ofXml x
      pure { rest with methods := method :: rest.methods }
    else if x.hasTag "property" then
      let property ← Arg.ofXml x 0
      pure { rest with properties := property :: rest.properties }
    else if x.hasTag "signal" then
      let signal ← Signal.ofXml x
      pure { rest with signals := signal :: rest.signals }
    else pure rest

/-- The loop of the constructor over the elements of the document: `some none` when
the interface is not there. The name of every interface element up to the one
looked for is passed to `strcmp`. -/
def findInterface (interface : Text) : List Xml → Option (Option Members)
  | [] => some none
  | x :: xs =>
    if x.hasTag "interface" then
      match x.getProp "name" with
      | none => none
      | some name =>
        if name = interface then (Members.ofXml x.children).map some
        else findInterface interface xs
    else findInterface interface xs

structure DBusObject where
  listenForSignals : Bool
  busName : Text
  objectPath : Text
  interface : Text
  members : Members
  isRegistered : Bool := false
  deriving DecidableEq, Repr

namespace DBusObject

def getMethod (o : DBusObject) (name : Text) : Option Method :=
  o.members.methods.find? (·.name = name)

def getSignal (o : DBusObject) (name : Text) : Option Signal :=
  o.members.signals.find? (·.name = name)

def getProperty (o : DBusObject) (name : Text) : Option Arg :=
  o.members.properties.find? (·.name = name)

def eventSchema (o : DBusObject) (signal : Signal) : Schema where
  type := .event
  package := o.busName ++ '@' :: o.objectPath
  cls := o.interface ++ '.' :: signal.name
  properties := signal.args

def withEventSchemas (o : DBusObject) : List Signal :=
  o.members.signals.map fun signal => { signal with schema := some (o.eventSchema signal) }

def dataSchema (o : DBusObject) : Schema where
  type := .data
  package := o.busName ++ '@' :: o.objectPath
  cls := o.interface
  properties := o.members.properties
  methods := o.members.methods.map (·.name) ++ ["Get".toList] ++
    if o.members.properties.any (·.access = .readWrite) then ["Set".toList] else []

def matchRule (o : DBusObject) : Text :=
  "type='signal',interface='".toList ++ o.interface ++ "'".toList

end DBusObject

def objectName (busName objectPath interface : Text) : Text :=
  busName ++ '@' :: objectPath ++ '@' :: interface

inductive Reply where
  | methodSuccess (arguments : List (Text × QVariant))
  | raiseException (text : Text)

structure Agent where
  dbusObjects : List (Text × DBusObject) := []
  schemas : List Schema := []
  data : List (Text × List (Text × QVariant)) := []
  matchRules : List Text := []
  filters : List Text := []
  replies : List Reply := []
  clock : ℕ := 0

inductive IntrospectReply where
  | noReply (message : Text)
  | badArguments (message : Text)
  | xml (elements : List Xml)

/-- The outcomes of the operations of libdbus, by the clock; a document is that of the object it
is asked from. -/
structure Bus where
  introspect (busName objectPath : Text) : ℕ → IntrospectReply
  call : ℕ → CallOutcome
  addMatch : ℕ → Option Text
  addFilter : ℕ → Bool

structure Qpid extends Conversions where
  asString : QVariant → Text
  asBool : QVariant → Option Bool

abbrev Act (α : Type) := StateT Agent Option α

def tick : Act ℕ := do
  let s ← get
  set { s with clock := s.clock + 1 }
  pure s.clock

def introspection (busName objectPath : Text) : IntrospectReply → Except Text (List Xml)
  | .noReply message =>
    .error ("Unable to introspect: ".toList ++ busName ++ ' ' :: objectPath ++ " (".toList ++
      message ++ ")".toList)
  | .badArguments message => .error ("Introspection failed: ".toList ++ message)
  | .xml elements => .ok elements

def dbusIntrospect (bus : Bus) (busName objectPath : Text) : Act (Except Text (List Xml)) := do
  let n ← tick
  pure (introspection busName objectPath (bus.introspect busName objectPath n))

def noSuchInterface (interface busName objectPath : Text) : Text :=
  "No such interface '".toList ++ interface ++ "' found on object '".toList ++ busName ++
    "' with path '".toList ++ objectPath ++ "'".toList

def newDBusObject (bus : Bus) (busName objectPath interface : Text) (listenForSignals : Bool) :
    Act (Except Text DBusObject) := do
  match ← dbusIntrospect bus busName objectPath with
  | .error text => pure (.error text)
  | .ok elements =>
    match findInterface interface elements with
    | none => fault
    | some none => pure (.error (noSuchInterface interface busName objectPath))
    | some (some members) =>
      pure (.ok { listenForSignals, busName, objectPath, interface, members })

def callMethod (q : Qpid) (bus : Bus) (m : Method) (args : List QVariant) :
    Act (Except Text (List QVariant)) := do
  let n ← tick
  let r := m.call q.toConversions args (bus.call n)
  match r.err with
  | some text => pure (.error text)
  | none => pure (.ok r.results)

def noSuchMethod (methodName busName objectPath interface : Text) : Text :=
  "No such method '".toList ++ methodName ++ "' found on object '".toList ++ busName ++
    "' with path '".toList ++ objectPath ++ "' and interface '".toList ++ interface ++
    "'".toList

def staticCall (q : Qpid) (bus : Bus) (busName objectPath interface methodName : Text)
    (args : List QVariant) : Act (Except Text (List QVariant)) := do
  match ← newDBusObject bus busName objectPath interface false with
  | .error text => pure (.error text)
  | .ok o =>
    match o.getMethod methodName with
    | none => pure (.error (noSuchMethod methodName busName objectPath interface))
    | some m => callMethod q bus m args

def propertiesIface : Text := "org.freedesktop.DBus.Properties".toList

def getAll (q : Qpid) (bus : Bus) (o : DBusObject) : Act (Except Text (List QVariant)) :=
  staticCall q bus o.busName o.objectPath propertiesIface "GetAll".toList [.string o.interface]

def setPropertyValues (q : Qpid) (bus : Bus) (o : DBusObject) :
    List (Text × QVariant) → Act (Option Text)
  | [] => pure none
  | (name, value) :: values => do
    if (o.getProperty name).isNone then
      pure (some ("No such property '".toList ++ name ++ "' on interface '".toList ++
        o.interface ++ "'".toList))
    else
      match ← staticCall q bus o.busName o.objectPath propertiesIface "Set".toList
          [.string o.interface, .string name, value] with
      | .error text => pure (some text)
      | .ok _ => setPropertyValues q bus o values

/-- Each item is a list of a name and a value; a shorter list is read past its end. -/
def propertyMap (q : Qpid) : List QVariant → Option (List (Text × QVariant))
  | [] => some []
  | item :: items =>
    match item.asList with
    | some (key :: value :: _) =>
      (propertyMap q items).map fun rest => (q.asString key, value) :: rest
    | _ => none

def insertAll (entries : List (Text × QVariant)) : List (Text × QVariant) :=
  entries.foldl (fun m e => if (m.lookup e.1).isSome then m else m ++ [e]) []

def getPropertyValues (q : Qpid) (bus : Bus) (o : DBusObject) :
    Act (Except Text (List (Text × QVariant))) := do
  match ← getAll q bus o with
  | .error text => pure (.error text)
  | .ok [] =>
    pure (.error ("Unable to get properties on interface '".toList ++ o.interface ++ "'".toList))
  | .ok (props :: _) =>
    match props.asList.bind (propertyMap q) with
    | none => fault
    | some entries => pure (.ok (insertAll entries))

/-- The values that `addToSchema` sets from the reply to `GetAll`. The value of a
known property is read past the end of a list that is too short; of an unknown
property only the name is read. -/
def initialValues (q : Qpid) (o : DBusObject) : List QVariant → Option (List (Text × QVariant))
  | [] => some []
  | item :: items =>
    match item.asList with
    | some (key :: rest) =>
      if (o.getProperty (q.asString key)).isSome then
        match rest with
        | [] => none
        | value :: _ => (initialValues q o items).map ((q.asString key, value) :: ·)
      else initialValues q o items
    | _ => none

def Agent.put (s : Agent) (name : Text) (o : DBusObject) : Agent :=
  { s with dbusObjects := (name, o) :: s.dbusObjects }

def Agent.register (s : Agent) (schemas : List Schema) : Agent :=
  { s with schemas := s.schemas ++ schemas }

def setObject (name : Text) (o : DBusObject) : Act PUnit := modify (·.put name o)

def registerSchemas (schemas : List Schema) : Act PUnit := modify (·.register schemas)

def busAddMatch (bus : Bus) (rule : Text) : Act (Option Text) := do
  let n ← tick
  match bus.addMatch n with
  | some message => pure (some message)
  | none => do
    modify fun s => { s with matchRules := s.matchRules ++ [rule] }
    pure none

def loadValues (q : Qpid) (bus : Bus) (o : DBusObject) :
    Act (Option Text × List (Text × QVariant)) :=
  if o.members.properties = [] then pure (none, [])
  else do
    match ← getAll q bus o with
    | .error text => pure (some text, [])
    | .ok [] => pure (none, [])
    | .ok (props :: _) =>
      match props.asList.bind (initialValues q o) with
      | none => fault
      | some values => pure (none, values)

def addFilter (bus : Bus) (name : Text) (error : Option Text) : Act (Option Text) := do
  let n ← tick
  if bus.addFilter n then do
    modify fun s => { s with filters := s.filters ++ [name] }
    pure error
  else pure (some (error.getD "Unable to register signal handler".toList))

def addData (q : Qpid) (bus : Bus) (name : Text) (o : DBusObject) : Act (Option Text) := do
  registerSchemas [o.dataSchema]
  let (error, values) ← loadValues q bus o
  modify fun s => { s with data := s.data ++ [(name, values)] }
  addFilter bus name error

def DBusObject.registered (o : DBusObject) : DBusObject :=
  if o.listenForSignals then
    { o with isRegistered := true, members := { o.members with signals := o.withEventSchemas } }
  else { o with isRegistered := true }

/-- `name` is the place of the object in the agent's map. The object counts as
registered before its match rule is added. -/
def addToSchema (q : Qpid) (bus : Bus) (name : Text) (o : DBusObject) : Act (Option Text) :=
  if o.isRegistered then pure none
  else do
    setObject name o.registered
    if o.listenForSignals then
      registerSchemas (o.members.signals.map o.eventSchema)
      if o.members.signals = [] then addData q bus name o
      else
        match ← busAddMatch bus o.matchRule with
        | some message =>
          pure (some ("Adding handler for receiving signals failed: ".toList ++ message))
        | none => addData q bus name o
    else addData q bus name o

def interfaceNames : List Xml → Option (List Text)
  | [] => some []
  | x :: xs =>
    if x.hasTag "interface" then do
      let name ← x.getProp "name"
      let names ← interfaceNames xs
      pure (name :: names)
    else interfaceNames xs

def getInterfaces (bus : Bus) (busName objectPath : Text) : Act (List Text) := do
  match ← dbusIntrospect bus busName objectPath with
  | .error _ => pure []
  | .ok elements =>
    match interfaceNames elements with
    | none => fault
    | some names => pure names

def childPath (objectPath name : Text) : Text :=
  if objectPath.length > 1 then objectPath ++ '/' :: name else objectPath ++ name

def visitNodes (visit : Text → Act (List Text)) (objectPath : Text) :
    List Xml → Act (List Text × Bool)
  | [] => pure ([], false)
  | x :: xs => do
    if x.hasTag "node" then
      match x.getProp "name" with
      | none => fault
      | some name =>
        let paths ← visit (childPath objectPath name)
        let (rest, hasContent) ← visitNodes visit objectPath xs
        pure (paths ++ rest, hasContent)
    else
      let (rest, _) ← visitNodes visit objectPath xs
      pure (rest, true)

/-- The recursion follows the answers of the bus and ends where they do; `depth`
bounds its nesting. -/
def getObjectPaths (bus : Bus) (busName : Text) : ℕ → Text → Act (List Text)
  | 0, _ => fault
  | depth + 1, objectPath => do
    match ← dbusIntrospect bus busName objectPath with
    | .error _ => pure []
    | .ok elements =>
      let (paths, hasContent) ← visitNodes (getObjectPaths bus busName depth) objectPath elements
      pure (if hasContent then paths ++ [objectPath] else paths)

end Matahari.DbusBridge
