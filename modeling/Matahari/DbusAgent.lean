import Matahari.DbusObject

set_option autoImplicit false

/-!
# The D-Bus bridge agent

`DBusAgent` of `dbus-bridge.cpp`: the map of D-Bus objects, and `invoke` with the
methods of the bridge itself, the properties and methods of bridged objects, and
every reply.
-/
namespace Matahari.DbusBridge
open Mainloop PartialState

def QVariant.asMap : QVariant → Option (List (Text × QVariant))
  | .map entries => some entries
  | _ => none

structure Event where
  isMethod : Bool
  dataAddr : Option Text
  methodName : Text
  arguments : List (Text × QVariant)

def Event.arg (ev : Event) (name : String) : QVariant :=
  (ev.arguments.lookup name.toList).getD .void

def Event.text (q : Qpid) (ev : Event) (name : String) : Text := cStr (q.asString (ev.arg name))

def raiseException (text : Text) : Act PUnit :=
  modify fun s => { s with replies := .raiseException text :: s.replies }

def methodSuccess (arguments : List (Text × QVariant)) : Act PUnit :=
  modify fun s => { s with replies := .methodSuccess arguments :: s.replies }

def getDBusObject (bus : Bus) (busName objectPath interface : Text) (listenToSignals : Bool) :
    Act (Except Text DBusObject) := do
  let s ← get
  match s.dbusObjects.lookup (objectName busName objectPath interface) with
  | some o => pure (.ok o)
  | none =>
    match ← newDBusObject bus busName objectPath interface listenToSignals with
    | .error text => pure (.error text)
    | .ok o => do
      setObject (objectName busName objectPath interface) o
      pure (.ok o)

def callRequest (q : Qpid) (bus : Bus) (ev : Event) : Act PUnit := do
  match ← getDBusObject bus (ev.text q "bus_name") (ev.text q "object_path")
      (ev.text q "interface") false with
  | .error text => raiseException text
  | .ok o =>
    match o.getMethod (q.asString (ev.arg "method_name")) with
    | none =>
      raiseException ("Unknown method '".toList ++ q.asString (ev.arg "method_name") ++
        "' on interface '".toList ++ q.asString (ev.arg "interface") ++ "'".toList)
    | some m =>
      match (ev.arg "args").asList with
      | none => fault
      | some args =>
        match ← callMethod q bus m args with
        | .error text => raiseException text
        | .ok results => methodSuccess [("results".toList, .list results)]

def insertName (q : Qpid) (v : QVariant) : List QVariant → List QVariant
  | [] => [v]
  | w :: ws =>
    if q.asString v < q.asString w then v :: w :: ws
    else if q.asString w < q.asString v then w :: insertName q v ws
    else w :: ws

def notWellKnown (q : Qpid) (v : QVariant) : Bool := (q.asString v).head? = some ':'

def dbusName : Text := "org.freedesktop.DBus".toList

def listNames (q : Qpid) (bus : Bus) (methodName : String) : Act (Except Text (List QVariant)) :=
  staticCall q bus dbusName "/".toList dbusName methodName.toList []

def listDbusObjects (q : Qpid) (bus : Bus) (ev : Event) : Act PUnit := do
  match ← listNames q bus "ListNames" with
  | .error text => raiseException text
  | .ok [] => raiseException "ListNames method failed".toList
  | .ok (first :: _) =>
    match first.asList, q.asBool (ev.arg "only_well_known") with
    | some names, some onlyWellKnown =>
      let names := if onlyWellKnown then names.filter fun v => !notWellKnown q v else names
      match ← listNames q bus "ListActivatableNames" with
      | .error text => raiseException text
      | .ok [] => raiseException "ListActivatableNames method failed".toList
      | .ok (second :: _) =>
        match second.asList with
        | none => fault
        | some activatable =>
          let merged := (names ++ activatable).foldl (fun l v => insertName q v l) []
          methodSuccess [("dbus_objects".toList, .list merged)]
    | _, _ => fault

def listObjectPaths (q : Qpid) (bus : Bus) (depth : ℕ) (ev : Event) : Act PUnit := do
  let paths ← getObjectPaths bus (ev.text q "bus_name") depth "/".toList
  methodSuccess [("object_paths".toList, .list (paths.map .string))]

def listInterfaces (q : Qpid) (bus : Bus) (ev : Event) : Act PUnit := do
  let interfaces ← getInterfaces bus (ev.text q "bus_name") (ev.text q "object_path")
  methodSuccess [("interfaces".toList, .list (interfaces.map .string))]

def blacklistedInterfaces (interface : Text) : Bool :=
  interface = "org.freedesktop.DBus.Introspectable".toList ∨ interface = propertiesIface

def requestedInterfaces (q : Qpid) (bus : Bus) (ev : Event) : Act (List Text) :=
  match ev.arguments.lookup "interface".toList with
  | some v =>
    if (q.asString v).length > 0 then pure [q.asString v]
    else do
      let interfaces ← getInterfaces bus (ev.text q "bus_name") (ev.text q "object_path")
      pure (interfaces.filter fun i => !blacklistedInterfaces i)
  | none => do
    let interfaces ← getInterfaces bus (ev.text q "bus_name") (ev.text q "object_path")
    pure (interfaces.filter fun i => !blacklistedInterfaces i)

def addInterfaces (q : Qpid) (bus : Bus) (busName objectPath : Text) :
    List Text → Act (Option Text)
  | [] => pure none
  | interface :: interfaces => do
    match ← getDBusObject bus busName objectPath (cStr interface) true with
    | .error text => pure (some text)
    | .ok o =>
      match ← addToSchema q bus (objectName busName objectPath (cStr interface)) o with
      | some text => pure (some text)
      | none => addInterfaces q bus busName objectPath interfaces

def addDbusObject (q : Qpid) (bus : Bus) (ev : Event) : Act PUnit := do
  let interfaces ← requestedInterfaces q bus ev
  match ← addInterfaces q bus (ev.text q "bus_name") (ev.text q "object_path") interfaces with
  | some text => raiseException text
  | none =>
    methodSuccess [("result".toList, .integer (.sized .int64 ⟨0, by decide⟩))]

/-- The position of `'@'` is kept in 32 bits, in which `npos` is not recognised: a
name without `'@'` is both what stands before it and what stands after it. -/
def splitName (name : Text) : Text × Text :=
  let found := (name.findIdx? (· = '@')).getD (2 ^ 64 - 1)
  let pos := found % 2 ^ 32
  (name.take pos, name.drop ((pos + 1) % 2 ^ 32))

def argValue (arguments : List (Text × QVariant)) (arg : Arg) : Option QVariant :=
  if arg.name.length > 0 then arguments.lookup arg.name else some .void

def argMapToList (arguments : List (Text × QVariant)) : List Arg → Option (List QVariant)
  | [] => some []
  | arg :: args => do
    let v ← argValue arguments arg
    let vs ← argMapToList arguments args
    pure (v :: vs)

def wrongReturn (expected got : ℕ) : Text :=
  "Method returns different number of return arguments (expected: ".toList ++
    (toString expected).toList ++ ", got: ".toList ++ (toString got).toList

def setRequest (q : Qpid) (bus : Bus) (o : DBusObject) (ev : Event) : Act PUnit :=
  match (ev.arg "values").asMap with
  | none => fault
  | some values => do
    match ← setPropertyValues q bus o values with
    | some text => raiseException text
    | none => methodSuccess []

def getRequest (q : Qpid) (bus : Bus) (o : DBusObject) : Act PUnit := do
  match ← getPropertyValues q bus o with
  | .error text => raiseException text
  | .ok values => methodSuccess [("values".toList, .map values)]

def methodRequest (q : Qpid) (bus : Bus) (o : DBusObject) (interface : Text) (ev : Event) :
    Act PUnit :=
  match o.getMethod (cStr ev.methodName) with
  | none =>
    raiseException ("Unknown method ".toList ++ cStr ev.methodName ++
      " on interface ".toList ++ interface)
  | some m =>
    match argMapToList ev.arguments m.inArgs with
    | none => fault
    | some args => do
      match ← callMethod q bus m args with
      | .error text => raiseException text
      | .ok results =>
        if results.length ≠ m.outArgs.length then
          raiseException (wrongReturn m.outArgs.length results.length)
        else methodSuccess ((m.outArgs.map (·.name)).zip results)

/-- A request to a bridged object, which `name` gives as
`bus_name@object_path@interface`. -/
def objectRequest (q : Qpid) (bus : Bus) (name : Text) (ev : Event) : Act PUnit := do
  let busName := (splitName name).1
  let objectPath := (splitName (splitName name).2).1
  let interface := (splitName (splitName name).2).2
  match ← getDBusObject bus (cStr busName) (cStr objectPath) (cStr interface) false with
  | .error text => raiseException text
  | .ok o =>
    if cStr ev.methodName = "Set".toList then setRequest q bus o ev
    else if cStr ev.methodName = "Get".toList then getRequest q bus o
    else methodRequest q bus o interface ev

def bridgeRequest (q : Qpid) (bus : Bus) (depth : ℕ) (ev : Event) : Act PUnit :=
  if ev.methodName = "call".toList then callRequest q bus ev
  else if ev.methodName = "list_dbus_objects".toList then listDbusObjects q bus ev
  else if ev.methodName = "list_object_paths".toList then listObjectPaths q bus depth ev
  else if ev.methodName = "list_interfaces".toList then listInterfaces q bus ev
  else if ev.methodName = "add_dbus_object".toList then addDbusObject q bus ev
  else raiseException "Not implemented".toList

def bridgeName : Text := "DBusBridge".toList

/-- `depth` bounds the recursion of `list_object_paths`. -/
def invoke (q : Qpid) (bus : Bus) (depth : ℕ) (ev : Event) : Act PUnit :=
  match ev.isMethod, ev.dataAddr with
  | true, some name =>
    if name = bridgeName then bridgeRequest q bus depth ev else objectRequest q bus name ev
  | _, _ => pure ()

def exactQpid : Qpid where
  toConversions := exactConversions
  asString
    | .string text => text
    | _ => []
  asBool
    | .bool b => some b
    | _ => none

def busOf (interface : Xml) : Bus where
  introspect _ _ _ := .xml [interface]
  call _ := ⟨true, .ok []⟩
  addMatch _ := none
  addFilter _ := true

end Matahari.DbusBridge
