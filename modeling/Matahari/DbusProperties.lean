import Matahari.SysconfigKeys

set_option autoImplicit false

/-!
# Access to D-Bus properties

`matahari_get` and `matahari_set` answer `Get` and `Set` of the interface
`org.freedesktop.DBus.Properties`. They ask PolicyKit about the action
`interface.name` of the request, and look the property up by its name.
-/
namespace Matahari.Properties
open Mainloop Sysconfig

/-! ## The service -/

/-- An entry of `properties[]`; `writable` is `G_PARAM_READWRITE`. -/
structure Property where
  name : Text
  writable : Bool
  deriving DecidableEq, Repr

structure Interface where
  name : Text
  properties : List Property

/-- The interfaces of a service, from its schema, and when GObject takes two names for
the same. -/
structure Service where
  interfaces : List Interface
  sameName : Text → Text → Bool

def Service.properties (s : Service) : List Property := s.interfaces.flatMap (·.properties)

def findProperty (s : Service) (name : Text) : Option Property :=
  s.properties.find? fun p => s.sameName p.name name

def Service.Declares (s : Service) (interface name : Text) : Prop :=
  ∃ i ∈ s.interfaces, i.name = interface ∧ ∃ p ∈ i.properties, s.sameName p.name name = true

instance (s : Service) (interface name : Text) : Decidable (s.Declares interface name) :=
  inferInstanceAs (Decidable (∃ i ∈ s.interfaces, _))

/-! ## The request -/

/-- What becomes of the questions to PolicyKit: there is a context, there is an authority,
and its answer for an action, which may be an error. -/
structure Caller where
  context : Bool
  authority : Bool
  check : Text → Option Bool

def checkAuthorization (c : Caller) (action : Text) : Bool × Option MhResult :=
  if ¬ c.context then (false, none)
  else if ¬ c.authority then (false, some .authenticationError)
  else match c.check action with
    | none => (false, some .authenticationError)
    | some false => (false, some .authenticationError)
    | some true => (true, none)

def actionName (interface name : Text) : Text := interface ++ '.' :: name

structure Access where
  returned : Bool
  error : Option MhResult
  property : Option Property
  deriving DecidableEq

def matahariGet (s : Service) (c : Caller) (interface name : Text) : Access :=
  let checked := checkAuthorization c (actionName interface name)
  if ¬ checked.1 then ⟨false, checked.2, none⟩
  else match findProperty s name with
    | none => ⟨false, some .invalidArgs, none⟩
    | some spec => ⟨true, none, some spec⟩

/-- `g_object_set_property` warns about a name that it does not know, a property that is not
writable and a value of another type, and does nothing. -/
def gObjectSetProperty (s : Service) (name : Text) (fits : Property → Bool) : Option Property :=
  match findProperty s name with
  | none => none
  | some spec => if spec.writable && fits spec then some spec else none

def matahariSet (s : Service) (c : Caller) (interface name : Text) (fits : Property → Bool) :
    Access :=
  let checked := checkAuthorization c (actionName interface name)
  if ¬ checked.1 then ⟨false, checked.2, none⟩
  else ⟨true, none, gObjectSetProperty s name fits⟩

/-! ## Who may access a property -/

def Caller.Authorised (c : Caller) (action : Text) : Prop :=
  c.context = true ∧ c.authority = true ∧ c.check action = some true

/-- An action of the service itself lets the caller have the property. -/
def Entitled (s : Service) (c : Caller) (name : Text) : Prop :=
  ∃ interface, s.Declares interface name ∧ c.Authorised (actionName interface name)

theorem checkAuthorization_iff (c : Caller) (action : Text) :
    (checkAuthorization c action).1 = true ↔ c.Authorised action := by
  unfold checkAuthorization Caller.Authorised
  cases c.context with
  | false => simp
  | true =>
    cases c.authority with
    | false => simp
    | true => cases c.check action with
      | none => simp
      | some answer => cases answer <;> simp

theorem matahariGet_property (s : Service) (c : Caller) (interface name : Text) :
    (matahariGet s c interface name).property.isSome = true ↔
      c.Authorised (actionName interface name) ∧ (findProperty s name).isSome = true := by
  rw [← checkAuthorization_iff, matahariGet]
  cases (checkAuthorization c (actionName interface name)).1 with
  | false => simp
  | true => cases findProperty s name <;> simp

theorem matahariSet_property (s : Service) (c : Caller) (interface name : Text)
    (fits : Property → Bool) :
    (matahariSet s c interface name fits).property.isSome = true ↔
      c.Authorised (actionName interface name) ∧
        (gObjectSetProperty s name fits).isSome = true := by
  rw [← checkAuthorization_iff, matahariSet]
  cases (checkAuthorization c (actionName interface name)).1 with
  | false => simp
  | true => simp

theorem actionName_inj {interface interface' name : Text}
    (h : actionName interface name = actionName interface' name) : interface = interface' :=
  List.append_cancel_right h

theorem refused {s : Service} {c : Caller} {interface name : Text} (fits : Property → Bool)
    (h : ¬ c.Authorised (actionName interface name)) :
    matahariGet s c interface name =
        ⟨false, (checkAuthorization c (actionName interface name)).2, none⟩ ∧
      matahariSet s c interface name fits =
        ⟨false, (checkAuthorization c (actionName interface name)).2, none⟩ := by
  rw [← checkAuthorization_iff] at h
  exact ⟨if_pos h, if_pos h⟩

def onlyFor (action : Text) : Caller := ⟨true, true, fun a => some (a == action)⟩

theorem onlyFor_authorised {action a : Text} : (onlyFor action).Authorised a ↔ a = action := by
  simp [Caller.Authorised, onlyFor]

/-- A check of one action protects an access, whatever the policy, if the access does not
happen or the action is one of the service for the property. -/
theorem entitled_iff (s : Service) (interface name : Text) (accessible : Bool) :
    (∀ c : Caller, c.Authorised (actionName interface name) ∧ accessible = true →
      Entitled s c name) ↔ accessible = false ∨ s.Declares interface name := by
  constructor
  · intro h
    cases haccess : accessible with
    | false => exact .inl rfl
    | true =>
      obtain ⟨own, hdeclares, hauth⟩ :=
        h (onlyFor (actionName interface name)) ⟨onlyFor_authorised.mpr rfl, haccess⟩
      rw [onlyFor_authorised] at hauth
      obtain rfl := actionName_inj hauth
      exact .inr hdeclares
  · rintro (hnone | hdeclares) c ⟨hauth, haccess⟩
    · rw [hnone] at haccess
      cases haccess
    · exact ⟨interface, hdeclares, hauth⟩

/-- A property can be read, or written, by entitled callers only, if the name finds nothing
to be read, or written, or the interface of the request is one that declares it. -/
theorem property_access_iff (s : Service) (interface name : Text) (fits : Property → Bool) :
    ((∀ c : Caller, (matahariGet s c interface name).property.isSome = true →
        Entitled s c name) ↔
      (findProperty s name).isSome = false ∨ s.Declares interface name) ∧
    ((∀ c : Caller, (matahariSet s c interface name fits).property.isSome = true →
        Entitled s c name) ↔
      (gObjectSetProperty s name fits).isSome = false ∨ s.Declares interface name) := by
  simp only [matahariGet_property, matahariSet_property]
  exact ⟨entitled_iff s interface name _, entitled_iff s interface name _⟩

def hostService : Service where
  interfaces := [⟨"org.matahariproject.Host".toList,
    [⟨"hostname".toList, false⟩, ⟨"update_interval".toList, true⟩]⟩]
  sameName a b := a.map (fun c => if c = '_' then '-' else c) ==
    b.map (fun c => if c = '_' then '-' else c)

/-- Who may ask the network agent for its host name gets that of the host agent too. -/
theorem foreign_action :
    let network := "org.matahariproject.Network".toList
    let caller := onlyFor (actionName network "hostname".toList)
    (matahariGet hostService caller network "hostname".toList).property.isSome = true ∧
      ¬ Entitled hostService caller "hostname".toList := by
  refine ⟨by decide, ?_⟩
  rintro ⟨own, hdeclares, hauth⟩
  rw [onlyFor_authorised] at hauth
  obtain rfl := actionName_inj hauth
  exact absurd hdeclares (by decide)

end Matahari.Properties
