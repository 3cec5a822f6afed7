import Matahari.DbusAgent

set_option autoImplicit false

/-!
# What a D-Bus query changes

The operations that only ask the bus leave everything of the agent but its clock,
and their outcome depends on the clock alone.
-/
namespace Matahari.DbusBridge
open Mainloop PartialState

/-- A computation that reads the clock only, and changes nothing else. -/
def Query {α : Type} (m : Act α) : Prop :=
  ∀ s : Agent, m s = (m { clock := s.clock }).map fun r => (r.1, { s with clock := r.2.clock })

namespace Query

variable {α β : Type}

theorem pure (a : α) : Query (pure a : Act α) := fun _ => rfl

theorem fault : Query (fault : Act α) := fun _ => rfl

theorem tick : Query tick := fun _ => rfl

theorem bind {m : Act α} {f : α → Act β} (hm : Query m) (hf : ∀ a, Query (f a)) :
    Query (m >>= f) := by
  intro s
  change (m s).bind (fun p => f p.1 p.2) =
    ((m { clock := s.clock }).bind fun p => f p.1 p.2).map _
  rw [hm s]
  cases m { clock := s.clock } with
  | none => rfl
  | some p =>
    rcases p with ⟨a, t⟩
    simp only [Option.map_some, Option.bind_some]
    rw [hf a t, hf a { s with clock := t.clock }, Option.map_map]
    rfl

theorem eq_some {m : Act α} (hm : Query m) {s t s' : Agent} {a : α} (h : m s = some (a, s'))
    (ht : t.clock = s.clock) : m t = some (a, { t with clock := s'.clock }) := by
  rw [hm s, Option.map_eq_some_iff] at h
  rcases h with ⟨⟨b, u⟩, hu, heq⟩
  cases heq
  rw [hm t, ht, hu, Option.map_some]

theorem state_eq {m : Act α} (hm : Query m) {s s' : Agent} {a : α} (h : m s = some (a, s')) :
    s' = { s with clock := s'.clock } := by
  have hs := hm.eq_some h rfl
  rw [h] at hs
  exact congrArg Prod.snd (Option.some.inj hs)

end Query

section
variable {q : Qpid} {bus : Bus}

theorem query_dbusIntrospect (busName objectPath : Text) :
    Query (dbusIntrospect bus busName objectPath) :=
  Query.tick.bind fun _ => .pure _

theorem query_newDBusObject (busName objectPath interface : Text) (listen : Bool) :
    Query (newDBusObject bus busName objectPath interface listen) := by
  refine (query_dbusIntrospect busName objectPath).bind fun r => ?_
  cases r with
  | error text => exact .pure _
  | ok elements =>
    dsimp only
    rcases findInterface interface elements with _ | _ | members
    · exact .fault
    · exact .pure _
    · exact .pure _

theorem query_callMethod (m : Method) (args : List QVariant) :
    Query (callMethod q bus m args) := by
  refine Query.tick.bind fun n => ?_
  dsimp only
  split
  · exact .pure _
  · exact .pure _

theorem query_staticCall (busName objectPath interface methodName : Text)
    (args : List QVariant) :
    Query (staticCall q bus busName objectPath interface methodName args) := by
  refine (query_newDBusObject busName objectPath interface false).bind fun r => ?_
  cases r with
  | error text => exact .pure _
  | ok o =>
    dsimp only
    split
    · exact .pure _
    · exact query_callMethod _ _

theorem query_setPropertyValues (o : DBusObject) (values : List (Text × QVariant)) :
    Query (setPropertyValues q bus o values) := by
  induction values with
  | nil => exact .pure _
  | cons e values ih =>
    rcases e with ⟨name, value⟩
    rw [setPropertyValues]
    split_ifs
    · exact .pure _
    · refine Query.bind (query_staticCall _ _ _ _ _) fun r => ?_
      cases r with
      | error text => exact .pure _
      | ok results => exact ih

theorem query_getPropertyValues (o : DBusObject) : Query (getPropertyValues q bus o) := by
  refine Query.bind (query_staticCall _ _ _ _ _) fun r => ?_
  rcases r with text | _ | ⟨props, rest⟩
  · exact .pure _
  · exact .pure _
  · dsimp only
    split
    · exact .fault
    · exact .pure _

theorem query_loadValues (o : DBusObject) : Query (loadValues q bus o) := by
  unfold loadValues
  split_ifs
  · exact .pure _
  · refine Query.bind (query_staticCall _ _ _ _ _) fun r => ?_
    rcases r with text | _ | ⟨props, rest⟩
    · exact .pure _
    · exact .pure _
    · dsimp only
      split
      · exact .fault
      · exact .pure _

theorem query_getInterfaces (busName objectPath : Text) :
    Query (getInterfaces bus busName objectPath) := by
  refine (query_dbusIntrospect busName objectPath).bind fun r => ?_
  cases r with
  | error text => exact .pure _
  | ok elements =>
    dsimp only
    split
    · exact .fault
    · exact .pure _

theorem query_visitNodes {visit : Text → Act (List Text)} (hvisit : ∀ p, Query (visit p))
    (objectPath : Text) (xs : List Xml) : Query (visitNodes visit objectPath xs) := by
  induction xs with
  | nil => exact .pure _
  | cons x xs ih =>
    rw [visitNodes]
    split_ifs
    · split
      · exact .fault
      · exact (hvisit _).bind fun paths => ih.bind fun r => .pure _
    · exact ih.bind fun r => .pure _

theorem query_getObjectPaths (busName : Text) (depth : ℕ) (objectPath : Text) :
    Query (getObjectPaths bus busName depth objectPath) := by
  induction depth generalizing objectPath with
  | zero => exact .fault
  | succ depth ih =>
    refine (query_dbusIntrospect busName objectPath).bind fun r => ?_
    cases r with
    | error text => exact .pure _
    | ok elements => exact (query_visitNodes ih objectPath elements).bind fun r => .pure _

theorem query_requestedInterfaces (ev : Event) : Query (requestedInterfaces q bus ev) := by
  unfold requestedInterfaces
  split
  · split_ifs
    · exact .pure _
    · exact (query_getInterfaces _ _).bind fun _ => .pure _
  · exact (query_getInterfaces _ _).bind fun _ => .pure _

def Agent.ticked (s : Agent) : Agent := { s with clock := s.clock + 1 }

theorem busAddMatch_refused {s : Agent} (rule : Text) {message : Text}
    (h : bus.addMatch s.clock = some message) :
    busAddMatch bus rule s = some (some message, s.ticked) := by
  rw [busAddMatch, bind_eq_some]
  refine ⟨s.clock, s.ticked, rfl, ?_⟩
  rw [h]
  rfl

theorem busAddMatch_added {s : Agent} (rule : Text) (h : bus.addMatch s.clock = none) :
    busAddMatch bus rule s =
      some (none, { s.ticked with matchRules := s.matchRules ++ [rule] }) := by
  rw [busAddMatch, bind_eq_some]
  refine ⟨s.clock, s.ticked, rfl, ?_⟩
  rw [h]
  rfl

end

end Matahari.DbusBridge
