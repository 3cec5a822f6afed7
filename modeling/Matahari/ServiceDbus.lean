import Matahari.ServiceAgent
import Matahari.ServicesSync

set_option autoImplicit false

/-!
# The D-Bus handlers of the service agent

The handlers of `service-dbus.c` that create an action. They pass on what
`resources_action_create` returns without a look at it, where the QMF agent has an answer for a
refusal.
-/
namespace Matahari.ServiceDbus
open Mainloop Services ServiceAgent

/-- What a handler comes to. `returned` is `dbus_g_method_return` with an integer, `deferred`
leaves the answer to `invoke_cb`, and `nullUsed` is an access through a null action. -/
inductive Answer where
  | returned (value : ℤ)
  | error (message : Text)
  | deferred (op : SvcAction Unit)
  | unanswered
  | nullUsed

structure Outcomes where
  /-- Whether there is memory for the texts of a new action. -/
  asprintf : Bool
  fork : Bool
  death : ℕ → Option ℕ
  malloc : Bool
  /-- Whether `SYSTEMCTL` is a regular file. -/
  systemd : Bool

def createAction (o : Outcomes) (operations : ℕ) (r : ActionRequest) : Option (SvcAction Unit) :=
  if o.asprintf then (resourcesActionCreate operations r).1 else none

def servicesActionSync (o : Outcomes) : Option (SvcAction Unit) → Option (Bool × SvcAction Unit)
  | none => none
  | some op =>
    some (if o.fork then (true, servicesOsActionSync op o.death) else (false, { op with pid := -1 }))

def authorised (denied : Option Text) (body : Answer) : Answer :=
  match denied with
  | some message => .error message
  | none => body

def timeoutMs : ℤ := 60000

def servicesToggle (action : Text) (denied : Option Text) (o : Outcomes) (operations : ℕ)
    (name : Text) : Answer :=
  authorised denied <|
    match servicesActionSync o
      (createAction o operations (servicesRequest name action timeoutMs)) with
    | none => .nullUsed
    | some result => .returned (if result.1 then 1 else 0)

def servicesEnable := servicesToggle "enable".toList

def servicesDisable := servicesToggle "disable".toList

def servicesRun (action : Text) (denied : Option Text) (o : Outcomes) (operations : ℕ)
    (name : Text) (timeout : UInt32) : Answer :=
  authorised denied <|
    match servicesActionSync o
      (createAction o operations (servicesRequest name action timeout.toInt32.toInt)) with
    | none => .nullUsed
    | some result => .returned result.2.rc

def servicesStart := servicesRun "start".toList

def servicesStop := servicesRun "stop".toList

def servicesStatus := servicesRun "status".toList

structure InvokeArgs where
  name : Text
  standard : Text
  provider : Text
  agent : Text
  action : Text
  interval : UInt32
  parameters : List (Text × Text)
  timeout : UInt32
  expectedRc : UInt32
  userdataIn : Text

/-- The interval is not passed on. -/
def InvokeArgs.request (a : InvokeArgs) : ActionRequest :=
  ⟨a.name, a.standard, some a.provider, a.agent, a.action, 0, a.timeout.toInt32.toInt, a.parameters⟩

def listed (o : Outcomes) (standard : Text) : Bool :=
  (resourcesListStandards o.systemd).any (strcasecmp standard)

def resourcesInvoke (denied : Option Text) (o : Outcomes) (operations : ℕ) (a : InvokeArgs) :
    Answer :=
  authorised denied <|
    if ¬ listed o a.standard then
      .error (a.standard ++ " is not a known resource standard".toList)
    else
      match createAction o operations a.request with
      | none => .nullUsed
      | some op =>
        if ¬ o.malloc then .unanswered
        -- without a child there is nothing that calls `invoke_cb`
        else if ¬ o.fork then .unanswered
        else .deferred { op with expectedRc := a.expectedRc.toInt32.toInt }

/-! ## Calls -/

inductive Call where
  | enable (name : Text)
  | disable (name : Text)
  | start (name : Text) (timeout : UInt32)
  | stop (name : Text) (timeout : UInt32)
  | status (name : Text) (timeout : UInt32)
  | invoke (args : InvokeArgs)

def Call.request : Call → ActionRequest
  | .enable name => servicesRequest name "enable".toList timeoutMs
  | .disable name => servicesRequest name "disable".toList timeoutMs
  | .start name timeout => servicesRequest name "start".toList timeout.toInt32.toInt
  | .stop name timeout => servicesRequest name "stop".toList timeout.toInt32.toInt
  | .status name timeout => servicesRequest name "status".toList timeout.toInt32.toInt
  | .invoke args => args.request

def handle (denied : Option Text) (o : Outcomes) (operations : ℕ) : Call → Answer
  | .enable name => servicesEnable denied o operations name
  | .disable name => servicesDisable denied o operations name
  | .start name timeout => servicesStart denied o operations name timeout
  | .stop name timeout => servicesStop denied o operations name timeout
  | .status name timeout => servicesStatus denied o operations name timeout
  | .invoke args => resourcesInvoke denied o operations args

/-- The answer is an error exactly where the action is refused, and a null action is not used. -/
def AnswersRefusal (answer : Answer) (op : Option (SvcAction Unit)) : Prop :=
  answer ≠ .nullUsed ∧ ((∃ message, answer = .error message) ↔ op = none)

/-- The action of a `Services` method has a name; the standard of `Resources_invoke` is listed
where the request would be granted, and only there. -/
def Granted (o : Outcomes) : Call → Prop
  | .enable name | .disable name | .start name _ | .stop name _ | .status name _ =>
    o.asprintf = true ∧ name ≠ []
  | .invoke args => listed o args.standard = (o.asprintf && args.request.valid)

/-! ## Refusals -/

section
variable {o : Outcomes} {operations : ℕ}

theorem createAction_isSome (o : Outcomes) (operations : ℕ) (r : ActionRequest) :
    (createAction o operations r).isSome = (o.asprintf && r.valid) := by
  unfold createAction
  cases o.asprintf with
  | false => rfl
  | true =>
    rw [if_pos rfl, Bool.true_and]
    cases hvalid : r.valid with
    | true =>
      obtain ⟨command, hsome⟩ := resourcesActionCreate_valid (C := Unit) hvalid operations
      rw [hsome]
      rfl
    | false =>
      cases hsome : (resourcesActionCreate (C := Unit) operations r).1 with
      | none => rfl
      | some op =>
        have hvalid' := (resourcesActionCreate_some hsome).1
        rw [hvalid] at hvalid'
        cases hvalid'

/-- The name is also the agent of a service. -/
theorem servicesRequest_valid {action : Text} (haction : action ≠ []) (name : Text) (timeout : ℤ) :
    (servicesRequest name action timeout).valid = true ↔ name ≠ [] := by
  have hocf : strcasecmp "lsb".toList "ocf".toList = false := by decide
  have hlsb : strcasecmp "lsb".toList "lsb".toList = true := by decide
  have hcommand : (servicesRequest name action timeout).command.isSome = true := by
    unfold ActionRequest.command servicesRequest
    dsimp only
    rw [hocf, hlsb]
    rfl
  unfold ActionRequest.valid
  rw [hcommand, Bool.and_true]
  unfold ActionRequest.sane servicesRequest
  dsimp only
  rw [hocf]
  cases name with
  | nil => simp
  | cons c cs =>
    cases action with
    | nil => exact absurd rfl haction
    | cons d ds => simp

theorem not_answersRefusal_null (op : Option (SvcAction Unit)) : ¬ AnswersRefusal .nullUsed op := by
  rintro ⟨hused, -⟩
  exact hused rfl

theorem answersRefusal_some {answer : Answer} (hused : answer ≠ .nullUsed)
    (herror : ∀ message, answer ≠ .error message) (op : SvcAction Unit) :
    AnswersRefusal answer (some op) := by
  refine ⟨hused, ?_⟩
  constructor
  · rintro ⟨message, hanswer⟩
    exact absurd hanswer (herror message)
  · intro hnone
    cases hnone

theorem answersRefusal_sync (op : Option (SvcAction Unit)) (value : Bool × SvcAction Unit → ℤ) :
    AnswersRefusal (match servicesActionSync o op with
      | none => .nullUsed
      | some result => .returned (value result)) op ↔ op.isSome = true := by
  cases op with
  | none =>
    constructor
    · intro h
      exact absurd h (not_answersRefusal_null none)
    · intro h
      cases h
  | some op =>
    constructor
    · intro _
      rfl
    · intro _
      apply answersRefusal_some
      · exact Answer.noConfusion
      · exact fun _ => Answer.noConfusion

theorem servicesToggle_answers {action : Text} (haction : action ≠ []) (name : Text) :
    AnswersRefusal (servicesToggle action none o operations name)
        (createAction o operations (servicesRequest name action timeoutMs)) ↔
      o.asprintf = true ∧ name ≠ [] := by
  have hsync := answersRefusal_sync (o := o)
    (createAction o operations (servicesRequest name action timeoutMs)) fun result =>
      if result.1 then 1 else 0
  rw [createAction_isSome, Bool.and_eq_true, servicesRequest_valid haction] at hsync
  exact hsync

theorem servicesRun_answers {action : Text} (haction : action ≠ []) (name : Text)
    (timeout : UInt32) :
    AnswersRefusal (servicesRun action none o operations name timeout)
        (createAction o operations (servicesRequest name action timeout.toInt32.toInt)) ↔
      o.asprintf = true ∧ name ≠ [] := by
  have hsync := answersRefusal_sync (o := o)
    (createAction o operations (servicesRequest name action timeout.toInt32.toInt)) fun result =>
      result.2.rc
  rw [createAction_isSome, Bool.and_eq_true, servicesRequest_valid haction] at hsync
  exact hsync

theorem resourcesInvoke_answers (a : InvokeArgs) :
    AnswersRefusal (resourcesInvoke none o operations a) (createAction o operations a.request) ↔
      listed o a.standard = (o.asprintf && a.request.valid) := by
  have hcreated := createAction_isSome o operations a.request
  unfold resourcesInvoke authorised
  dsimp only
  rw [← hcreated]
  cases hlisted : listed o a.standard with
  | false =>
    rw [if_pos Bool.false_ne_true]
    cases createAction o operations a.request with
    | none => exact ⟨fun _ => rfl, fun _ => ⟨Answer.noConfusion, fun _ => rfl, fun _ => ⟨_, rfl⟩⟩⟩
    | some op =>
      constructor
      · rintro ⟨-, herror⟩
        exact absurd (herror.mp ⟨_, rfl⟩) (Option.some_ne_none op)
      · intro h
        cases h
  | true =>
    rw [if_neg (by simp)]
    cases createAction o operations a.request with
    | none =>
      constructor
      · intro h
        exact absurd h (not_answersRefusal_null none)
      · intro h
        cases h
    | some op =>
      constructor
      · intro _
        rfl
      · intro _
        dsimp only
        apply answersRefusal_some
        · split_ifs <;> exact Answer.noConfusion
        · intro message
          split_ifs <;> exact Answer.noConfusion

end

/-- The QMF agent answers a refusal, whatever was asked for. -/
theorem perform_refused (asInt32 : Option ℕ → Option ℤ) (s : Engine Callback Client) (call : ℕ)
    (args : Args) (fork : Option ℕ) (service : ServiceId) (request : ActionRequest)
    (expectedRc : Option ℕ)
    (h : (resourcesActionCreate (C := Callback) s.operations request).1 = none) :
    ∃ operations, perform asInt32 s call args fork (.action service request expectedRc) =
      some (reply { s with operations := operations } call invalidArguments) := by
  refine ⟨(resourcesActionCreate (C := Callback) s.operations request).2, ?_⟩
  unfold perform
  dsimp only
  rw [h]

/-- The handlers answer as they should exactly where nothing has to be refused that the list of
standards lets through. -/
theorem handlers_answer_refusal_iff (o : Outcomes) (operations : ℕ) (call : Call) :
    AnswersRefusal (handle none o operations call) (createAction o operations call.request) ↔
      Granted o call := by
  cases call with
  | enable name => exact servicesToggle_answers (by decide) name
  | disable name => exact servicesToggle_answers (by decide) name
  | start name timeout => exact servicesRun_answers (by decide) name timeout
  | stop name timeout => exact servicesRun_answers (by decide) name timeout
  | status name timeout => exact servicesRun_answers (by decide) name timeout
  | invoke args => exact resourcesInvoke_answers args

def goodOutcomes : Outcomes := ⟨true, true, fun _ => some 0, true, true⟩

/-- A service without a name is refused, and the null action is run. -/
theorem start_uses_null :
    ¬ AnswersRefusal (handle none goodOutcomes 0 (.start [] 1000))
      (createAction goodOutcomes 0 (Call.start [] 1000).request) := by
  exact not_answersRefusal_null _

end Matahari.ServiceDbus
