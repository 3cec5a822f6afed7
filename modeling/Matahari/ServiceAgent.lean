import Matahari.ServicesCancel
import Matahari.ServicesSystemd

set_option autoImplicit false

/-!
# The service agent

`SrvAgent` of `service-qmf.cpp`: the methods of the `Services` and `Resources`
objects, the deferred replies and the events of recurring actions. A method call
is named by its position among the calls received.

Integer arguments arrive as unsigned 32-bit values and are read with qpid's
`Variant::asInt32`, which is a parameter: `none` stands for the exception it
throws, and nothing above `invoke` catches it.
-/
namespace Matahari.ServiceAgent
open Mainloop Services TransitionRuns

inductive ServiceId where
  | resources
  | services
  deriving DecidableEq, Repr

/-- The arguments of a call. The optional ones are those whose presence the code
asks for, and the integers; a missing text reads as the empty one. -/
structure Args where
  name : Text := []
  action : Text := []
  standard : Option Text := none
  provider : Option Text := none
  agent : Option Text := none
  parameters : List (Text × Text) := []
  interval : Option ℕ := none
  timeout : Option ℕ := none
  expectedRc : Option ℕ := none
  userdata : Option Text := none

inductive ReturnArg where
  | agents (list : List Text)
  | standards (list : List Text)
  | providers (list : List Text)
  | rc (rc : ℤ)
  | userdata (text : Text)
  deriving DecidableEq, Repr

inductive Reply where
  | methodSuccess (args : List ReturnArg)
  | raiseException (text : Text)
  deriving DecidableEq, Repr

def notImplemented : Reply := .raiseException "Not implemented".toList
def invalidArguments : Reply := .raiseException "Invalid Arguments".toList

structure AsyncCB where
  service : ServiceId
  call : ℕ
  userdata : Text
  hasRc : Bool
  lastRc : ℤ
  firstResult : Bool

structure ResourceOp where
  name : Text
  action : Text
  interval : ℤ
  rc : ℤ
  sequence : ℕ
  standard : Text
  provider : Option Text
  agent : Text
  expectedRc : ℤ
  userdata : Option Text
  deriving DecidableEq

/-- `cbData` is the field `cb_data` of every action. Replies and events are
listed with the latest first. -/
structure Client where
  cbData : ℕ → Option AsyncCB
  replies : List (ℕ × Reply)
  events : List ResourceOp

abbrev Callback := Unit

def raiseEvent (w : Client) (op : SvcAction Callback) (service : ServiceId) (userdata : Text) :
    Client :=
  match service with
  | .services => w
  | .resources =>
    { w with
      events := ⟨op.rsc, op.action, op.interval, op.rc, op.sequence, op.standard, op.provider,
        op.agent, op.expectedRc, if userdata.isEmpty then none else some userdata⟩ :: w.events }

def firstReply (cb : AsyncCB) (op : SvcAction Callback) : Reply :=
  .methodSuccess ((if cb.hasRc then [.rc op.rc] else []) ++
    if cb.userdata.isEmpty then [] else [.userdata cb.userdata])

def mhAsyncCallback (_ : Callback) (key : ℕ) (op : SvcAction Callback) (w : Client) : Client :=
  match w.cbData key with
  | none => w
  | some cb =>
    let w' :=
      if cb.firstResult then { w with replies := (cb.call, firstReply cb op) :: w.replies }
      else if cb.lastRc ≠ op.rc then raiseEvent w op cb.service cb.userdata
      else w
    let cb' := { cb with firstResult := false, lastRc := op.rc }
    { w' with
      cbData := Function.update w'.cbData key (if op.interval ≠ 0 then some cb' else none) }

/-! ## Methods -/

/-- What the operating system answers during a call: whether `systemctl` exists,
the list of services, providers or agents asked for, and what `systemctl` prints,
or `none` where it cannot be started. -/
structure Environment where
  systemd : Bool
  listing : List Text
  systemctl : Option Utilities.CString

def resourcesListStandards (systemd : Bool) : List Text :=
  ["ocf".toList, "lsb".toList] ++ if systemd then ["systemd".toList] else []

def resourcesListProviders (standard : Text) (listing : List Text) : List Text :=
  if strcasecmp standard "ocf".toList then listing else []

/-- `none` is the crash of the list for systemd. -/
def resourcesListAgents (standard : Text) (env : Environment) : Option (List Text) :=
  if strcasecmp standard "ocf".toList then some env.listing
  else if strcasecmp standard "lsb".toList || strcasecmp standard "windows".toList then
    some env.listing
  else if strcasecmp standard "systemd".toList then
    resourcesOsListSystemdServices true env.systemctl.isSome
      (env.systemctl.getD ⟨[], List.not_mem_nil⟩)
  else some []

inductive Demand where
  | answer (reply : Reply)
  | action (service : ServiceId) (request : ActionRequest) (expectedRc : Option ℕ)
  | cancel (name action : Text) (interval : ℤ)
  /-- A conversion threw. -/
  | throws
  /-- A null pointer was read. -/
  | crashes

def servicesRequest (name action : Text) (timeout : ℤ) : ActionRequest :=
  ⟨name, "lsb".toList, none, name, action, 0, timeout, []⟩

variable (asInt32 : Option ℕ → Option ℤ)

def invokeServices (method : Text) (args : Args) (env : Environment) : Demand :=
  if method = "list".toList then .answer (.methodSuccess [.agents env.listing])
  else if method = "enable".toList ∨ method = "disable".toList then
    .action .services (servicesRequest args.name method 60000) none
  else if method = "start".toList ∨ method = "stop".toList ∨ method = "status".toList then
    match asInt32 args.timeout with
    | none => .throws
    | some timeout => .action .services (servicesRequest args.name method timeout) none
  else .answer notImplemented

def asInt32Or (value : Option ℕ) (default : ℤ) : Option ℤ :=
  match value with
  | none => some default
  | some v => asInt32 (some v)

def invokeResources (method : Text) (args : Args) (env : Environment) : Demand :=
  let standard := args.standard.getD "ocf".toList
  let provider := args.provider.getD "heartbeat".toList
  if method = "list_standards".toList then
    .answer (.methodSuccess [.standards (resourcesListStandards env.systemd)])
  else if method = "list_providers".toList then
    .answer (.methodSuccess
      [.providers (resourcesListProviders (args.standard.getD []) env.listing)])
  else if method = "list".toList then
    match resourcesListAgents standard env with
    | none => .crashes
    | some agents => .answer (.methodSuccess [.agents agents])
  else if method = "invoke".toList then
    match asInt32Or asInt32 args.interval 0, asInt32Or asInt32 args.timeout 60000 with
    | some interval, some timeout =>
      if (resourcesListStandards env.systemd).any (strcasecmp standard) then
        .action .resources ⟨args.name, standard, some provider, args.agent.getD args.name,
          args.action, interval, timeout, args.parameters⟩ args.expectedRc
      else .answer notImplemented
    | _, _ => .throws
  else if method = "cancel".toList then
    match asInt32 args.interval with
    | none => .throws
    | some interval => .cancel args.name args.action interval
  else .answer notImplemented

/-! ## The agent -/

/-- `down` is set when an exception has left `invoke`, or the process has crashed. -/
structure SrvAgent where
  engine : Engine Callback Client
  received : ℕ
  down : Bool

def SrvAgent.init : SrvAgent := ⟨Engine.init ⟨fun _ => none, [], []⟩, 0, false⟩

def reply (s : Engine Callback Client) (call : ℕ) (r : Reply) : Engine Callback Client :=
  { s with client := { s.client with replies := (call, r) :: s.client.replies } }

def actionAsync (s : Engine Callback Client) (service : ServiceId) (call : ℕ) (args : Args)
    (op : SvcAction Callback) (hasRc : Bool) (fork : Option ℕ) : Engine Callback Client :=
  let cb : AsyncCB := ⟨service, call, args.userdata.getD [], hasRc, 0, true⟩
  let key := s.heap.next
  let client := { s.client with cbData := Function.update s.client.cbData key (some cb) }
  servicesActionAsync { s with heap := s.heap.add op, client := client } key (some ()) fork

def perform (s : Engine Callback Client) (call : ℕ) (args : Args) (fork : Option ℕ) :
    Demand → Option (Engine Callback Client)
  | .answer r => some (reply s call r)
  | .throws | .crashes => none
  | .cancel name action interval =>
    some (reply (servicesActionCancel s name action interval).1 call (.methodSuccess []))
  | .action service request expectedRc =>
    let (op, operations) := resourcesActionCreate s.operations request
    let s := { s with operations := operations }
    match op with
    | none => some (reply s call invalidArguments)
    | some op => match asInt32Or asInt32 expectedRc op.expectedRc with
      | none => none
      | some rc => some (actionAsync s service call args { op with expectedRc := rc } true fork)

inductive AgentEvent where
  | call (service : ServiceId) (method : Text) (args : Args) (env : Environment) (fork : Option ℕ)
  | childExit (pid status : ℕ)
  | childTimeout (source : ℕ) (kill : KillResult)
  | repeatTimer (source : ℕ) (fork : Option ℕ)
  | fdDone (source : ℕ)

def demand (service : ServiceId) (method : Text) (args : Args) (env : Environment) : Demand :=
  match service with
  | .services => invokeServices asInt32 method args env
  | .resources => invokeResources asInt32 method args env

/-- A step of the main loop. A call whose conversion throws or that crashes takes
the process down, and the call stays received. -/
def agentStep (s : SrvAgent) : AgentEvent → Option SrvAgent
  | .call service method args env fork =>
    if s.down = false ∧ forkAllowed s.engine fork then
      match perform asInt32 s.engine s.received args fork (demand asInt32 service method args env) with
      | none => some { s with received := s.received + 1, down := true }
      | some engine => some { s with engine := engine, received := s.received + 1 }
    else none
  | .childExit pid status => lift s (.childExit pid status)
  | .childTimeout source kill => lift s (.childTimeout source kill)
  | .repeatTimer source fork => lift s (.repeatTimer source fork)
  | .fdDone source => lift s (.fdDone source)
where
  lift (s : SrvAgent) (e : Event Callback) : Option SrvAgent :=
    if s.down then none
    else (step mhAsyncCallback s.engine e).map fun engine => { s with engine := engine }

end Matahari.ServiceAgent
