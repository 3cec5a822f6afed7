import Matahari.Library.Transition
import Matahari.ServicesAction

set_option autoImplicit false

/-!
# The action engine

The asynchronous half of `services.c` and `services_linux.c`: submission,
completion, the repeat timer, the ends of the two pipes, and cancellation. The
registries hold references into one heap of actions. `services_action_free`
counts how often it was called for an object and leaves the object's last
contents in place, which is what the dangling pointers of the C code see until
the allocator reuses the block. The keys of `recurring_actions` are such
pointers, too: each is the `id` of the action that it stands for.

`C` is the type of completion callbacks, `W` the state they work on and `run`
what they do; the callbacks of this repository do not call back into the engine.
-/
namespace Matahari.Services
open Mainloop

structure Engine (C W : Type) where
  loop : Loop ℕ
  heap : FreshTable (SvcAction C)
  freed : ℕ → ℕ
  recurringActions : Text → Option ℕ
  operations : ℕ
  /-- Every action handed to `services_os_action_execute`, the latest first. -/
  executed : List ℕ
  client : W

variable {C W : Type}

def Engine.init (client : W) : Engine C W :=
  ⟨Loop.init, FreshTable.empty, fun _ => 0, fun _ => none, 0, [], client⟩

def Engine.setAction (s : Engine C W) (op : ℕ) (f : SvcAction C → SvcAction C) : Engine C W :=
  { s with heap := s.heap.modify op f }

def SvcAction.gsource (a : SvcAction C) : Stream → Option ℕ
  | .stdout => a.stdoutGsource
  | .stderr => a.stderrGsource

def SvcAction.setGsource (a : SvcAction C) (source : Option ℕ) : Stream → SvcAction C
  | .stdout => { a with stdoutGsource := source }
  | .stderr => { a with stderrGsource := source }

def pipeDone (s : Engine C W) (stream : Stream) (op : ℕ) : Engine C W :=
  s.setAction op fun a => a.setGsource none stream

/-- Finalizing an fd source, either because its dispatch function asked for it
or through `mainloop_destroy_fd`. -/
def mainloopFdDestroy (s : Engine C W) (id : ℕ) : Engine C W :=
  match s.loop.sources.entry id with
  | some (.fd stream op) => pipeDone { s with loop := gSourceRemove s.loop id } stream op
  | _ => s

def destroyGsource (s : Engine C W) (op : ℕ) (stream : Stream) : Engine C W :=
  match (s.heap.entry op).bind (·.gsource stream) with
  | some id => mainloopFdDestroy s id
  | none => s

/-- The entry of `recurring_actions` stays, and so do older watches of the pipes. -/
def servicesActionFree (s : Engine C W) (op : ℕ) : Engine C W :=
  let s := destroyGsource s op .stderr
  let s := destroyGsource s op .stdout
  { s with freed := Function.update s.freed op (s.freed op + 1) }

def watchStream (s : Engine C W) (op : ℕ) (stream : Stream) : Engine C W :=
  { s with loop := addSource s.loop (.fd stream op) }.setAction op
    fun a => a.setGsource (some s.loop.sources.next) stream

/-- `services_os_action_execute(op, FALSE)`. `fork` is the pid of the new child,
or `none` where `fork` fails, and then the function returns `FALSE`. -/
def servicesOsActionExecute (s : Engine C W) (op : ℕ) (fork : Option ℕ) : Engine C W :=
  let s := { s with executed := op :: s.executed }
  match fork, s.heap.entry op with
  | some pid, some a =>
    let s := s.setAction op fun a => { a with pid := pid }
    let s := { s with loop := mainloopAddChild s.loop pid a.timeout a.id op }
    watchStream (watchStream s op .stdout) op .stderr
  | _, _ => s.setAction op fun a => { a with pid := -1 }

def servicesActionAsync (s : Engine C W) (op : ℕ) (callback : Option C) (fork : Option ℕ) :
    Engine C W :=
  let s := s.setAction op fun a => { a with callback := callback.or a.callback }
  let s := match s.heap.entry op with
    | some a =>
      if 0 < a.interval then
        { s with recurringActions := Function.update s.recurringActions a.id (some op) }
      else s
    | none => s
  servicesOsActionExecute s op fork

def SvcAction.finish (a : SvcAction C) (timedOut : Bool) (signo exitcode : ℕ) : SvcAction C :=
  if signo ≠ 0 then
    if timedOut then { a with status := .timeout, rc := ocfTimeout }
    else { a with status := .error, rc := ocfSignal }
  else { a with status := .done, rc := exitcode }

def armRepeatTimer (s : Engine C W) (op : ℕ) : Engine C W :=
  { s with loop := addSource s.loop (.recurringAction op) }.setAction op
    fun a => { a with repeatTimer := s.loop.sources.next }

def runCallback (run : C → ℕ → SvcAction C → W → W) (s : Engine C W) (op : ℕ) : Engine C W :=
  match s.heap.entry op with
  | some a => match a.callback with
    | some callback => { s with client := run callback op a s.client }
    | none => s
  | none => s

def recordResult (s : Engine C W) (op : ℕ) (interval : ℤ) (timedOut : Bool)
    (signo exitcode : ℕ) : Engine C W :=
  let s := s.setAction op fun a => a.finish timedOut signo exitcode
  let s := if interval ≠ 0 then armRepeatTimer s op else s
  s.setAction op fun a => { a with pid := 0 }

def operationFinished (run : C → ℕ → SvcAction C → W → W) (s : Engine C W)
    (p : MainloopChild ℕ) (signo exitcode : ℕ) : Engine C W :=
  match p.privatedata with
  | none => s
  | some op => match s.heap.entry op with
    | none => s
    | some a =>
      let s := recordResult s op a.interval p.timeout signo exitcode
      let s := runCallback run s op
      if a.interval ≠ 0 then s else servicesActionFree s op

/-- A reaped child, from the table look-up of `child_death_dispatch` on. -/
def childDeath (run : C → ℕ → SvcAction C → W → W) (s : Engine C W) (pid : ℤ) (status : ℕ) :
    Engine C W :=
  match s.loop.processTable pid with
  | none => s
  | some p =>
    let codes := deathCodes status
    let s := { s with loop := disarm s.loop p }
    let s := operationFinished run s p codes.1 codes.2
    { s with loop := removeChild s.loop pid }

def recurringActionTimer (s : Engine C W) (id op : ℕ) (fork : Option ℕ) : Engine C W :=
  let s := servicesActionAsync s op none fork
  { s with loop := gSourceRemove s.loop id }

def servicesActionCancel (s : Engine C W) (name action : Text) (interval : ℤ) :
    Engine C W × Bool :=
  match s.recurringActions (cancelId name action interval) with
  | none => (s, false)
  | some op =>
    let timer := ((s.heap.entry op).map (·.repeatTimer)).getD 0
    let s := if timer ≠ 0 then { s with loop := gSourceRemove s.loop timer } else s
    (servicesActionFree s op, true)

/-- `resources_action_create`, then `services_action_async` unless it returned
`NULL`. The new object is `s.heap.next`. -/
def submit (s : Engine C W) (r : ActionRequest) (callback : Option C) (fork : Option ℕ) :
    Engine C W :=
  let (a, operations) := resourcesActionCreate s.operations r
  let s := { s with operations := operations }
  match a with
  | none => s
  | some a => servicesActionAsync { s with heap := s.heap.add a } s.heap.next callback fork

inductive Event (C : Type) where
  | submit (r : ActionRequest) (callback : Option C) (fork : Option ℕ)
  | childExit (pid status : ℕ)
  | childTimeout (source : ℕ) (kill : KillResult)
  | repeatTimer (source : ℕ) (fork : Option ℕ)
  | fdDone (source : ℕ)
  | cancel (name action : Text) (interval : ℤ)

/-- The kernel gives a new child a pid that no unreaped child has. -/
def forkAllowed (s : Engine C W) : Option ℕ → Bool
  | none => true
  | some pid => 0 < pid && (s.loop.processTable pid).isNone

/-- One turn of the main loop. A step is undefined where its source does not
exist, its child is not tracked, or the kernel would not choose that pid. -/
def step (run : C → ℕ → SvcAction C → W → W) (s : Engine C W) : Event C → Option (Engine C W)
  | .submit r callback fork => if forkAllowed s fork then some (submit s r callback fork) else none
  | .childExit pid status =>
    if (s.loop.processTable pid).isSome then some (childDeath run s pid status) else none
  | .childTimeout source kill => match s.loop.sources.entry source with
    | some (.childTimeout pid) =>
      some { s with loop := gSourceRemove (childTimeoutCallback s.loop pid kill) source }
    | _ => none
  | .repeatTimer source fork => match s.loop.sources.entry source with
    | some (.recurringAction op) =>
      if forkAllowed s fork then some (recurringActionTimer s source op fork) else none
    | _ => none
  | .fdDone source => match s.loop.sources.entry source with
    | some (.fd _ _) => some (mainloopFdDestroy s source)
    | _ => none
  | .cancel name action interval => some (servicesActionCancel s name action interval).1

end Matahari.Services
