import Matahari.Mainloop

set_option autoImplicit false

/-!
# Service actions

`svc_action_t` with its private part, the checks and the fields that
`resources_action_create` sets, and the string that identifies an action.
-/
namespace Matahari.Services
open Mainloop

inductive OpStatus where
  | pending
  | done
  | cancelled
  | timeout
  | notsupported
  | error
  deriving DecidableEq, Repr

def ocfNotInstalled : ℤ := 5
def ocfInsufficientPriv : ℤ := 4
def ocfSignal : ℤ := 194
def ocfTimeout : ℤ := 198

/-- `svc_action_t` and `svc_action_private_t` in one record. `C` is the type of
completion callbacks; a `mainloop_fd_t *` is the id of its source. -/
structure SvcAction (C : Type) where
  id : Text
  rsc : Text
  action : Text
  interval : ℤ
  standard : Text
  provider : Option Text
  agent : Text
  timeout : ℤ
  params : List (Text × Text)
  rc : ℤ
  pid : ℤ
  status : OpStatus
  sequence : ℕ
  expectedRc : ℤ
  exec : Text
  args : List Text
  repeatTimer : ℕ
  callback : Option C
  stderrGsource : Option ℕ
  stdoutGsource : Option ℕ

variable {C : Type}

def decimal (i : ℤ) : Text :=
  if i < 0 then '-' :: Nat.toDigits 10 i.natAbs else Nat.toDigits 10 i.natAbs

def actionId (name action : Text) (interval : ℤ) : Text :=
  name ++ '_' :: (action ++ '_' :: decimal interval)

/-- The same text printed by `snprintf` into the 512 bytes of
`services_action_cancel`. -/
def cancelId (name action : Text) (interval : ℤ) : Text :=
  (actionId name action interval).take 511

theorem cancelId_of_short {name action : Text} {interval : ℤ}
    (h : (actionId name action interval).length < 512) :
    cancelId name action interval = actionId name action interval :=
  List.take_of_length_le (by omega)

def strcasecmp (a b : Text) : Bool := a.map Char.toLower == b.map Char.toLower

structure ActionRequest where
  name : Text
  standard : Text
  provider : Option Text
  agent : Text
  action : Text
  interval : ℤ
  timeout : ℤ
  params : List (Text × Text)
  deriving DecidableEq

def ActionRequest.sane (r : ActionRequest) : Bool :=
  !r.name.isEmpty && !r.standard.isEmpty &&
    !(strcasecmp r.standard "ocf".toList && (r.provider.getD []).isEmpty) &&
    !r.agent.isEmpty && !r.action.isEmpty

def ocfRoot : Text := "/usr/lib/ocf".toList
def systemctl : Text := "/bin/systemctl".toList

def servicesOsSetExec (agent action : Text) : Text × List Text :=
  let chkconfig := "/sbin/chkconfig".toList
  let service := "/sbin/service".toList
  if action = "enable".toList then (chkconfig, [chkconfig, agent, "on".toList])
  else if action = "disable".toList then (chkconfig, [chkconfig, agent, "off".toList])
  else (service, [service, agent, action])

def ActionRequest.command (r : ActionRequest) : Option (Text × List Text) :=
  if strcasecmp r.standard "ocf".toList then
    let exec := ocfRoot ++ "/resource.d/".toList ++ r.provider.getD [] ++ '/' :: r.agent
    some (exec, [exec, r.action])
  else if strcasecmp r.standard "lsb".toList || strcasecmp r.standard "windows".toList then
    some (servicesOsSetExec r.agent r.action)
  else if strcasecmp r.standard "systemd".toList then
    some (systemctl, [systemctl, r.action, r.agent ++ ".service".toList])
  else none

/-- `calloc` leaves every other field zero. Only an OCF action keeps its
provider and its parameters. -/
def newAction (r : ActionRequest) (sequence : ℕ) (command : Text × List Text) : SvcAction C where
  id := actionId r.name r.action r.interval
  rsc := r.name
  action := r.action
  interval := r.interval
  standard := r.standard
  provider := if strcasecmp r.standard "ocf".toList then r.provider else none
  agent := r.agent
  timeout := r.timeout
  params := if strcasecmp r.standard "ocf".toList then r.params else []
  rc := 0
  pid := 0
  status := .done
  sequence := sequence
  expectedRc := 0
  exec := command.1
  args := command.2
  repeatTimer := 0
  callback := none
  stderrGsource := none
  stdoutGsource := none

/-- The new action, or `none` where the code returns `NULL`. `operations` is the
static counter; it is advanced once the sanity checks have passed. -/
def resourcesActionCreate (operations : ℕ) (r : ActionRequest) : Option (SvcAction C) × ℕ :=
  if r.sane then (r.command.map (newAction r (operations + 1)), operations + 1)
  else (none, operations)

def ActionRequest.valid (r : ActionRequest) : Bool := r.sane && r.command.isSome

theorem resourcesActionCreate_some {operations : ℕ} {r : ActionRequest} {a : SvcAction C}
    (h : (resourcesActionCreate operations r).1 = some a) :
    r.valid = true ∧ ∃ command, a = newAction r (operations + 1) command := by
  unfold resourcesActionCreate at h
  split at h
  · rename_i hs
    obtain ⟨command, hc, rfl⟩ := Option.map_eq_some_iff.mp h
    exact ⟨by simp only [ActionRequest.valid, hs, hc, Option.isSome_some, Bool.and_self],
      command, rfl⟩
  · cases h

theorem resourcesActionCreate_valid {r : ActionRequest} (h : r.valid = true) (operations : ℕ) :
    ∃ command, (resourcesActionCreate (C := C) operations r).1 =
      some (newAction r (operations + 1) command) := by
  simp only [ActionRequest.valid, Bool.and_eq_true] at h
  obtain ⟨command, hc⟩ := Option.isSome_iff_exists.mp h.2
  refine ⟨command, ?_⟩
  rw [resourcesActionCreate, if_pos h.1, hc]
  rfl

end Matahari.Services
