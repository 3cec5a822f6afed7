import Matahari.Library.Transition
import Matahari.Mainloop

set_option autoImplicit false

/-!
# The modes of the shell

A command of `mode.py` that changes the selection first sets the state and then builds
the mode for it. A mode for a class asks for the objects of the class while it is built,
and an exception leaves the shell in the mode it was in.
-/
namespace Matahari.Shell.Modes
open Mainloop TransitionRuns

inductive Mode where
  | rootMode
  | hostMode
  | classMode
  | hostClassMode
  deriving DecidableEq, Repr

/-- `class Matahari`; the cache of `objects` holds a proxy, or `None` for no class. -/
structure MatahariState where
  hosts : Option (List Text)
  package : Option Text
  klass : Option Text
  properties : List (Text × Text)
  objects : Option Bool
  deriving DecidableEq

structure Interpreter where
  state : MatahariState
  mode : Mode
  deriving DecidableEq

/-! ## `api.py` -/

def setHosts (s : MatahariState) (hosts : Option (List Text)) : MatahariState :=
  { s with hosts := hosts, objects := none }

def setClass (s : MatahariState) (klass package : Option Text) : MatahariState :=
  { s with klass := klass, package := package, properties := [], objects := none }

def setPropertyFilter (s : MatahariState) (name value : Text) : MatahariState :=
  { s with properties := (name, value) :: s.properties.filter (·.1 ≠ name), objects := none }

def clearPropertyFilter (s : MatahariState) : MatahariState :=
  { s with properties := [], objects := none }

def clearState (s : MatahariState) : MatahariState :=
  setHosts (setClass (clearPropertyFilter s) none none) none

def getObjects (s : MatahariState) (fails : Bool) : MatahariState × Except Unit Bool :=
  match s.objects with
  | some proxy => (s, .ok proxy)
  | none =>
    if s.klass = none then ({ s with objects := some false }, .ok false)
    else if fails then (s, .error ())
    else ({ s with objects := some true }, .ok true)

/-! ## `mode.py` -/

/-- The method resolution order is `HostClassMode`, `HostMode`, `ClassMode`, `RootMode`. -/
def getHostMode : Mode → Mode
  | .rootMode | .hostMode => .hostMode
  | .classMode | .hostClassMode => .hostClassMode

def getClassMode : Mode → Mode
  | .rootMode | .classMode => .classMode
  | .hostMode | .hostClassMode => .hostClassMode

def getNoHostMode : Mode → Option Mode
  | .hostMode => some .rootMode
  | .hostClassMode => some .classMode
  | _ => none

def getNoClassMode : Mode → Option Mode
  | .classMode => some .rootMode
  | .hostClassMode => some .hostMode
  | _ => none

/-- The constructor of a mode. A mode for a class needs the properties of its objects, and
`None` has none. -/
def build (s : MatahariState) (mode : Mode) (fails : Bool) : MatahariState × Bool :=
  match mode with
  | .rootMode | .hostMode => (s, true)
  | .classMode | .hostClassMode =>
    match getObjects s fails with
    | (s, .ok true) => (s, true)
    | (s, _) => (s, false)

inductive ShellCommand where
  | selectHost (hosts : List Text)
  | selectClass (package klass : Text)
  | selectProperty (name value : Text)
  | clearHost
  | clearClass
  | clearProperties
  | clearAll

/-- The state that a command sets, and the mode that it then builds, if it builds one;
`none` where the active mode does not have the command. -/
def handler (s : Interpreter) : ShellCommand → Option (MatahariState × Option Mode)
  | .selectHost hosts => some (setHosts s.state (some hosts), some (getHostMode s.mode))
  | .selectClass package klass =>
    some (setClass s.state (some klass) (some package), some (getClassMode s.mode))
  | .selectProperty name value =>
    (getNoClassMode s.mode).map fun _ => (setPropertyFilter s.state name value, none)
  | .clearHost => (getNoHostMode s.mode).map fun mode => (setHosts s.state none, some mode)
  | .clearClass => (getNoClassMode s.mode).map fun mode => (setClass s.state none none, some mode)
  | .clearProperties => (getNoClassMode s.mode).map fun _ => (clearPropertyFilter s.state, none)
  | .clearAll => some (clearState s.state, some .rootMode)

def onecmd (s : Interpreter) (c : ShellCommand) (fails : Bool) : Interpreter :=
  match handler s c with
  | none => s
  | some (state, none) => ⟨state, s.mode⟩
  | some (state, some mode) =>
    let built := build state mode fails
    ⟨built.1, if built.2 then mode else s.mode⟩

def shellStep (s : Interpreter) (e : ShellCommand × Bool) : Option Interpreter :=
  some (onecmd s e.1 e.2)

def Interpreter.start : Interpreter := ⟨⟨none, none, none, [], none⟩, .rootMode⟩

/-! ## Mode and selection -/

def Agree (s : Interpreter) : Prop :=
  ((s.mode = .hostMode ∨ s.mode = .hostClassMode) ↔ s.state.hosts ≠ none) ∧
    ((s.mode = .classMode ∨ s.mode = .hostClassMode) ↔ s.state.klass ≠ none)

/-- The query does not fail while a mode for a class is built that is of another kind than
the active one. -/
def NoLostMode (s : Interpreter) (e : ShellCommand × Bool) : Prop :=
  ∀ state mode, handler s e.1 = some (state, some mode) → e.2 = true →
    mode = .classMode ∨ mode = .hostClassMode → mode = s.mode

def modeFor (s : MatahariState) : Mode :=
  match s.hosts.isSome, s.klass.isSome with
  | false, false => .rootMode
  | true, false => .hostMode
  | false, true => .classMode
  | true, true => .hostClassMode

theorem agree_iff (s : Interpreter) : Agree s ↔ s.mode = modeFor s.state := by
  unfold Agree modeFor
  cases hm : s.mode <;> cases hh : s.state.hosts <;> cases hk : s.state.klass <;> simp

theorem modeFor_setHosts_some (s : MatahariState) (hosts : List Text) :
    modeFor (setHosts s (some hosts)) = getHostMode (modeFor s) := by
  unfold modeFor setHosts
  cases s.hosts <;> cases s.klass <;> rfl

theorem modeFor_setClass_some (s : MatahariState) (klass : Text) (package : Option Text) :
    modeFor (setClass s (some klass) package) = getClassMode (modeFor s) := by
  unfold modeFor setClass
  cases s.hosts <;> cases s.klass <;> rfl

theorem modeFor_setHosts_none {s : MatahariState} {mode : Mode}
    (h : getNoHostMode (modeFor s) = some mode) : modeFor (setHosts s none) = mode := by
  unfold modeFor setHosts at *
  cases hh : s.hosts <;> cases hk : s.klass <;> simp_all [getNoHostMode]

theorem modeFor_setClass_none {s : MatahariState} {mode : Mode}
    (h : getNoClassMode (modeFor s) = some mode) : modeFor (setClass s none none) = mode := by
  unfold modeFor setClass at *
  cases hh : s.hosts <;> cases hk : s.klass <;> simp_all [getNoClassMode]

theorem handler_mode {s : Interpreter} (h : Agree s) {c : ShellCommand} {state : MatahariState}
    {mode : Mode} (hc : handler s c = some (state, some mode)) :
    mode = modeFor state ∧ state.objects = none := by
  rw [agree_iff] at h
  cases c with
  | selectHost hosts =>
    cases hc
    exact ⟨by rw [modeFor_setHosts_some, h], rfl⟩
  | selectClass package klass =>
    cases hc
    exact ⟨by rw [modeFor_setClass_some, h], rfl⟩
  | selectProperty name value =>
    obtain ⟨_, -, heq⟩ := Option.map_eq_some_iff.mp hc
    cases heq
  | clearHost =>
    obtain ⟨mode, hmode, heq⟩ := Option.map_eq_some_iff.mp hc
    cases heq
    rw [h] at hmode
    exact ⟨(modeFor_setHosts_none hmode).symm, rfl⟩
  | clearClass =>
    obtain ⟨mode, hmode, heq⟩ := Option.map_eq_some_iff.mp hc
    cases heq
    rw [h] at hmode
    exact ⟨(modeFor_setClass_none hmode).symm, rfl⟩
  | clearProperties =>
    obtain ⟨_, -, heq⟩ := Option.map_eq_some_iff.mp hc
    cases heq
  | clearAll =>
    cases hc
    exact ⟨rfl, rfl⟩

theorem handler_filter {s : Interpreter} {c : ShellCommand} {state : MatahariState}
    (hc : handler s c = some (state, none)) : modeFor state = modeFor s.state := by
  cases c with
  | selectHost hosts => cases hc
  | selectClass package klass => cases hc
  | selectProperty name value =>
    obtain ⟨_, -, heq⟩ := Option.map_eq_some_iff.mp hc
    cases heq
    rfl
  | clearHost =>
    obtain ⟨_, -, heq⟩ := Option.map_eq_some_iff.mp hc
    cases heq
  | clearClass =>
    obtain ⟨_, -, heq⟩ := Option.map_eq_some_iff.mp hc
    cases heq
  | clearProperties =>
    obtain ⟨_, -, heq⟩ := Option.map_eq_some_iff.mp hc
    cases heq
    rfl
  | clearAll => cases hc

/-- The mode of a selection is built unless it asks for objects and the query fails. -/
theorem build_modeFor {s : MatahariState} (hs : s.objects = none) (fails : Bool) :
    modeFor (build s (modeFor s) fails).1 = modeFor s ∧
      ((build s (modeFor s) fails).2 = false ↔
        fails = true ∧ (modeFor s = .classMode ∨ modeFor s = .hostClassMode)) := by
  unfold build getObjects modeFor
  rw [hs]
  cases hh : s.hosts <;> cases hk : s.klass <;> cases fails <;> simp [hh, hk]

/-- A command keeps the agreement if no mode is lost, and only then. -/
theorem agree_onecmd {s : Interpreter} (h : Agree s) (c : ShellCommand) (fails : Bool) :
    Agree (onecmd s c fails) ↔ NoLostMode s (c, fails) := by
  unfold onecmd
  cases hc : handler s c with
  | none =>
    refine iff_of_true h ?_
    intro state mode hsome
    rw [hc] at hsome
    cases hsome
  | some result =>
    obtain ⟨state, target⟩ := result
    cases target with
    | none =>
      refine iff_of_true ?_ ?_
      · rw [agree_iff] at h ⊢
        exact h.trans (handler_filter hc).symm
      · intro _ _ hsome
        rw [hc] at hsome
        cases hsome
    | some mode =>
      obtain ⟨rfl, hobjects⟩ := handler_mode h hc
      obtain ⟨hbuilt, hfails⟩ := build_modeFor hobjects fails
      rw [agree_iff]
      dsimp only
      rw [hbuilt]
      constructor
      · intro hmode state' mode' hsome hfail hkind
        rw [hc] at hsome
        cases hsome
        rw [hfails.mpr ⟨hfail, hkind⟩, if_neg Bool.false_ne_true] at hmode
        exact hmode.symm
      · intro hkeep
        cases hb : (build state (modeFor state) fails).2 with
        | true => rw [if_pos rfl]
        | false =>
          rw [if_neg Bool.false_ne_true]
          obtain ⟨hfail, hkind⟩ := hfails.mp hb
          exact (hkeep state (modeFor state) hc hfail hkind).symm

/-- In every state that the shell reaches, the mode agrees with the selection, if and only
if no query fails while a mode for a class of another kind is built. -/
theorem mode_agrees_iff (es : List (ShellCommand × Bool)) :
    Always shellStep Agree Interpreter.start es ↔
      Throughout shellStep NoLostMode Interpreter.start es := by
  have hstart : Agree Interpreter.start := by
    rw [agree_iff]
    rfl
  have preserved : ∀ s e u, Agree s → NoLostMode s e → shellStep s e = some u → Agree u := by
    intro s e u hs hok hu
    obtain rfl := Option.some_inj.mp hu
    exact (agree_onecmd hs e.1 e.2).mpr hok
  constructor
  · apply throughout_of_always preserved _ hstart
    intro s e u hs hlost hu hagree
    obtain rfl := Option.some_inj.mp hu
    exact hlost ((agree_onecmd hs e.1 e.2).mp hagree)
  · exact always_of_preserved preserved hstart

/-- A class is selected, and the query for its objects fails. -/
theorem mode_lost :
    ¬ Always shellStep Agree Interpreter.start
      [(.selectClass "org.matahariproject".toList "Host".toList, true)] := by
  intro h
  obtain ⟨-, hclass⟩ := (h.2 _ rfl).head
  exact absurd (hclass.mpr (by decide)) (by decide)

end Matahari.Shell.Modes
