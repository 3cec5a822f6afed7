import Matahari.Library.FreshTable
import Matahari.DbusAgent
import Matahari.Rpc

set_option autoImplicit false

/-!
# The RPC agent

`rpc-qmf.cpp` over the object manager of `mh_object.cpp`. Every plugin is published as an object
of its own, whose methods are the procedures that its module had when the agent was set up.
-/
namespace Matahari.Rpc
open Mainloop Utilities Sysconfig DbusBridge

variable {P M F J : Type}

structure RpcPlugin (M : Type) where
  commands : List Text
  plugin : MhRpcPlugin M

/-- `RPCAgent` with its object manager, which finds an object by its address. `calls` lists the
procedures that have been looked up for a call. -/
structure RpcAgent (P M : Type) where
  objects : FreshTable (RpcPlugin M)
  python : P
  calls : List (M × Text)

structure RpcEvent where
  isMethod : Bool
  dataAddr : Option ℕ
  methodName : Text
  arguments : List (Text × QVariant)

inductive RpcReply where
  | methodSuccess (result : Text)
  | pluginException (type value traceback : Text)
  | raiseException (text : Text)
  deriving DecidableEq, Repr

abbrev AsString := QVariant → Option Text

/-! ## Setting up -/

def addPlugin (py : Python P M F J) (s : RpcAgent P M) (plugin : MhRpcPlugin M) : RpcAgent P M :=
  { s with objects := s.objects.add ⟨(mhRpcGetProcedures py s.python plugin).getD [], plugin⟩ }

def rpcSetup (py : Python P M F J) (importModule : Text → P → P × ImportOutcome M)
    (listing : Option (List Text)) (p : P) : RpcAgent P M :=
  let loaded := plugins importModule listing p
  (loadPlugins py loaded.2).foldl (addPlugin py) ⟨FreshTable.empty, loaded.1, []⟩

/-! ## Events -/

def RpcEvent.arg (ev : RpcEvent) (name : String) : QVariant :=
  (ev.arguments.lookup name.toList).getD .void

def rpcCall (asString : AsString) (ev : RpcEvent) : Option MhRpc :=
  (ev.arg "args").asList.bind fun arglist =>
    (arglist.mapM asString).bind fun args =>
      (ev.arg "kwargs").asMap.bind fun argmap =>
        (argmap.mapM fun e : Text × QVariant => (asString e.2).map fun v => (e.1, v)).map fun kwargs =>
          kwargs.foldl (fun call kv => mhRpcCallAddKwArg call kv.1 kv.2)
            (args.foldl mhRpcCallAddArg (mhRpcCallCreate ev.methodName))

def rpcReply (res : MhResult) (output : MhRpcResult) : RpcReply :=
  if res ≠ .success then .raiseException (mhResultToStr res)
  else
    match output.result with
    | some result => .methodSuccess result
    | none =>
      .pluginException (output.excType.getD []) (output.excValue.getD [])
        (output.excTraceback.getD [])

/-- `RPCPlugin::invoke`, with whether the event was handled. An exception of qpid ends the
agent, as a crash does: there is no answer then. -/
def rpcPluginInvoke (py : Python P M F J) (asString : AsString) (plugin : RpcPlugin M)
    (ev : RpcEvent) (s : RpcAgent P M) : RpcAgent P M × Option (Bool × List RpcReply) :=
  if !ev.isMethod then (s, some (true, []))
  else if !plugin.commands.contains ev.methodName then (s, some (false, []))
  else
    match rpcCall asString ev with
    | none => (s, none)
    | some call =>
      let run := mhRpcInvoke py plugin.plugin call s.python
      ({ s with
          python := run.1
          calls := s.calls ++ [(plugin.plugin.impl, call.procedure)] },
        run.2.map fun answer => (true, [rpcReply answer.1 answer.2]))

def objectManagerInvoke (py : Python P M F J) (asString : AsString) (ev : RpcEvent)
    (s : RpcAgent P M) : RpcAgent P M × Option (Bool × List RpcReply) :=
  match ev.dataAddr.bind s.objects.entry with
  | some plugin => rpcPluginInvoke py asString plugin ev s
  | none => (s, some (false, []))

def rpcAgentInvoke (py : Python P M F J) (asString : AsString) (ev : RpcEvent)
    (s : RpcAgent P M) : RpcAgent P M × Option (List RpcReply) :=
  let handled := objectManagerInvoke py asString ev s
  (handled.1, handled.2.map fun answer =>
    if answer.1 then answer.2
    else answer.2 ++ [.raiseException (mhResultToStr .notImplemented)])

def rpcRun (py : Python P M F J) (asString : AsString) :
    List RpcEvent → RpcAgent P M → RpcAgent P M × List (Option (List RpcReply))
  | [], s => (s, [])
  | ev :: evs, s =>
    match rpcAgentInvoke py asString ev s with
    | (u, none) => (u, [none])
    | (u, some replies) => ((rpcRun py asString evs u).1, some replies :: (rpcRun py asString evs u).2)

inductive RpcMove (py : Python P M F J) (asString : AsString) (ev : RpcEvent) (s : RpcAgent P M) :
    RpcAgent P M → Option (List RpcReply) → Prop
  | ignored {plugin : RpcPlugin M} (htarget : ev.dataAddr.bind s.objects.entry = some plugin)
      (hevent : ev.isMethod = false) : RpcMove py asString ev s s (some [])
  | unknown (htarget : ev.dataAddr.bind s.objects.entry = none) :
      RpcMove py asString ev s s (some [.raiseException (mhResultToStr .notImplemented)])
  | refused {plugin : RpcPlugin M} (htarget : ev.dataAddr.bind s.objects.entry = some plugin)
      (hmethod : ev.isMethod = true) (hname : plugin.commands.contains ev.methodName = false) :
      RpcMove py asString ev s s (some [.raiseException (mhResultToStr .notImplemented)])
  | malformed {plugin : RpcPlugin M} (htarget : ev.dataAddr.bind s.objects.entry = some plugin)
      (hmethod : ev.isMethod = true) (hname : plugin.commands.contains ev.methodName = true)
      (hcall : rpcCall asString ev = none) : RpcMove py asString ev s s none
  | called {plugin : RpcPlugin M} {call : MhRpc}
      (htarget : ev.dataAddr.bind s.objects.entry = some plugin) (hmethod : ev.isMethod = true)
      (hname : plugin.commands.contains ev.methodName = true)
      (hcall : rpcCall asString ev = some call) :
      RpcMove py asString ev s
        { s with
          python := (mhRpcInvoke py plugin.plugin call s.python).1
          calls := s.calls ++ [(plugin.plugin.impl, call.procedure)] }
        ((mhRpcInvoke py plugin.plugin call s.python).2.map fun answer =>
          [rpcReply answer.1 answer.2])

theorem rpcAgentInvoke_move (py : Python P M F J) (asString : AsString) (ev : RpcEvent)
    (s : RpcAgent P M) :
    RpcMove py asString ev s (rpcAgentInvoke py asString ev s).1
      (rpcAgentInvoke py asString ev s).2 := by
  unfold rpcAgentInvoke objectManagerInvoke
  cases htarget : ev.dataAddr.bind s.objects.entry with
  | none => exact .unknown htarget
  | some plugin =>
    unfold rpcPluginInvoke
    cases hmethod : ev.isMethod with
    | false => exact .ignored htarget hmethod
    | true =>
      dsimp only
      rw [if_neg (by decide)]
      cases hname : plugin.commands.contains ev.methodName with
      | false =>
        rw [if_pos (by decide)]
        exact .refused htarget hmethod hname
      | true =>
        rw [if_neg (by decide)]
        cases hcall : rpcCall asString ev with
        | none => exact .malformed htarget hmethod hname hcall
        | some call =>
          dsimp only
          rw [Option.map_map]
          exact .called htarget hmethod hname hcall

/-! ## What can be called -/

theorem foldl_addArg_procedure (args : List Text) (call : MhRpc) :
    (args.foldl mhRpcCallAddArg call).procedure = call.procedure := by
  induction args generalizing call with
  | nil => rfl
  | cons arg args ih => exact ih (mhRpcCallAddArg call arg)

theorem foldl_addKwArg_procedure (kwargs : List (Text × Text)) (call : MhRpc) :
    (kwargs.foldl (fun call kv => mhRpcCallAddKwArg call kv.1 kv.2) call).procedure =
      call.procedure := by
  induction kwargs generalizing call with
  | nil => rfl
  | cons kv kwargs ih => exact ih (mhRpcCallAddKwArg call kv.1 kv.2)

theorem rpcCall_procedure {asString : AsString} {ev : RpcEvent} {call : MhRpc}
    (h : rpcCall asString ev = some call) : call.procedure = cstring ev.methodName := by
  obtain ⟨arglist, _, h⟩ := Option.bind_eq_some_iff.mp h
  obtain ⟨args, _, h⟩ := Option.bind_eq_some_iff.mp h
  obtain ⟨argmap, _, h⟩ := Option.bind_eq_some_iff.mp h
  obtain ⟨kwargs, _, rfl⟩ := Option.map_eq_some_iff.mp h
  rw [foldl_addKwArg_procedure, foldl_addArg_procedure]
  rfl

/-- The name of a procedure that was public when the agent was set up. -/
def Advertised (py : Python P M F J) (p : P) (module : M) (name : Text) : Prop :=
  ∃ procedure, IsPublic py p module procedure ∧ name = cstring procedure

structure AgentInv (py : Python P M F J) (p : P) (s : RpcAgent P M) : Prop where
  api : ∀ addr plugin, s.objects.entry addr = some plugin → apiDefined plugin.plugin.type = true
  commands : ∀ addr plugin, s.objects.entry addr = some plugin → ∀ name ∈ plugin.commands,
    Advertised py p plugin.plugin.impl name
  calls : ∀ c ∈ s.calls, Advertised py p c.1 c.2

section
variable {py : Python P M F J} {p : P} {s u : RpcAgent P M}

theorem advertised_of_getProcedures {plugin : MhRpcPlugin M} {name : Text}
    (h : name ∈ (mhRpcGetProcedures py p plugin).getD []) : Advertised py p plugin.impl name := by
  unfold mhRpcGetProcedures getProcedures at h
  cases hapi : apiDefined plugin.type with
  | false =>
    rw [hapi] at h
    exact absurd h List.not_mem_nil
  | true =>
    rw [hapi, if_pos rfl] at h
    cases hprocedures : procedures py p plugin.impl with
    | none =>
      rw [hprocedures] at h
      exact absurd h List.not_mem_nil
    | some names =>
      rw [hprocedures, Option.map_some, Option.getD_some] at h
      obtain ⟨procedure, hmem, rfl⟩ := List.mem_map.mp h
      exact ⟨procedure, isPublic_of_mem hprocedures hmem, rfl⟩

theorem addPlugin_entry {plugin new : MhRpcPlugin M} {commands : List Text} {addr : ℕ}
    (h : (addPlugin py s plugin).objects.entry addr = some ⟨commands, new⟩) :
    s.objects.entry addr = some ⟨commands, new⟩ ∨
      (commands = (mhRpcGetProcedures py s.python plugin).getD [] ∧ new = plugin) := by
  unfold addPlugin at h
  rw [FreshTable.add_entry] at h
  by_cases haddr : addr = s.objects.next
  · rw [if_pos haddr] at h
    cases h
    exact .inr ⟨rfl, rfl⟩
  · rw [if_neg haddr] at h
    exact .inl h

theorem agentInv_addPlugin (h : AgentInv py p s) (hp : s.python = p) {plugin : MhRpcPlugin M}
    (hapi : apiDefined plugin.type = true) : AgentInv py p (addPlugin py s plugin) := by
  constructor
  · intro addr new hentry
    rcases addPlugin_entry hentry with hold | ⟨_, hnew⟩
    · exact h.api addr new hold
    · rw [hnew]
      exact hapi
  · intro addr new hentry name hname
    rcases addPlugin_entry hentry with hold | ⟨hcommands, hnew⟩
    · exact h.commands addr new hold name hname
    · rw [hcommands, hp] at hname
      rw [hnew]
      exact advertised_of_getProcedures hname
  · exact h.calls

theorem agentInv_foldl {plugins : List (MhRpcPlugin M)} (h : AgentInv py p s) (hp : s.python = p)
    (hapi : ∀ plugin ∈ plugins, apiDefined plugin.type = true) :
    AgentInv py p (plugins.foldl (addPlugin py) s) := by
  induction plugins generalizing s with
  | nil => exact h
  | cons plugin plugins ih =>
    exact ih (agentInv_addPlugin h hp (hapi plugin List.mem_cons_self)) hp
      fun plugin hplugin => hapi plugin (List.mem_cons_of_mem _ hplugin)

theorem agentInv_setup (py : Python P M F J) (importModule : Text → P → P × ImportOutcome M)
    (listing : Option (List Text)) (p : P) :
    AgentInv py (plugins importModule listing p).1 (rpcSetup py importModule listing p) := by
  have hinit : AgentInv py (plugins importModule listing p).1
      ⟨FreshTable.empty, (plugins importModule listing p).1, []⟩ :=
    ⟨fun addr plugin hentry => absurd hentry (Option.some_ne_none plugin).symm,
      fun addr plugin hentry => absurd hentry (Option.some_ne_none plugin).symm,
      fun c hc => absurd hc List.not_mem_nil⟩
  apply agentInv_foldl hinit rfl
  intro plugin hplugin
  obtain ⟨m, _, rfl⟩ := List.mem_map.mp hplugin
  rfl

theorem agentInv_move {asString : AsString} {ev : RpcEvent} {replies : Option (List RpcReply)}
    (h : AgentInv py p s) (hmove : RpcMove py asString ev s u replies) : AgentInv py p u := by
  cases hmove with
  | ignored => exact h
  | unknown => exact h
  | refused => exact h
  | malformed => exact h
  | @called plugin call htarget hmethod hname hcall =>
    refine ⟨h.api, h.commands, fun c hc => ?_⟩
    rcases List.mem_append.mp hc with hc | hc
    · exact h.calls c hc
    · obtain rfl := List.mem_singleton.mp hc
      obtain ⟨addr, _, hentry⟩ := Option.bind_eq_some_iff.mp htarget
      obtain ⟨procedure, hpublic, heq⟩ :=
        h.commands addr plugin hentry ev.methodName (List.contains_iff_mem.mp hname)
      refine ⟨procedure, hpublic, ?_⟩
      change call.procedure = _
      rw [rpcCall_procedure hcall, heq, cstring_cstring]

/-- Induction on the events. -/
theorem agentInv_run (asString : AsString) (evs : List RpcEvent) (h : AgentInv py p s) :
    AgentInv py p (rpcRun py asString evs s).1 := by
  induction evs generalizing s with
  | nil => exact h
  | cons ev evs ih =>
    have hstep := agentInv_move h (rpcAgentInvoke_move py asString ev s)
    unfold rpcRun
    generalize rpcAgentInvoke py asString ev s = answer at hstep
    obtain ⟨u, replies⟩ := answer
    cases replies with
    | none => exact hstep
    | some replies => exact ih hstep

end

/-- Whatever events come, and whatever the procedures do to the interpreter: what is looked up in
a module for a call has the name of a procedure that was public when the agent was set up. -/
theorem calls_advertised (py : Python P M F J) (asString : AsString)
    (importModule : Text → P → P × ImportOutcome M) (listing : Option (List Text)) (p : P)
    (evs : List RpcEvent) :
    ∀ c ∈ (rpcRun py asString evs (rpcSetup py importModule listing p)).1.calls,
      Advertised py (plugins importModule listing p).1 c.1 c.2 :=
  (agentInv_run asString evs (agentInv_setup py importModule listing p)).calls

def clientEvent (addr : ℕ) (name : Text) (args : List Text) (kwargs : List (Text × Text)) :
    RpcEvent :=
  ⟨true, some addr, name,
    [("args".toList, .list (args.map .string)),
      ("kwargs".toList, .map (kwargs.map fun kv => (kv.1, .string kv.2)))]⟩

/-! An interpreter with a module whose function gives its first argument back. -/

def echoPython : Python ℕ Unit Unit Bool where
  name _ := "echo".toList
  dir _ _ := ["_hidden".toList, "echo".toList]
  getattr _ _ name := if name = "echo".toList ∨ name = "_hidden".toList then some () else none
  callable _ := true
  apply _ args _ n := (n + 1, .ok (args.headD false))
  attributeError _ name := ⟨"AttributeError".toList, some (some name), some []⟩
  loads text :=
    if text = "true".toList then .ok true
    else if text = "false".toList then .ok false
    else .error ⟨"ValueError".toList, some (some text), some []⟩
  dumps value := .ok (if value then "true" else "false").toList

def stringOnly : AsString
  | .string text => some text
  | _ => none

def echoAgent : RpcAgent ℕ Unit :=
  rpcSetup echoPython (fun _ n => (n, .module ())) (some ["README".toList, "echo.py".toList]) 0

def echoTrue : RpcEvent := clientEvent 1 "echo".toList ["true".toList] []

theorem calls_advertised_echo : Advertised echoPython 0 () "echo".toList :=
  calls_advertised echoPython stringOnly (fun _ n => (n, .module ()))
    (some ["README".toList, "echo.py".toList]) 0 [echoTrue] ((), "echo".toList) List.mem_cons_self

/-! ## The answers -/

/-- An event that the agent does not survive: a call with other arguments than a list and a map
of strings, or one that raises an exception without a value or a traceback. -/
def Fatal (py : Python P M F J) (asString : AsString) (ev : RpcEvent) (s : RpcAgent P M) : Prop :=
  ev.isMethod = true ∧ ∃ plugin, ev.dataAddr.bind s.objects.entry = some plugin ∧
    plugin.commands.contains ev.methodName = true ∧
    (rpcCall asString ev = none ∨ ∃ call, rpcCall asString ev = some call ∧
      apiDefined plugin.plugin.type = true ∧
      ∃ e, (callPlugin py plugin.plugin.impl call s.python).2 = .error e ∧ e.Incomplete)

section
variable {py : Python P M F J} {asString : AsString} {ev : RpcEvent} {s u : RpcAgent P M}
  {answer : Option (List RpcReply)}

theorem move_ends_iff (h : RpcMove py asString ev s u answer) :
    answer = none ↔ Fatal py asString ev s := by
  cases h with
  | ignored htarget hevent =>
    refine ⟨fun h => absurd h (Option.some_ne_none _), fun hfatal => ?_⟩
    exact absurd (hevent.symm.trans hfatal.1) Bool.false_ne_true
  | unknown htarget =>
    refine ⟨fun h => absurd h (Option.some_ne_none _), fun hfatal => ?_⟩
    obtain ⟨_, plugin, hplugin, _⟩ := hfatal
    exact absurd (htarget.symm.trans hplugin) (Option.some_ne_none plugin).symm
  | refused htarget hmethod hname =>
    refine ⟨fun h => absurd h (Option.some_ne_none _), fun hfatal => ?_⟩
    obtain ⟨_, plugin, hplugin, hcontains, _⟩ := hfatal
    cases htarget.symm.trans hplugin
    exact absurd (hname.symm.trans hcontains) Bool.false_ne_true
  | malformed htarget hmethod hname hcall =>
    exact ⟨fun _ => ⟨hmethod, _, htarget, hname, .inl hcall⟩, fun _ => rfl⟩
  | @called plugin call htarget hmethod hname hcall =>
    rw [Option.map_eq_none_iff, mhRpcInvoke_none_iff]
    constructor
    · intro h
      exact ⟨hmethod, plugin, htarget, hname, .inr ⟨call, hcall, h⟩⟩
    · intro hfatal
      obtain ⟨_, plugin', hplugin, _, hnone | ⟨call', hcall', h⟩⟩ := hfatal
      · exact absurd (hnone.symm.trans hcall) (Option.some_ne_none call).symm
      · cases htarget.symm.trans hplugin
        cases hcall.symm.trans hcall'
        exact h

theorem move_replies {replies : List RpcReply} (h : RpcMove py asString ev s u (some replies))
    (hmethod : ev.isMethod = true) : ∃ reply, replies = [reply] := by
  generalize hanswer : some replies = answer at h
  cases h with
  | ignored htarget hevent => exact absurd (hevent.symm.trans hmethod) Bool.false_ne_true
  | unknown htarget =>
    cases hanswer
    exact ⟨_, rfl⟩
  | refused htarget hmethod hname =>
    cases hanswer
    exact ⟨_, rfl⟩
  | malformed htarget hmethod hname hcall => cases hanswer
  | called htarget hmethod hname hcall =>
    obtain ⟨result, _, rfl⟩ := Option.map_eq_some_iff.mp hanswer.symm
    exact ⟨_, rfl⟩

end

/-- The `i`th answer is the one to the `i`th event, in the state that the events before it have
left. -/
theorem rpcRun_answer {py : Python P M F J} {asString : AsString} {evs : List RpcEvent}
    {s : RpcAgent P M} {i : ℕ} {answer : Option (List RpcReply)}
    (h : (rpcRun py asString evs s).2[i]? = some answer) :
    ∃ ev, evs[i]? = some ev ∧
      answer = (rpcAgentInvoke py asString ev (rpcRun py asString (evs.take i) s).1).2 := by
  induction evs generalizing s i with
  | nil => exact absurd h (by simp [rpcRun])
  | cons ev evs ih =>
    unfold rpcRun at h
    cases hstep : rpcAgentInvoke py asString ev s with
    | mk u replies =>
      rw [hstep] at h
      cases replies with
      | none =>
        cases i with
        | zero =>
          cases h
          exact ⟨ev, rfl, (congrArg Prod.snd hstep).symm⟩
        | succ i => cases h
      | some replies =>
        cases i with
        | zero =>
          cases h
          exact ⟨ev, rfl, (congrArg Prod.snd hstep).symm⟩
        | succ i =>
          obtain ⟨ev', hev', hanswer⟩ := ih h
          refine ⟨ev', hev', hanswer.trans ?_⟩
          rw [List.take_succ_cons, rpcRun, hstep]

/-- In every run each method call is answered once, or ends the agent; it ends the agent exactly
if it is fatal in the state that it meets. -/
theorem rpc_calls_answered (py : Python P M F J) (asString : AsString) (evs : List RpcEvent)
    (s : RpcAgent P M) (i : ℕ) (answer : Option (List RpcReply))
    (h : (rpcRun py asString evs s).2[i]? = some answer) :
    ∃ ev, evs[i]? = some ev ∧
      (answer = none ↔ Fatal py asString ev (rpcRun py asString (evs.take i) s).1) ∧
      (ev.isMethod = true → answer = none ∨ ∃ reply, answer = some [reply]) := by
  obtain ⟨ev, hev, rfl⟩ := rpcRun_answer h
  have hmove := rpcAgentInvoke_move py asString ev (rpcRun py asString (evs.take i) s).1
  refine ⟨ev, hev, move_ends_iff hmove, fun hmethod => ?_⟩
  cases hanswer : (rpcAgentInvoke py asString ev (rpcRun py asString (evs.take i) s).1).2 with
  | none => exact .inl rfl
  | some replies =>
    rw [hanswer] at hmove
    obtain ⟨reply, rfl⟩ := move_replies hmove hmethod
    exact .inr ⟨reply, rfl⟩

theorem rpc_calls_answered_echo :
    ∃ ev, [echoTrue][0]? = some ev ∧
      (some [RpcReply.methodSuccess "true".toList] = none ↔
        Fatal echoPython stringOnly ev (rpcRun echoPython stringOnly ([echoTrue].take 0) echoAgent).1) ∧
      (ev.isMethod = true → some [RpcReply.methodSuccess "true".toList] = none ∨
        ∃ reply, some [RpcReply.methodSuccess "true".toList] = some [reply]) :=
  rpc_calls_answered echoPython stringOnly [echoTrue] echoAgent 0
    (some [.methodSuccess "true".toList]) rfl

/-! ## Calls that JSON carries over -/

theorem foldl_addArg (args : List Text) (call : MhRpc) :
    args.foldl mhRpcCallAddArg call =
      { call with args := call.args ++ args.map fun arg => ⟨none, cstring arg⟩ } := by
  induction args generalizing call with
  | nil => simp
  | cons arg args ih =>
    rw [List.foldl_cons, ih]
    simp [mhRpcCallAddArg, addArg]

theorem foldl_addKwArg (kwargs : List (Text × Text)) (call : MhRpc) :
    kwargs.foldl (fun call kv => mhRpcCallAddKwArg call kv.1 kv.2) call =
      { call with
        kwargs := call.kwargs ++ kwargs.map fun kv => ⟨some (cstring kv.1), cstring kv.2⟩ } := by
  induction kwargs generalizing call with
  | nil => simp
  | cons kv kwargs ih =>
    rw [List.foldl_cons, ih]
    simp [mhRpcCallAddKwArg, addArg]

theorem mapM_asString {asString : AsString} (hstring : ∀ t, asString (.string t) = some t)
    (texts : List Text) : (texts.map QVariant.string).mapM asString = some texts := by
  induction texts with
  | nil => rfl
  | cons text texts ih =>
    rw [List.map_cons, List.mapM_cons, hstring, ih]
    rfl

theorem mapM_asString_pairs {asString : AsString} (hstring : ∀ t, asString (.string t) = some t)
    (kwargs : List (Text × Text)) :
    (kwargs.map fun kv => (kv.1, QVariant.string kv.2)).mapM
        (fun e : Text × QVariant => (asString e.2).map fun v => (e.1, v)) = some kwargs := by
  induction kwargs with
  | nil => rfl
  | cons kv kwargs ih =>
    rw [List.map_cons, List.mapM_cons, ih]
    dsimp only
    rw [hstring]
    rfl

theorem rpcCall_clientEvent {asString : AsString} (hstring : ∀ t, asString (.string t) = some t)
    (addr : ℕ) (name : Text) (args : List Text) (kwargs : List (Text × Text)) :
    rpcCall asString (clientEvent addr name args kwargs) =
      some ⟨cstring name, args.map fun arg => ⟨none, cstring arg⟩,
        kwargs.map fun kv => ⟨some (cstring kv.1), cstring kv.2⟩⟩ := by
  have hargs : ((clientEvent addr name args kwargs).arg "args").asList =
      some (args.map QVariant.string) := rfl
  have hkwargs : ((clientEvent addr name args kwargs).arg "kwargs").asMap =
      some (kwargs.map fun kv => (kv.1, QVariant.string kv.2)) := rfl
  unfold rpcCall
  rw [hargs, Option.bind_some, mapM_asString hstring, Option.bind_some, hkwargs, Option.bind_some,
    mapM_asString_pairs hstring, Option.map_some, foldl_addArg, foldl_addKwArg]
  rfl

theorem callPlugin_json {py : Python P M F J} {module : M} {name : Text} {p : P} {f : F}
    {args : List J} {argTexts : List Text} {kwargs : List (Text × J)}
    {kwTexts : List (Text × Text)} (hf : py.getattr p module (cstring name) = some f)
    (hargs : List.Forall₂ (JsonText py) args argTexts) (hkeys : (kwargs.map (·.1)).Nodup)
    (hkwargs : List.Forall₂ (JsonPair py) kwargs kwTexts) :
    callPlugin py module
        ⟨cstring name, argTexts.map fun arg => ⟨none, cstring arg⟩,
          kwTexts.map fun kv => ⟨some (cstring kv.1), cstring kv.2⟩⟩ p =
      ((py.apply f args kwargs p).1, (py.apply f args kwargs p).2.bind py.dumps) := by
  have hloads : loadsArgs py ((argTexts.map fun arg => (⟨none, cstring arg⟩ : RpcArg)).map (·.val)) =
      .ok args := by
    rw [List.map_map]
    exact loadsArgs_ok hargs
  have hloadsKw : loadsKwargs py ((kwTexts.map fun kv : Text × Text =>
      (⟨some (cstring kv.1), cstring kv.2⟩ : RpcArg)).map fun arg => (arg.key.getD [], arg.val)) =
      .ok kwargs := by
    rw [List.map_map]
    exact loadsKwargs_ok hkeys hkwargs
  unfold callPlugin pluginCall
  dsimp only
  rw [hf, hloads, hloadsKw]

theorem rpcAgentInvoke_called {py : Python P M F J} {asString : AsString} {ev : RpcEvent}
    {s : RpcAgent P M} {plugin : RpcPlugin M} {call : MhRpc} (hmethod : ev.isMethod = true)
    (htarget : ev.dataAddr.bind s.objects.entry = some plugin)
    (hname : ev.methodName ∈ plugin.commands) (hcall : rpcCall asString ev = some call) :
    (rpcAgentInvoke py asString ev s).1.python = (mhRpcInvoke py plugin.plugin call s.python).1 ∧
      (rpcAgentInvoke py asString ev s).2 =
        (mhRpcInvoke py plugin.plugin call s.python).2.map fun answer =>
          [rpcReply answer.1 answer.2] := by
  have hmove := rpcAgentInvoke_move py asString ev s
  generalize rpcAgentInvoke py asString ev s = answer at hmove
  obtain ⟨u, replies⟩ := answer
  cases hmove with
  | ignored _ hevent => exact absurd (hevent.symm.trans hmethod) Bool.false_ne_true
  | unknown hnone => exact absurd (hnone.symm.trans htarget) (Option.some_ne_none plugin).symm
  | refused hplugin _ hcontains =>
    cases htarget.symm.trans hplugin
    exact absurd (hcontains.symm.trans (List.contains_iff_mem.mpr hname)) Bool.false_ne_true
  | malformed _ _ _ hnone => exact absurd (hnone.symm.trans hcall) (Option.some_ne_none call).symm
  | called hplugin _ _ hcall' =>
    cases htarget.symm.trans hplugin
    cases hcall.symm.trans hcall'
    exact ⟨rfl, rfl⟩

/-- A call from afar does what the function does here. In every state of a run, where a client
puts the arguments of a procedure into JSON: the function is applied to these arguments, what it
returns is in the reply, and so is the exception that it raises. -/
theorem remote_call_agrees (py : Python P M F J) (asString : AsString)
    (hstring : ∀ t, asString (.string t) = some t)
    (importModule : Text → P → P × ImportOutcome M) (listing : Option (List Text)) (p : P)
    (evs : List RpcEvent) (s : RpcAgent P M)
    (hs : s = (rpcRun py asString evs (rpcSetup py importModule listing p)).1) (addr : ℕ)
    (name : Text) (plugin : RpcPlugin M) (f : F)
    (htarget : s.objects.entry addr = some plugin) (hname : name ∈ plugin.commands)
    (hf : py.getattr s.python plugin.plugin.impl name = some f) (args : List J)
    (argTexts : List Text) (hargs : List.Forall₂ (JsonText py) args argTexts)
    (kwargs : List (Text × J)) (kwTexts : List (Text × Text))
    (hkeys : (kwargs.map (·.1)).Nodup) (hkwargs : List.Forall₂ (JsonPair py) kwargs kwTexts) :
    (rpcAgentInvoke py asString (clientEvent addr name argTexts kwTexts) s).1.python =
        (py.apply f args kwargs s.python).1 ∧
      (∀ value text, (py.apply f args kwargs s.python).2 = .ok value → JsonText py value text →
        (rpcAgentInvoke py asString (clientEvent addr name argTexts kwTexts) s).2 =
          some [.methodSuccess text]) ∧
      ∀ e value traceback, (py.apply f args kwargs s.python).2 = .error e →
        e.value = some (some value) → e.traceback = some traceback →
        (rpcAgentInvoke py asString (clientEvent addr name argTexts kwTexts) s).2 =
          some [.pluginException (cstring e.name) (cstring value) (cstring traceback)] := by
  have hinv : AgentInv py (plugins importModule listing p).1 s := by
    rw [hs]
    exact agentInv_run asString evs (agentInv_setup py importModule listing p)
  have hcname : cstring name = name := by
    obtain ⟨procedure, _, hprocedure⟩ := hinv.commands addr plugin htarget name hname
    rw [hprocedure, cstring_cstring]
  have hcall := rpcCall_clientEvent hstring addr name argTexts kwTexts
  have hbind : (clientEvent addr name argTexts kwTexts).dataAddr.bind s.objects.entry =
      some plugin := htarget
  have hmethod : (clientEvent addr name argTexts kwTexts).methodName ∈ plugin.commands := hname
  obtain ⟨hpython, hanswer⟩ := rpcAgentInvoke_called rfl hbind hmethod hcall
  have hrun := callPlugin_json (by rwa [hcname]) hargs hkeys hkwargs
  have hapi := hinv.api addr plugin htarget
  rw [hpython, hanswer, mhRpcInvoke_fst hapi]
  refine ⟨congrArg Prod.fst hrun, fun value text hvalue hjson => ?_,
    fun e value traceback herror hvalue htraceback => ?_⟩
  · have hdumps := congrArg Prod.snd hrun
    rw [hvalue] at hdumps
    rw [mhRpcInvoke_ok hapi (hdumps.trans hjson.dumps), cstring_eq_self hjson.plain]
    rfl
  · have hraised := congrArg Prod.snd hrun
    rw [herror] at hraised
    rw [mhRpcInvoke_error hapi hraised hvalue htraceback]
    rfl

theorem remote_call_agrees_echo :
    (rpcAgentInvoke echoPython stringOnly echoTrue echoAgent).2 =
      some [.methodSuccess "true".toList] := by
  have htrue : JsonText echoPython true "true".toList := ⟨rfl, rfl, by decide⟩
  have hargs : List.Forall₂ (JsonText echoPython) [true] ["true".toList] := .cons htrue .nil
  exact (remote_call_agrees echoPython stringOnly (fun _ => rfl) (fun _ n => (n, .module ()))
    (some ["README".toList, "echo.py".toList]) 0 [] echoAgent rfl 1 "echo".toList
    ⟨["echo".toList], ⟨"echo".toList, mhRpcPython, ()⟩⟩ () rfl List.mem_cons_self rfl [true]
    ["true".toList] hargs [] [] List.nodup_nil .nil).2.1 true "true".toList rfl htrue

end Matahari.Rpc
