import Matahari.ServiceReplies

set_option autoImplicit false

/-!
# Replies and events of one action

What the agent sends for one call of `invoke` while the calls and completions of other
actions come in between: the reply of the first completion, and an event for each
completion whose result differs from the one before.
-/
namespace Matahari.ServiceAgent
open Mainloop Services TransitionRuns

def completed (s : Engine Callback Client) : AgentEvent → Option (ℕ × SvcAction Callback)
  | .childExit pid status =>
    (s.loop.processTable pid).bind fun p => p.privatedata.bind fun op =>
      (s.heap.entry op).bind fun a =>
        let codes := deathCodes status
        let s := recordResult { s with loop := disarm s.loop p } op a.interval p.timeout codes.1
          codes.2
        (s.heap.entry op).bind fun b => b.callback.map fun _ => (op, b)
  | _ => none

def raised (s u : SrvAgent) : List ResourceOp :=
  u.engine.client.events.take
    (u.engine.client.events.length - s.engine.client.events.length)

/-- The completions of one action along a run, each with the events it raises. -/
def completions (asInt32 : Option ℕ → Option ℤ) (key : ℕ) :
    SrvAgent → List AgentEvent → List (SvcAction Callback × List ResourceOp)
  | _, [] => []
  | s, e :: es => match agentStep asInt32 s e with
    | none => []
    | some u =>
      (match completed s.engine e with
        | some (op, b) => if op = key then [(b, raised s u)] else []
        | none => []) ++ completions asInt32 key u es

def resourceOp (op : SvcAction Callback) (userdata : Text) : ResourceOp :=
  ⟨op.rsc, op.action, op.interval, op.rc, op.sequence, op.standard, op.provider, op.agent,
    op.expectedRc, if userdata.isEmpty then none else some userdata⟩

/-! ## What a step does to the client -/

section
variable {C W : Type} {s : Engine C W} {op : ℕ}

theorem steady_interval : Steady fun a : SvcAction C => a.interval :=
  ⟨fun _ _ => rfl, fun _ _ => rfl, fun _ _ stream => by cases stream <;> rfl⟩

theorem finish_interval (a : SvcAction C) (timedOut : Bool) (signo exitcode : ℕ) :
    (a.finish timedOut signo exitcode).interval = a.interval := by
  obtain ⟨status, rc, h⟩ := finish_frame a timedOut signo exitcode
  rw [h]

theorem quiet_finish (s : Engine C W) (op : ℕ) (interval : ℤ) (timedOut : Bool)
    (signo exitcode : ℕ) :
    Quiet (·.interval) s (recordResult s op interval timedOut signo exitcode) :=
  (quiet_setAction s op fun a => finish_interval a timedOut signo exitcode).trans
    (quiet_recordResult steady_interval s op interval timedOut signo exitcode)

theorem interval_childDeath (run : C → ℕ → SvcAction C → W → W) (pid : ℤ) (status k : ℕ) :
    ((childDeath run s pid status).heap.entry k).map (·.interval) =
      (s.heap.entry k).map (·.interval) := by
  cases hchild : s.loop.processTable pid with
  | none => simp only [childDeath, hchild]
  | some p =>
    cases hp : p.privatedata with
    | none => simp only [childDeath, hchild, operationFinished, hp]
    | some op =>
      cases ha : s.heap.entry op with
      | none => simp only [childDeath, hchild, operationFinished, hp, ha]
      | some a =>
        rw [childDeath_map steady_interval run hchild hp ha status k]
        exact setAction_map s op _ _ (fun a => finish_interval a _ _ _) k

theorem interval_servicesActionAsync (s : Engine C W) (op : ℕ) (callback : Option C)
    (fork : Option ℕ) : Quiet (·.interval) s (servicesActionAsync s op callback fork) :=
  (quiet_setAction s op (f := fun a => { a with callback := callback.or a.callback })
      fun _ => rfl).trans
    (quiet_servicesActionAsync steady_interval s op callback fork)

end

theorem client_childDeath (s : Engine Callback Client) (pid status : ℕ) :
    (childDeath mhAsyncCallback s pid status).client =
      match completed s (.childExit pid status) with
      | some (op, b) => mhAsyncCallback () op b s.client
      | none => s.client := by
  cases hchild : s.loop.processTable pid with
  | none => simp only [childDeath, completed, hchild, Option.bind_none]
  | some p =>
    cases hp : p.privatedata with
    | none =>
      simp only [childDeath, completed, hchild, operationFinished, hp, Option.bind_some,
        Option.bind_none]
    | some op =>
      cases ha : s.heap.entry op with
      | none =>
        simp only [childDeath, completed, hchild, operationFinished, hp, ha, Option.bind_some,
          Option.bind_none]
      | some a =>
        let codes := deathCodes status
        let t := recordResult { s with loop := disarm s.loop p } op a.interval p.timeout codes.1
          codes.2
        have hclient : t.client = s.client := (quiet_finish _ op a.interval p.timeout _ _).1
        have hfree : ∀ u : Engine Callback Client,
            (if a.interval ≠ 0 then u else servicesActionFree u op).client = u.client := by
          intro u
          split
          · rfl
          · exact (quiet_servicesActionFree steady_interval u op).1
        have hdeath : (childDeath mhAsyncCallback s pid status).client =
            (runCallback mhAsyncCallback t op).client := by
          simp only [childDeath, hchild, operationFinished, hp, ha]
          exact hfree _
        have hcompleted : completed s (.childExit pid status) =
            (t.heap.entry op).bind fun b => b.callback.map fun _ => (op, b) := by
          simp only [completed, hchild, hp, ha, Option.bind_some]
          rfl
        rw [hdeath, hcompleted, runCallback]
        cases hb : t.heap.entry op with
        | none => exact hclient
        | some b =>
          cases hcb : b.callback with
          | none =>
            simp only [hcb, Option.bind_some, Option.map_none]
            exact hclient
          | some c =>
            simp only [hcb, Option.bind_some, Option.map_some, hclient]

/-- The action that is completed has the interval that it was created with. -/
theorem completed_interval {s : Engine Callback Client} {e : AgentEvent} {op : ℕ}
    {b : SvcAction Callback} (h : completed s e = some (op, b)) :
    (s.heap.entry op).map (·.interval) = some b.interval := by
  cases e with
  | childExit pid status =>
    simp only [completed, Option.bind_eq_some_iff, Option.map_eq_some_iff] at h
    obtain ⟨p, -, op', -, a, ha, b', hb, _, -, heq⟩ := h
    cases heq
    have hquiet := (quiet_finish { s with loop := disarm s.loop p } op a.interval p.timeout
      (deathCodes status).1 (deathCodes status).2).2 op
    rw [hb] at hquiet
    exact hquiet.symm
  | call | childTimeout | repeatTimer | fdDone => cases h

inductive ClientStep (s u : SrvAgent) : Option (ℕ × SvcAction Callback) → Prop where
  | quiet (hclient : u.engine.client = s.engine.client) (hreceived : s.received ≤ u.received) :
    ClientStep s u none
  | answered (r : Reply) (hreceived : u.received = s.received + 1)
    (hclient : u.engine.client =
      { s.engine.client with replies := (s.received, r) :: s.engine.client.replies }) :
    ClientStep s u none
  | deferred (cb : AsyncCB) (hcall : cb.call = s.received) (hreceived : u.received = s.received + 1)
    (hclient : u.engine.client = { s.engine.client with
      cbData := Function.update s.engine.client.cbData s.engine.heap.next (some cb) }) :
    ClientStep s u none
  | completion (op : ℕ) (b : SvcAction Callback) (hreceived : u.received = s.received)
    (hclient : u.engine.client = mhAsyncCallback () op b s.engine.client) :
    ClientStep s u (some (op, b))

section
variable {asInt32 : Option ℕ → Option ℤ} {s u : SrvAgent}

theorem clientStep_call {service : ServiceId} {method : Text} {args : Args} {env : Environment}
    {fork : Option ℕ} (hu : agentStep asInt32 s (.call service method args env fork) = some u) :
    ClientStep s u none ∧ ∀ k, s.engine.heap.entry k ≠ none →
      (u.engine.heap.entry k).map (·.interval) = (s.engine.heap.entry k).map (·.interval) := by
  simp only [agentStep, Option.ite_none_right_eq_some] at hu
  obtain ⟨-, hu⟩ := hu
  cases hd : demand asInt32 service method args env with
  | answer r =>
    simp only [hd, perform, Option.some.injEq] at hu
    subst hu
    exact ⟨.answered r rfl rfl, fun _ _ => rfl⟩
  | throws | crashes =>
    simp only [hd, perform, Option.some.injEq] at hu
    subst hu
    exact ⟨.quiet rfl (Nat.le_succ _), fun _ _ => rfl⟩
  | cancel name action interval =>
    simp only [hd, perform, Option.some.injEq] at hu
    subst hu
    obtain ⟨hclient, hinterval⟩ :=
      quiet_servicesActionCancel steady_interval s.engine name action interval
    refine ⟨.answered (.methodSuccess []) rfl ?_, fun k _ => hinterval k⟩
    simp only [reply, hclient]
  | action service' request expectedRc =>
    simp only [hd, perform] at hu
    cases hr : (resourcesActionCreate (C := Callback) s.engine.operations request).1 with
    | none =>
      simp only [hr, Option.some.injEq] at hu
      subst hu
      exact ⟨.answered invalidArguments rfl rfl, fun _ _ => rfl⟩
    | some op =>
      simp only [hr] at hu
      cases hrc : asInt32Or asInt32 expectedRc op.expectedRc with
      | none =>
        simp only [hrc, Option.some.injEq] at hu
        subst hu
        exact ⟨.quiet rfl (Nat.le_succ _), fun _ _ => rfl⟩
      | some rc =>
        simp only [hrc, Option.some.injEq, actionAsync] at hu
        subst hu
        obtain ⟨hclient, hinterval⟩ := interval_servicesActionAsync _ s.engine.heap.next (some ()) fork
        refine ⟨.deferred _ ?_ rfl hclient, fun k hk => ?_⟩
        · rfl
        · rw [hinterval k, FreshTable.add_entry, if_neg]
          rintro rfl
          exact hk (FreshTable.next_entry _)

theorem clientStep_lift (e' : AgentEvent) {e : Event Callback}
    (hcall : ∀ r c f, e ≠ .submit r c f)
    (hcancel : ∀ name action interval, e ≠ .cancel name action interval)
    (hexit : ∀ pid status, e = .childExit pid status → e' = .childExit pid status)
    (hother : (∀ pid status, e ≠ .childExit pid status) → completed s.engine e' = none)
    (hu : agentStep.lift s e = some u) :
    ClientStep s u (completed s.engine e') ∧ ∀ k,
      (u.engine.heap.entry k).map (·.interval) = (s.engine.heap.entry k).map (·.interval) := by
  simp only [agentStep.lift, Option.ite_none_left_eq_some, Option.map_eq_some_iff] at hu
  obtain ⟨-, engine, hstep, rfl⟩ := hu
  have quiet : Quiet (·.interval) s.engine engine → (∀ pid status, e ≠ .childExit pid status) →
      ClientStep s { s with engine := engine } (completed s.engine e') ∧ ∀ k,
        (engine.heap.entry k).map (·.interval) = (s.engine.heap.entry k).map (·.interval) := by
    intro hq hne
    rw [hother hne]
    exact ⟨.quiet hq.1 (le_refl _), hq.2⟩
  cases e with
  | submit r c f => exact absurd rfl (hcall r c f)
  | cancel name action interval => exact absurd rfl (hcancel name action interval)
  | childExit pid status =>
    obtain rfl := hexit pid status rfl
    simp only [step, Option.ite_none_right_eq_some, Option.some.injEq] at hstep
    obtain ⟨-, rfl⟩ := hstep
    refine ⟨?_, fun k => interval_childDeath mhAsyncCallback pid status k⟩
    have hclient := client_childDeath s.engine pid status
    cases hc : completed s.engine (.childExit pid status) with
    | none =>
      rw [hc] at hclient
      exact .quiet hclient (le_refl _)
    | some result =>
      rw [hc] at hclient
      exact .completion result.1 result.2 rfl hclient
  | childTimeout source kill =>
    simp only [step] at hstep
    split at hstep
    · cases hstep
      exact quiet (Quiet.refl _ s.engine) fun _ _ he => by cases he
    · cases hstep
  | repeatTimer source fork =>
    simp only [step] at hstep
    split at hstep
    · simp only [Option.ite_none_right_eq_some, Option.some.injEq] at hstep
      obtain ⟨-, rfl⟩ := hstep
      exact quiet (quiet_recurringActionTimer steady_interval s.engine _ _ _) fun _ _ he => by
        cases he
    · cases hstep
  | fdDone source =>
    simp only [step] at hstep
    split at hstep
    · cases hstep
      exact quiet (quiet_mainloopFdDestroy steady_interval s.engine _) fun _ _ he => by cases he
    · cases hstep

theorem clientStep_of_step {e : AgentEvent} (hu : agentStep asInt32 s e = some u) :
    ClientStep s u (completed s.engine e) ∧ ∀ k, s.engine.heap.entry k ≠ none →
      (u.engine.heap.entry k).map (·.interval) = (s.engine.heap.entry k).map (·.interval) := by
  cases e with
  | call service method args env fork => exact clientStep_call hu
  | childExit pid status =>
    obtain ⟨hstep, hinterval⟩ := clientStep_lift (.childExit pid status) (fun _ _ _ he => by cases he)
      (fun _ _ _ he => by cases he) (fun _ _ he => by cases he; rfl)
      (fun hne => absurd rfl (hne pid status)) hu
    exact ⟨hstep, fun k _ => hinterval k⟩
  | childTimeout source kill =>
    obtain ⟨hstep, hinterval⟩ := clientStep_lift (.childTimeout source kill)
      (fun _ _ _ he => by cases he) (fun _ _ _ he => by cases he) (fun _ _ he => by cases he)
      (fun _ => rfl) hu
    exact ⟨hstep, fun k _ => hinterval k⟩
  | repeatTimer source fork =>
    obtain ⟨hstep, hinterval⟩ := clientStep_lift (.repeatTimer source fork)
      (fun _ _ _ he => by cases he) (fun _ _ _ he => by cases he) (fun _ _ he => by cases he)
      (fun _ => rfl) hu
    exact ⟨hstep, fun k _ => hinterval k⟩
  | fdDone source =>
    obtain ⟨hstep, hinterval⟩ := clientStep_lift (.fdDone source)
      (fun _ _ _ he => by cases he) (fun _ _ _ he => by cases he) (fun _ _ he => by cases he)
      (fun _ => rfl) hu
    exact ⟨hstep, fun k _ => hinterval k⟩

end

/-! ## The books of the agent -/

structure Books (s : SrvAgent) : Prop where
  cbData : ∀ k cb, s.engine.client.cbData k = some cb → cb.call < s.received
  replies : ∀ r ∈ s.engine.client.replies, r.1 < s.received

theorem books_init : Books SrvAgent.init where
  cbData _ _ h := by cases h
  replies _ h := by cases h

theorem books_callback {w : Client} {received : ℕ}
    (hcb : ∀ k cb, w.cbData k = some cb → cb.call < received)
    (hreplies : ∀ r ∈ w.replies, r.1 < received) (key : ℕ) (op : SvcAction Callback) :
    (∀ k cb, (mhAsyncCallback () key op w).cbData k = some cb → cb.call < received) ∧
      ∀ r ∈ (mhAsyncCallback () key op w).replies, r.1 < received := by
  constructor
  · intro k cb h
    obtain ⟨old, hold, hcall, -⟩ := cbData_callback h
    rw [← hcall]
    exact hcb k old hold
  · cases hkey : w.cbData key with
    | none =>
      have hsame : mhAsyncCallback () key op w = w := by simp only [mhAsyncCallback, hkey]
      rw [hsame]
      exact hreplies
    | some cb =>
      obtain ⟨-, -, -, hrep⟩ := mhAsyncCallback_eq hkey op
      rw [hrep]
      split
      · rw [List.forall_mem_cons]
        exact ⟨hcb key cb hkey, hreplies⟩
      · exact hreplies

theorem books_step {asInt32 : Option ℕ → Option ℤ} {s u : SrvAgent} {e : AgentEvent}
    (h : Books s) (hu : agentStep asInt32 s e = some u) : Books u := by
  obtain ⟨hstep, -⟩ := clientStep_of_step hu
  obtain ⟨hcb, hreplies⟩ := h
  cases hc : completed s.engine e with
  | none =>
    rw [hc] at hstep
    cases hstep with
    | quiet hclient hreceived =>
      constructor
      · intro k cb hk
        rw [hclient] at hk
        exact lt_of_lt_of_le (hcb k cb hk) hreceived
      · rw [hclient]
        exact fun r hr => lt_of_lt_of_le (hreplies r hr) hreceived
    | answered r hreceived hclient =>
      constructor
      · intro k cb hk
        rw [hclient] at hk
        have := hcb k cb hk
        omega
      · rw [hclient, List.forall_mem_cons, hreceived]
        exact ⟨Nat.lt_succ_self _, fun r hr => Nat.lt_succ_of_lt (hreplies r hr)⟩
    | deferred cb hcall hreceived hclient =>
      constructor
      · intro k cb' hk
        rw [hclient] at hk
        obtain ⟨-, heq⟩ | ⟨-, hold⟩ := update_eq_some hk
        · obtain rfl := Option.some.inj heq
          omega
        · have := hcb k cb' hold
          omega
      · rw [hclient, hreceived]
        exact fun r hr => Nat.lt_succ_of_lt (hreplies r hr)
  | some result =>
    rw [hc] at hstep
    cases hstep with
    | completion op b hreceived hclient =>
      obtain ⟨hcb', hreplies'⟩ := books_callback hcb hreplies op b
      rw [← hreceived] at hcb' hreplies'
      constructor
      · rw [hclient]
        exact hcb'
      · rw [hclient]
        exact hreplies'

/-! ## One action -/

def held (interval : ℤ) (call : ℕ) (userdata : Text) : Option ℤ → Option AsyncCB
  | none => some ⟨.resources, call, userdata, true, 0, true⟩
  | some rc => if interval ≠ 0 then some ⟨.resources, call, userdata, true, rc, false⟩ else none

def resultReply (op : SvcAction Callback) (userdata : Text) : Reply :=
  .methodSuccess ([.rc op.rc] ++ if userdata.isEmpty then [] else [.userdata userdata])

def replyAfter (call : ℕ) (userdata : Text) (op : SvcAction Callback) :
    Option ℤ → List (ℕ × Reply)
  | none => [(call, resultReply op userdata)]
  | some _ => []

def eventAfter (interval : ℤ) (userdata : Text) (op : SvcAction Callback) :
    Option ℤ → List ResourceOp
  | none => []
  | some rc => if interval ≠ 0 ∧ rc ≠ op.rc then [resourceOp op userdata] else []

def sent (s : SrvAgent) (call : ℕ) : List (ℕ × Reply) :=
  s.engine.client.replies.filter (·.1 = call)

structure Tracked (key call : ℕ) (userdata : Text) (interval : ℤ) (s : SrvAgent)
    (last : Option ℤ) : Prop where
  entry : (s.engine.heap.entry key).map (·.interval) = some interval
  received : call < s.received
  cbData : s.engine.client.cbData key = held interval call userdata last
  others : ∀ k cb, k ≠ key → s.engine.client.cbData k = some cb → cb.call ≠ call

theorem callback_held {w : Client} {key call : ℕ} {userdata : Text} {last : Option ℤ}
    {op : SvcAction Callback} (h : w.cbData key = held op.interval call userdata last) :
    mhAsyncCallback () key op w =
      { cbData := Function.update w.cbData key (held op.interval call userdata (some op.rc))
        replies := replyAfter call userdata op last ++ w.replies
        events := eventAfter op.interval userdata op last ++ w.events } := by
  cases last with
  | none =>
    simp only [mhAsyncCallback, h, held, if_true, firstReply]
    rfl
  | some rc =>
    by_cases hi : op.interval = 0
    · simp only [held, hi, ne_eq, not_true, if_false] at h
      have hupdate : Function.update w.cbData key none = w.cbData := by
        rw [← h, Function.update_eq_self]
      simp only [mhAsyncCallback, h, held, hi, ne_eq, not_true, if_false, hupdate, eventAfter,
        replyAfter, false_and, List.nil_append]
    · simp only [held, if_pos hi] at h
      by_cases hrc : rc = op.rc
      · simp [mhAsyncCallback, h, held, hi, hrc, eventAfter, replyAfter]
      · simp [mhAsyncCallback, h, held, hi, hrc, eventAfter, replyAfter, raiseEvent, resourceOp]

section
variable {asInt32 : Option ℕ → Option ℤ} {s u : SrvAgent} {e : AgentEvent}
  {key call : ℕ} {userdata : Text} {interval : ℤ} {last : Option ℤ}

theorem Tracked.allocated (h : Tracked key call userdata interval s last) :
    s.engine.heap.entry key ≠ none := by
  intro hnone
  have := h.entry
  rw [hnone] at this
  cases this

/-- A completion of the action sends what its code and the last one ask for. -/
theorem tracked_completion (h : Tracked key call userdata interval s last)
    {op : SvcAction Callback} (hc : completed s.engine e = some (key, op))
    (hu : agentStep asInt32 s e = some u) :
    Tracked key call userdata interval u (some op.rc) ∧
      sent u call = replyAfter call userdata op last ++ sent s call ∧
      raised s u = eventAfter interval userdata op last := by
  obtain ⟨hstep, hinterval⟩ := clientStep_of_step hu
  have hop : op.interval = interval := by
    have := completed_interval hc
    rw [h.entry] at this
    exact (Option.some_inj.mp this).symm
  rw [hc] at hstep
  cases hstep with
  | completion _ _ hreceived hclient =>
    have hcb := h.cbData
    rw [← hop] at hcb
    rw [callback_held hcb, hop] at hclient
    refine ⟨⟨?_, ?_, ?_, ?_⟩, ?_, ?_⟩
    · rw [hinterval key h.allocated, h.entry]
    · rw [hreceived]
      exact h.received
    · rw [hclient]
      exact Function.update_self ..
    · intro k cb hk hcbk
      rw [hclient] at hcbk
      exact h.others k cb hk ((Function.update_of_ne hk _ _).symm.trans hcbk)
    · rw [sent, hclient, sent, List.filter_append]
      congr 1
      cases last with
      | none => simp [replyAfter]
      | some rc => rfl
    · rw [raised, hclient, List.length_append, Nat.add_sub_cancel, List.take_left']
      rfl

theorem callback_other (h : Tracked key call userdata interval s last) {other : ℕ}
    (hne : other ≠ key) (op : SvcAction Callback) :
    (mhAsyncCallback () other op s.engine.client).cbData key = s.engine.client.cbData key ∧
      (mhAsyncCallback () other op s.engine.client).replies.filter (·.1 = call) = sent s call := by
  cases hcb : s.engine.client.cbData other with
  | none =>
    have hsame : mhAsyncCallback () other op s.engine.client = s.engine.client := by
      simp only [mhAsyncCallback, hcb]
    rw [hsame]
    exact ⟨rfl, rfl⟩
  | some cb =>
    obtain ⟨next, -, hdata, hreplies⟩ := mhAsyncCallback_eq hcb op
    constructor
    · rw [hdata, Function.update_of_ne (Ne.symm hne)]
    · rw [hreplies, sent]
      split
      · rw [List.filter_cons_of_neg]
        simpa using h.others other cb hne hcb
      · rfl

theorem tracked_other (h : Tracked key call userdata interval s last)
    (hc : ∀ op, completed s.engine e ≠ some (key, op)) (hu : agentStep asInt32 s e = some u) :
    Tracked key call userdata interval u last ∧ sent u call = sent s call := by
  obtain ⟨hstep, hinterval⟩ := clientStep_of_step hu
  have hentry : (u.engine.heap.entry key).map (·.interval) = some interval := by
    rw [hinterval key h.allocated, h.entry]
  have hreceived := h.received
  cases hcompleted : completed s.engine e with
  | none =>
    rw [hcompleted] at hstep
    cases hstep with
    | quiet hclient hle =>
      refine ⟨⟨hentry, by omega, ?_, ?_⟩, ?_⟩
      · rw [hclient]
        exact h.cbData
      · rw [hclient]
        exact h.others
      · rw [sent, hclient, sent]
    | answered r hnext hclient =>
      refine ⟨⟨hentry, by omega, ?_, ?_⟩, ?_⟩
      · rw [hclient]
        exact h.cbData
      · rw [hclient]
        exact h.others
      · rw [sent, hclient, List.filter_cons_of_neg, sent]
        simp only [decide_eq_true_eq]
        omega
    | deferred cb hcall hnext hclient =>
      have hne : key ≠ s.engine.heap.next := by
        rintro rfl
        exact h.allocated (FreshTable.next_entry _)
      refine ⟨⟨hentry, by omega, ?_, ?_⟩, ?_⟩
      · rw [hclient]
        exact (Function.update_of_ne hne _ _).trans h.cbData
      · intro k cb' hk hcb
        rw [hclient] at hcb
        obtain ⟨-, heq⟩ | ⟨-, hold⟩ := update_eq_some hcb
        · obtain rfl := Option.some.inj heq
          omega
        · exact h.others k cb' hk hold
      · rw [sent, hclient, sent]
  | some result =>
    obtain ⟨other, op⟩ := result
    rw [hcompleted] at hstep
    have hne : other ≠ key := by
      rintro rfl
      exact hc op hcompleted
    cases hstep with
    | completion _ _ hnext hclient =>
      obtain ⟨hdata, hreplies⟩ := callback_other h hne op
      refine ⟨⟨hentry, by omega, ?_, ?_⟩, ?_⟩
      · rw [hclient, hdata]
        exact h.cbData
      · intro k cb hk hcb
        rw [hclient] at hcb
        obtain ⟨old, hold, hcall, -⟩ := cbData_callback hcb
        rw [← hcall]
        exact h.others k old hk hold
      · rw [sent, hclient, hreplies]

/-- What the completions send, by the code of the one before each. -/
def eventsAfter (interval : ℤ) (userdata : Text) :
    Option ℤ → List (SvcAction Callback) → List (List ResourceOp)
  | _, [] => []
  | last, op :: ops =>
    eventAfter interval userdata op last :: eventsAfter interval userdata (some op.rc) ops

theorem eventsAfter_get (interval : ℤ) (userdata : Text) (last : Option ℤ)
    (ops : List (SvcAction Callback)) (k : ℕ) :
    (eventsAfter interval userdata last ops)[k]? = ops[k]?.map fun op =>
      eventAfter interval userdata op (if k = 0 then last else ops[k - 1]?.map (·.rc)) := by
  induction ops generalizing last k with
  | nil => rfl
  | cons op ops ih =>
    cases k with
    | zero => rfl
    | succ k =>
      rw [eventsAfter, List.getElem?_cons_succ, List.getElem?_cons_succ, ih, if_neg (Nat.succ_ne_zero k)]
      congr 1
      funext next
      congr 1
      cases k with
      | zero => rfl
      | succ k => rfl

/-- The run lemma: the first completion answers, if none came before, and each raises the
event that the code before it asks for. -/
theorem completions_spec (h : Tracked key call userdata interval s last) {es : List AgentEvent}
    {v : SrvAgent} (hv : exec (agentStep asInt32) s es = some v) :
    let cs := completions asInt32 key s es
    sent v call = ((cs.head?.map (·.1)).elim [] (replyAfter call userdata · last)) ++ sent s call ∧
      cs.map (·.2) = eventsAfter interval userdata last (cs.map (·.1)) := by
  induction es generalizing s last with
  | nil =>
    obtain rfl := Option.some_inj.mp hv
    exact ⟨rfl, rfl⟩
  | cons e es ih =>
    obtain ⟨u, hu, hv⟩ := exec_cons_some hv
    by_cases hc : ∃ op, completed s.engine e = some (key, op)
    · obtain ⟨op, hc⟩ := hc
      obtain ⟨hT, hsent, hraised⟩ := tracked_completion h hc hu
      obtain ⟨hreplies, hevents⟩ := ih hT hv
      have hcs : completions asInt32 key s (e :: es) =
          (op, raised s u) :: completions asInt32 key u es := by
        simp only [completions, hu, hc, if_true, List.singleton_append]
      rw [hcs]
      constructor
      · have hlater : ((completions asInt32 key u es).head?.map (·.1)).elim []
            (replyAfter call userdata · (some op.rc)) = [] := by
          cases (completions asInt32 key u es).head? <;> rfl
        rw [hreplies, hlater, hsent]
        rfl
      · rw [List.map_cons, List.map_cons, eventsAfter, hraised, hevents]
    · have hc : ∀ op, completed s.engine e ≠ some (key, op) := not_exists.mp hc
      obtain ⟨hT, hsent⟩ := tracked_other h hc hu
      have hcs : completions asInt32 key s (e :: es) = completions asInt32 key u es := by
        simp only [completions, hu]
        cases hcompleted : completed s.engine e with
        | none => rfl
        | some result =>
          obtain ⟨other, op⟩ := result
          have hne : other ≠ key := by
            rintro rfl
            exact hc op hcompleted
          simp only [if_neg hne, List.nil_append]
      rw [hcs, ← hsent]
      exact ih hT hv

structure Submitted (asInt32 : Option ℕ → Option ℤ) (s u : SrvAgent) (args : Args)
    (request : ActionRequest) : Prop where
  step : ∃ method env fork expectedRc,
    agentStep asInt32 s (.call .resources method args env fork) = some u ∧
      demand asInt32 .resources method args env = .action .resources request expectedRc
  valid : request.valid = true
  up : u.down = false

theorem tracked_submitted (h : Books s) {args : Args} {request : ActionRequest}
    (hsub : Submitted asInt32 s u args request) :
    Tracked s.engine.heap.next s.received (args.userdata.getD []) request.interval u none ∧
      sent u s.received = [] := by
  obtain ⟨method, env, fork, expectedRc, hu, hd⟩ := hsub.step
  obtain ⟨command, hr⟩ := resourcesActionCreate_valid (C := Callback) hsub.valid
    s.engine.operations
  simp only [agentStep, Option.ite_none_right_eq_some, hd, perform, hr] at hu
  obtain ⟨⟨hdown, -⟩, hu⟩ := hu
  cases hrc : asInt32Or asInt32 expectedRc
      (newAction (C := Callback) request (s.engine.operations + 1) command).expectedRc with
  | none =>
    simp only [hrc, Option.some.injEq] at hu
    have hup := hsub.up
    rw [← hu] at hup
    cases hup
  | some rc =>
    simp only [hrc, Option.some.injEq, actionAsync] at hu
    subst hu
    obtain ⟨hclient, hinterval⟩ := interval_servicesActionAsync _ s.engine.heap.next (some ()) fork
    refine ⟨⟨?_, Nat.lt_succ_self _, ?_, ?_⟩, ?_⟩
    · rw [hinterval, FreshTable.add_entry, if_pos rfl]
      rfl
    · rw [hclient]
      exact Function.update_self ..
    · intro k cb hk hcb
      rw [hclient] at hcb
      have := h.cbData k cb ((Function.update_of_ne hk _ _).symm.trans hcb)
      omega
    · rw [sent, hclient, List.filter_eq_nil_iff]
      intro r hr
      have := h.replies r hr
      simp only [decide_eq_true_eq]
      omega

end

/-- In every run that goes on from a submitted action, the call is answered by the first
completion, with its code, and by nothing else; and a completion raises one event if the
action recurs and the code differs from that of the completion before, and none if not. -/
theorem completions_sent (asInt32 : Option ℕ → Option ℤ) (before : List AgentEvent)
    (s u : SrvAgent) (hs : exec (agentStep asInt32) SrvAgent.init before = some s) (args : Args)
    (request : ActionRequest) (hsub : Submitted asInt32 s u args request)
    (after : List AgentEvent) (v : SrvAgent) (hv : exec (agentStep asInt32) u after = some v) :
    let cs := completions asInt32 s.engine.heap.next u after
    let userdata := args.userdata.getD []
    v.engine.client.replies.filter (·.1 = s.received) =
        (cs.head?.map fun c => (s.received, resultReply c.1 userdata)).toList ∧
      ∀ k op events, cs[k]? = some (op, events) → events =
        if request.interval ≠ 0 ∧ 0 < k ∧ cs[k - 1]?.map (·.1.rc) ≠ some op.rc then
          [resourceOp op userdata]
        else [] := by
  have hbooks : Books s := exec_preserved (fun _ _ _ h hu => books_step h hu) books_init hs
  obtain ⟨hT, hnone⟩ := tracked_submitted hbooks hsub
  obtain ⟨hreplies, hevents⟩ := completions_spec hT hv
  refine ⟨?_, ?_⟩
  · change sent v s.received = _
    rw [hreplies, hnone, List.append_nil]
    cases (completions asInt32 s.engine.heap.next u after).head? <;> rfl
  · intro k op events hk
    have hget := congrArg (·[k]?) hevents
    simp only [List.getElem?_map, eventsAfter_get, hk, Option.map_some, Option.some_inj] at hget
    rw [hget]
    cases k with
    | zero => rw [if_pos rfl, if_neg (by simp), eventAfter]
    | succ k =>
      have hlt : k < (completions asInt32 s.engine.heap.next u after).length := by
        have := (List.getElem?_eq_some_iff.mp hk).1
        omega
      rw [if_neg (Nat.succ_ne_zero k), Nat.add_sub_cancel, List.getElem?_eq_getElem hlt]
      simp only [Option.map_some, eventAfter, ne_eq, Option.some_inj, Nat.zero_lt_succ, true_and]

def statusArgs : Args :=
  { name := "www".toList, standard := some "lsb".toList, agent := some "httpd".toList,
    action := "status".toList, interval := some 1000 }

def statusRequest : ActionRequest :=
  ⟨"www".toList, "lsb".toList, some "heartbeat".toList, "httpd".toList, "status".toList, 1000,
    60000, []⟩

def statusCall : AgentEvent := .call .resources "invoke".toList statusArgs ⟨true, [], none⟩ (some 8)

def statusRun : List AgentEvent := [.childExit 8 0, .repeatTimer 4 (some 9), .childExit 9 768]

theorem completions_sent_status :
    ∃ u v, Submitted uint32AsInt32 SrvAgent.init u statusArgs statusRequest ∧
      exec (agentStep uint32AsInt32) u statusRun = some v ∧
      let cs := completions uint32AsInt32 1 u statusRun
      v.engine.client.replies.filter (·.1 = 0) =
          (cs.head?.map fun c => (0, resultReply c.1 [])).toList ∧
        ∀ k op events, cs[k]? = some (op, events) → events =
          if (1000 : ℤ) ≠ 0 ∧ 0 < k ∧ cs[k - 1]?.map (·.1.rc) ≠ some op.rc then [resourceOp op []]
          else [] := by
  obtain ⟨v, hrun⟩ := Option.isSome_iff_exists.mp (show (exec (agentStep uint32AsInt32)
    SrvAgent.init (statusCall :: statusRun)).isSome = true by decide)
  obtain ⟨u, hu, hv⟩ := exec_cons_some hrun
  have hdown : (agentStep uint32AsInt32 SrvAgent.init statusCall).map (·.down) = some false := by
    decide
  rw [hu] at hdown
  have hsub : Submitted uint32AsInt32 SrvAgent.init u statusArgs statusRequest :=
    ⟨⟨"invoke".toList, ⟨true, [], none⟩, some 8, none, hu, by rfl⟩, by decide, Option.some_inj.mp hdown⟩
  exact ⟨u, v, hsub, hv, completions_sent uint32AsInt32 [] SrvAgent.init u rfl statusArgs
    statusRequest hsub statusRun v hv⟩

example : (agentStep uint32AsInt32 SrvAgent.init statusCall).map (fun u =>
    (completions uint32AsInt32 1 u statusRun).map fun c => (c.1.rc, c.2.length)) =
      some [(0, 0), (3, 1)] := by decide

end Matahari.ServiceAgent
