import Matahari.ServiceAgent
import Matahari.ServicesLifetime

set_option autoImplicit false

/-!
# Every call is answered once

The ledger of the agent: which calls were answered, and which action holds the
`AsyncCB` of a call that was not. It is kept apart from the engine, which it
knows only through the set of actions that have a child.
-/
namespace Matahari.ServiceAgent
open Mainloop Services TransitionRuns

def answers (w : Client) (call : ℕ) : ℕ := (w.replies.map Prod.fst).count call

structure Ledger (w : Client) (received : ℕ) (held : ℕ → Prop) : Prop where
  known : ∀ op cb, w.cbData op = some cb → cb.call < received
  distinct : ∀ op op' cb cb', w.cbData op = some cb → w.cbData op' = some cb' →
    cb.call = cb'.call → op = op'
  fresh : ∀ c, received ≤ c → answers w c = 0
  first : ∀ op cb, w.cbData op = some cb → cb.firstResult = true → answers w cb.call = 0
  once : ∀ c, answers w c ≤ 1
  pending : ∀ c < received, answers w c = 0 →
    ∃ op cb, w.cbData op = some cb ∧ cb.call = c ∧ cb.firstResult = true ∧ held op

section
variable {w : Client} {n : ℕ} {held held' : ℕ → Prop}

theorem update_eq_some {α : Type} {f : ℕ → Option α} {key op : ℕ} {x : Option α} {y : α}
    (h : Function.update f key x op = some y) :
    op = key ∧ x = some y ∨ op ≠ key ∧ f op = some y := by
  rw [Function.update_apply] at h
  split at h
  · exact .inl ⟨‹_›, h⟩
  · exact .inr ⟨‹_›, h⟩

theorem answers_reply (w : Client) (call : ℕ) (r : Reply) (c : ℕ) :
    answers { w with replies := (call, r) :: w.replies } c =
      answers w c + if call = c then 1 else 0 := by
  simp only [answers, List.map_cons, List.count_cons, beq_iff_eq]

theorem Ledger.mono (h : Ledger w n held) (hheld : ∀ op, held op → held' op) :
    Ledger w n held' := by
  refine { h with pending := fun c hc ha => ?_ }
  obtain ⟨op, cb, hop, hcall, hfirst, hh⟩ := h.pending c hc ha
  exact ⟨op, cb, hop, hcall, hfirst, hheld op hh⟩

theorem ledger_reply (h : Ledger w n held) (r : Reply) :
    Ledger { w with replies := (n, r) :: w.replies } (n + 1) held := by
  have hn := h.fresh n (le_refl n)
  constructor
  · intro op cb hop
    have := h.known op cb hop
    omega
  · exact h.distinct
  · intro c hc
    have hne : n ≠ c := by omega
    rw [answers_reply, if_neg hne, h.fresh c (by omega)]
  · intro op cb hop hfirst
    have hne : n ≠ cb.call := by
      have := h.known op cb hop
      omega
    rw [answers_reply, if_neg hne, h.first op cb hop hfirst]
  · intro c
    rw [answers_reply]
    split
    · rename_i he
      rw [← he, hn]
    · exact h.once c
  · intro c hc ha
    rw [answers_reply] at ha
    have hne : n ≠ c := by
      intro he
      rw [if_pos he] at ha
      omega
    rw [if_neg hne] at ha
    exact h.pending c (by omega) ha

/-- The reply to the call just received is left to a new action. -/
theorem ledger_defer (h : Ledger w n held) {key : ℕ} (hkey : w.cbData key = none) {cb : AsyncCB}
    (hcall : cb.call = n) (hfirst : cb.firstResult = true) (hheld : ∀ op, held op → held' op)
    (hnew : held' key) :
    Ledger { w with cbData := Function.update w.cbData key (some cb) } (n + 1) held' := by
  have hn := h.fresh n (le_refl n)
  constructor
  · intro op x hx
    obtain ⟨-, he⟩ | ⟨-, hold⟩ := update_eq_some hx
    · obtain rfl := Option.some.inj he
      omega
    · have := h.known op x hold
      omega
  · intro op op' x x' hx hx' he
    obtain ⟨hk, hnew⟩ | ⟨-, hold⟩ := update_eq_some hx <;>
      obtain ⟨hk', hnew'⟩ | ⟨-, hold'⟩ := update_eq_some hx'
    · rw [hk, hk']
    · obtain rfl := Option.some.inj hnew
      have := h.known op' x' hold'
      omega
    · obtain rfl := Option.some.inj hnew'
      have := h.known op x hold
      omega
    · exact h.distinct op op' x x' hold hold' he
  · exact fun c hc => h.fresh c (by omega)
  · intro op x hx hf
    obtain ⟨-, he⟩ | ⟨-, hold⟩ := update_eq_some hx
    · obtain rfl := Option.some.inj he
      exact hcall ▸ hn
    · exact h.first op x hold hf
  · exact h.once
  · intro c hc ha
    by_cases he : c = n
    · exact ⟨key, cb, Function.update_self .., hcall.trans he.symm, hfirst, hnew⟩
    · obtain ⟨op, x, hx, hc', hf, hh⟩ := h.pending c (by omega) ha
      have hne : op ≠ key := by
        rintro rfl
        simp [hkey] at hx
      exact ⟨op, x, (Function.update_of_ne hne ..).trans hx, hc', hf, hheld op hh⟩

theorem mhAsyncCallback_eq {key : ℕ} {cb : AsyncCB} (hcb : w.cbData key = some cb)
    (op : SvcAction Callback) : ∃ next : Option AsyncCB,
      (∀ cb', next = some cb' → cb'.call = cb.call ∧ cb'.firstResult = false) ∧
      (mhAsyncCallback () key op w).cbData = Function.update w.cbData key next ∧
      (mhAsyncCallback () key op w).replies =
        if cb.firstResult then (cb.call, firstReply cb op) :: w.replies else w.replies := by
  refine ⟨if op.interval ≠ 0 then some { cb with firstResult := false, lastRc := op.rc } else none,
    ?_, ?_, ?_⟩
  · intro cb' h
    split at h
    · cases h
      exact ⟨rfl, rfl⟩
    · cases h
  · simp only [mhAsyncCallback, hcb]
    split
    · rfl
    · split
      · cases hs : cb.service <;> rfl
      · rfl
  · simp only [mhAsyncCallback, hcb]
    split
    · rfl
    · split
      · cases hs : cb.service <;> rfl
      · rfl

theorem answers_callback {key : ℕ} {cb : AsyncCB} (hcb : w.cbData key = some cb)
    (op : SvcAction Callback) (c : ℕ) : answers (mhAsyncCallback () key op w) c =
      answers w c + if cb.firstResult = true ∧ cb.call = c then 1 else 0 := by
  obtain ⟨next, -, -, hrep⟩ := mhAsyncCallback_eq hcb op
  simp only [answers, hrep]
  by_cases hf : cb.firstResult = true
  · simp [hf, List.count_cons]
  · simp [hf]

/-- Every call held after a callback was held by the same action before. -/
theorem cbData_callback {key k : ℕ} {op : SvcAction Callback} {x : AsyncCB}
    (hx : (mhAsyncCallback () key op w).cbData k = some x) :
    ∃ y, w.cbData k = some y ∧ y.call = x.call ∧ (x.firstResult = true → k ≠ key ∧ y = x) := by
  cases hcb : w.cbData key with
  | none =>
    simp only [mhAsyncCallback, hcb] at hx
    refine ⟨x, hx, rfl, fun _ => ⟨?_, rfl⟩⟩
    rintro rfl
    simp [hcb] at hx
  | some cb =>
    obtain ⟨next, hnext, hdata, -⟩ := mhAsyncCallback_eq hcb op
    rw [hdata] at hx
    obtain ⟨rfl, he⟩ | ⟨hne, hold⟩ := update_eq_some hx
    · obtain ⟨hcall, hfalse⟩ := hnext x he
      exact ⟨cb, hcb, hcall.symm, fun hf => by simp [hfalse] at hf⟩
    · exact ⟨x, hold, rfl, fun _ => ⟨hne, rfl⟩⟩

/-- The callback of an action settles the call it holds, if there is one. -/
theorem ledger_callback (h : Ledger w n held) (key : ℕ) (op : SvcAction Callback) :
    Ledger (mhAsyncCallback () key op w) n fun k => held k ∧ k ≠ key := by
  cases hcb : w.cbData key with
  | none =>
    have hw : mhAsyncCallback () key op w = w := by simp only [mhAsyncCallback, hcb]
    rw [hw]
    refine { h with pending := fun c hc ha => ?_ }
    obtain ⟨k, x, hx, hc', hf, hh⟩ := h.pending c hc ha
    refine ⟨k, x, hx, hc', hf, hh, ?_⟩
    rintro rfl
    simp [hcb] at hx
  | some cb =>
    obtain ⟨next, -, hdata, -⟩ := mhAsyncCallback_eq hcb op
    have hans := answers_callback hcb op
    constructor
    · intro k x hx
      obtain ⟨y, hy, hcall, -⟩ := cbData_callback hx
      exact hcall ▸ h.known k y hy
    · intro k k' x x' hx hx' he
      obtain ⟨y, hy, hcall, -⟩ := cbData_callback hx
      obtain ⟨y', hy', hcall', -⟩ := cbData_callback hx'
      exact h.distinct k k' y y' hy hy' (by rw [hcall, hcall', he])
    · intro c hc
      have hknown := h.known key cb hcb
      have hne : ¬ (cb.firstResult = true ∧ cb.call = c) := by omega
      rw [hans, if_neg hne, h.fresh c hc]
    · intro k x hx hf
      obtain ⟨y, hy, -, hsame⟩ := cbData_callback hx
      obtain ⟨hne, rfl⟩ := hsame hf
      have hcall : ¬ (cb.firstResult = true ∧ cb.call = y.call) := fun ⟨_, he⟩ =>
        hne (h.distinct k key y cb hy hcb he.symm)
      rw [hans, if_neg hcall, h.first k y hy hf]
    · intro c
      rw [hans]
      split
      · rename_i hc
        rw [← hc.2, h.first key cb hcb hc.1]
      · exact h.once c
    · intro c hc ha
      rw [hans] at ha
      have hne : ¬ (cb.firstResult = true ∧ cb.call = c) := by
        intro he
        rw [if_pos he] at ha
        omega
      obtain ⟨k, x, hx, hc', hf, hh⟩ := h.pending c hc (by omega)
      have hk : k ≠ key := by
        rintro rfl
        obtain rfl : x = cb := by simpa [hcb] using hx.symm
        exact hne ⟨hf, hc'⟩
      refine ⟨k, x, ?_, hc', hf, hh, hk⟩
      rw [hdata, Function.update_of_ne hk, hx]

end

/-! ## What the engine leaves to the agent -/

section
variable {C W : Type} {s : Engine C W} {op : ℕ}

theorem steady_callback : Steady fun a : SvcAction C => a.callback :=
  ⟨fun _ _ => rfl, fun _ _ => rfl, fun _ _ stream => by cases stream <;> rfl⟩

theorem finish_callback (a : SvcAction C) (timedOut : Bool) (signo exitcode : ℕ) :
    (a.finish timedOut signo exitcode).callback = a.callback := by
  obtain ⟨status, rc, h⟩ := finish_frame a timedOut signo exitcode
  rw [h]

/-- A completion runs the callback once, and the actions keep their callbacks. -/
theorem childDeath_callback (run : C → ℕ → SvcAction C → W → W) {pid : ℤ} {p : MainloopChild ℕ}
    {a : SvcAction C} {c : C} (hchild : s.loop.processTable pid = some p)
    (hp : p.privatedata = some op) (ha : s.heap.entry op = some a) (hc : a.callback = some c)
    (status : ℕ) :
    ∃ b, (childDeath run s pid status).client = run c op b s.client ∧
      ∀ k, ((childDeath run s pid status).heap.entry k).map (·.callback) =
        (s.heap.entry k).map (·.callback) := by
  let codes := deathCodes status
  let s₁ : Engine C W := { s with loop := disarm s.loop p }
  let s₂ := recordResult s₁ op a.interval p.timeout codes.1 codes.2
  have hkeep := quiet_setAction s₁ op fun a => finish_callback a p.timeout codes.1 codes.2
  have hrec : Quiet (·.callback) s₁ s₂ :=
    hkeep.trans (quiet_recordResult steady_callback s₁ op a.interval p.timeout codes.1 codes.2)
  have hcb : (s₂.heap.entry op).map (·.callback) = some (some c) := by
    rw [hrec.2 op, ← hc]
    exact congrArg (Option.map _) ha
  obtain ⟨b, hb, hbc⟩ := Option.map_eq_some_iff.mp hcb
  have hrun : runCallback run s₂ op = { s₂ with client := run c op b s.client } := by
    simp only [runCallback, hb, hbc, hrec.1]
    rfl
  refine ⟨b, ?_, fun k => ?_⟩
  · simp only [childDeath, hchild, operationFinished, hp, ha]
    change (if a.interval ≠ 0 then runCallback run s₂ op
      else servicesActionFree (runCallback run s₂ op) op).client = _
    rw [hrun]
    split
    · rfl
    · rw [(quiet_servicesActionFree steady_callback _ op).1]
  · rw [childDeath_map steady_callback run hchild hp ha status k]
    exact hkeep.2 k

end

/-! ## The invariant of the agent -/

structure Served (s : SrvAgent) : Prop where
  inv : s.engine.registry.Inv
  clear : s.engine.registry.Clear
  called : ∀ k c, (s.engine.heap.entry k).map (·.callback) = some c → c = some ()
  allocated : ∀ op cb, s.engine.client.cbData op = some cb → s.engine.registry.interval op ≠ none
  ledger : Ledger s.engine.client s.received s.engine.registry.Running

section
variable {s : SrvAgent} {u : Engine Callback Client}

theorem served_quiet (h : Served s) {e : Event Callback}
    (hs : Registry.Step s.engine.registry e u.registry) (hq : Quiet (·.callback) s.engine u)
    (hexit : ∀ pid status, e ≠ .childExit pid status)
    (hcancel : ∀ name action interval op, e = .cancel name action interval →
      s.engine.registry.recurring (cancelId name action interval) = some op →
      ¬ s.engine.registry.Running op ∧ s.engine.registry.Tidy op) :
    Served { s with engine := u } := by
  have hrun : ∀ k, s.engine.registry.Running k → u.registry.Running k := by
    intro k hk
    obtain hk | ⟨pid, status, p, he, -⟩ := Registry.step_keeps_running hs hk
    · exact hk
    · exact absurd he (hexit pid status)
  constructor
  · exact Registry.inv_step h.inv hs
  · exact Registry.clear_step h.inv h.clear hs hcancel
  · intro k c hk
    exact h.called k c ((hq.2 k).symm.trans hk)
  · intro op cb hop
    change u.client.cbData op = some cb at hop
    rw [hq.1] at hop
    have hold := h.allocated op cb hop
    change u.registry.interval op ≠ none
    rw [(Registry.step_records hs hold).1]
    exact hold
  · change Ledger u.client s.received u.registry.Running
    rw [hq.1]
    exact h.ledger.mono hrun

theorem served_reply (h : Served s) (r : Reply) :
    Served { s with engine := reply s.engine s.received r, received := s.received + 1 } :=
  ⟨h.inv, h.clear, h.called, h.allocated, ledger_reply h.ledger r⟩

theorem served_actionAsync (h : Served s) {r : ActionRequest} (hvalid : r.valid = true)
    (operations sequence : ℕ) (command : Text × List Text) (expectedRc : ℤ) (service : ServiceId)
    (args : Args) {pid : ℕ} (hf : forkAllowed s.engine (some pid) = true) :
    Served { s with
      engine := actionAsync { s.engine with operations := operations } service s.received args
        { newAction r sequence command with expectedRc := expectedRc } true (some pid)
      received := s.received + 1 } := by
  let cb : AsyncCB := ⟨service, s.received, args.userdata.getD [], true, 0, true⟩
  let key := s.engine.heap.next
  let a : SvcAction Callback := { newAction r sequence command with expectedRc := expectedRc }
  let t : Engine Callback Client := { s.engine with
    operations := operations
    client := { s.engine.client with
      cbData := Function.update s.engine.client.cbData key (some cb) } }
  let u := servicesActionAsync { t with heap := t.heap.add a } key (some ()) (some pid)
  change Served { s with engine := u, received := s.received + 1 }
  have hreg : u.registry = s.engine.registry.create key r (some pid) :=
    registry_create t r sequence command expectedRc (some ()) (some pid)
  have hkey : s.engine.registry.interval key = none := next_interval s.engine
  have hstep : Registry.Step s.engine.registry (.submit r (some ()) (some pid)) u.registry := by
    rw [hreg]
    exact .submit hvalid hkey (unused_of_forkAllowed hf)
  have hnew : u.registry.Running key := by
    rw [hreg]
    exact Registry.start_running _ key r.interval r.timeout _ pid
  have hinv := Registry.inv_step h.inv hstep
  have hquiet := quiet_servicesActionAsync steady_callback { t with heap := t.heap.add a } key
    (some ()) (some pid)
  have hclient : u.client = { s.engine.client with
      cbData := Function.update s.engine.client.cbData key (some cb) } := hquiet.1
  constructor
  · exact hinv
  · refine Registry.clear_step h.inv h.clear hstep ?_
    intro _ _ _ _ he
    cases he
  · intro k c hk
    change (u.heap.entry k).map (·.callback) = some c at hk
    rw [hquiet.2 k, setAction_entry, FreshTable.add_entry, FreshTable.add_entry] at hk
    split at hk
    · rw [if_pos (show key = t.heap.next from rfl)] at hk
      exact (Option.some.inj hk).symm
    · exact h.called k c hk
  · intro op x hop
    change u.client.cbData op = some x at hop
    change u.registry.interval op ≠ none
    rw [hclient] at hop
    obtain ⟨rfl, -⟩ | ⟨-, hold⟩ := update_eq_some hop
    · obtain ⟨i, hi⟩ := Registry.running_interval hinv hnew
      simp [hi]
    · have hne := h.allocated op x hold
      rw [(Registry.step_records hstep hne).1]
      exact hne
  · change Ledger u.client (s.received + 1) u.registry.Running
    rw [hclient]
    refine ledger_defer h.ledger ?_ rfl rfl ?_ hnew
    · cases hc : s.engine.client.cbData key with
      | none => rfl
      | some x => exact absurd hkey (h.allocated key x hc)
    · intro k hk
      obtain hk | ⟨qid, status, p, he, -⟩ := Registry.step_keeps_running hstep hk
      · exact hk
      · cases he

theorem served_childDeath (h : Served s) {pid status : ℕ}
    (hu : step mhAsyncCallback s.engine (.childExit pid status) = some u) :
    Served { s with engine := u } := by
  have hstep := registry_step mhAsyncCallback h.inv hu
  simp only [step, Option.ite_none_right_eq_some, Option.some.injEq, Option.isSome_iff_exists] at hu
  obtain ⟨⟨p, hp⟩, rfl⟩ := hu
  obtain ⟨-, op, hop, hpid⟩ := h.inv.child pid p hp
  obtain ⟨a, ha, -⟩ := Option.map_eq_some_iff.mp hpid
  have hc : a.callback = some () := h.called op a.callback (congrArg (Option.map _) ha)
  obtain ⟨b, hclient, hcalls⟩ := childDeath_callback mhAsyncCallback hp hop ha hc status
  have hledger := ledger_callback h.ledger op b
  constructor
  · exact Registry.inv_step h.inv hstep
  · refine Registry.clear_step h.inv h.clear hstep ?_
    intro _ _ _ _ he
    cases he
  · exact fun k c hk => h.called k c ((hcalls k).symm.trans hk)
  · intro k x hk
    change (childDeath mhAsyncCallback s.engine pid status).client.cbData k = some x at hk
    rw [hclient] at hk
    obtain ⟨y, hy, -⟩ := cbData_callback hk
    have hold := h.allocated k y hy
    change (childDeath mhAsyncCallback s.engine pid status).registry.interval k ≠ none
    rw [(Registry.step_records hstep hold).1]
    exact hold
  · change Ledger (childDeath mhAsyncCallback s.engine pid status).client s.received _
    rw [hclient]
    refine hledger.mono ?_
    rintro k ⟨hk, hne⟩
    obtain hk | ⟨qid, status', q, he, hq, hqk⟩ := Registry.step_keeps_running hstep hk
    · exact hk
    · cases he
      obtain rfl : p = q := Option.some.inj (hp.symm.trans hq)
      exact absurd (by simpa [hop] using hqk.symm) hne

end

/-! ## Whole runs -/

/-- A call is answered at most once, and one that is not answered is held for an
action that exists and has a child. -/
def Replied (s : SrvAgent) : Prop :=
  (∀ c, answers s.engine.client c ≤ 1) ∧
    ∀ c < s.received, answers s.engine.client c = 0 →
      ∃ op cb, s.engine.client.cbData op = some cb ∧ cb.call = c ∧
        s.engine.registry.Running op ∧ s.engine.freed op = 0

section
variable (asInt32 : Option ℕ → Option ℤ) (hash : Text → ℕ)

/-- What a call has to meet: its conversions do not throw, `systemctl` prints
something where its output is read, a child is started for the action it creates,
a cancel finds no action that has a child or an older watch, and no key of a freed
action is read. -/
def Meets (s : SrvAgent) (fork : Option ℕ) : Demand → Prop
  | .answer _ => True
  | .throws | .crashes => False
  | .action _ request expectedRc =>
    request.valid = true → (fork.isSome ∧ (asInt32Or asInt32 expectedRc 0).isSome) ∧
      ∀ key ∈ lookedUp s.engine (.submit request none fork),
        comparesFreed hash s.engine key = false
  | .cancel name action interval => Orderly hash s.engine (.cancel name action interval)

instance decidableMeets (s : SrvAgent) (fork : Option ℕ) :
    ∀ d, Decidable (Meets asInt32 hash s fork d)
  | .answer _ => inferInstanceAs (Decidable True)
  | .throws | .crashes => inferInstanceAs (Decidable False)
  | .action _ _ _ => inferInstanceAs (Decidable (_ → _ ∧ _))
  | .cancel name action interval =>
    decidableOrderly hash s.engine (.cancel name action interval)

def Answerable (s : SrvAgent) : AgentEvent → Prop
  | .call service method args env fork =>
    Meets asInt32 hash s fork (demand asInt32 service method args env)
  | .repeatTimer source fork => Orderly hash s.engine (.repeatTimer source fork)
  | _ => True

instance decidableAnswerable (s : SrvAgent) : ∀ e, Decidable (Answerable asInt32 hash s e)
  | .call service method args env fork =>
    decidableMeets asInt32 hash s fork (demand asInt32 service method args env)
  | .repeatTimer source fork => decidableOrderly hash s.engine (.repeatTimer source fork)
  | .childExit _ _ | .childTimeout _ _ | .fdDone _ => inferInstanceAs (Decidable True)

theorem served_init : Served SrvAgent.init := by
  refine ⟨inv_init _, fun _ _ => rfl, ?_, ?_, ?_⟩
  · intro k c hk
    cases hk
  · intro op cb hop
    cases hop
  · constructor
    all_goals simp [SrvAgent.init, Engine.init, answers]

theorem replied_of_served {s : SrvAgent} (h : Served s) : Replied s := by
  refine ⟨h.ledger.once, fun c hc ha => ?_⟩
  obtain ⟨op, cb, hop, hcall, -, hrun⟩ := h.ledger.pending c hc ha
  exact ⟨op, cb, hop, hcall, hrun, h.clear op (.inl (.inl hrun))⟩

variable {asInt32 hash} {s u : SrvAgent}

theorem served_call (h : Served s) {service : ServiceId} {method : Text} {args : Args}
    {env : Environment} {fork : Option ℕ}
    (hok : Answerable asInt32 hash s (.call service method args env fork))
    (hu : agentStep asInt32 s (.call service method args env fork) = some u) : Served u := by
  simp only [agentStep, Option.ite_none_right_eq_some] at hu
  obtain ⟨⟨-, hf⟩, hu⟩ := hu
  change Meets asInt32 hash s fork (demand asInt32 service method args env) at hok
  cases hd : demand asInt32 service method args env with
  | answer r =>
    simp only [hd, perform, Option.some.injEq] at hu
    subst hu
    exact served_reply h r
  | throws =>
    rw [hd] at hok
    exact hok.elim
  | crashes =>
    rw [hd] at hok
    exact hok.elim
  | cancel name action interval =>
    rw [hd] at hok
    simp only [hd, perform, Option.some.injEq] at hu
    subst hu
    have hstep : Registry.Step s.engine.registry (.cancel name action interval)
        (servicesActionCancel s.engine name action interval).1.registry :=
      registry_step mhAsyncCallback h.inv rfl
    have hcancelled := served_quiet h hstep
      (quiet_servicesActionCancel steady_callback s.engine name action interval)
      (fun _ _ he => by cases he) (by
        rintro name' action' interval' op he hr
        cases he
        obtain ⟨hchild, hwatch⟩ := hok.1 op hr
        refine ⟨?_, tidy_of_olderWatch h.inv hwatch⟩
        rw [← hasChild_iff h.inv, hchild]
        exact Bool.false_ne_true)
    exact served_reply hcancelled (.methodSuccess [])
  | action service' request expectedRc =>
    rw [hd] at hok
    simp only [hd, perform] at hu
    have hcounted : ∀ operations,
        Served { s with engine := { s.engine with operations := operations } } := fun _ =>
      ⟨h.inv, h.clear, h.called, h.allocated, h.ledger⟩
    cases hr : (resourcesActionCreate (C := Callback) s.engine.operations request).1 with
    | none =>
      simp only [hr, Option.some.injEq] at hu
      subst hu
      exact served_reply (hcounted _) invalidArguments
    | some op =>
      obtain ⟨hvalid, command, rfl⟩ := resourcesActionCreate_some hr
      obtain ⟨⟨hfork, hrc⟩, -⟩ := hok hvalid
      obtain ⟨pid, rfl⟩ := Option.isSome_iff_exists.mp hfork
      obtain ⟨rc, hrc⟩ := Option.isSome_iff_exists.mp hrc
      have hrc : asInt32Or asInt32 expectedRc (newAction (C := Callback) request
        (s.engine.operations + 1) command).expectedRc = some rc := hrc
      simp only [hr, hrc, Option.some.injEq] at hu
      subst hu
      exact served_actionAsync h hvalid _ _ command rc service' args hf

theorem served_lift (h : Served s) {e : Event Callback} (hcall : ∀ r c f, e ≠ .submit r c f)
    (hcancel : ∀ name action interval, e ≠ .cancel name action interval)
    (hu : agentStep.lift s e = some u) : Served u := by
  simp only [agentStep.lift, Option.ite_none_left_eq_some, Option.map_eq_some_iff] at hu
  obtain ⟨-, engine, hstep, rfl⟩ := hu
  have hreg := registry_step mhAsyncCallback h.inv hstep
  have quiet : Quiet (·.callback) s.engine engine → (∀ pid status, e ≠ .childExit pid status) →
      Served { s with engine := engine } := fun hq hexit =>
    served_quiet h hreg hq hexit fun name action interval _ he =>
      absurd he (hcancel name action interval)
  cases e with
  | submit r c f => exact absurd rfl (hcall r c f)
  | cancel name action interval => exact absurd rfl (hcancel name action interval)
  | childExit pid status => exact served_childDeath h hstep
  | childTimeout source kill =>
    simp only [step] at hstep
    split at hstep
    · cases hstep
      exact quiet (Quiet.refl _ s.engine) fun _ _ he => by cases he
    · cases hstep
  | repeatTimer source fork =>
    simp only [step] at hstep
    split at hstep
    · simp only [Option.ite_none_right_eq_some, Option.some.injEq] at hstep
      obtain ⟨-, rfl⟩ := hstep
      exact quiet (quiet_recurringActionTimer steady_callback s.engine _ _ _) fun _ _ he => by cases he
    · cases hstep
  | fdDone source =>
    simp only [step] at hstep
    split at hstep
    · cases hstep
      exact quiet (quiet_mainloopFdDestroy steady_callback s.engine _) fun _ _ he => by cases he
    · cases hstep

theorem served_step {e : AgentEvent} (h : Served s) (hok : Answerable asInt32 hash s e)
    (hu : agentStep asInt32 s e = some u) : Served u := by
  cases e with
  | call service method args env fork => exact served_call h hok hu
  | childExit pid status =>
    exact served_lift h (fun _ _ _ he => by cases he) (fun _ _ _ he => by cases he) hu
  | childTimeout source kill =>
    exact served_lift h (fun _ _ _ he => by cases he) (fun _ _ _ he => by cases he) hu
  | repeatTimer source fork =>
    exact served_lift h (fun _ _ _ he => by cases he) (fun _ _ _ he => by cases he) hu
  | fdDone source =>
    exact served_lift h (fun _ _ _ he => by cases he) (fun _ _ _ he => by cases he) hu

end

/-- Every call of such a run is answered once, or is still held for a running
child, and nothing in use refers to a freed action. -/
theorem calls_answered_once (asInt32 : Option ℕ → Option ℤ) (hash : Text → ℕ)
    (es : List AgentEvent)
    (h : Throughout (agentStep asInt32) (Answerable asInt32 hash) SrvAgent.init es) :
    Always (agentStep asInt32) (fun s => Replied s ∧ Undangling s.engine) SrvAgent.init es :=
  (always_of_preserved (fun _ _ _ => served_step) served_init h).imp fun _ hs =>
    ⟨replied_of_served hs, fun op hop => hs.clear op (or_assoc.mpr hop)⟩

/-- qpid's conversion of an unsigned 32-bit value; a missing one is void. -/
def uint32AsInt32 (value : Option ℕ) : Option ℤ :=
  value.bind fun v => if v < 2 ^ 31 then some v else none

theorem calls_answered_once_monitor :
    let es : List AgentEvent := [
      .call .services "start".toList { name := "httpd".toList, timeout := some 30000 } ⟨true, [], none⟩
        (some 7),
      .call .resources "invoke".toList
        { name := "www".toList, standard := some "lsb".toList, agent := some "httpd".toList,
          action := "status".toList, interval := some 1000 } ⟨true, [], none⟩ (some 8),
      .childExit 8 0, .fdDone 5, .fdDone 6, .repeatTimer 7 (some 9), .childExit 7 256,
      .childExit 9 768,
      .call .resources "cancel".toList
        { name := "www".toList, action := "status".toList, interval := some 1000 } ⟨true, [], none⟩ none]
    (exec (agentStep uint32AsInt32) SrvAgent.init es).isSome = true ∧
      Throughout (agentStep uint32AsInt32) (Answerable uint32AsInt32 gStrHash) SrvAgent.init es ∧
      Always (agentStep uint32AsInt32) (fun s => Replied s ∧ Undangling s.engine)
        SrvAgent.init es := by
  intro es
  have h : Throughout (agentStep uint32AsInt32) (Answerable uint32AsInt32 gStrHash)
      SrvAgent.init es := by
    decide
  exact ⟨by decide, h, calls_answered_once uint32AsInt32 gStrHash es h⟩

/-- No child could be started: the call is not answered and nothing will answer it. -/
theorem fork_failure_drops_call :
    ¬ Always (agentStep uint32AsInt32) Replied SrvAgent.init
      [.call .services "start".toList { name := "httpd".toList, timeout := some 30000 } ⟨true, [], none⟩
        none] := by
  intro h
  have hend := h.final (Option.some_get (by decide)).symm
  obtain ⟨op, cb, -, -, ⟨pid, p, hp, -⟩, -⟩ := hend.2 0 (by decide) (by decide)
  cases hp

end Matahari.ServiceAgent
