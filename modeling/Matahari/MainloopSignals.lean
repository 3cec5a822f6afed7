import Matahari.Library.FreshTable
import Matahari.Library.Transition

set_option autoImplicit false

/-!
# Triggers and signals of the main loop

The trigger sources of `mainloop.c` and the signal table on top of them. The main
thread executes `mainloop_add_signal`, `mainloop_destroy_signal` and
`mainloop_destroy_trigger` statement by statement; the kernel may deliver a signal
between any two of them, and then runs whatever handler is installed at that point.
-/
namespace Matahari.Signals
open TransitionRuns

def nsig : ℕ := 65
def sigterm : ℕ := 15

def signalPriority (sig : ℕ) : ℤ := if sig = sigterm then -102 else -101

/-- The dispatch function of a source with its data: `mainloop_trigger_dispatch` with a
callback, or `mainloop_signal_dispatch` with the two fields of `mainloop_signal_t`, which
are zero until `mainloop_add_signal` sets them. -/
inductive Funcs (H : Type) where
  | trigger (callback : Option H)
  | signal (handler : Option H) (sig : ℕ)
  deriving DecidableEq, Repr

structure Source (H : Type) where
  priority : ℤ
  trigger : Bool
  funcs : Funcs H
  deriving DecidableEq, Repr

inductive Disposition where
  | default
  | mainloopSignalHandler
  | other
  deriving DecidableEq, Repr

/-- Where the main thread is: outside, or before the next statement of one of the three
functions. -/
inductive Activity (H : Type) where
  | outside
  | store (sig id : ℕ) (dispatch : Option H)
  | setHandler (sig : ℕ) (dispatch : Option H)
  | setSignal (sig : ℕ) (dispatch : Option H)
  | install (sig : ℕ)
  | rollback (sig : ℕ)
  | uninstall (sig : ℕ)
  | clear (sig : ℕ)
  | lower (id : ℕ) (rc : Bool)
  | remove (id : ℕ) (rc : Bool)
  deriving DecidableEq, Repr

inductive Called (H : Type) where
  | callback (f : H)
  | handler (f : H) (sig : ℕ)
  deriving DecidableEq, Repr

/-- `sources` are those attached to the context, `pending` those that the last check of
the context found ready and that are still to be dispatched. `fault` is set when the
signal handler writes to a source that is not attached. -/
structure Loop (H : Type) where
  sources : FreshTable (Source H)
  table : ℕ → Option ℕ
  disposition : ℕ → Disposition
  activity : Activity H
  pending : List ℕ
  called : List (Called H)
  returned : Option Bool
  fault : Bool

variable {H : Type}

def start (disposition : ℕ → Disposition) : Loop H :=
  ⟨FreshTable.empty, fun _ => none, disposition, .outside, [], [], none, false⟩

def mainloopSetupTrigger (s : Loop H) (priority : ℤ) (funcs : Funcs H) : Loop H :=
  { s with sources := s.sources.add ⟨priority, false, funcs⟩ }

def setBit (s : Loop H) (id : ℕ) (bit : Bool) : Loop H :=
  { s with sources := s.sources.modify id fun x => { x with trigger := bit } }

def mainloopSetTrigger (s : Loop H) (id : ℕ) : Loop H :=
  match s.sources.entry id with
  | none => { s with fault := true }
  | some _ => setBit s id true

def mainloopSignalHandler (s : Loop H) (sig : ℕ) : Loop H :=
  if 0 < sig ∧ sig < nsig then
    match s.table sig with
    | none => s
    | some id => mainloopSetTrigger s id
  else s

def deliver (s : Loop H) (sig : ℕ) : Loop H :=
  match s.disposition sig with
  | .mainloopSignalHandler => mainloopSignalHandler s sig
  | _ => s

def finish (s : Loop H) (rc : Bool) : Loop H := { s with activity := .outside, returned := some rc }

def mainloopAddSignal (s : Loop H) (sig : ℤ) (dispatch : Option H) : Loop H :=
  if (nsig : ℤ) ≤ sig ∨ sig < 0 then { s with returned := some false }
  else
    match s.table sig.toNat with
    | some _ => { s with returned := some false }
    | none =>
      { mainloopSetupTrigger s (signalPriority sig.toNat) (.signal none 0) with
        activity := .store sig.toNat s.sources.next dispatch }

def mainloopDestroySignal (s : Loop H) (sig : ℤ) : Loop H :=
  if (nsig : ℤ) ≤ sig ∨ sig < 0 then { s with returned := some false }
  else { s with activity := .uninstall sig.toNat }

def setFuncs (s : Loop H) (id : ℕ) (funcs : Funcs H) : Loop H :=
  { s with sources := s.sources.modify id fun x => { x with funcs := funcs } }

/-- The next statement; `installed` says whether `sigaction` succeeds where it is called.
A null entry of the table that is followed is a fault. -/
def statement (s : Loop H) (installed : Bool) : Option (Loop H) :=
  match s.activity with
  | .outside => none
  | .store sig id dispatch =>
    some { s with
      table := Function.update s.table sig (some id)
      activity := .setHandler sig dispatch }
  | .setHandler sig dispatch =>
    match s.table sig with
    | none => some { s with fault := true }
    | some id =>
      some { setFuncs s id (.signal dispatch 0) with activity := .setSignal sig dispatch }
  | .setSignal sig dispatch =>
    match s.table sig with
    | none => some { s with fault := true }
    | some id => some { setFuncs s id (.signal dispatch sig) with activity := .install sig }
  | .install sig =>
    if installed then
      some (finish { s with
        disposition := Function.update s.disposition sig .mainloopSignalHandler } true)
    else some { s with activity := .rollback sig }
  | .rollback sig =>
    match s.table sig with
    | none => some { s with fault := true }
    | some id =>
      some { s with table := Function.update s.table sig none, activity := .lower id false }
  | .uninstall sig =>
    if installed then
      some { s with
        disposition := Function.update s.disposition sig .default
        activity := .clear sig }
    else some (finish s false)
  | .clear sig =>
    match s.table sig with
    | none => some (finish s true)
    | some id =>
      some { s with table := Function.update s.table sig none, activity := .lower id true }
  | .lower id rc => some { setBit s id false with activity := .remove id rc }
  | .remove id rc => some (finish { s with sources := s.sources.remove id } rc)

def ready (s : Loop H) (id : ℕ) : Bool := (s.sources.entry id).any (·.trigger)

def priorityOf (s : Loop H) (id : ℕ) : ℤ := (s.sources.entry id).elim 0 (·.priority)

/-- The main context takes the ready sources of the best priority, in the order in which
they were attached. -/
def check (s : Loop H) : List ℕ :=
  let ids := (List.range s.sources.next).filter (ready s)
  ids.filter fun i => ids.all fun j => priorityOf s i ≤ priorityOf s j

/-- `mainloop_trigger_dispatch` or `mainloop_signal_dispatch`; `keep` is what the callback
of a trigger returns, and the context drops the source when that is false. -/
def dispatch (s : Loop H) (id : ℕ) (x : Source H) (keep : Bool) : Loop H :=
  let s := setBit s id false
  match x.funcs with
  | .trigger none => s
  | .trigger (some f) =>
    { s with
      called := .callback f :: s.called
      sources := if keep then s.sources else s.sources.remove id }
  | .signal none _ => s
  | .signal (some f) sig => { s with called := .handler f sig :: s.called }

inductive Event (H : Type) where
  | addTrigger (priority : ℤ) (callback : Option H)
  | setTrigger (id : ℕ)
  | destroyTrigger (id : ℕ)
  | addSignal (sig : ℤ) (dispatch : Option H)
  | destroySignal (sig : ℤ)
  | statement (installed : Bool)
  | deliver (sig : ℕ)
  | check
  | dispatch (keep : Bool)
  deriving DecidableEq, Repr

def isTrigger (s : Loop H) (id : ℕ) : Bool :=
  match s.sources.entry id with
  | some ⟨_, _, .trigger _⟩ => true
  | _ => false

/-- Signals arrive at any time, everything else is done by the main thread. Handlers and
callbacks call the functions of this file while the context dispatches. -/
def step (s : Loop H) : Event H → Option (Loop H)
  | .deliver sig => some (deliver s sig)
  | .statement installed => statement s installed
  | .addTrigger priority callback => match s.activity with
    | .outside => some (mainloopSetupTrigger s priority (.trigger callback))
    | _ => none
  | .setTrigger id => match s.activity with
    | .outside => if isTrigger s id then some (mainloopSetTrigger s id) else none
    | _ => none
  | .destroyTrigger id => match s.activity with
    | .outside => if isTrigger s id then some { s with activity := .lower id true } else none
    | _ => none
  | .addSignal sig handler => match s.activity with
    | .outside => some (mainloopAddSignal s sig handler)
    | _ => none
  | .destroySignal sig => match s.activity with
    | .outside => some (mainloopDestroySignal s sig)
    | _ => none
  | .check => match s.activity, s.pending with
    | .outside, [] => some { s with pending := check s }
    | _, _ => none
  | .dispatch keep => match s.activity, s.pending with
    | .outside, id :: rest => match s.sources.entry id with
      | none => some { s with pending := rest }
      | some x => some (dispatch { s with pending := rest } id x keep)
    | _, _ => none

/-! ## What a step can do -/

section

variable {s u : Loop H}

inductive Executes (s : Loop H) (installed : Bool) : Loop H → Prop
  | store {sig id : ℕ} {f : Option H} : s.activity = .store sig id f →
    Executes s installed { s with
      table := Function.update s.table sig (some id), activity := .setHandler sig f }
  | setHandler {sig id : ℕ} {f : Option H} : s.activity = .setHandler sig f →
    s.table sig = some id →
      Executes s installed { setFuncs s id (.signal f 0) with activity := .setSignal sig f }
  | setSignal {sig id : ℕ} {f : Option H} : s.activity = .setSignal sig f →
    s.table sig = some id →
      Executes s installed { setFuncs s id (.signal f sig) with activity := .install sig }
  | install {sig : ℕ} : s.activity = .install sig →
    Executes s installed (finish { s with
      disposition := Function.update s.disposition sig .mainloopSignalHandler } true)
  | refused {sig : ℕ} : s.activity = .install sig →
    Executes s installed { s with activity := .rollback sig }
  | rollback {sig id : ℕ} : s.activity = .rollback sig → s.table sig = some id →
    Executes s installed { s with
      table := Function.update s.table sig none, activity := .lower id false }
  | uninstall {sig : ℕ} : s.activity = .uninstall sig →
    Executes s installed { s with
      disposition := Function.update s.disposition sig .default, activity := .clear sig }
  | kept {sig : ℕ} : s.activity = .uninstall sig → Executes s installed (finish s false)
  | unset {sig : ℕ} : s.activity = .clear sig → s.table sig = none →
    Executes s installed (finish s true)
  | clear {sig id : ℕ} : s.activity = .clear sig → s.table sig = some id →
    Executes s installed { s with
      table := Function.update s.table sig none, activity := .lower id true }
  | lower {id : ℕ} {rc : Bool} : s.activity = .lower id rc →
    Executes s installed { setBit s id false with activity := .remove id rc }
  | remove {id : ℕ} {rc : Bool} : s.activity = .remove id rc →
    Executes s installed (finish { s with sources := s.sources.remove id } rc)
  | null {sig : ℕ} {f : Option H} :
    s.activity = .setHandler sig f ∨ s.activity = .setSignal sig f ∨ s.activity = .rollback sig →
      s.table sig = none → Executes s installed { s with fault := true }

theorem statement_executes {installed : Bool} (h : statement s installed = some u) :
    Executes s installed u := by
  obtain ⟨sources, table, disposition, activity, pending, called, returned, fault⟩ := s
  cases activity with
  | outside => cases h
  | store sig id f =>
    cases h
    exact .store rfl
  | setHandler sig f =>
    cases hid : table sig <;> simp only [statement, hid, Option.some.injEq] at h <;> subst h
    · exact .null (.inl rfl) hid
    · exact .setHandler rfl hid
  | setSignal sig f =>
    cases hid : table sig <;> simp only [statement, hid, Option.some.injEq] at h <;> subst h
    · exact .null (.inr (.inl rfl)) hid
    · exact .setSignal rfl hid
  | install sig =>
    cases installed <;> cases h
    · exact .refused rfl
    · exact .install rfl
  | rollback sig =>
    cases hid : table sig <;> simp only [statement, hid, Option.some.injEq] at h <;> subst h
    · exact .null (f := none) (.inr (.inr rfl)) hid
    · exact .rollback rfl hid
  | uninstall sig =>
    cases installed <;> cases h
    · exact .kept rfl
    · exact .uninstall rfl
  | clear sig =>
    cases hid : table sig <;> simp only [statement, hid, Option.some.injEq] at h <;> subst h
    · exact .unset rfl hid
    · exact .clear rfl hid
  | lower id rc =>
    cases h
    exact .lower rfl
  | remove id rc =>
    cases h
    exact .remove rfl

inductive Move (s : Loop H) : Event H → Loop H → Prop
  | deliver {sig : ℕ} : Move s (.deliver sig) (deliver s sig)
  | statement {installed : Bool} {u : Loop H} : Executes s installed u →
    Move s (.statement installed) u
  | addTrigger {priority : ℤ} {f : Option H} : s.activity = .outside →
    Move s (.addTrigger priority f) (mainloopSetupTrigger s priority (.trigger f))
  | setTrigger {id : ℕ} : s.activity = .outside → isTrigger s id = true →
    Move s (.setTrigger id) (mainloopSetTrigger s id)
  | destroyTrigger {id : ℕ} : s.activity = .outside → isTrigger s id = true →
    Move s (.destroyTrigger id) { s with activity := .lower id true }
  | addSignal {sig : ℤ} {f : Option H} : s.activity = .outside →
    Move s (.addSignal sig f) (mainloopAddSignal s sig f)
  | destroySignal {sig : ℤ} : s.activity = .outside →
    Move s (.destroySignal sig) (mainloopDestroySignal s sig)
  | check : s.activity = .outside → s.pending = [] → Move s .check { s with pending := check s }
  | skip {keep : Bool} {id : ℕ} {rest : List ℕ} : s.activity = .outside →
    s.pending = id :: rest → s.sources.entry id = none →
      Move s (.dispatch keep) { s with pending := rest }
  | dispatch {keep : Bool} {id : ℕ} {rest : List ℕ} {x : Source H} : s.activity = .outside →
    s.pending = id :: rest → s.sources.entry id = some x →
      Move s (.dispatch keep) (dispatch { s with pending := rest } id x keep)

theorem step_move {e : Event H} (h : step s e = some u) : Move s e u := by
  cases e with
  | deliver sig =>
    obtain rfl : deliver s sig = u := by simpa [step] using h
    exact .deliver
  | statement installed => exact .statement (statement_executes h)
  | addTrigger priority f =>
    cases hact : s.activity <;> simp only [step, hact, reduceCtorEq, Option.some.injEq] at h
    exact h ▸ .addTrigger hact
  | setTrigger id =>
    cases hact : s.activity <;> simp only [step, hact, reduceCtorEq,
      Option.ite_none_right_eq_some, Option.some.injEq] at h
    exact h.2 ▸ .setTrigger hact h.1
  | destroyTrigger id =>
    cases hact : s.activity <;> simp only [step, hact, reduceCtorEq,
      Option.ite_none_right_eq_some, Option.some.injEq] at h
    exact h.2 ▸ .destroyTrigger hact h.1
  | addSignal sig f =>
    cases hact : s.activity <;> simp only [step, hact, reduceCtorEq, Option.some.injEq] at h
    exact h ▸ .addSignal hact
  | destroySignal sig =>
    cases hact : s.activity <;> simp only [step, hact, reduceCtorEq, Option.some.injEq] at h
    exact h ▸ .destroySignal hact
  | check =>
    simp only [step] at h
    split at h
    · cases h
      exact .check ‹_› ‹_›
    · cases h
  | dispatch keep =>
    simp only [step] at h
    split at h
    · split at h
      · cases h
        exact .skip ‹_› ‹_› ‹_›
      · cases h
        exact .dispatch ‹_› ‹_› ‹_›
    · cases h

end

/-! ## Table, kernel and context agree -/

def funcsOf (s : Loop H) (id : ℕ) : Option (Funcs H) := (s.sources.entry id).map (·.funcs)

def Funcs.isSignal : Funcs H → Bool
  | .trigger _ => false
  | .signal _ _ => true

/-- The signal whose table entry and handler are being brought into line. -/
def Activity.settling : Activity H → Option ℕ
  | .setHandler sig _ | .setSignal sig _ | .install sig | .rollback sig | .clear sig => some sig
  | _ => none

def Activity.naming : Activity H → Option ℕ
  | .setHandler sig _ | .setSignal sig _ => some sig
  | _ => none

def Activity.loose : Activity H → Option ℕ
  | .store _ id _ | .lower id _ | .remove id _ => some id
  | _ => none

def Activity.Fits (s : Loop H) : Activity H → Prop
  | .store sig id _ => s.table sig = none ∧ (∃ f, funcsOf s id = some f ∧ f.isSignal = true) ∧
      ready s id = false
  | .setHandler sig _ | .setSignal sig _ | .install sig | .rollback sig => s.table sig ≠ none
  | _ => True

structure Sound (s : Loop H) : Prop where
  live : ∀ sig id, s.table sig = some id → ∃ f, funcsOf s id = some f ∧ f.isSignal = true
  injective : ∀ sig sig' id, s.table sig = some id → s.table sig' = some id → sig = sig'
  agree : ∀ sig, s.disposition sig = .mainloopSignalHandler ↔
    s.table sig ≠ none ∧ s.activity.settling ≠ some sig
  named : ∀ sig id, s.table sig = some id → s.activity.naming ≠ some sig →
    ∃ f, funcsOf s id = some (.signal f sig)
  owned : ∀ id f, funcsOf s id = some f → f.isSignal = true →
    (∃ sig, s.table sig = some id) ∨ s.activity.loose = some id
  loose : ∀ id, s.activity.loose = some id → ∀ sig, s.table sig ≠ some id
  fits : s.activity.Fits s
  pendingOld : ∀ id ∈ s.pending, id < s.sources.next
  pendingNodup : s.pending.Nodup
  pendingReady : ∀ id ∈ s.pending, funcsOf s id ≠ none →
    ready s id = true ∨ ∃ rc, s.activity = .remove id rc
  fault : s.fault = false

section

variable {s u : Loop H}

theorem funcsOf_eq_of_entry {id : ℕ} {x : Source H} (h : s.sources.entry id = some x) :
    funcsOf s id = some x.funcs := by
  simp only [funcsOf, h, Option.map_some]

theorem entry_of_funcsOf {id : ℕ} {f : Funcs H} (h : funcsOf s id = some f) :
    ∃ x, s.sources.entry id = some x ∧ x.funcs = f := by
  simpa only [funcsOf, Option.map_eq_some_iff] using h

@[simp] theorem funcsOf_setBit (s : Loop H) (id j : ℕ) (bit : Bool) :
    funcsOf (setBit s id bit) j = funcsOf s j := by
  simp only [funcsOf, setBit, FreshTable.modify_entry]
  split
  · rename_i hj
    subst hj
    cases s.sources.entry j <;> rfl
  · rfl

theorem funcsOf_setFuncs (s : Loop H) (id j : ℕ) (f : Funcs H) :
    funcsOf (setFuncs s id f) j =
      if j = id then (s.sources.entry id).map fun _ => f else funcsOf s j := by
  simp only [funcsOf, setFuncs, FreshTable.modify_entry]
  split
  · cases s.sources.entry id <;> rfl
  · rfl

theorem funcsOf_setup (s : Loop H) (priority : ℤ) (f : Funcs H) (j : ℕ) :
    funcsOf (mainloopSetupTrigger s priority f) j =
      if j = s.sources.next then some f else funcsOf s j := by
  simp only [funcsOf, mainloopSetupTrigger, FreshTable.add_entry]
  split <;> rfl

theorem funcsOf_next (s : Loop H) : funcsOf s s.sources.next = none := by
  simp only [funcsOf, FreshTable.next_entry, Option.map_none]

theorem ready_setBit (s : Loop H) (id j : ℕ) (bit : Bool) :
    ready (setBit s id bit) j =
      if j = id then (s.sources.entry id).any fun _ => bit else ready s j := by
  simp only [ready, setBit, FreshTable.modify_entry]
  split
  · cases s.sources.entry id <;> rfl
  · rfl

/-- Steps that only touch the bits of the sources and the queue of the context. -/
theorem Sound.of_same (h : Sound s) (hfuncs : ∀ id, funcsOf u id = funcsOf s id)
    (htable : u.table = s.table) (hdisposition : u.disposition = s.disposition)
    (hactivity : u.activity = s.activity) (hfault : u.fault = false)
    (hstore : ∀ sig id f, s.activity = .store sig id f → ready u id = ready s id)
    (hold : ∀ id ∈ u.pending, id < u.sources.next) (hnodup : u.pending.Nodup)
    (hready : ∀ id ∈ u.pending, funcsOf s id ≠ none →
      ready u id = true ∨ ∃ rc, s.activity = .remove id rc) : Sound u where
  live sig id := by
    rw [htable, hfuncs]
    exact h.live sig id
  injective := by
    rw [htable]
    exact h.injective
  agree := by
    rw [htable, hdisposition, hactivity]
    exact h.agree
  named sig id := by
    rw [htable, hfuncs, hactivity]
    exact h.named sig id
  owned id f := by
    rw [htable, hfuncs, hactivity]
    exact h.owned id f
  loose := by
    rw [htable, hactivity]
    exact h.loose
  fits := by
    have hfits := h.fits
    rw [hactivity]
    cases hact : s.activity with
    | store sig id f =>
      rw [hact] at hfits
      simp only [Activity.Fits] at hfits ⊢
      rw [htable, hfuncs, hstore sig id f hact]
      exact hfits
    | setHandler | setSignal | install | rollback =>
      rw [hact] at hfits
      simpa only [Activity.Fits, htable] using hfits
    | outside | uninstall | clear | lower | remove => trivial
  pendingOld := hold
  pendingNodup := hnodup
  pendingReady id hid := by
    rw [hfuncs, hactivity]
    exact hready id hid
  fault := hfault

theorem mainloopSetTrigger_eq {id : ℕ} {x : Source H} (h : s.sources.entry id = some x) :
    mainloopSetTrigger s id = setBit s id true := by
  simp only [mainloopSetTrigger, h]

theorem Sound.setTrigger (h : Sound s) {id : ℕ} {f : Funcs H} (hf : funcsOf s id = some f)
    (hloose : s.activity.loose ≠ some id) : Sound (mainloopSetTrigger s id) := by
  obtain ⟨x, hx, -⟩ := entry_of_funcsOf hf
  rw [mainloopSetTrigger_eq hx]
  have hready : ∀ j, ready s j = true → ready (setBit s id true) j = true := by
    intro j hj
    rw [ready_setBit]
    split
    · rw [hx]
      rfl
    · exact hj
  apply h.of_same (funcsOf_setBit s id · true) rfl rfl rfl h.fault
  · intro sig j g hact
    rw [ready_setBit, if_neg]
    rintro rfl
    exact hloose (by rw [hact]; rfl)
  · exact h.pendingOld
  · exact h.pendingNodup
  · intro j hj hne
    rcases h.pendingReady j hj hne with hr | hr
    · exact .inl (hready j hr)
    · exact .inr hr

theorem Sound.deliver (h : Sound s) (sig : ℕ) : Sound (deliver s sig) := by
  unfold Signals.deliver
  split
  · rename_i hd
    unfold mainloopSignalHandler
    split
    · split
      · exact h
      · rename_i id hid
        obtain ⟨f, hf, -⟩ := h.live sig id hid
        exact h.setTrigger hf fun hl => h.loose id hl sig hid
    · exact h
  · exact h

/-- A delivery reaches a source of the context whenever the handler of this file is
installed. -/
theorem Sound.installed (h : Sound s) {sig : ℕ}
    (hd : s.disposition sig = .mainloopSignalHandler) :
    ∃ id x f, s.table sig = some id ∧ s.sources.entry id = some x ∧ x.funcs = .signal f sig := by
  obtain ⟨htable, hsettling⟩ := (h.agree sig).mp hd
  obtain ⟨id, hid⟩ := Option.ne_none_iff_exists'.mp htable
  have hnaming : s.activity.naming ≠ some sig := by
    intro hn
    apply hsettling
    cases hact : s.activity <;> simp only [hact, Activity.naming, reduceCtorEq] at hn <;>
      simpa only [Activity.settling] using hn
  obtain ⟨f, hf⟩ := h.named sig id hid hnaming
  obtain ⟨x, hx, hxf⟩ := entry_of_funcsOf hf
  exact ⟨id, x, f, hid, hx, hxf⟩

theorem sound_start {disposition : ℕ → Disposition}
    (h : ∀ sig, disposition sig ≠ .mainloopSignalHandler) :
    Sound (start disposition : Loop H) where
  live _ _ h := by cases h
  injective _ _ _ h := by cases h
  agree sig := ⟨fun hd => absurd hd (h sig), fun ht => absurd rfl ht.1⟩
  named _ _ h := by cases h
  owned _ _ h := by cases h
  loose _ h := by cases h
  fits := trivial
  pendingOld _ h := by cases h
  pendingNodup := List.nodup_nil
  pendingReady _ h := by cases h
  fault := rfl

theorem funcsOf_setup_of_some {priority : ℤ} {f g : Funcs H} {id : ℕ}
    (h : funcsOf s id = some g) : funcsOf (mainloopSetupTrigger s priority f) id = some g := by
  rw [funcsOf_setup, if_neg]
  · exact h
  · rintro rfl
    rw [funcsOf_next] at h
    cases h

theorem funcsOf_setup_some {priority : ℤ} {f g : Funcs H} {id : ℕ}
    (h : funcsOf (mainloopSetupTrigger s priority f) id = some g) :
    (id = s.sources.next ∧ g = f) ∨ funcsOf s id = some g := by
  rw [funcsOf_setup] at h
  split at h
  · cases h
    exact .inl ⟨‹_›, rfl⟩
  · exact .inr h

theorem ready_setup (s : Loop H) (priority : ℤ) (f : Funcs H) (id : ℕ) :
    ready (mainloopSetupTrigger s priority f) id = ready s id := by
  simp only [ready, mainloopSetupTrigger, FreshTable.add_entry]
  split
  · rename_i hid
    subst hid
    rw [FreshTable.next_entry]
    rfl
  · rfl

theorem Sound.not_pending_next (h : Sound s) : s.sources.next ∉ s.pending :=
  fun hm => absurd (h.pendingOld _ hm) (Nat.lt_irrefl _)

theorem Sound.pendingReady_setup (h : Sound s) (hact : s.activity = .outside) {priority : ℤ}
    {f : Funcs H} {id : ℕ} (hid : id ∈ s.pending)
    (hne : funcsOf (mainloopSetupTrigger s priority f) id ≠ none) :
    ready (mainloopSetupTrigger s priority f) id = true := by
  have hnext : id ≠ s.sources.next := by
    rintro rfl
    exact h.not_pending_next hid
  rw [ready_setup]
  rw [funcsOf_setup, if_neg hnext] at hne
  rcases h.pendingReady id hid hne with hr | ⟨rc, hr⟩
  · exact hr
  · rw [hact] at hr
    cases hr

theorem Sound.addTrigger (h : Sound s) (hact : s.activity = .outside) (priority : ℤ)
    (f : Option H) : Sound (mainloopSetupTrigger s priority (.trigger f)) where
  live sig id hid := by
    obtain ⟨g, hg, hsig⟩ := h.live sig id hid
    exact ⟨g, funcsOf_setup_of_some hg, hsig⟩
  injective := h.injective
  agree := h.agree
  named sig id hid hn := by
    obtain ⟨g, hg⟩ := h.named sig id hid hn
    exact ⟨g, funcsOf_setup_of_some hg⟩
  owned id g hg hsig := by
    rcases funcsOf_setup_some hg with ⟨-, rfl⟩ | hg
    · cases hsig
    · exact h.owned id g hg hsig
  loose := h.loose
  fits := by
    rw [show (mainloopSetupTrigger s priority (.trigger f)).activity = .outside from hact]
    trivial
  pendingOld id hid := Nat.lt_succ_of_lt (h.pendingOld id hid)
  pendingNodup := h.pendingNodup
  pendingReady _ hid hne := .inl (h.pendingReady_setup hact hid hne)
  fault := h.fault

theorem Sound.addSignal (h : Sound s) (hact : s.activity = .outside) (sig : ℤ) (f : Option H) :
    Sound (mainloopAddSignal s sig f) := by
  have hsame : Sound { s with returned := some false } :=
    h.of_same (fun _ => rfl) rfl rfl rfl h.fault (fun _ _ _ _ => rfl) h.pendingOld
      h.pendingNodup h.pendingReady
  unfold mainloopAddSignal
  split
  · exact hsame
  · split
    · exact hsame
    · rename_i hnone
      constructor
      · intro sig' id hid
        obtain ⟨g, hg, hsig⟩ := h.live sig' id hid
        exact ⟨g, funcsOf_setup_of_some hg, hsig⟩
      · exact h.injective
      · intro sig'
        have ha := h.agree sig'
        rw [hact] at ha
        exact ha
      · intro sig' id hid _
        obtain ⟨g, hg⟩ := h.named sig' id hid (by simp [hact, Activity.naming])
        exact ⟨g, funcsOf_setup_of_some hg⟩
      · intro id g hg hsig
        rcases funcsOf_setup_some hg with ⟨rfl, -⟩ | hg
        · exact .inr rfl
        · rcases h.owned id g hg hsig with ho | hl
          · exact .inl ho
          · rw [hact] at hl
            cases hl
      · intro id hid sig' hsig'
        obtain rfl : s.sources.next = id := by simpa [Activity.loose] using hid
        obtain ⟨g, hg, -⟩ := h.live sig' _ hsig'
        rw [funcsOf_next] at hg
        cases hg
      · refine ⟨hnone, ⟨.signal none 0, ?_, rfl⟩, ?_⟩
        · exact (funcsOf_setup s _ _ _).trans (if_pos rfl)
        · exact (ready_setup s _ _ _).trans (by simp only [ready, FreshTable.next_entry]; rfl)
      · exact fun id hid => Nat.lt_succ_of_lt (h.pendingOld id hid)
      · exact h.pendingNodup
      · exact fun id hid hne => .inl (h.pendingReady_setup hact hid hne)
      · exact h.fault

theorem isTrigger_iff {id : ℕ} :
    isTrigger s id = true ↔ ∃ f, funcsOf s id = some (.trigger f) := by
  unfold isTrigger funcsOf
  cases s.sources.entry id with
  | none => simp
  | some x =>
    obtain ⟨priority, trigger, funcs⟩ := x
    cases funcs <;> simp

theorem Sound.destroyTrigger (h : Sound s) (hact : s.activity = .outside) {id : ℕ}
    (hid : isTrigger s id = true) : Sound { s with activity := .lower id true } where
  live := h.live
  injective := h.injective
  agree sig := by
    have ha := h.agree sig
    rw [hact] at ha
    exact ha
  named sig j hj _ := h.named sig j hj (by simp [hact, Activity.naming])
  owned j f hf hsig := by
    rcases h.owned j f hf hsig with ho | hl
    · exact .inl ho
    · rw [hact] at hl
      cases hl
  loose j hj sig hsig := by
    obtain rfl : id = j := by simpa [Activity.loose] using hj
    obtain ⟨f, hf⟩ := isTrigger_iff.mp hid
    obtain ⟨g, hg, hgs⟩ := h.live sig id hsig
    have hfg : funcsOf s id = some g := hg
    rw [hf] at hfg
    cases hfg
    cases hgs
  fits := trivial
  pendingOld := h.pendingOld
  pendingNodup := h.pendingNodup
  pendingReady j hj hne := by
    rcases h.pendingReady j hj hne with hr | ⟨rc, hr⟩
    · exact .inl hr
    · rw [hact] at hr
      cases hr
  fault := h.fault

theorem Sound.destroySignal (h : Sound s) (hact : s.activity = .outside) (sig : ℤ) :
    Sound (mainloopDestroySignal s sig) := by
  unfold mainloopDestroySignal
  split
  · exact h.of_same (fun _ => rfl) rfl rfl rfl h.fault (fun _ _ _ _ => rfl) h.pendingOld
      h.pendingNodup h.pendingReady
  · constructor
    · exact h.live
    · exact h.injective
    · intro sig'
      have ha := h.agree sig'
      rw [hact] at ha
      exact ha
    · exact fun sig' id hid _ => h.named sig' id hid (by simp [hact, Activity.naming])
    · intro id f hf hsig
      have ho := h.owned id f hf hsig
      rw [hact] at ho
      exact ho
    · intro id hid
      cases hid
    · trivial
    · exact h.pendingOld
    · exact h.pendingNodup
    · intro id hid hne
      rcases h.pendingReady id hid hne with hr | ⟨rc, hr⟩
      · exact .inl hr
      · rw [hact] at hr
        cases hr
    · exact h.fault

theorem mem_check {id : ℕ} : id ∈ Signals.check s ↔
    (id < s.sources.next ∧ ready s id = true) ∧
      ∀ j, j < s.sources.next → ready s j = true → priorityOf s id ≤ priorityOf s j := by
  simp only [Signals.check, List.mem_filter, List.mem_range, List.all_eq_true,
    decide_eq_true_eq, and_imp]

theorem Sound.check (h : Sound s) : Sound { s with pending := Signals.check s } := by
  refine h.of_same (u := { s with pending := Signals.check s }) (fun _ => rfl) rfl rfl rfl
    h.fault (fun _ _ _ _ => rfl) ?_ ?_ ?_
  · exact fun id hid => (mem_check.mp hid).1.1
  · exact (List.nodup_range.filter _).filter _
  · exact fun id hid _ => .inl (mem_check.mp hid).1.2

theorem Sound.skip (h : Sound s) {id : ℕ} {rest : List ℕ} (hp : s.pending = id :: rest) :
    Sound { s with pending := rest } := by
  have hsub : ∀ j ∈ rest, j ∈ s.pending := fun j hj => hp ▸ List.mem_cons_of_mem id hj
  refine h.of_same (u := { s with pending := rest }) (fun _ => rfl) rfl rfl rfl h.fault
    (fun _ _ _ _ => rfl) ?_ ?_ ?_
  · exact fun j hj => h.pendingOld j (hsub j hj)
  · exact (List.nodup_cons.mp (hp ▸ h.pendingNodup)).2
  · exact fun j hj => h.pendingReady j (hsub j hj)

/-- The bit of a dispatched source is cleared before its function is called. -/
theorem Sound.served (h : Sound s) {id : ℕ} {rest : List ℕ} (hact : s.activity = .outside)
    (hp : s.pending = id :: rest) : Sound (setBit { s with pending := rest } id false) := by
  have hskip := h.skip hp
  have hnodup := List.nodup_cons.mp (hp ▸ h.pendingNodup)
  apply hskip.of_same (funcsOf_setBit _ id · false) rfl rfl rfl h.fault
  · intro sig j f hj
    have hj : s.activity = .store sig j f := hj
    rw [hact] at hj
    cases hj
  · exact hskip.pendingOld
  · exact hskip.pendingNodup
  · intro j hj hne
    have hji : j ≠ id := by
      rintro rfl
      exact hnodup.1 hj
    rw [ready_setBit, if_neg hji]
    exact hskip.pendingReady j hj hne

theorem Activity.settling_of_naming {a : Activity H} {sig : ℕ} (h : a.naming = some sig) :
    a.settling = some sig := by
  cases a <;> simp only [naming, reduceCtorEq] at h <;> simpa only [settling] using h

theorem Sound.log (h : Sound s) (called : List (Called H)) (returned : Option Bool) :
    Sound { s with called := called, returned := returned } :=
  h.of_same (u := { s with called := called, returned := returned }) (fun _ => rfl) rfl rfl rfl
    h.fault (fun _ _ _ _ => rfl) h.pendingOld h.pendingNodup h.pendingReady

theorem funcsOf_remove (s : Loop H) (id j : ℕ) :
    funcsOf { s with sources := s.sources.remove id } j = if j = id then none else funcsOf s j := by
  simp only [funcsOf, FreshTable.remove_entry]
  split <;> rfl

theorem Sound.drop (h : Sound s) {id : ℕ} (hid : ∀ sig, s.table sig ≠ some id)
    (hsettling : s.activity.settling = none) (hloose : ∀ j, s.activity.loose = some j → j = id)
    (hremove : ∀ j rc, s.activity = .remove j rc → j = id) :
    Sound { s with sources := s.sources.remove id, activity := .outside } := by
  have hkeep : ∀ j f, funcsOf { s with sources := s.sources.remove id } j = some f ↔
      j ≠ id ∧ funcsOf s j = some f := by
    intro j f
    rw [funcsOf_remove]
    split <;> simp [*]
  constructor
  · intro sig j hj
    obtain ⟨f, hf, hsig⟩ := h.live sig j hj
    refine ⟨f, (hkeep j f).mpr ⟨?_, hf⟩, hsig⟩
    rintro rfl
    exact hid sig hj
  · exact h.injective
  · intro sig
    have ha := h.agree sig
    rw [hsettling] at ha
    exact ha
  · intro sig j hj _
    obtain ⟨f, hf⟩ := h.named sig j hj fun hn => by
      rw [Activity.settling_of_naming hn] at hsettling
      cases hsettling
    refine ⟨f, (hkeep j _).mpr ⟨?_, hf⟩⟩
    rintro rfl
    exact hid sig hj
  · intro j f hf hsig
    obtain ⟨hne, hf⟩ := (hkeep j f).mp hf
    rcases h.owned j f hf hsig with ho | hl
    · exact .inl ho
    · exact absurd (hloose j hl) hne
  · intro j hj
    cases hj
  · trivial
  · exact h.pendingOld
  · exact h.pendingNodup
  · intro j hj hne
    obtain ⟨f, hf⟩ := Option.ne_none_iff_exists'.mp hne
    obtain ⟨hji, hf⟩ := (hkeep j f).mp hf
    rcases h.pendingReady j hj (by rw [hf]; simp) with hr | ⟨rc, hr⟩
    · left
      simpa only [ready, FreshTable.remove_entry, if_neg hji] using hr
    · exact absurd (hremove j rc hr) hji
  · exact h.fault

theorem Sound.dispatch (h : Sound s) (hact : s.activity = .outside) {id : ℕ} {rest : List ℕ}
    (hp : s.pending = id :: rest) {x : Source H} (hx : s.sources.entry id = some x) (keep : Bool) :
    Sound (dispatch { s with pending := rest } id x keep) := by
  have hserved := h.served hact hp
  have hfuncs := funcsOf_eq_of_entry hx
  unfold Signals.dispatch
  cases hf : x.funcs with
  | trigger callback =>
    cases callback with
    | none => exact hserved
    | some f =>
      cases keep with
      | true => exact hserved.log _ _
      | false =>
        have hout : ∀ sig, s.table sig ≠ some id := by
          intro sig hsig
          obtain ⟨g, hg, hgs⟩ := h.live sig id hsig
          rw [hfuncs, hf] at hg
          cases hg
          cases hgs
        have hidle : (setBit { s with pending := rest } id false).activity = .outside := hact
        have hdrop := hserved.drop hout (by simp [hidle, Activity.settling])
          (by simp [hidle, Activity.loose]) (by simp [hidle])
        rw [← hact] at hdrop
        exact hdrop.log _ _
  | signal handler sig =>
    cases handler with
    | none => exact hserved
    | some f => exact hserved.log _ _

theorem Activity.loose_of_settling {a : Activity H} {sig : ℕ} (h : a.settling = some sig) :
    a.loose = none := by
  cases a <;> first | rfl | cases h

theorem Activity.not_remove_of_settling {a : Activity H} {sig : ℕ} (h : a.settling = some sig)
    (id : ℕ) (rc : Bool) : a ≠ .remove id rc := by
  rintro rfl
  cases h

theorem Sound.pendingReady_settling (h : Sound s) {sig : ℕ}
    (hset : s.activity.settling = some sig) {id : ℕ} (hid : id ∈ s.pending)
    (hne : funcsOf s id ≠ none) : ready s id = true := by
  rcases h.pendingReady id hid hne with hr | ⟨rc, hr⟩
  · exact hr
  · exact absurd hr (Activity.not_remove_of_settling hset id rc)

theorem Sound.store (h : Sound s) {sig id : ℕ} {f : Option H}
    (hact : s.activity = .store sig id f) :
    Sound { s with
      table := Function.update s.table sig (some id), activity := .setHandler sig f } := by
  have hfits := h.fits
  rw [hact] at hfits
  obtain ⟨hnone, ⟨g, hg, hgs⟩, -⟩ := hfits
  have hloose := h.loose id (by rw [hact]; rfl)
  have hother : ∀ {sig' j}, Function.update s.table sig (some id) sig' = some j →
      (sig' = sig ∧ j = id) ∨ (sig' ≠ sig ∧ s.table sig' = some j) := by
    intro sig' j hj
    rw [Function.update_apply] at hj
    split at hj
    · cases hj
      exact .inl ⟨‹_›, rfl⟩
    · exact .inr ⟨‹_›, hj⟩
  constructor
  · intro sig' j hj
    rcases hother hj with ⟨-, rfl⟩ | ⟨-, hj⟩
    · exact ⟨g, hg, hgs⟩
    · exact h.live sig' j hj
  · intro sig₁ sig₂ j h₁ h₂
    rcases hother h₁ with ⟨hs₁, hj₁⟩ | ⟨-, h₁⟩ <;> rcases hother h₂ with ⟨hs₂, hj₂⟩ | ⟨-, h₂⟩
    · exact hs₁.trans hs₂.symm
    · exact absurd (hj₁ ▸ h₂) (hloose _)
    · exact absurd (hj₂ ▸ h₁) (hloose _)
    · exact h.injective _ _ _ h₁ h₂
  · intro sig'
    have ha := h.agree sig'
    rw [hact] at ha
    by_cases hs : sig' = sig
    · subst hs
      rw [hnone] at ha
      simpa [Activity.settling] using ha
    · simpa [Activity.settling, Function.update_of_ne hs, Ne.symm hs] using ha
  · intro sig' j hj hn
    rcases hother hj with ⟨rfl, -⟩ | ⟨-, hj⟩
    · exact absurd rfl hn
    · exact h.named sig' j hj (by simp [hact, Activity.naming])
  · intro j g hg hgs
    left
    rcases h.owned j g hg hgs with ⟨sig', hsig'⟩ | hl
    · have hs : sig' ≠ sig := by
        rintro rfl
        rw [hnone] at hsig'
        cases hsig'
      exact ⟨sig', (Function.update_of_ne hs _ _).trans hsig'⟩
    · obtain rfl : id = j := by simpa [hact, Activity.loose] using hl
      exact ⟨sig, Function.update_self _ _ _⟩
  · intro j hj
    cases hj
  · simp [Activity.Fits]
  · exact h.pendingOld
  · exact h.pendingNodup
  · intro j hj hne
    rcases h.pendingReady j hj hne with hr | ⟨rc, hr⟩
    · exact .inl hr
    · rw [hact] at hr
      cases hr
  · exact h.fault

theorem Sound.fill (h : Sound s) {sig id : ℕ} (hid : s.table sig = some id)
    (hset : s.activity.settling = some sig) {a : Activity H} (ha : a.settling = some sig)
    (f : Option H) (n : ℕ) (hname : a.naming = some sig ∨ n = sig)
    (hfits : a.Fits { setFuncs s id (.signal f n) with activity := a }) :
    Sound { setFuncs s id (.signal f n) with activity := a } := by
  have hself : ∀ j, j = id → funcsOf (setFuncs s id (.signal f n)) j = some (.signal f n) := by
    rintro j rfl
    obtain ⟨g, hg, -⟩ := h.live sig j hid
    obtain ⟨x, hx, -⟩ := entry_of_funcsOf hg
    rw [funcsOf_setFuncs, if_pos rfl, hx, Option.map_some]
  have hother : ∀ j, j ≠ id → funcsOf (setFuncs s id (.signal f n)) j = funcsOf s j := by
    intro j hj
    rw [funcsOf_setFuncs, if_neg hj]
  have hready : ∀ j, ready (setFuncs s id (.signal f n)) j = ready s j := by
    intro j
    simp only [ready, setFuncs, FreshTable.modify_entry]
    split
    · rename_i hj
      subst hj
      cases s.sources.entry j <;> rfl
    · rfl
  constructor
  · intro sig' j hj
    by_cases hji : j = id
    · exact ⟨_, hself j hji, rfl⟩
    · obtain ⟨g, hg, hgs⟩ := h.live sig' j hj
      exact ⟨g, (hother j hji).trans hg, hgs⟩
  · exact h.injective
  · intro sig'
    have hagree := h.agree sig'
    rw [hset, ← ha] at hagree
    exact hagree
  · intro sig' j hj hn
    by_cases hs : sig' = sig
    · subst hs
      rcases hname with hname | rfl
      · exact absurd hname hn
      · obtain rfl : id = j := Option.some.inj (hid.symm.trans hj)
        exact ⟨f, hself _ rfl⟩
    · obtain ⟨g, hg⟩ := h.named sig' j hj fun hn => hs
        (Option.some.inj ((Activity.settling_of_naming hn).symm.trans hset))
      refine ⟨g, (hother j ?_).trans hg⟩
      rintro rfl
      exact hs (h.injective _ _ _ hj hid)
  · intro j g hg hgs
    by_cases hji : j = id
    · exact .inl ⟨sig, hji ▸ hid⟩
    · have hg : funcsOf s j = some g := (hother j hji).symm.trans hg
      rcases h.owned j g hg hgs with ho | hl
      · exact .inl ho
      · rw [Activity.loose_of_settling hset] at hl
        cases hl
  · intro j hj
    have hj : a.loose = some j := hj
    rw [Activity.loose_of_settling ha] at hj
    cases hj
  · exact hfits
  · exact h.pendingOld
  · exact h.pendingNodup
  · intro j hj hne
    left
    have hne : funcsOf (setFuncs s id (.signal f n)) j ≠ none := hne
    refine (hready j).trans (h.pendingReady_settling hset hj ?_)
    by_cases hji : j = id
    · obtain ⟨g, hg, -⟩ := h.live sig id hid
      rw [hji, hg]
      exact Option.some_ne_none g
    · rwa [hother j hji] at hne
  · exact h.fault

theorem Sound.untable (h : Sound s) {sig id : ℕ} (hid : s.table sig = some id)
    (hset : s.activity.settling = some sig) (rc : Bool) :
    Sound { s with table := Function.update s.table sig none, activity := .lower id rc } := by
  have hother : ∀ {sig' j}, Function.update s.table sig none sig' = some j →
      sig' ≠ sig ∧ s.table sig' = some j := by
    intro sig' j hj
    rw [Function.update_apply] at hj
    split at hj
    · cases hj
    · exact ⟨‹_›, hj⟩
  constructor
  · exact fun sig' j hj => h.live sig' j (hother hj).2
  · exact fun _ _ _ h₁ h₂ => h.injective _ _ _ (hother h₁).2 (hother h₂).2
  · intro sig'
    have hagree := h.agree sig'
    rw [hset] at hagree
    by_cases hs : sig' = sig
    · subst hs
      simpa [Activity.settling] using hagree
    · simpa [Activity.settling, Function.update_of_ne hs, Ne.symm hs] using hagree
  · intro sig' j hj _
    obtain ⟨hs, hj⟩ := hother hj
    exact h.named sig' j hj fun hn =>
      hs (Option.some.inj ((Activity.settling_of_naming hn).symm.trans hset))
  · intro j f hf hfs
    rcases h.owned j f hf hfs with ⟨sig', hsig'⟩ | hl
    · by_cases hs : sig' = sig
      · subst hs
        rw [hid] at hsig'
        exact .inr hsig'
      · exact .inl ⟨sig', (Function.update_of_ne hs _ _).trans hsig'⟩
    · rw [Activity.loose_of_settling hset] at hl
      cases hl
  · intro j hj sig' hsig'
    obtain rfl : id = j := by simpa [Activity.loose] using hj
    obtain ⟨hs, hsig'⟩ := hother hsig'
    exact hs (h.injective _ _ _ hsig' hid)
  · trivial
  · exact h.pendingOld
  · exact h.pendingNodup
  · exact fun j hj hne => .inl (h.pendingReady_settling hset hj hne)
  · exact h.fault

theorem Sound.proceed (h : Sound s) {disposition : ℕ → Disposition} {a : Activity H}
    (hagree : ∀ sig, disposition sig = .mainloopSignalHandler ↔
      s.table sig ≠ none ∧ a.settling ≠ some sig)
    (hnaming : s.activity.naming = none) (hloose : s.activity.loose = none)
    (ha : a.loose = none) (hfits : a.Fits s)
    (hstore : ∀ sig id f, a ≠ .store sig id f) (hremove : ∀ id rc, s.activity ≠ .remove id rc) :
    Sound { s with disposition := disposition, activity := a } where
  live := h.live
  injective := h.injective
  agree := hagree
  named sig id hid _ := h.named sig id hid (by simp [hnaming])
  owned id f hf hfs := by
    rcases h.owned id f hf hfs with ho | hl
    · exact .inl ho
    · rw [hloose] at hl
      cases hl
  loose id hid := by
    have hid : a.loose = some id := hid
    rw [ha] at hid
    cases hid
  fits := by
    cases a with
    | store sig id f => exact absurd rfl (hstore sig id f)
    | setHandler | setSignal | install | rollback => exact hfits
    | outside | uninstall | clear | lower | remove => trivial
  pendingOld := h.pendingOld
  pendingNodup := h.pendingNodup
  pendingReady id hid hne := by
    rcases h.pendingReady id hid hne with hr | ⟨rc, hr⟩
    · exact .inl hr
    · exact absurd hr (hremove id rc)
  fault := h.fault

theorem Sound.executes (h : Sound s) {installed : Bool} (he : Executes s installed u) :
    Sound u := by
  have hfits := h.fits
  cases he with
  | store hact => exact h.store hact
  | @setHandler sig id f hact hid =>
    exact h.fill hid (by simp [hact, Activity.settling]) (a := .setSignal sig f) rfl f 0 (.inl rfl)
      (by simp [Activity.Fits, setFuncs, hid])
  | @setSignal sig id f hact hid =>
    exact h.fill hid (by simp [hact, Activity.settling]) (a := .install sig) rfl f sig (.inr rfl)
      (by simp [Activity.Fits, setFuncs, hid])
  | @install sig hact =>
    rw [hact] at hfits
    refine (h.proceed (a := .outside) ?_ (by simp [hact, Activity.naming])
      (by simp [hact, Activity.loose]) rfl trivial (by simp) (by simp [hact])).log _ _
    intro sig'
    by_cases hs : sig' = sig
    · subst hs
      simpa [Activity.settling, Activity.Fits] using hfits
    · have hagree := h.agree sig'
      simpa [hact, Activity.settling, Function.update_of_ne hs, Ne.symm hs] using hagree
  | @refused sig hact =>
    rw [hact] at hfits
    refine h.proceed (a := .rollback sig) ?_ (by simp [hact, Activity.naming])
      (by simp [hact, Activity.loose]) rfl hfits (by simp) (by simp [hact])
    intro sig'
    have hagree := h.agree sig'
    rw [hact] at hagree
    exact hagree
  | rollback hact hid => exact h.untable hid (by simp [hact, Activity.settling]) false
  | @uninstall sig hact =>
    refine h.proceed (a := .clear sig) ?_ (by simp [hact, Activity.naming])
      (by simp [hact, Activity.loose]) rfl trivial (by simp) (by simp [hact])
    intro sig'
    by_cases hs : sig' = sig
    · subst hs
      simp [Activity.settling]
    · have hagree := h.agree sig'
      simpa [hact, Activity.settling, Function.update_of_ne hs, Ne.symm hs] using hagree
  | kept hact =>
    refine (h.proceed (a := .outside) ?_ (by simp [hact, Activity.naming])
      (by simp [hact, Activity.loose]) rfl trivial (by simp) (by simp [hact])).log _ _
    intro sig'
    have hagree := h.agree sig'
    rw [hact] at hagree
    exact hagree
  | @unset sig hact hid =>
    refine (h.proceed (a := .outside) ?_ (by simp [hact, Activity.naming])
      (by simp [hact, Activity.loose]) rfl trivial (by simp) (by simp [hact])).log _ _
    intro sig'
    have hagree := h.agree sig'
    by_cases hs : sig' = sig
    · subst hs
      simpa [hid] using hagree
    · simpa [hact, Activity.settling, Ne.symm hs] using hagree
  | clear hact hid => exact h.untable hid (by simp [hact, Activity.settling]) true
  | @lower id rc hact =>
    have hsame : ∀ j, funcsOf { setBit s id false with activity := .remove id rc } j =
        funcsOf s j := fun j => funcsOf_setBit s id j false
    constructor
    · intro sig j hj
      rw [hsame]
      exact h.live sig j hj
    · exact h.injective
    · intro sig
      have hagree := h.agree sig
      rw [hact] at hagree
      exact hagree
    · intro sig j hj _
      rw [hsame]
      exact h.named sig j hj (by simp [hact, Activity.naming])
    · intro j f hf hfs
      rw [hsame] at hf
      have ho := h.owned j f hf hfs
      rw [hact] at ho
      exact ho
    · intro j hj
      exact h.loose j (by rw [hact]; exact hj)
    · trivial
    · exact h.pendingOld
    · exact h.pendingNodup
    · intro j hj hne
      by_cases hji : j = id
      · exact .inr ⟨rc, congrArg₂ Activity.remove hji.symm rfl⟩
      · left
        refine (ready_setBit s id j false).trans ?_
        rw [if_neg hji]
        rw [hsame] at hne
        rcases h.pendingReady j hj hne with hr | ⟨rc', hr⟩
        · exact hr
        · rw [hact] at hr
          cases hr
    · exact h.fault
  | @remove id rc hact =>
    exact (h.drop (h.loose id (by rw [hact]; rfl)) (by simp [hact, Activity.settling])
      (by simp [hact, Activity.loose, eq_comm]) (by
        intro j rc' hr
        rw [hact] at hr
        cases hr
        rfl)).log _ _
  | null hact hnone =>
    rcases hact with hact | hact | hact <;>
      (rw [hact] at hfits; exact absurd hnone hfits)

theorem Sound.move (h : Sound s) {e : Event H} (hm : Move s e u) : Sound u := by
  cases hm with
  | deliver => exact h.deliver _
  | statement he => exact h.executes he
  | addTrigger hact => exact h.addTrigger hact _ _
  | setTrigger hact hid =>
    obtain ⟨f, hf⟩ := isTrigger_iff.mp hid
    exact h.setTrigger hf (by simp [hact, Activity.loose])
  | destroyTrigger hact hid => exact h.destroyTrigger hact hid
  | addSignal hact => exact h.addSignal hact _ _
  | destroySignal hact => exact h.destroySignal hact _
  | check => exact h.check
  | skip _ hp _ => exact h.skip hp
  | dispatch hact hp hx => exact h.dispatch hact hp hx _

end

/-- What a delivery relies on, in every state: a handler of this file is only installed for
a signal whose entry is an attached source that knows the signal, and no two signals share
a source. Outside `mainloop_add_signal` and `mainloop_destroy_signal` the installed handlers
are those of the table. -/
structure Registered (s : Loop H) : Prop where
  fault : s.fault = false
  source : ∀ sig, s.disposition sig = .mainloopSignalHandler →
    ∃ id x f, s.table sig = some id ∧ s.sources.entry id = some x ∧ x.funcs = .signal f sig
  own : ∀ sig sig' id, s.table sig = some id → s.table sig' = some id → sig = sig'
  outside : s.activity = .outside →
    ∀ sig, s.disposition sig = .mainloopSignalHandler ↔ s.table sig ≠ none

section

variable {s u : Loop H}

theorem Sound.registered (h : Sound s) : Registered s where
  fault := h.fault
  source _ hd := h.installed hd
  own := h.injective
  outside hact sig := by
    rw [h.agree sig, hact]
    exact and_iff_left (by simp [Activity.settling])

theorem sound_always {disposition : ℕ → Disposition}
    (h : ∀ sig, disposition sig ≠ .mainloopSignalHandler) (es : List (Event H)) :
    Always step Sound (start disposition) es :=
  always_of_preserved (fun _ _ _ hs (_ : True) hu => hs.move (step_move hu))
    (sound_start h) (.of_forall (fun _ _ _ => trivial) _)

def allDefault : ℕ → Disposition := fun _ => .default

theorem allDefault_ne (sig : ℕ) : allDefault sig ≠ .mainloopSignalHandler := Disposition.noConfusion

theorem signals_registered {disposition : ℕ → Disposition}
    (h : ∀ sig, disposition sig ≠ .mainloopSignalHandler) (es : List (Event H)) :
    Always step Registered (start disposition) es :=
  (sound_always h es).imp fun _ hs => hs.registered

theorem signals_registered_term :
    Always (step (H := Unit)) Registered (start allDefault)
      [.addSignal 15 (some ()), .statement true, .deliver 15, .statement true, .statement true,
        .statement false, .deliver 15, .statement true, .deliver 15, .statement true,
        .statement true] :=
  signals_registered allDefault_ne _

end
end Matahari.Signals
