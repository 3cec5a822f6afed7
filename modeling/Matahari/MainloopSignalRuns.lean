import Matahari.Library.Latch
import Matahari.MainloopReaper
import Matahari.MainloopSignals

set_option autoImplicit false

/-!
# Signals over whole runs

A signal of the table is a one-bit latch: deliveries raise it, the dispatch of its source
clears it and calls the handler. What holds of every latch then holds of every signal.
-/
namespace Matahari.Signals
open TransitionRuns

variable {H : Type}

/-! ## A signal as a latch -/

def bit (s : Loop H) (sig : ℕ) : Bool := (s.table sig).any (ready s)

def label (sig : ℕ) (s : Loop H) : Event H → List LatchEvent
  | .deliver sig' =>
    if sig' = sig ∧ (0 < sig ∧ sig < nsig) ∧ s.disposition sig = .mainloopSignalHandler then
      [.raise]
    else []
  | .statement _ => match s.activity with
    | .store sig' _ _ | .rollback sig' | .clear sig' => if sig' = sig then [.reset] else []
    | _ => []
  | .dispatch _ => if s.pending.head? ≠ none ∧ s.table sig = s.pending.head? then [.serve] else []
  | _ => []

section

variable {s u : Loop H}

theorem bit_congr {sig : ℕ} (htable : u.table sig = s.table sig)
    (hready : ∀ id, s.table sig = some id → ready u id = ready s id) : bit u sig = bit s sig := by
  unfold bit
  rw [htable]
  cases hid : s.table sig with
  | none => rfl
  | some id => exact hready id hid

theorem exec_keep {sig : ℕ} (htable : u.table sig = s.table sig)
    (hready : ∀ id, s.table sig = some id → ready u id = ready s id) :
    exec latchStep (bit s sig) [] = some (bit u sig) := by
  rw [bit_congr htable hready, exec_nil]

theorem bit_deliver (h : Sound s) (sig sig' : ℕ) :
    exec latchStep (bit s sig) (label sig s (.deliver sig')) = some (bit (deliver s sig') sig) := by
  by_cases hd : s.disposition sig' = .mainloopSignalHandler
  · by_cases hrange : 0 < sig' ∧ sig' < nsig
    · obtain ⟨id, x, f, hid, hx, -⟩ := h.installed hd
      have hu : deliver s sig' = setBit s id true := by
        simp only [deliver, hd, mainloopSignalHandler, if_pos hrange, hid,
          mainloopSetTrigger_eq hx]
      rw [hu]
      by_cases hs : sig' = sig
      · subst hs
        have hbit : bit (setBit s id true) sig' = true := by
          simp only [bit, show (setBit s id true).table = s.table from rfl, hid, Option.any_some,
            ready_setBit, if_true, hx]
        simp only [label, hrange, hd, and_self, if_true, hbit]
        rfl
      · simp only [label, hs, false_and, if_false]
        refine exec_keep (s := s) (u := setBit s id true) rfl ?_
        intro j hj
        rw [ready_setBit, if_neg]
        rintro rfl
        exact hs (h.injective _ _ _ hid hj)
    · have hu : deliver s sig' = s := by
        simp only [deliver, hd, mainloopSignalHandler, if_neg hrange]
      rw [hu, label, if_neg]
      · rfl
      · rintro ⟨rfl, hr, -⟩
        exact hrange hr
  · have hu : deliver s sig' = s := by
      unfold deliver
      split
      · exact absurd ‹_› hd
      · rfl
    rw [hu, label, if_neg]
    · rfl
    · rintro ⟨rfl, -, hd'⟩
      exact hd hd'

theorem ready_setFuncs (s : Loop H) (id j : ℕ) (f : Funcs H) :
    ready (setFuncs s id f) j = ready s j := by
  simp only [ready, setFuncs, FreshTable.modify_entry]
  split
  · rename_i hj
    subst hj
    cases s.sources.entry j <;> rfl
  · rfl

theorem bit_none {sig : ℕ} (h : s.table sig = none) : bit s sig = false := by
  simp only [bit, h, Option.any_none]

theorem bit_executes (h : Sound s) (sig : ℕ) {installed : Bool} (he : Executes s installed u) :
    exec latchStep (bit s sig) (label sig s (.statement installed)) = some (bit u sig) := by
  have hfits := h.fits
  cases he with
  | @store sig' id f hact =>
    rw [hact] at hfits
    simp only [label, hact]
    split
    · rename_i hs
      subst hs
      refine congrArg some (Eq.symm ?_)
      simp only [bit, Function.update_self, Option.any_some]
      exact hfits.2.2
    · rename_i hs
      exact exec_keep (Function.update_of_ne (Ne.symm hs) _ _) fun _ _ => rfl
  | @setHandler sig' id f hact hid =>
    simp only [label, hact]
    exact exec_keep rfl fun j _ => ready_setFuncs s id j _
  | @setSignal sig' id f hact hid =>
    simp only [label, hact]
    exact exec_keep rfl fun j _ => ready_setFuncs s id j _
  | install hact | refused hact | uninstall hact | kept hact =>
    simp only [label, hact]
    rfl
  | @unset sig' hact hid =>
    simp only [label, hact]
    split
    · rename_i hs
      subst hs
      exact congrArg some (bit_none hid).symm
    · rfl
  | @rollback sig' id hact hid | @clear sig' id hact hid =>
    simp only [label, hact]
    split
    · rename_i hs
      subst hs
      exact congrArg some (bit_none (Function.update_self _ _ _)).symm
    · rename_i hs
      exact exec_keep (Function.update_of_ne (Ne.symm hs) _ _) fun _ _ => rfl
  | @lower id rc hact =>
    simp only [label, hact]
    refine exec_keep rfl fun j hj => (ready_setBit s id j false).trans ?_
    rw [if_neg]
    rintro rfl
    exact h.loose j (by rw [hact]; rfl) sig hj
  | @remove id rc hact =>
    simp only [label, hact]
    refine exec_keep rfl fun j hj => ?_
    have hji : j ≠ id := by
      rintro rfl
      exact h.loose j (by rw [hact]; rfl) sig hj
    simp only [ready, finish, FreshTable.remove_entry, if_neg hji]
  | null hact hnone =>
    rcases hact with hact | hact | hact <;>
      (rw [hact] at hfits; exact absurd hnone hfits)

theorem ready_dispatch (s : Loop H) (rest : List ℕ) (id : ℕ) (x : Source H) (keep : Bool) (j : ℕ) :
    ready (dispatch { s with pending := rest } id x keep) j =
      if j = id then false else ready s j := by
  have hset : ready (setBit { s with pending := rest } id false) j =
      if j = id then false else ready s j := by
    rw [ready_setBit]
    split
    · cases s.sources.entry id <;> rfl
    · rfl
  have hdrop : ready { setBit { s with pending := rest } id false with
      sources := (setBit { s with pending := rest } id false).sources.remove id } j =
        if j = id then false else ready s j := by
    simp only [ready, FreshTable.remove_entry] at hset ⊢
    split
    · rfl
    · rename_i hj
      simpa only [hj, if_false] using hset
  unfold dispatch
  cases x.funcs with
  | trigger callback =>
    cases callback with
    | none => exact hset
    | some f =>
      cases keep with
      | true => exact hset
      | false => exact hdrop
  | signal handler sig =>
    cases handler with
    | none => exact hset
    | some f => exact hset

theorem table_dispatch (s : Loop H) (id : ℕ) (x : Source H) (keep : Bool) :
    (dispatch s id x keep).table = s.table := by
  unfold dispatch
  cases x.funcs with
  | trigger callback => cases callback <;> rfl
  | signal handler sig => cases handler <;> rfl

theorem bit_dispatch (h : Sound s) (sig : ℕ) (hact : s.activity = .outside) {id : ℕ}
    {rest : List ℕ} (hp : s.pending = id :: rest) {x : Source H}
    (hx : s.sources.entry id = some x) (keep : Bool) :
    exec latchStep (bit s sig) (label sig s (.dispatch keep)) =
      some (bit (dispatch { s with pending := rest } id x keep) sig) := by
  have htable : (dispatch { s with pending := rest } id x keep).table = s.table :=
    table_dispatch _ _ _ _
  simp only [label, hp, List.head?_cons, ne_eq, reduceCtorEq, not_false_eq_true, true_and]
  split
  · rename_i hid
    have hbit : bit s sig = true := by
      rw [bit, hid, Option.any_some]
      rcases h.pendingReady id (by rw [hp]; exact List.mem_cons_self)
        (by rw [funcsOf_eq_of_entry hx]; simp) with hr | ⟨rc, hr⟩
      · exact hr
      · rw [hact] at hr
        cases hr
    have hafter : bit (dispatch { s with pending := rest } id x keep) sig = false := by
      rw [bit, htable, hid, Option.any_some, ready_dispatch, if_pos rfl]
    rw [hbit, hafter]
    rfl
  · rename_i hid
    refine exec_keep (congrFun htable sig) fun j hj => ?_
    rw [ready_dispatch, if_neg]
    rintro rfl
    exact hid hj

/-- Seen through its table entry every signal is a latch: raised by a delivery, cleared by
the dispatch of its source, and off when the entry changes. -/
theorem bit_move (h : Sound s) (sig : ℕ) {e : Event H} (hm : Move s e u) :
    exec latchStep (bit s sig) (label sig s e) = some (bit u sig) := by
  cases hm with
  | deliver => exact bit_deliver h sig _
  | statement he => exact bit_executes h sig he
  | addTrigger hact =>
    exact exec_keep rfl fun j _ => ready_setup s _ _ j
  | @setTrigger id hact hid =>
    obtain ⟨f, hf⟩ := isTrigger_iff.mp hid
    obtain ⟨x, hx, hxf⟩ := entry_of_funcsOf hf
    rw [mainloopSetTrigger_eq hx]
    refine exec_keep rfl fun j hj => (ready_setBit s id j true).trans ?_
    rw [if_neg]
    rintro rfl
    obtain ⟨g, hg, hgs⟩ := h.live sig j hj
    rw [hf] at hg
    cases hg
    cases hgs
  | destroyTrigger hact hid => rfl
  | @addSignal sig' f hact =>
    simp only [label, mainloopAddSignal]
    split
    · rfl
    · split
      · rfl
      · exact exec_keep rfl fun j _ => ready_setup s _ _ j
  | destroySignal hact =>
    simp only [label, mainloopDestroySignal]
    split <;> rfl
  | check hact hp => rfl
  | @skip keep id rest hact hp hx =>
    simp only [label, hp, List.head?_cons, ne_eq, reduceCtorEq, not_false_eq_true, true_and]
    rw [if_neg]
    · rfl
    · intro hid
      obtain ⟨f, hf, -⟩ := h.live sig id hid
      obtain ⟨x, hx', -⟩ := entry_of_funcsOf hf
      rw [hx] at hx'
      cases hx'
  | dispatch hact hp hx => exact bit_dispatch h sig hact hp hx _

end

theorem signals_refine_latch {disposition : ℕ → Disposition}
    (h : ∀ sig, disposition sig ≠ .mainloopSignalHandler) (sig : ℕ) {es : List (Event H)}
    {v : Loop H} (hv : exec step (start disposition) es = some v) :
    exec latchStep false (trace step (label sig) (start disposition) es) = some (bit v sig) :=
  exec_trace (fun s => bit s sig) Sound
    (fun _ _ _ hs hu => ⟨hs.move (step_move hu), bit_move hs sig (step_move hu)⟩)
    (sound_start h) hv

/-! ## Calls of a handler and deliveries of its signal -/

def Called.isFor (sig : ℕ) : Called H → Bool
  | .callback _ => false
  | .handler _ sig' => sig' == sig

def calls (s : Loop H) (sig : ℕ) : ℕ := s.called.countP (Called.isFor sig)

def Event.delivers (sig : ℕ) : Event H → Bool
  | .deliver sig' => sig' == sig
  | _ => false

section

variable {s u : Loop H}

theorem calls_of_called {sig : ℕ} (h : u.called = s.called) : calls u sig = calls s sig := by
  rw [calls, h, calls]

theorem called_executes {installed : Bool} (he : Executes s installed u) : u.called = s.called := by
  cases he <;> rfl

theorem called_deliver (s : Loop H) (sig : ℕ) : (deliver s sig).called = s.called := by
  unfold deliver mainloopSignalHandler mainloopSetTrigger
  repeat' split
  all_goals rfl

/-- The one place where functions are called. -/
theorem called_dispatch (s : Loop H) (rest : List ℕ) (id : ℕ) (x : Source H) (keep : Bool) :
    (dispatch { s with pending := rest } id x keep).called = match x.funcs with
      | .trigger (some f) => .callback f :: s.called
      | .signal (some f) sig => .handler f sig :: s.called
      | _ => s.called := by
  unfold dispatch
  cases x.funcs with
  | trigger callback => cases callback <;> rfl
  | signal handler sig => cases handler <;> rfl

theorem called_move {e : Event H} (hm : Move s e u) (he : ∀ keep, e ≠ .dispatch keep) :
    u.called = s.called := by
  cases hm with
  | deliver => exact called_deliver s _
  | statement hex => exact called_executes hex
  | addTrigger _ | destroyTrigger _ _ | check _ _ => rfl
  | setTrigger _ _ =>
    unfold mainloopSetTrigger
    split <;> rfl
  | addSignal _ =>
    unfold mainloopAddSignal
    repeat' split
    all_goals rfl
  | destroySignal _ =>
    unfold mainloopDestroySignal
    split <;> rfl
  | skip _ _ _ => exact absurd rfl (he _)
  | dispatch _ _ _ => exact absurd rfl (he _)

/-- An attached source that knows a signal is the one of the table, unless the main thread
still holds it. -/
theorem Sound.table_of_funcs (h : Sound s) (hact : s.activity = .outside) {id sig : ℕ}
    {f : Option H} (hf : funcsOf s id = some (.signal f sig)) : s.table sig = some id := by
  rcases h.owned id _ hf rfl with ⟨sig', hsig'⟩ | hl
  · obtain ⟨g, hg⟩ := h.named sig' id hsig' (by simp [hact, Activity.naming])
    rw [hf] at hg
    cases hg
    exact hsig'
  · rw [hact] at hl
    cases hl

theorem calls_dispatch (h : Sound s) (hact : s.activity = .outside) {id : ℕ} {rest : List ℕ}
    (hp : s.pending = id :: rest) {x : Source H} (hx : s.sources.entry id = some x) (sig : ℕ)
    (keep : Bool) :
    calls (dispatch { s with pending := rest } id x keep) sig ≤
      calls s sig + (label sig s (.dispatch keep)).count .serve := by
  have hfuncs := funcsOf_eq_of_entry hx
  rw [calls, called_dispatch]
  cases hf : x.funcs with
  | trigger callback =>
    cases callback with
    | none => exact Nat.le_add_right _ _
    | some f =>
      rw [List.countP_cons_of_neg (by simp [Called.isFor])]
      exact Nat.le_add_right _ _
  | signal handler sig' =>
    cases handler with
    | none => exact Nat.le_add_right _ _
    | some f =>
      by_cases hs : sig' = sig
      · subst hs
        have htable := h.table_of_funcs hact (hfuncs.trans (congrArg some hf))
        have hlabel : label sig' s (.dispatch keep) = [.serve] := by
          simp [label, hp, htable]
        rw [List.countP_cons_of_pos (by simp [Called.isFor]), hlabel]
        exact Nat.le_refl _
      · rw [List.countP_cons_of_neg (by simpa [Called.isFor] using hs)]
        exact Nat.le_add_right _ _

theorem calls_move (h : Sound s) (sig : ℕ) {e : Event H} (hm : Move s e u) :
    calls u sig ≤ calls s sig + (label sig s e).count .serve := by
  by_cases he : ∃ keep, e = .dispatch keep
  · obtain ⟨keep, rfl⟩ := he
    cases hm with
    | skip hact hp hx => exact Nat.le_add_right _ _
    | dispatch hact hp hx => exact calls_dispatch h hact hp hx sig keep
  · have hcalled := called_move hm fun keep hk => he ⟨keep, hk⟩
    rw [calls_of_called hcalled]
    exact Nat.le_add_right _ _

theorem raises_le (sig : ℕ) (s : Loop H) (e : Event H) :
    (label sig s e).count .raise ≤ (e.delivers sig).toNat := by
  cases e with
  | deliver sig' =>
    simp only [label]
    split
    · rename_i h
      simp [Event.delivers, h.1]
    · exact Nat.zero_le _
  | statement installed =>
    simp only [label]
    split
    · split <;> simp
    · split <;> simp
    · split <;> simp
    · exact Nat.zero_le _
  | dispatch keep =>
    simp only [label]
    split <;> simp
  | _ => exact Nat.zero_le _

/-- Deliveries may be answered together, but no handler is called without a delivery of its
own signal. -/
theorem handler_calls_le_deliveries {disposition : ℕ → Disposition}
    (h : ∀ sig, disposition sig ≠ .mainloopSignalHandler) (sig : ℕ) {es : List (Event H)}
    {v : Loop H} (hv : exec step (start disposition) es = some v) :
    calls v sig + (bit v sig).toNat ≤ es.countP (Event.delivers sig) := by
  have hcalls : calls v sig ≤ calls (start disposition : Loop H) sig +
      (trace step (label sig) (start disposition) es).count .serve :=
    measure_le_count_trace (fun s => calls s sig) Sound
      (fun _ _ _ hs hu => ⟨hs.move (step_move hu), calls_move hs sig (step_move hu)⟩)
      (sound_start h) hv
  have hserve := latch_serve_le_raise (signals_refine_latch h sig hv)
  have hraise : (trace step (label sig) (start disposition) es).count .raise ≤
      es.countP (Event.delivers sig) := count_trace_le (raises_le sig) (start disposition) es
  have hzero : calls (start disposition : Loop H) sig = 0 := rfl
  rw [Bool.toNat_false] at hserve
  omega

def termTwice : List (Event Unit) :=
  [.addSignal 15 (some ()), .statement true, .statement true, .statement true, .statement true,
    .deliver 15, .deliver 15, .check, .dispatch true]

theorem handler_calls_le_deliveries_term :
    ∃ v, exec step (start allDefault) termTwice = some v ∧
      calls v 15 + (bit v 15).toNat ≤ termTwice.countP (Event.delivers 15) :=
  ⟨_, rfl, handler_calls_le_deliveries allDefault_ne 15 rfl⟩

example : (exec step (start allDefault) termTwice).map (fun v => v.called) =
    some [.handler () 15] := rfl

/-! ## A delivery is not lost -/

structure Kept (sig id : ℕ) (f : H) (s : Loop H) : Prop where
  sound : Sound s
  entry : s.table sig = some id
  source : funcsOf s id = some (.signal (some f) sig)
  installed : s.disposition sig = .mainloopSignalHandler
  stays : s.activity ≠ .uninstall sig

theorem Sound.settling_ne (h : Sound s) {sig : ℕ}
    (hd : s.disposition sig = .mainloopSignalHandler) : s.activity.settling ≠ some sig :=
  ((h.agree sig).mp hd).2

theorem Kept.executes {sig id : ℕ} {f : H} (h : Kept sig id f s) {installed : Bool}
    (he : Executes s installed u) : u.table sig = some id ∧
      funcsOf u id = some (.signal (some f) sig) ∧ u.disposition sig = .mainloopSignalHandler ∧
      u.activity ≠ .uninstall sig := by
  obtain ⟨hsound, hentry, hsource, hinstalled, hstays⟩ := h
  have hsettling := hsound.settling_ne hinstalled
  cases he with
  | @store sig' id' g hact =>
    have hne : sig ≠ sig' := by
      rintro rfl
      have hfits := hsound.fits
      rw [hact] at hfits
      rw [hfits.1] at hentry
      cases hentry
    exact ⟨(Function.update_of_ne hne _ _).trans hentry, hsource, hinstalled, by simp⟩
  | @setHandler sig' id' g hact hid | @setSignal sig' id' g hact hid =>
    have hne : id ≠ id' := by
      rintro rfl
      exact hsettling (by rw [hact, hsound.injective _ _ _ hentry hid]; rfl)
    exact ⟨hentry, (funcsOf_setFuncs s id' id _).trans ((if_neg hne).trans hsource), hinstalled,
      by simp⟩
  | @install sig' hact =>
    refine ⟨hentry, hsource, ?_, by simp [finish]⟩
    simp only [finish, Function.update_apply]
    split
    · rfl
    · exact hinstalled
  | refused hact => exact ⟨hentry, hsource, hinstalled, by simp⟩
  | @rollback sig' id' hact hid | @clear sig' id' hact hid =>
    have hne : sig ≠ sig' := by
      rintro rfl
      exact hsettling (by rw [hact]; rfl)
    exact ⟨(Function.update_of_ne hne _ _).trans hentry, hsource, hinstalled, by simp⟩
  | @uninstall sig' hact =>
    have hne : sig ≠ sig' := by
      rintro rfl
      exact hstays hact
    exact ⟨hentry, hsource, (Function.update_of_ne hne _ _).trans hinstalled, by simp⟩
  | kept hact | unset hact _ => exact ⟨hentry, hsource, hinstalled, by simp [finish]⟩
  | @lower id' rc hact =>
    exact ⟨hentry, (funcsOf_setBit s id' id false).trans hsource, hinstalled, by simp⟩
  | @remove id' rc hact =>
    have hne : id ≠ id' := by
      rintro rfl
      exact hsound.loose id (by rw [hact]; rfl) sig hentry
    exact ⟨hentry, (funcsOf_remove s id' id).trans ((if_neg hne).trans hsource), hinstalled,
      by simp [finish]⟩
  | null hact hnone => exact ⟨hentry, hsource, hinstalled, hstays⟩

theorem funcsOf_dispatch (s : Loop H) (rest : List ℕ) {id j : ℕ} {x : Source H} (keep : Bool)
    {g : Funcs H} (hx : s.sources.entry id = some x) (hj : funcsOf s j = some g)
    (hg : g.isSignal = true) :
    funcsOf (dispatch { s with pending := rest } id x keep) j = some g := by
  have hset : funcsOf (setBit { s with pending := rest } id false) j = some g :=
    (funcsOf_setBit _ id j false).trans hj
  unfold dispatch
  cases hf : x.funcs with
  | trigger callback =>
    cases callback with
    | none => exact hset
    | some f =>
      cases keep with
      | true => exact hset
      | false =>
        refine (funcsOf_remove (setBit { s with pending := rest } id false) id j).trans ?_
        rw [if_neg]
        · exact hset
        · rintro rfl
          rw [funcsOf_eq_of_entry hx, hf] at hj
          cases hj
          cases hg
  | signal handler sig =>
    cases handler with
    | none => exact hset
    | some f => exact hset

theorem deliver_frame (s : Loop H) (sig : ℕ) : (deliver s sig).table = s.table ∧
    (deliver s sig).disposition = s.disposition ∧ (deliver s sig).activity = s.activity ∧
      ∀ j, funcsOf (deliver s sig) j = funcsOf s j := by
  unfold deliver mainloopSignalHandler mainloopSetTrigger
  repeat' split
  all_goals
    refine ⟨rfl, rfl, rfl, fun j => ?_⟩
    first
      | rfl
      | exact funcsOf_setBit _ _ _ _

theorem Kept.move {sig id : ℕ} {f : H} (h : Kept sig id f s) {e : Event H}
    (he : e ≠ .destroySignal sig) (hm : Move s e u) : Kept sig id f u := by
  have hsound := h.sound.move hm
  suffices hkept : u.table sig = some id ∧ funcsOf u id = some (.signal (some f) sig) ∧
      u.disposition sig = .mainloopSignalHandler ∧ u.activity ≠ .uninstall sig from
    ⟨hsound, hkept.1, hkept.2.1, hkept.2.2.1, hkept.2.2.2⟩
  cases hm with
  | @deliver sig' =>
    obtain ⟨htable, hdisposition, hactivity, hfuncs⟩ := deliver_frame s sig'
    rw [htable, hdisposition, hactivity, hfuncs]
    exact ⟨h.entry, h.source, h.installed, h.stays⟩
  | statement hex => exact h.executes hex
  | addTrigger hact =>
    exact ⟨h.entry, funcsOf_setup_of_some h.source, h.installed, h.stays⟩
  | @setTrigger id' hact hid =>
    obtain ⟨g, hg⟩ := isTrigger_iff.mp hid
    obtain ⟨x, hx, -⟩ := entry_of_funcsOf hg
    rw [mainloopSetTrigger_eq hx]
    exact ⟨h.entry, (funcsOf_setBit s id' id true).trans h.source, h.installed, h.stays⟩
  | destroyTrigger hact hid => exact ⟨h.entry, h.source, h.installed, by simp⟩
  | addSignal hact =>
    unfold mainloopAddSignal
    split
    · exact ⟨h.entry, h.source, h.installed, h.stays⟩
    · split
      · exact ⟨h.entry, h.source, h.installed, h.stays⟩
      · exact ⟨h.entry, funcsOf_setup_of_some h.source, h.installed, by simp⟩
  | @destroySignal sig' hact =>
    unfold mainloopDestroySignal
    split
    · exact ⟨h.entry, h.source, h.installed, h.stays⟩
    · rename_i hrange
      refine ⟨h.entry, h.source, h.installed, ?_⟩
      simp only [ne_eq, Activity.uninstall.injEq]
      rintro rfl
      apply he
      congr 1
      omega
  | check | skip => exact ⟨h.entry, h.source, h.installed, h.stays⟩
  | @dispatch keep id' rest x hact hp hx =>
    refine ⟨?_, funcsOf_dispatch s rest keep hx h.source rfl, ?_, ?_⟩
    · rw [table_dispatch]
      exact h.entry
    · unfold dispatch
      repeat' split
      all_goals exact h.installed
    · unfold dispatch
      repeat' split
      all_goals exact h.stays

theorem Kept.no_reset {sig id : ℕ} {f : H} (h : Kept sig id f s) {e : Event H}
    (hm : Move s e u) : .reset ∉ label sig s e := by
  have hsettling := h.sound.settling_ne h.installed
  cases hm with
  | deliver | dispatch _ _ _ | skip _ _ _ =>
    simp only [label]
    split <;> simp
  | statement he =>
    have hfits := h.sound.fits
    cases hact : s.activity with
    | store sig' id' g =>
      rw [hact] at hfits
      have hne : sig' ≠ sig := by
        rintro rfl
        have hentry := h.entry
        rw [hfits.1] at hentry
        cases hentry
      simp [label, hact, hne]
    | rollback sig' | clear sig' =>
      have hne : sig' ≠ sig := by
        rintro rfl
        exact hsettling (by rw [hact]; rfl)
      simp [label, hact, hne]
    | outside | setHandler | setSignal | install | uninstall | lower | remove =>
      simp [label, hact]
  | addTrigger _ | setTrigger _ _ | destroyTrigger _ _ | addSignal _ | destroySignal _
  | check _ _ => exact List.not_mem_nil

theorem Kept.calls {sig id : ℕ} {f : H} (h : Kept sig id f s) {e : Event H} (hm : Move s e u) :
    calls s sig + (label sig s e).count .serve ≤ Signals.calls u sig := by
  by_cases he : ∃ keep, e = .dispatch keep
  · obtain ⟨keep, rfl⟩ := he
    cases hm with
    | @skip _ id' rest hact hp hx =>
      have hne : id ≠ id' := by
        rintro rfl
        obtain ⟨x, hx', -⟩ := entry_of_funcsOf h.source
        rw [hx] at hx'
        cases hx'
      have hlabel : label sig s (.dispatch keep) = [] := by
        simp [label, hp, h.entry, hne]
      rw [hlabel]
      exact Nat.le_refl _
    | @dispatch _ id' rest x hact hp hx =>
      rw [Signals.calls, Signals.calls, called_dispatch]
      by_cases hid : id = id'
      · subst hid
        have hx' := h.source
        rw [funcsOf_eq_of_entry hx] at hx'
        rw [Option.some.inj hx', List.countP_cons_of_pos (by simp [Called.isFor])]
        have hlabel : label sig s (.dispatch keep) = [.serve] := by
          simp [label, hp, h.entry]
        rw [hlabel]
        exact Nat.le_refl _
      · have hlabel : label sig s (.dispatch keep) = [] := by
          simp [label, hp, h.entry, hid]
        rw [hlabel]
        split
        · exact (List.sublist_cons_self _ _).countP_le
        · exact (List.sublist_cons_self _ _).countP_le
        · exact Nat.le_refl _
  · have hcalled := called_move hm fun keep hk => he ⟨keep, hk⟩
    have hzero : (label sig s e).count .serve = 0 := by
      apply List.count_eq_zero_of_not_mem
      cases e with
      | dispatch keep => exact absurd ⟨keep, rfl⟩ he
      | deliver sig' =>
        simp only [label]
        split <;> simp
      | statement installed =>
        simp only [label]
        repeat' split
        all_goals simp
      | _ => exact List.not_mem_nil
    rw [calls_of_called hcalled, hzero]
    exact Nat.le_refl _

def handlerOf (s : Loop H) (sig : ℕ) : Option H :=
  (s.table sig).bind fun id => match funcsOf s id with
    | some (.signal f _) => f
    | _ => none

theorem Sound.kept (h : Sound s) {sig : ℕ} {f : H}
    (hinstalled : s.disposition sig = .mainloopSignalHandler) (hf : handlerOf s sig = some f)
    (hstays : s.activity ≠ .uninstall sig) : ∃ id, Kept sig id f s := by
  obtain ⟨id, x, g, hid, hx, hxg⟩ := h.installed hinstalled
  have hfuncs : funcsOf s id = some (.signal g sig) :=
    (funcsOf_eq_of_entry hx).trans (congrArg some hxg)
  simp only [handlerOf, hid, Option.bind_some, hfuncs] at hf
  subst hf
  exact ⟨id, h, hid, hfuncs, hinstalled, hstays⟩

/-- A delivered signal waits in its source until its handler is called, whatever else
happens, as long as nobody removes the signal. -/
theorem delivered_signal_waits {disposition : ℕ → Disposition}
    (hstart : ∀ sig, disposition sig ≠ .mainloopSignalHandler) {es fs : List (Event H)}
    {sig : ℕ} {f : H} {s v : Loop H} (hs : exec step (start disposition) es = some s)
    (hsig : 0 < sig ∧ sig < nsig) (hinstalled : s.disposition sig = .mainloopSignalHandler)
    (hf : handlerOf s sig = some f) (hstays : s.activity ≠ .uninstall sig)
    (hfs : ∀ e ∈ fs, e ≠ .destroySignal sig)
    (hv : exec step s (.deliver sig :: fs) = some v) :
    bit v sig = true ∨ calls s sig < calls v sig := by
  have hsound : Sound s := (sound_always hstart es).final hs
  obtain ⟨id, hkept⟩ := hsound.kept hinstalled hf hstays
  obtain ⟨u, hu, hrun⟩ := exec_cons_some hv
  have hmove := step_move hu
  have hkeptu : Kept sig id f u := hkept.move (by simp) hmove
  have hraised : bit u sig = true := by
    have hlatch := bit_move hsound sig hmove
    simp only [label, hsig, hinstalled, and_self, if_true] at hlatch
    simpa [exec, latchStep] using hlatch.symm
  have hlatch : exec latchStep true (trace step (label sig) u fs) = some (bit v sig) := by
    rw [← hraised]
    exact exec_trace (fun s => bit s sig) Sound
      (fun _ _ _ hs hu => ⟨hs.move (step_move hu), bit_move hs sig (step_move hu)⟩)
      hkeptu.sound hrun
  have hreset : .reset ∉ trace step (label sig) u fs :=
    notMem_trace (Kept sig id f) (fun e => e ≠ .destroySignal sig)
      (fun _ _ _ hk hne hstep =>
        ⟨hk.move hne (step_move hstep), hk.no_reset (step_move hstep)⟩) hkeptu hfs hrun
  rcases latch_waits hreset hlatch with hb | hserve
  · exact .inl hb
  · right
    have hcount : calls u sig + (trace step (label sig) u fs).count .serve ≤ calls v sig :=
      count_trace_le_measure (fun s => calls s sig) (Kept sig id f)
        (fun e => e ≠ .destroySignal sig)
        (fun _ _ _ hk hne hstep => ⟨hk.move hne (step_move hstep), hk.calls (step_move hstep)⟩)
        hkeptu hfs hrun
    have hpos := List.count_pos_iff.mpr hserve
    have hsame : calls u sig = calls s sig := calls_of_called (called_move hmove (by simp))
    omega

theorem delivered_signal_waits_term :
    ∃ s v, exec step (start allDefault) (termTwice.take 5) = some s ∧
      exec step s [.deliver 15, .check, .addSignal 17 (some ()), .statement true] = some v ∧
        (bit v 15 = true ∨ calls s 15 < calls v 15) :=
  have hstart : exec step (start allDefault) (termTwice.take 5) = some _ := rfl
  have hrun : exec step _
    [.deliver 15, .check, .addSignal 17 (some ()), .statement true] = some _ := rfl
  ⟨_, _, hstart, hrun, delivered_signal_waits allDefault_ne hstart (by decide) rfl rfl
    (by simp [finish]) (by simp) hrun⟩

end

/-! ## The `SIGCHLD` source of the reaper -/

def reaperLabel (_ : Reaping.Reaper) : Reaping.ReaperEvent → List LatchEvent
  | .exit _ _ => [.raise]
  | .dispatch => [.serve]
  | _ => []

/-- The boolean that stands for the source of `SIGCHLD` in the model of the reaper is the
same latch, so what holds of a signal of the table holds of it. -/
theorem reaper_refines_latch {s v : Reaping.Reaper} {es : List Reaping.ReaperEvent}
    (hv : exec Reaping.reaperStep s es = some v) :
    exec latchStep s.trigger (trace Reaping.reaperStep reaperLabel s es) = some v.trigger := by
  refine exec_trace (fun s => s.trigger) (fun _ => True) ?_ trivial hv
  intro s e u _ hu
  refine ⟨trivial, ?_⟩
  have hdispatch : e = .dispatch → s.trigger = true := by
    rintro rfl
    simp only [Reaping.reaperStep, Option.ite_none_right_eq_some] at hu
    exact hu.1.1
  cases Reaping.reaperStep_move hu with
  | spawn _ | timeout _ | setErrno | waitNone _ => rfl
  | exit _ => rfl
  | dispatch =>
    simp only [reaperLabel, hdispatch rfl]
    rfl
  | @reap c status q hc hz hd =>
    have htrigger : (Reaping.reap s c q status).trigger = s.trigger := by
      simp only [Reaping.reap]
      split <;> rfl
    rw [htrigger]
    rfl
end Matahari.Signals
