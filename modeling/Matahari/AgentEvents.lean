import Matahari.Library.Transition

set_option autoImplicit false

/-!
# Events of an agent session

The source that `mainloop_add_qmf` attaches to the main loop. It holds one event, fetched by
`check` and passed on by `dispatch`, which may be an iteration of the loop or more later.
`E` is the type of the events.
-/
namespace Matahari.Agent
open TransitionRuns

variable {E : Type}

/-- `mainloop_qmf_t`. `session` lists what `nextEvent` has to give; a handle that is `none`
is null. -/
structure QmfSource (E : Type) where
  session : List E
  event : Option E
  hasDispatch : Bool

def mainloopQmfPrepare (qmf : QmfSource E) : Bool × Option ℕ :=
  if qmf.event.isSome then (true, none) else (false, some 1)

def mainloopQmfCheck (qmf : QmfSource E) : Bool × QmfSource E :=
  if qmf.event.isSome then (true, qmf)
  else match qmf.session with
    | event :: session => (true, { qmf with session := session, event := some event })
    | [] => (false, qmf)

/-- The result, what the dispatch function was called with if it was called, and the source.
`keep` is what the dispatch function returns. -/
def mainloopQmfDispatch (qmf : QmfSource E) (keep : Bool) :
    Bool × Option (Option E) × QmfSource E :=
  if qmf.hasDispatch then (keep, some qmf.event, { qmf with event := none })
  else (true, none, qmf)

/-! ## The main loop -/

/-- Where an iteration of the main loop is with this source: before `prepare`, between
`prepare` and `check`, and found ready. -/
inductive Stage where
  | idle
  | polling
  | ready
  deriving DecidableEq, Repr

/-- `flagged` is GLib's record that the source was ready and has not been dispatched since.
`received` lists all events of the session, and `passed` what the dispatch function has been
called with. -/
structure MainContext (E : Type) where
  source : QmfSource E
  attached : Bool
  stage : Stage
  flagged : Bool
  received : List E
  passed : List (Option E)

def attach (session : List E) (hasDispatch : Bool) : MainContext E :=
  ⟨⟨session, none, hasDispatch⟩, true, .idle, false, session, []⟩

/-- An event comes in, or GLib takes a step. It goes on to the next iteration without
`check` or `dispatch` where sources of a higher priority are ready, and it may or may not
remember that this one was. -/
inductive ContextEvent (E : Type) where
  | arrive (event : E)
  | prepare
  | check
  | dispatch (keep : Bool)
  | skip (remember : Bool)

def contextStep (s : MainContext E) : ContextEvent E → Option (MainContext E)
  | .arrive event =>
    some { s with
      source := { s.source with session := s.source.session ++ [event] }
      received := s.received ++ [event] }
  | .prepare =>
    if s.attached && s.stage = .idle then
      let ready := s.flagged || (mainloopQmfPrepare s.source).1
      some { s with stage := if ready then .ready else .polling }
    else none
  | .check =>
    if s.stage = .polling then
      let (ready, source) := mainloopQmfCheck s.source
      some { s with source := source, stage := if ready then .ready else .idle }
    else none
  | .dispatch keep =>
    if s.stage = .ready then
      let (kept, passed, source) := mainloopQmfDispatch s.source keep
      some { s with
        source := source
        attached := kept
        stage := .idle
        flagged := false
        passed := s.passed ++ passed.toList }
    else none
  | .skip remember =>
    if s.stage = .idle then none
    else some { s with stage := .idle, flagged := remember && s.stage = .ready }

/-! ## Every event once -/

/-- The dispatch function has been given a prefix of the events, the slot holds the next one
if any, and the rest are with the session. -/
def Conserved (s : MainContext E) : Prop :=
  ∃ done, s.passed = done.map some ∧ done ++ s.source.event.toList ++ s.source.session = s.received

structure Sound (s : MainContext E) : Prop where
  conserved : Conserved s
  ready : s.stage = .ready ∨ s.flagged = true → s.source.event.isSome = true

theorem sound_attach (session : List E) (hasDispatch : Bool) : Sound (attach session hasDispatch) where
  conserved := ⟨[], rfl, rfl⟩
  ready := by
    rintro (h | h) <;> cases h

section
variable {s u : MainContext E}

theorem check_conserved (qmf : QmfSource E) :
    (mainloopQmfCheck qmf).2.event.toList ++ (mainloopQmfCheck qmf).2.session =
        qmf.event.toList ++ qmf.session ∧
      ((mainloopQmfCheck qmf).1 = true → (mainloopQmfCheck qmf).2.event.isSome = true) ∧
      (qmf.event.isSome = true → (mainloopQmfCheck qmf).2.event = qmf.event) := by
  unfold mainloopQmfCheck
  split
  · rename_i hheld
    exact ⟨rfl, fun _ => hheld, fun _ => rfl⟩
  · rename_i hempty
    have hnone : qmf.event = none := by simpa using hempty
    split
    · rename_i event session hsession
      exact ⟨by simp [hnone, hsession], fun _ => rfl, fun h => absurd h hempty⟩
    · exact ⟨rfl, fun h => absurd h Bool.false_ne_true, fun _ => rfl⟩

theorem Sound.arrive (h : Sound s) {event : E} (hu : contextStep s (.arrive event) = some u) :
    Sound u := by
  obtain ⟨done, hpassed, hdone⟩ := h.conserved
  cases hu
  refine ⟨⟨done, hpassed, ?_⟩, h.ready⟩
  change done ++ s.source.event.toList ++ (s.source.session ++ [event]) = s.received ++ [event]
  rw [← List.append_assoc, hdone]

theorem Sound.prepare (h : Sound s) (hu : contextStep s .prepare = some u) : Sound u := by
  unfold contextStep at hu
  dsimp only at hu
  split at hu
  · cases hu
    refine ⟨h.conserved, ?_⟩
    rintro (hready | hflagged)
    · dsimp only at hready
      split at hready
      · rename_i hor
        rcases Bool.or_eq_true_iff.mp hor with hflagged | hheld
        · exact h.ready (Or.inr hflagged)
        · unfold mainloopQmfPrepare at hheld
          split at hheld
          · assumption
          · cases hheld
      · cases hready
    · exact h.ready (Or.inr hflagged)
  · cases hu

theorem Sound.check (h : Sound s) (hu : contextStep s .check = some u) : Sound u := by
  obtain ⟨done, hpassed, hdone⟩ := h.conserved
  obtain ⟨hsame, hready, hheld⟩ := check_conserved s.source
  unfold contextStep at hu
  dsimp only at hu
  split at hu
  · cases hu
    refine ⟨⟨done, hpassed, ?_⟩, ?_⟩
    · rw [List.append_assoc] at hdone ⊢
      rw [hsame, hdone]
    · rintro (hstage | hflagged)
      · dsimp only at hstage
        split at hstage
        · rename_i hfound
          exact hready hfound
        · cases hstage
      · have hsome := h.ready (Or.inr hflagged)
        dsimp only
        rw [hheld hsome]
        exact hsome
  · cases hu

theorem Sound.dispatch (h : Sound s) {keep : Bool}
    (hu : contextStep s (.dispatch keep) = some u) : Sound u := by
  obtain ⟨done, hpassed, hdone⟩ := h.conserved
  unfold contextStep at hu
  dsimp only at hu
  split at hu
  · rename_i hstage
    obtain ⟨event, hevent⟩ := Option.isSome_iff_exists.mp (h.ready (Or.inl hstage))
    cases hu
    refine ⟨?_, ?_⟩
    · unfold mainloopQmfDispatch
      split
      · refine ⟨done ++ [event], ?_, ?_⟩
        · simp [hpassed, hevent]
        · rw [← hdone, hevent]
          simp
      · exact ⟨done, by simp [hpassed], hdone⟩
    · rintro (h | h) <;> cases h
  · cases hu

theorem Sound.skip (h : Sound s) {remember : Bool}
    (hu : contextStep s (.skip remember) = some u) : Sound u := by
  unfold contextStep at hu
  dsimp only at hu
  split at hu
  · cases hu
  · cases hu
    refine ⟨h.conserved, ?_⟩
    rintro (hstage | hflagged)
    · cases hstage
    · rw [Bool.and_eq_true, decide_eq_true_iff] at hflagged
      exact h.ready (Or.inl hflagged.2)

theorem Sound.step (h : Sound s) {e : ContextEvent E} (hu : contextStep s e = some u) :
    Sound u := by
  cases e with
  | arrive event => exact h.arrive hu
  | prepare => exact h.prepare hu
  | check => exact h.check hu
  | dispatch keep => exact h.dispatch hu
  | skip remember => exact h.skip hu

end

/-- Whatever arrives and however often the source is passed over, the events are dispatched
in order and each once, and the one that has been fetched is kept until then. -/
theorem qmf_events_in_order (session : List E) (hasDispatch : Bool)
    (events : List (ContextEvent E)) :
    Always contextStep Conserved (attach session hasDispatch) events := by
  have hall : Throughout contextStep (fun _ _ => True) (attach session hasDispatch) events :=
    Throughout.of_forall (fun _ _ _ => trivial) _
  have hsound : Always contextStep Sound (attach session hasDispatch) events :=
    always_of_preserved (fun s e u hs _ hu => hs.step hu) (sound_attach session hasDispatch) hall
  exact hsound.imp fun _ h => h.conserved

end Matahari.Agent
