import Matahari.Library.FreshTable
import Matahari.ManagerInvoke

set_option autoImplicit false

/-!
# Successive calls of `invoke_method`

A call that times out leaves its responses to come later. `AsyncHandler` keeps one
callback, which every call of `invoke_method` replaces, and gives it all the responses.
The sequence numbers are those of the QMF session, and no two calls have the same.
-/
namespace Matahari.Manager
open TransitionRuns

variable {α β : Type}

/-- The calls of `invoke_method` in their order; `arrived` lists the numbers of the
responses. The callback of the latest call is registered. -/
structure Session (α β : Type) where
  invocations : FreshTable (Invocation α β)
  arrived : List ℕ

def Session.init : Session α β := ⟨FreshTable.empty, []⟩

def Session.latest (s : Session α β) : ℕ := s.invocations.next - 1

def Sender.hasReturned : Sender α β → Bool
  | .returned _ => true
  | _ => false

def Receiver.isIdle : Receiver β → Bool
  | .idle => true
  | _ => false

def InvokeEvent.onMain : InvokeEvent β → Bool
  | .acquire | .call _ | .append | .release | .wait | .endWait | .collect => true
  | _ => false

def InvokeEvent.onConsole : InvokeEvent β → Bool
  | .lockSeqs | .findIndex | .store | .check | .signal => true
  | _ => false

def Session.called (s : Session α β) (seq : ℕ) : Bool :=
  s.invocations.any fun inv => seq ∈ inv.calls.map Prod.snd

def Session.consoleIdle (s : Session α β) : Bool :=
  !s.invocations.any fun inv => !inv.receiver.isIdle

def Session.set (s : Session α β) (k : ℕ) (inv : Invocation α β) : Session α β :=
  { s with invocations := s.invocations.modify k fun _ => inv }

/-- The main thread runs the latest call; `console` names the call whose callback runs. -/
inductive SessionEvent (α β : Type) where
  | begin (objs : List α)
  | main (e : InvokeEvent β)
  | methodResponse (seq : ℕ) (response : β)
  | console (k : ℕ) (e : InvokeEvent β)

def Session.allows (s : Session α β) : InvokeEvent β → Bool
  | .call seq => !s.called seq
  | _ => true

def sessionStep (s : Session α β) : SessionEvent α β → Option (Session α β)
  | .begin objs =>
    if (s.invocations.entry s.latest).all (·.sender.hasReturned) then
      some { s with invocations := s.invocations.add (invokeMethod objs) }
    else none
  | .main e =>
    if e.onMain && s.allows e then
      (s.invocations.entry s.latest).bind fun inv => (invokeStep inv e).map (s.set s.latest)
    else none
  | .methodResponse seq response =>
    if s.consoleIdle && s.called seq && !s.arrived.contains seq then
      (s.invocations.entry s.latest).map fun inv =>
        { s.set s.latest { inv with
            receiver := .received seq response
            responses := inv.responses ++ [(seq, response)] } with
          arrived := seq :: s.arrived }
    else none
  | .console k e =>
    if e.onConsole then
      (s.invocations.entry k).bind fun inv => (invokeStep inv e).map (s.set k)
    else none

/-! ## What is asked of a run -/

def Session.CalledBy (s : Session α β) (k seq : ℕ) : Prop :=
  ∃ inv, s.invocations.entry k = some inv ∧ seq ∈ inv.calls.map Prod.snd

/-- The number of a call of an invocation that has returned. -/
def Session.Late (s : Session α β) (seq : ℕ) : Prop :=
  ∃ k inv, s.invocations.entry k = some inv ∧ seq ∈ inv.calls.map Prod.snd ∧
    inv.sender.hasReturned = true

def Session.handled (s : Session α β) (k : ℕ) : Option ℕ :=
  (s.invocations.entry k).bind fun inv => inv.receiver.pending.map Prod.fst

def Session.Raised (s : Session α β) (k : ℕ) : Prop :=
  ∃ inv, s.invocations.entry k = some inv ∧ inv.receiver = .failed

def Session.current (s : Session α β) : Option (List (Option β)) :=
  ((s.invocations.entry s.latest).filter fun inv => !inv.sender.hasReturned).map (·.results)

/-- A step of the console thread that handles no response but a late one neither raises
nor changes the results of the invocation in progress. -/
def LateHarmless (s : Session α β) : SessionEvent α β → Prop
  | .methodResponse seq response => s.Late seq →
    ∀ u, sessionStep s (.methodResponse seq response) = some u →
      ¬ u.Raised s.latest ∧ u.current = s.current
  | .console k e => (∀ seq, s.handled k = some seq → s.Late seq) →
    ∀ u, sessionStep s (.console k e) = some u → ¬ u.Raised k ∧ u.current = s.current
  | .begin _ | .main _ => True

/-- The response that is looked up answers a call of the invocation whose callback runs. -/
def OwnResponse (s : Session α β) : SessionEvent α β → Prop
  | .console k .findIndex => ∀ inv seq response, s.invocations.entry k = some inv →
    inv.receiver = .locked seq response → s.CalledBy k seq
  | _ => True

def InTime (s : Session α β) : SessionEvent α β → Prop
  | .methodResponse seq _ => s.CalledBy s.latest seq
  | _ => True

inductive SessionMove (s : Session α β) : SessionEvent α β → Session α β → Prop
  | begin {objs : List α}
      (hlast : ∀ inv, s.invocations.entry s.latest = some inv → inv.sender.hasReturned = true) :
      SessionMove s (.begin objs) { s with invocations := s.invocations.add (invokeMethod objs) }
  | main {e : InvokeEvent β} {inv v : Invocation α β} (he : e.onMain = true)
      (hnew : s.allows e = true) (hinv : s.invocations.entry s.latest = some inv)
      (hv : invokeStep inv e = some v) : SessionMove s (.main e) (s.set s.latest v)
  | methodResponse {seq : ℕ} {response : β} {inv : Invocation α β} (hidle : s.consoleIdle = true)
      (hcalled : s.called seq = true) (hinv : s.invocations.entry s.latest = some inv) :
      SessionMove s (.methodResponse seq response)
        { s.set s.latest { inv with
            receiver := .received seq response
            responses := inv.responses ++ [(seq, response)] } with
          arrived := seq :: s.arrived }
  | console {k : ℕ} {e : InvokeEvent β} {inv v : Invocation α β} (he : e.onConsole = true)
      (hinv : s.invocations.entry k = some inv) (hv : invokeStep inv e = some v) :
      SessionMove s (.console k e) (s.set k v)

section
variable {s u : Session α β} {k : ℕ} {inv v : Invocation α β}

theorem sessionStep_move {e : SessionEvent α β} (h : sessionStep s e = some u) :
    SessionMove s e u := by
  cases e with
  | begin objs =>
    simp only [sessionStep, Option.ite_none_right_eq_some, Option.all_eq_true] at h
    obtain ⟨hlast, heq⟩ := h
    cases heq
    exact .begin hlast
  | main e =>
    simp only [sessionStep, Option.ite_none_right_eq_some, Bool.and_eq_true,
      Option.bind_eq_some_iff, Option.map_eq_some_iff] at h
    obtain ⟨⟨he, hnew⟩, inv, hinv, v, hv, rfl⟩ := h
    exact .main he hnew hinv hv
  | methodResponse seq response =>
    simp only [sessionStep, Option.ite_none_right_eq_some, Bool.and_eq_true,
      Option.map_eq_some_iff] at h
    obtain ⟨⟨⟨hidle, hcalled⟩, -⟩, inv, hinv, rfl⟩ := h
    exact .methodResponse hidle hcalled hinv
  | console k e =>
    simp only [sessionStep, Option.ite_none_right_eq_some, Option.bind_eq_some_iff,
      Option.map_eq_some_iff] at h
    obtain ⟨he, inv, hinv, v, hv, rfl⟩ := h
    exact .console he hinv hv

theorem called_iff {seq : ℕ} : s.called seq = true ↔ ∃ k, s.CalledBy k seq := by
  simp only [Session.called, FreshTable.any_iff, decide_eq_true_eq, Session.CalledBy]

theorem idle_of_consoleIdle (h : s.consoleIdle = true)
    (hinv : s.invocations.entry k = some inv) : inv.receiver = .idle := by
  rw [Session.consoleIdle, Bool.not_eq_true', ← Bool.not_eq_true, FreshTable.any_iff] at h
  cases hr : inv.receiver with
  | idle => rfl
  | _ => exact absurd ⟨k, inv, hinv, by rw [hr]; rfl⟩ h

theorem allows_of_onConsole {e : InvokeEvent β} (he : e.onConsole = true) : s.allows e = true := by
  cases e with
  | call => cases he
  | _ => rfl

theorem set_entry (hinv : s.invocations.entry k = some inv) (j : ℕ) :
    (s.set k v).invocations.entry j = if j = k then some v else s.invocations.entry j := by
  simp only [Session.set, FreshTable.modify_entry, hinv, Option.map_some]

theorem le_latest (hinv : s.invocations.entry k = some inv) : k ≤ s.latest := by
  have := FreshTable.lt_next hinv
  rw [Session.latest]
  omega

end

/-! ## The invariant -/

section
variable {s u : Invocation α β}

/-- The calls only grow, by the number of a `call` step. -/
theorem calls_step {e : InvokeEvent β} (hu : invokeStep s e = some u) :
    s.calls ⊆ u.calls ∧
      ∀ seq ∈ u.calls.map Prod.snd, seq ∈ s.calls.map Prod.snd ∨ e = .call seq := by
  cases invokeStep_move hu with
  | call hs hnew =>
    refine ⟨List.subset_append_left _ _, fun seq hseq => ?_⟩
    rw [List.map_append, List.mem_append, List.map_singleton, List.mem_singleton] at hseq
    rcases hseq with hold | rfl
    · exact .inl hold
    · exact .inr rfl
  | _ => exact ⟨List.Subset.refl _, fun _ hseq => .inl hseq⟩

theorem hasReturned_step {e : InvokeEvent β} (hu : invokeStep s e = some u)
    (hs : s.sender.hasReturned = true) : u.sender.hasReturned = true := by
  cases invokeStep_move hu with
  | acquire h => rw [h] at hs; cases hs
  | call h => rw [h] at hs; cases hs
  | append h => rw [h] at hs; cases hs
  | release h => rw [h] at hs; cases hs
  | wait h => rw [h] at hs; cases hs
  | endWait h => rw [h] at hs; cases hs
  | collect => rfl
  | _ => exact hs

theorem pending_step {e : InvokeEvent β} (he : ∀ seq response, e ≠ .arrive seq response)
    (hu : invokeStep s e = some u) {x : ℕ × β} (hx : u.receiver.pending = some x) :
    s.receiver.pending = some x := by
  cases invokeStep_move hu with
  | arrive => exact absurd rfl (he _ _)
  | lockSeqs hr => rwa [hr]
  | found hr => rwa [hr]
  | notFound => cases hx
  | store => cases hx
  | check hr =>
    dsimp only at hx
    split at hx <;> cases hx
  | signal => cases hx
  | _ => exact hx

end

/-- What holds of the session. Only the latest invocation may be in progress, and a
callback is given no response to a later invocation. -/
structure Session.Inv (s : Session α β) : Prop where
  ordered : ∀ k inv, s.invocations.entry k = some inv → Ordered inv
  distinct : ∀ k j seq, s.CalledBy k seq → s.CalledBy j seq → k = j
  returned : ∀ k inv, s.invocations.entry k = some inv → k ≠ s.latest →
    inv.sender.hasReturned = true
  pending : ∀ k inv x, s.invocations.entry k = some inv → inv.receiver.pending = some x →
    ∃ j ≤ k, s.CalledBy j x.1

section
variable {s u : Session α β} {k : ℕ} {inv v : Invocation α β}

theorem sessionInv_init : (Session.init : Session α β).Inv where
  ordered _ _ h := by cases h
  distinct _ _ _ h := by
    obtain ⟨_, h, -⟩ := h
    cases h
  returned _ _ h := by cases h
  pending _ _ _ h := by cases h

theorem calledBy_set (hinv : s.invocations.entry k = some inv) {j seq : ℕ} :
    (s.set k v).CalledBy j seq ↔
      (j = k ∧ seq ∈ v.calls.map Prod.snd) ∨ (j ≠ k ∧ s.CalledBy j seq) := by
  rw [Session.CalledBy, set_entry hinv]
  by_cases hj : j = k
  · simp [hj]
  · simp [hj, Session.CalledBy]

theorem Session.CalledBy.set {j seq : ℕ} (h : s.CalledBy j seq)
    (hinv : s.invocations.entry k = some inv) (hsub : inv.calls ⊆ v.calls) :
    (s.set k v).CalledBy j seq := by
  obtain ⟨w, hw, hseq⟩ := h
  rw [calledBy_set hinv]
  by_cases hj : j = k
  · subst hj
    rw [hinv] at hw
    cases hw
    exact .inl ⟨rfl, List.map_subset _ hsub hseq⟩
  · exact .inr ⟨hj, w, hw, hseq⟩

theorem Session.Inv.set (h : s.Inv) (hinv : s.invocations.entry k = some inv)
    (hordered : Ordered v) (hsub : inv.calls ⊆ v.calls)
    (hcalls : ∀ seq ∈ v.calls.map Prod.snd, seq ∈ inv.calls.map Prod.snd ∨ s.called seq = false)
    (hreturned : inv.sender.hasReturned = true → v.sender.hasReturned = true)
    (hpending : ∀ x, v.receiver.pending = some x → ∃ j ≤ k, s.CalledBy j x.1) :
    (s.set k v).Inv := by
  -- a number of another invocation is not among those of `v`
  have hother : ∀ {j seq}, j ≠ k → s.CalledBy j seq → seq ∉ v.calls.map Prod.snd := by
    intro j seq hj hcalled hseq
    rcases hcalls seq hseq with hold | hnew
    · exact hj (h.distinct j k seq hcalled ⟨inv, hinv, hold⟩)
    · rw [called_iff.mpr ⟨j, hcalled⟩] at hnew
      cases hnew
  exact {
    ordered := fun j w hw => by
      rw [set_entry hinv] at hw
      split at hw
      · cases hw
        exact hordered
      · exact h.ordered j w hw
    distinct := fun i j seq hi hj => by
      rw [calledBy_set hinv] at hi hj
      rcases hi with ⟨rfl, hi⟩ | ⟨hik, hi⟩ <;> rcases hj with ⟨rfl, hj⟩ | ⟨hjk, hj⟩
      · rfl
      · exact absurd hi (hother hjk hj)
      · exact absurd hj (hother hik hi)
      · exact h.distinct i j seq hi hj
    returned := fun j w hw hj => by
      rw [set_entry hinv] at hw
      split at hw
      · rename_i hjk
        subst hjk
        cases hw
        exact hreturned (h.returned j inv hinv hj)
      · exact h.returned j w hw hj
    pending := fun j w x hw hx => by
      rw [set_entry hinv] at hw
      split at hw
      · rename_i hjk
        subst hjk
        cases hw
        obtain ⟨i, hi, hcalled⟩ := hpending x hx
        exact ⟨i, hi, hcalled.set hinv hsub⟩
      · obtain ⟨i, hi, hcalled⟩ := h.pending j w x hw hx
        exact ⟨i, hi, hcalled.set hinv hsub⟩ }

theorem sessionInv_invoke (h : s.Inv) (hinv : s.invocations.entry k = some inv)
    {e : InvokeEvent β} (he : ∀ seq response, e ≠ .arrive seq response)
    (hnew : s.allows e = true) (hv : invokeStep inv e = some v) : (s.set k v).Inv := by
  obtain ⟨hsub, hcalls⟩ := calls_step hv
  refine h.set hinv (ordered_step (h.ordered k inv hinv) hv) hsub ?_ (hasReturned_step hv) ?_
  · intro seq hseq
    apply (hcalls seq hseq).imp_right
    rintro rfl
    simpa [Session.allows] using hnew
  · exact fun x hx => h.pending k inv x hinv (pending_step he hv hx)

theorem calledBy_begin {objs : List α} {j seq : ℕ} :
    Session.CalledBy { s with invocations := s.invocations.add (invokeMethod objs) } j seq ↔
      s.CalledBy j seq := by
  constructor
  · rintro ⟨inv, hinv, hseq⟩
    rcases FreshTable.add_entry_some hinv with ⟨-, rfl⟩ | hold
    · cases hseq
    · exact ⟨inv, hold, hseq⟩
  · rintro ⟨inv, hinv, hseq⟩
    refine ⟨inv, ?_, hseq⟩
    rw [FreshTable.add_entry, if_neg (FreshTable.ne_next hinv), hinv]

theorem sessionInv_begin (h : s.Inv) (objs : List α)
    (hlast : ∀ inv, s.invocations.entry s.latest = some inv → inv.sender.hasReturned = true) :
    Session.Inv { s with invocations := s.invocations.add (invokeMethod objs) } where
  ordered k inv hinv := by
    rcases FreshTable.add_entry_some hinv with ⟨-, rfl⟩ | hold
    · exact ordered_init objs
    · exact h.ordered k inv hold
  distinct i j seq hi hj := by
    rw [calledBy_begin] at hi hj
    exact h.distinct i j seq hi hj
  returned k inv hinv hk := by
    rcases FreshTable.add_entry_some hinv with ⟨rfl, -⟩ | hold
    · exact absurd (Nat.add_sub_cancel _ 1).symm hk
    · by_cases hlatest : k = s.latest
      · subst hlatest
        exact hlast inv hold
      · exact h.returned k inv hold hlatest
  pending k inv x hinv hx := by
    rcases FreshTable.add_entry_some hinv with ⟨-, rfl⟩ | hold
    · cases hx
    · obtain ⟨j, hj, hcalled⟩ := h.pending k inv x hold hx
      exact ⟨j, hj, calledBy_begin.mpr hcalled⟩

theorem sessionInv_methodResponse (h : s.Inv) (hidle : s.consoleIdle = true) {seq : ℕ}
    (hcalled : s.called seq = true) (hinv : s.invocations.entry s.latest = some inv)
    (response : β) (responses : List (ℕ × β)) (arrived : List ℕ) :
    Session.Inv { s.set s.latest { inv with
      receiver := .received seq response, responses := responses } with arrived := arrived } := by
  have hreceiver := idle_of_consoleIdle hidle hinv
  have hset := h.set hinv ((h.ordered _ _ hinv).received hreceiver seq response responses)
    (List.Subset.refl _) (fun _ hseq => .inl hseq) id
    (fun x hx => by
      cases hx
      obtain ⟨j, w, hw, hseq⟩ := called_iff.mp hcalled
      exact ⟨j, le_latest hw, w, hw, hseq⟩)
  exact ⟨hset.ordered, hset.distinct, hset.returned, hset.pending⟩

theorem sessionInv_step (h : s.Inv) {e : SessionEvent α β} (hu : sessionStep s e = some u) :
    u.Inv := by
  cases sessionStep_move hu with
  | begin hlast => exact sessionInv_begin h _ hlast
  | main he hnew hinv hv =>
    refine sessionInv_invoke h hinv ?_ hnew hv
    rintro seq response rfl
    cases he
  | methodResponse hidle hcalled hinv => exact sessionInv_methodResponse h hidle hcalled hinv _ _ _
  | console he hinv hv =>
    refine sessionInv_invoke h hinv ?_ (allows_of_onConsole he) hv
    rintro seq response rfl
    cases he

/-! ## Late responses -/

theorem console_step {e : InvokeEvent β} (he : e.onConsole = true)
    (hv : invokeStep inv e = some v) : v.sender = inv.sender ∧
      (v.results = inv.results ∨ ∃ seq i response, inv.receiver = .indexed seq i response) := by
  cases invokeStep_move hv with
  | lockSeqs => exact ⟨rfl, .inl rfl⟩
  | found => exact ⟨rfl, .inl rfl⟩
  | notFound => exact ⟨rfl, .inl rfl⟩
  | store hr => exact ⟨rfl, .inr ⟨_, _, _, hr⟩⟩
  | check => exact ⟨rfl, .inl rfl⟩
  | signal => exact ⟨rfl, .inl rfl⟩
  | _ => cases he

theorem failed_step {e : InvokeEvent β} (he : e.onConsole = true) (hv : invokeStep inv e = some v)
    (hfailed : v.receiver = .failed) : e = .findIndex ∧
      ∃ seq response, inv.receiver = .locked seq response ∧ seq ∉ inv.seqs := by
  cases invokeStep_move hv with
  | lockSeqs => cases hfailed
  | found => cases hfailed
  | notFound hr hnone => exact ⟨rfl, _, _, hr, findIdx_none_iff.mp hnone⟩
  | store => cases hfailed
  | check =>
    dsimp only at hfailed
    split at hfailed <;> cases hfailed
  | signal => cases hfailed
  | _ => cases he

theorem raised_set (hinv : s.invocations.entry k = some inv) :
    (s.set k v).Raised k ↔ v.receiver = .failed := by
  simp [Session.Raised, set_entry hinv]

theorem current_set (hinv : s.invocations.entry k = some inv) (hsender : v.sender = inv.sender)
    (hresults : k = s.latest → inv.sender.hasReturned = false → v.results = inv.results) :
    (s.set k v).current = s.current := by
  have hlatest : (s.set k v).latest = s.latest := rfl
  rw [Session.current, Session.current, hlatest, set_entry hinv]
  split
  · rename_i hk
    rw [hk, hinv, Option.filter_some, Option.filter_some, hsender]
    by_cases hreturned : inv.sender.hasReturned = true
    · simp only [hreturned, Bool.not_true, Bool.false_eq_true, if_false, Option.map_none]
    · have hsame := hresults hk.symm (Bool.eq_false_of_not_eq_true hreturned)
      simp only [hreturned, Bool.not_false, if_true, Option.map_some, hsame]
  · rfl

/-- The number that callback `k` handles is late when it is not of a call of `k`. -/
theorem late_of_foreign (h : s.Inv) (hinv : s.invocations.entry k = some inv) {x : ℕ × β}
    (hx : inv.receiver.pending = some x) (hno : ¬ s.CalledBy k x.1) : s.Late x.1 := by
  obtain ⟨j, hj, w, hw, hseq⟩ := h.pending k inv x hinv hx
  have hne : j ≠ k := by
    rintro rfl
    exact hno ⟨w, hw, hseq⟩
  have hlatest := le_latest hinv
  exact ⟨j, w, hw, hseq, h.returned j w hw (by omega)⟩

theorem harmless_of_own (h : s.Inv) {e : InvokeEvent β} (he : e.onConsole = true)
    (hinv : s.invocations.entry k = some inv) (hv : invokeStep inv e = some v)
    (hown : OwnResponse s (.console k e)) (hlate : ∀ seq, s.handled k = some seq → s.Late seq) :
    ¬ (s.set k v).Raised k ∧ (s.set k v).current = s.current := by
  have hordered := h.ordered k inv hinv
  obtain ⟨hsender, hresults⟩ := console_step he hv
  constructor
  · intro hraised
    obtain ⟨rfl, seq, response, hr, hseq⟩ := failed_step he hv ((raised_set hinv).mp hraised)
    obtain ⟨w, hw, hmem⟩ := hown inv seq response hinv hr
    rw [hinv] at hw
    cases hw
    rw [hordered.seqs_of_locked hr] at hmem
    exact hseq hmem
  · apply current_set hinv hsender
    intro hk hreturned
    rcases hresults with hsame | ⟨seq, i, response, hr⟩
    · exact hsame
    · -- the number is known to the callback, so its invocation would have returned
      obtain ⟨j, w, hw, hseq, hback⟩ := hlate seq (by rw [Session.handled, hinv]; simp [hr, Receiver.pending])
      obtain rfl := h.distinct j k seq ⟨w, hw, hseq⟩ ⟨inv, hinv, hordered.index seq i response hr⟩
      rw [hinv] at hw
      cases hw
      rw [hback] at hreturned
      cases hreturned

theorem own_of_harmless (h : s.Inv) (hinv : s.invocations.entry k = some inv) {seq : ℕ}
    {response : β} (hr : inv.receiver = .locked seq response)
    (hharmless : LateHarmless s (.console k .findIndex)) : s.CalledBy k seq := by
  by_contra hno
  have hseq : seq ∉ inv.seqs := by
    rw [← (h.ordered k inv hinv).seqs_of_locked hr]
    exact fun hmem => hno ⟨inv, hinv, hmem⟩
  have hv : invokeStep inv .findIndex = some { inv with seqlock := false, receiver := .failed } := by
    simp only [invokeStep, hr, findIdx_none_iff.mpr hseq]
  have hpending : inv.receiver.pending = some (seq, response) := by rw [hr]; rfl
  have hlate := late_of_foreign h hinv hpending hno
  refine (hharmless ?_ (s.set k { inv with seqlock := false, receiver := .failed }) ?_).1
    ((raised_set hinv).mpr rfl)
  · intro seq' hhandled
    rw [Session.handled, hinv, Option.bind_some, hpending] at hhandled
    cases hhandled
    exact hlate
  · simp only [sessionStep, InvokeEvent.onConsole, hinv, Option.bind_some, hv, Option.map_some,
      if_true]

theorem lateHarmless_iff (h : s.Inv) {e : SessionEvent α β} (hu : sessionStep s e = some u) :
    LateHarmless s e ↔ OwnResponse s e := by
  cases sessionStep_move hu with
  | begin => exact Iff.rfl
  | main => exact Iff.rfl
  | methodResponse hidle hcalled hinv =>
    simp only [OwnResponse, iff_true]
    intro _ w hw
    rw [hu] at hw
    cases hw
    constructor
    · intro hraised
      cases (raised_set hinv).mp hraised
    · exact current_set hinv rfl (fun _ _ => rfl)
  | @console k e inv v he hinv hv =>
    constructor
    · intro hharmless
      cases e with
      | findIndex =>
        intro inv' seq response hinv' hr
        exact own_of_harmless h hinv' hr hharmless
      | _ => trivial
    · intro hown hlate w hw
      rw [hu] at hw
      cases hw
      exact harmless_of_own h he hinv hv hown hlate

theorem late_responses_iff (es : List (SessionEvent α β)) :
    Throughout sessionStep LateHarmless Session.init es ↔
      Throughout sessionStep OwnResponse Session.init es :=
  throughout_congr (fun _ _ _ h hu => sessionInv_step h hu) (fun _ _ _ h hu => lateHarmless_iff h hu)
    sessionInv_init es

/-! ## Responses that come in time -/

def Session.Own (s : Session α β) : Prop :=
  ∀ k inv x, s.invocations.entry k = some inv → inv.receiver.pending = some x → s.CalledBy k x.1

theorem Session.Own.set (h : s.Own) (hinv : s.invocations.entry k = some inv)
    (hsub : inv.calls ⊆ v.calls)
    (hpending : ∀ x, v.receiver.pending = some x → s.CalledBy k x.1) : (s.set k v).Own := by
  intro j w x hw hx
  rw [set_entry hinv] at hw
  split at hw
  · rename_i hjk
    subst hjk
    cases hw
    exact (hpending x hx).set hinv hsub
  · exact (h j w x hw hx).set hinv hsub

theorem sessionOwn_step (h : s.Own) {e : SessionEvent α β} (hin : InTime s e)
    (hu : sessionStep s e = some u) : u.Own := by
  cases sessionStep_move hu with
  | begin =>
    intro k inv x hinv hx
    rcases FreshTable.add_entry_some hinv with ⟨-, rfl⟩ | hold
    · cases hx
    · exact calledBy_begin.mpr (h k inv x hold hx)
  | main he hnew hinv hv =>
    refine h.set hinv (calls_step hv).1 (fun x hx => h _ _ x hinv (pending_step ?_ hv hx))
    rintro seq response rfl
    cases he
  | @methodResponse seq response inv hidle hcalled hinv =>
    have hset : (s.set s.latest { inv with
        receiver := .received seq response
        responses := inv.responses ++ [(seq, response)] }).Own := by
      refine h.set hinv (List.Subset.refl _) ?_
      intro x hx
      cases hx
      exact hin
    exact hset
  | console he hinv hv =>
    refine h.set hinv (calls_step hv).1 (fun x hx => h _ _ x hinv (pending_step ?_ hv hx))
    rintro seq response rfl
    cases he

theorem own_of_inTime {es : List (SessionEvent α β)}
    (h : Throughout sessionStep InTime (Session.init : Session α β) es) :
    Throughout sessionStep OwnResponse (Session.init : Session α β) es := by
  refine h.imp_of_preserved (fun _ _ _ hown hin hu => sessionOwn_step hown hin hu) ?_
    (fun k inv x hinv _ => by cases hinv)
  intro s e hown hin
  cases e with
  | console k e =>
    cases e with
    | findIndex =>
      intro inv seq response hinv hr
      exact hown k inv (seq, response) hinv (by rw [hr]; rfl)
    | _ => trivial
  | _ => trivial

end

def responseLate : List (SessionEvent String Bool) :=
  [.begin ["a"], .main .acquire, .main (.call 7), .main .append, .main .release, .main .wait,
    .main .endWait, .main .collect, .begin ["b"], .methodResponse 7 true, .console 2 .lockSeqs]

/-- The second callback raises the `ValueError` of `seqs.index`. -/
theorem late_response_raises :
    ¬ ∀ es : List (SessionEvent String Bool),
      Throughout sessionStep LateHarmless Session.init es := by
  intro hall
  obtain ⟨u, hu⟩ : ∃ u, exec sessionStep Session.init
      (responseLate ++ [.console 2 .findIndex]) = some u :=
    Option.isSome_iff_exists.mp (by decide +kernel)
  have hraised : (exec sessionStep Session.init (responseLate ++ [.console 2 .findIndex])).bind
      (·.invocations.entry 2) = some ⟨[none], [], false, false, .sending ["b"], .failed, [],
        [(7, true)]⟩ := by decide +kernel
  rw [hu] at hraised
  rw [exec_append] at hu
  obtain ⟨s, hs, hlast⟩ := Option.bind_eq_some_iff.mp hu
  obtain ⟨w, hstep, hw⟩ := exec_cons_some hlast
  cases hw
  have hfirst : (exec sessionStep Session.init responseLate).bind (·.invocations.entry 1) =
      some ⟨[none], [7], false, false, .returned [none], .idle, [("a", 7)], []⟩ := by
    decide +kernel
  have hhandled : (exec sessionStep Session.init responseLate).bind (·.handled 2) = some 7 := by
    decide +kernel
  rw [hs, Option.bind_some] at hfirst hhandled
  have hrest := (hall (responseLate ++ [.console 2 .findIndex])).drop hs
  obtain ⟨hharmless, -⟩ := hrest u hstep
  refine (hharmless ?_ u hstep).1 ⟨_, hraised, rfl⟩
  intro seq hseq
  rw [hhandled] at hseq
  cases hseq
  exact ⟨1, _, hfirst, by decide, rfl⟩

end Matahari.Manager
