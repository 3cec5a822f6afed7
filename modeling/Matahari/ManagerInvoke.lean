import Matahari.Library.Transition

set_option autoImplicit false

/-!
# Calls on many objects

`Manager.invoke_method` of `core.py` sends one asynchronous call for each object and waits
for an event; `recv_response` runs on the console thread. The two threads share the list of
sequence numbers, the results and the event, and a lock that the handler holds only while
it looks up the sequence number. Every access is a step of its own.

`calls` and `responses` are a record of the calls made and of the responses that arrived.
A call gets at most one response, and its number is new.
-/
namespace Matahari.Manager
open TransitionRuns

variable {α β : Type}

inductive Sender (α β : Type) where
  | sending (rest : List α)
  | calling (o : α) (rest : List α)
  | appending (seq : ℕ) (rest : List α)
  | releasing (rest : List α)
  | waiting
  | collecting
  | returned (results : List (Option β))
  deriving DecidableEq, Repr

inductive Receiver (β : Type) where
  | idle
  | received (seq : ℕ) (response : β)
  | locked (seq : ℕ) (response : β)
  | indexed (seq i : ℕ) (response : β)
  | stored
  | signalling
  | failed
  deriving DecidableEq, Repr

structure Invocation (α β : Type) where
  results : List (Option β)
  seqs : List ℕ
  event : Bool
  seqlock : Bool
  sender : Sender α β
  receiver : Receiver β
  calls : List (α × ℕ)
  responses : List (ℕ × β)
  deriving DecidableEq, Repr

def invokeMethod (objs : List α) : Invocation α β :=
  ⟨List.replicate objs.length none, [], false, false, .sending objs, .idle, [], []⟩

inductive InvokeEvent (β : Type) where
  | acquire
  | call (seq : ℕ)
  | append
  | release
  | wait
  | endWait
  | collect
  | arrive (seq : ℕ) (response : β)
  | lockSeqs
  | findIndex
  | store
  | check
  | signal

/-- The wait may end at any time, by the event or by the timeout. -/
def invokeStep (s : Invocation α β) : InvokeEvent β → Option (Invocation α β)
  | .acquire => match s.sender with
    | .sending (o :: rest) =>
      if s.seqlock then none else some { s with seqlock := true, sender := .calling o rest }
    | _ => none
  | .call seq => match s.sender with
    | .calling o rest =>
      if seq ∈ s.calls.map Prod.snd then none
      else some { s with calls := s.calls ++ [(o, seq)], sender := .appending seq rest }
    | _ => none
  | .append => match s.sender with
    | .appending seq rest => some { s with seqs := s.seqs ++ [seq], sender := .releasing rest }
    | _ => none
  | .release => match s.sender with
    | .releasing rest => some { s with seqlock := false, sender := .sending rest }
    | _ => none
  | .wait => match s.sender with
    | .sending [] => some { s with sender := .waiting }
    | _ => none
  | .endWait => match s.sender with
    | .waiting => some { s with sender := .collecting }
    | _ => none
  | .collect => match s.sender with
    | .collecting => some { s with sender := .returned s.results }
    | _ => none
  | .arrive seq response => match s.receiver with
    | .idle =>
      if seq ∈ s.calls.map Prod.snd ∧ seq ∉ s.responses.map Prod.fst then
        some { s with receiver := .received seq response, responses := s.responses ++ [(seq, response)] }
      else none
    | _ => none
  | .lockSeqs => match s.receiver with
    | .received seq response =>
      if s.seqlock then none else some { s with seqlock := true, receiver := .locked seq response }
    | _ => none
  | .findIndex => match s.receiver with
    | .locked seq response => match s.seqs.findIdx? (· == seq) with
      | some i => some { s with seqlock := false, receiver := .indexed seq i response }
      | none => some { s with seqlock := false, receiver := .failed }
    | _ => none
  | .store => match s.receiver with
    | .indexed _ i response =>
      some { s with results := s.results.set i (some response), receiver := .stored }
    | _ => none
  | .check => match s.receiver with
    | .stored =>
      some { s with receiver := if s.results.all (·.isSome) then .signalling else .idle }
    | _ => none
  | .signal => match s.receiver with
    | .signalling => some { s with event := true, receiver := .idle }
    | _ => none

inductive InvokeMove (s : Invocation α β) : InvokeEvent β → Invocation α β → Prop
  | acquire {o : α} {rest : List α} (hs : s.sender = .sending (o :: rest))
      (hfree : s.seqlock = false) :
      InvokeMove s .acquire { s with seqlock := true, sender := .calling o rest }
  | call {o : α} {rest : List α} {seq : ℕ} (hs : s.sender = .calling o rest)
      (hnew : seq ∉ s.calls.map Prod.snd) :
      InvokeMove s (.call seq)
        { s with calls := s.calls ++ [(o, seq)], sender := .appending seq rest }
  | append {seq : ℕ} {rest : List α} (hs : s.sender = .appending seq rest) :
      InvokeMove s .append { s with seqs := s.seqs ++ [seq], sender := .releasing rest }
  | release {rest : List α} (hs : s.sender = .releasing rest) :
      InvokeMove s .release { s with seqlock := false, sender := .sending rest }
  | wait (hs : s.sender = .sending []) : InvokeMove s .wait { s with sender := .waiting }
  | endWait (hs : s.sender = .waiting) : InvokeMove s .endWait { s with sender := .collecting }
  | collect (hs : s.sender = .collecting) :
      InvokeMove s .collect { s with sender := .returned s.results }
  | arrive {seq : ℕ} {response : β} (hr : s.receiver = .idle) (hseq : seq ∈ s.calls.map Prod.snd)
      (hnew : seq ∉ s.responses.map Prod.fst) :
      InvokeMove s (.arrive seq response)
        { s with receiver := .received seq response, responses := s.responses ++ [(seq, response)] }
  | lockSeqs {seq : ℕ} {response : β} (hr : s.receiver = .received seq response)
      (hfree : s.seqlock = false) :
      InvokeMove s .lockSeqs { s with seqlock := true, receiver := .locked seq response }
  | found {seq i : ℕ} {response : β} (hr : s.receiver = .locked seq response)
      (hi : s.seqs.findIdx? (· == seq) = some i) :
      InvokeMove s .findIndex { s with seqlock := false, receiver := .indexed seq i response }
  | notFound {seq : ℕ} {response : β} (hr : s.receiver = .locked seq response)
      (hnone : s.seqs.findIdx? (· == seq) = none) :
      InvokeMove s .findIndex { s with seqlock := false, receiver := .failed }
  | store {seq i : ℕ} {response : β} (hr : s.receiver = .indexed seq i response) :
      InvokeMove s .store { s with results := s.results.set i (some response), receiver := .stored }
  | check (hr : s.receiver = .stored) :
      InvokeMove s .check
        { s with receiver := if s.results.all (·.isSome) then .signalling else .idle }
  | signal (hr : s.receiver = .signalling) :
      InvokeMove s .signal { s with event := true, receiver := .idle }

theorem invokeStep_move {s u : Invocation α β} {e : InvokeEvent β} (h : invokeStep s e = some u) :
    InvokeMove s e u := by
  unfold invokeStep at h
  cases e with
  | acquire =>
    dsimp only at h
    split at h
    · rename_i o rest hs
      rw [Option.ite_none_left_eq_some, Bool.not_eq_true] at h
      obtain ⟨hfree, heq⟩ := h
      cases heq
      exact .acquire hs hfree
    · cases h
  | call seq =>
    dsimp only at h
    split at h
    · rename_i o rest hs
      rw [Option.ite_none_left_eq_some] at h
      obtain ⟨hnew, heq⟩ := h
      cases heq
      exact .call hs hnew
    · cases h
  | append =>
    dsimp only at h
    split at h
    · rename_i seq rest hs
      cases h
      exact .append hs
    · cases h
  | release =>
    dsimp only at h
    split at h
    · rename_i rest hs
      cases h
      exact .release hs
    · cases h
  | wait =>
    dsimp only at h
    split at h
    · rename_i hs
      cases h
      exact .wait hs
    · cases h
  | endWait =>
    dsimp only at h
    split at h
    · rename_i hs
      cases h
      exact .endWait hs
    · cases h
  | collect =>
    dsimp only at h
    split at h
    · rename_i hs
      cases h
      exact .collect hs
    · cases h
  | arrive seq response =>
    dsimp only at h
    split at h
    · rename_i hr
      rw [Option.ite_none_right_eq_some] at h
      obtain ⟨⟨hseq, hnew⟩, heq⟩ := h
      cases heq
      exact .arrive hr hseq hnew
    · cases h
  | lockSeqs =>
    dsimp only at h
    split at h
    · rename_i seq response hr
      rw [Option.ite_none_left_eq_some, Bool.not_eq_true] at h
      obtain ⟨hfree, heq⟩ := h
      cases heq
      exact .lockSeqs hr hfree
    · cases h
  | findIndex =>
    dsimp only at h
    split at h
    · rename_i seq response hr
      split at h
      · rename_i i hi
        cases h
        exact .found hr hi
      · rename_i hnone
        cases h
        exact .notFound hr hnone
    · cases h
  | store =>
    dsimp only at h
    split at h
    · rename_i seq i response hr
      cases h
      exact .store hr
    · cases h
  | check =>
    dsimp only at h
    split at h
    · rename_i hr
      cases h
      exact .check hr
    · cases h
  | signal =>
    dsimp only at h
    split at h
    · rename_i hr
      cases h
      exact .signal hr
    · cases h

/-! ## Places of the two threads -/

def Sender.rest : Sender α β → List α
  | .sending rest | .appending _ rest | .releasing rest => rest
  | .calling o rest => o :: rest
  | .waiting | .collecting | .returned _ => []

def Sender.unappended : Sender α β → List ℕ
  | .appending seq _ => [seq]
  | _ => []

def Sender.holds : Sender α β → Bool
  | .calling _ _ | .appending _ _ | .releasing _ => true
  | _ => false

def Receiver.holds : Receiver β → Bool
  | .locked _ _ => true
  | _ => false

def Receiver.pending : Receiver β → Option (ℕ × β)
  | .received seq response | .locked seq response | .indexed seq _ response => some (seq, response)
  | _ => none

/-! ## The lock -/

/-- What holds of an invocation whatever responses its callback is given. -/
structure Ordered (s : Invocation α β) : Prop where
  numbers : s.calls.map Prod.snd = s.seqs ++ s.sender.unappended
  lock : s.seqlock = (s.sender.holds || s.receiver.holds)
  exclusive : (s.sender.holds && s.receiver.holds) = false
  index : ∀ seq i response, s.receiver = .indexed seq i response → seq ∈ s.calls.map Prod.snd

section
variable {s u : Invocation α β}

theorem ordered_init (objs : List α) : Ordered (invokeMethod objs : Invocation α β) where
  numbers := rfl
  lock := rfl
  exclusive := rfl
  index _ _ _ h := by cases h

/-- With the lock the callback sees every number. -/
theorem Ordered.seqs_of_locked (h : Ordered s) {seq : ℕ} {response : β}
    (hr : s.receiver = .locked seq response) : s.calls.map Prod.snd = s.seqs := by
  have hexcl := h.exclusive
  rw [hr, Receiver.holds, Bool.and_true] at hexcl
  have hnumbers := h.numbers
  cases hs : s.sender with
  | appending seq rest =>
    rw [hs] at hexcl
    cases hexcl
  | _ => simpa [hs, Sender.unappended] using hnumbers

theorem findIdx_none_iff {seqs : List ℕ} {seq : ℕ} :
    seqs.findIdx? (· == seq) = none ↔ seq ∉ seqs := by
  rw [List.findIdx?_eq_none_iff]
  constructor
  · intro h hseq
    simpa using h seq hseq
  · intro h x hx
    rw [beq_eq_false_iff_ne]
    rintro rfl
    exact h hx

/-- A step of one thread: the other keeps its place, and the lock moves with the holder. -/
theorem Ordered.threads (h : Ordered s) {sender : Sender α β} {receiver : Receiver β}
    {seqs : List ℕ} {lock : Bool} {results : List (Option β)} {event : Bool}
    (hseqs : seqs ++ sender.unappended = s.seqs ++ s.sender.unappended)
    (hlock : lock = (sender.holds || receiver.holds))
    (hexcl : (sender.holds && receiver.holds) = false)
    (hindex : ∀ seq i response, receiver = .indexed seq i response →
      seq ∈ s.calls.map Prod.snd) :
    Ordered { s with
      sender := sender, receiver := receiver, seqs := seqs, seqlock := lock,
      results := results, event := event } where
  numbers := by rw [hseqs]; exact h.numbers
  lock := hlock
  exclusive := hexcl
  index := hindex

theorem Ordered.sender (h : Ordered s) {sender : Sender α β}
    (hunappended : sender.unappended = s.sender.unappended)
    (hholds : sender.holds = s.sender.holds) : Ordered { s with sender := sender } := by
  apply h.threads
  · rw [hunappended]
  · rw [hholds]
    exact h.lock
  · rw [hholds]
    exact h.exclusive
  · exact h.index

theorem Ordered.receiver (h : Ordered s) {receiver : Receiver β} {results : List (Option β)}
    {event : Bool} (hbefore : s.receiver.holds = false) (hholds : receiver.holds = false)
    (hindex : ∀ seq i response, receiver ≠ .indexed seq i response) :
    Ordered { s with receiver := receiver, results := results, event := event } := by
  apply h.threads rfl
  · rw [hholds, ← hbefore]
    exact h.lock
  · rw [hholds, Bool.and_false]
  · exact fun seq i response hr => absurd hr (hindex seq i response)

theorem Ordered.looked (h : Ordered s) {seq : ℕ} {response : β}
    (hr : s.receiver = .locked seq response) {receiver : Receiver β}
    (hholds : receiver.holds = false)
    (hindex : ∀ seq i response, receiver = .indexed seq i response →
      seq ∈ s.calls.map Prod.snd) :
    Ordered { s with seqlock := false, receiver := receiver } := by
  have hexcl := h.exclusive
  rw [hr, Receiver.holds, Bool.and_true] at hexcl
  apply h.threads rfl
  · rw [hexcl, hholds, Bool.or_self]
  · rw [hholds, Bool.and_false]
  · exact hindex

theorem Ordered.received (h : Ordered s) (hr : s.receiver = .idle) (seq : ℕ) (response : β)
    (responses : List (ℕ × β)) :
    Ordered { s with receiver := .received seq response, responses := responses } := by
  have hlock := h.lock
  rw [hr] at hlock
  exact {
    numbers := h.numbers
    lock := hlock
    exclusive := Bool.and_false _
    index := fun _ _ _ hx => by cases hx }

theorem ordered_step (h : Ordered s) {e : InvokeEvent β} (hu : invokeStep s e = some u) :
    Ordered u := by
  have hlock := h.lock
  have hexcl := h.exclusive
  cases invokeStep_move hu with
  | acquire hs hfree =>
    rw [hfree, hs] at hlock
    have hidle : s.receiver.holds = false := by simpa [Sender.holds] using hlock.symm
    exact h.threads (by rw [hs]; rfl) (by simp [Sender.holds]) (by simp [hidle]) h.index
  | call hs hnew =>
    rw [hs] at hlock hexcl
    exact {
      numbers := by simpa [hs, Sender.unappended] using h.numbers
      lock := hlock
      exclusive := hexcl
      index := fun seq i response hr => by
        rw [List.map_append]
        exact List.mem_append_left _ (h.index seq i response hr) }
  | append hs =>
    rw [hs] at hlock hexcl
    exact h.threads (by rw [hs]; simp [Sender.unappended]) hlock hexcl h.index
  | release hs =>
    rw [hs] at hexcl
    have hidle : s.receiver.holds = false := by simpa [Sender.holds] using hexcl
    exact h.threads (by rw [hs]; rfl) (by simp [Sender.holds, hidle]) (by simp [hidle]) h.index
  | wait hs => exact h.sender (by rw [hs]; rfl) (by rw [hs]; rfl)
  | endWait hs => exact h.sender (by rw [hs]; rfl) (by rw [hs]; rfl)
  | collect hs => exact h.sender (by rw [hs]; rfl) (by rw [hs]; rfl)
  | arrive hr hseq hnew => exact h.received hr _ _ _
  | lockSeqs hr hfree =>
    rw [hfree, hr] at hlock
    have hidle : s.sender.holds = false := by simpa [Receiver.holds] using hlock.symm
    exact h.threads rfl (by simp [Receiver.holds]) (by simp [hidle]) (fun _ _ _ hx => by cases hx)
  | found hr hi =>
    apply h.looked hr rfl
    intro seq' i' response' heq
    cases heq
    rw [h.seqs_of_locked hr]
    by_contra hseq
    rw [findIdx_none_iff.mpr hseq] at hi
    cases hi
  | notFound hr hnone => exact h.looked hr rfl (fun _ _ _ hx => by cases hx)
  | store hr => exact h.receiver (by rw [hr]; rfl) rfl (fun _ _ _ hx => by cases hx)
  | check hr =>
    apply h.receiver (by rw [hr]; rfl)
    · split <;> rfl
    · intro seq i response hx
      split at hx <;> cases hx
  | signal hr => exact h.receiver (by rw [hr]; rfl) rfl (fun _ _ _ hx => by cases hx)

end

/-! ## The invariant -/

def Answers (s : Invocation α β) (i : ℕ) (response : β) : Prop :=
  ∃ o seq, s.calls[i]? = some (o, seq) ∧ (seq, response) ∈ s.responses

structure Coherent (objs : List α) (s : Invocation α β) : Prop where
  objects : s.calls.map Prod.fst ++ s.sender.rest = objs
  numbers : s.calls.map Prod.snd = s.seqs ++ s.sender.unappended
  distinct : (s.calls.map Prod.snd).Nodup
  lock : s.seqlock = (s.sender.holds || s.receiver.holds)
  exclusive : (s.sender.holds && s.receiver.holds) = false
  length : s.results.length = objs.length
  answered : (s.responses.map Prod.fst).Nodup
  known : ∀ x ∈ s.responses, x.1 ∈ s.calls.map Prod.snd
  results : ∀ i response, s.results[i]? = some (some response) → Answers s i response
  pending : ∀ x, s.receiver.pending = some x → x ∈ s.responses
  index : ∀ seq i response, s.receiver = .indexed seq i response →
    (s.calls.map Prod.snd)[i]? = some seq
  kept : ∀ x ∈ s.responses, s.receiver.pending = some x ∨
    ∃ (i : ℕ) (o : α), s.calls[i]? = some (o, x.1) ∧ s.results[i]? = some (some x.2)
  found : s.receiver ≠ .failed
  complete : s.event = true ∨ s.receiver = .signalling → s.results.all (·.isSome) = true

section
variable {objs : List α} {s u : Invocation α β}

theorem coherent_init (objs : List α) : Coherent objs (invokeMethod objs : Invocation α β) := by
  constructor
  all_goals simp [invokeMethod, Sender.rest, Sender.unappended, Sender.holds, Receiver.holds,
    Receiver.pending, List.getElem?_replicate]

theorem Coherent.ordered (h : Coherent objs s) : Ordered s where
  numbers := h.numbers
  lock := h.lock
  exclusive := h.exclusive
  index seq i response hr := List.mem_of_getElem? (h.index seq i response hr)

theorem coherent_sender (h : Coherent objs s) {sender : Sender α β} {seqs : List ℕ} {lock : Bool}
    (hrest : sender.rest = s.sender.rest)
    (ho : Ordered { s with sender := sender, seqs := seqs, seqlock := lock }) :
    Coherent objs { s with sender := sender, seqs := seqs, seqlock := lock } :=
  { h with
    objects := by simpa only [hrest] using h.objects
    numbers := ho.numbers
    lock := ho.lock
    exclusive := ho.exclusive }

theorem coherent_call (h : Coherent objs s) {o : α} {rest : List α} {seq : ℕ}
    (hs : s.sender = .calling o rest) (hnew : seq ∉ s.calls.map Prod.snd)
    (ho : Ordered { s with calls := s.calls ++ [(o, seq)], sender := .appending seq rest }) :
    Coherent objs { s with calls := s.calls ++ [(o, seq)], sender := .appending seq rest } := by
  have hget : ∀ {i : ℕ} {c : α × ℕ}, s.calls[i]? = some c →
      (s.calls ++ [(o, seq)])[i]? = some c := by
    intro i c hc
    rw [List.getElem?_append_left (List.getElem?_eq_some_iff.mp hc).1, hc]
  exact { h with
    objects := by simpa [hs, Sender.rest] using h.objects
    numbers := ho.numbers
    distinct := by
      rw [List.map_append, List.map_singleton, ← List.concat_eq_append]
      exact h.distinct.concat hnew
    lock := ho.lock
    exclusive := ho.exclusive
    known := fun x hx => by
      rw [List.map_append]
      exact List.mem_append_left _ (h.known x hx)
    results := fun i response hi => by
      obtain ⟨o', seq', hc, hr⟩ := h.results i response hi
      exact ⟨o', seq', hget hc, hr⟩
    index := fun seq' i response hr => by
      have hi := h.index seq' i response hr
      rw [List.map_append, List.getElem?_append_left (List.getElem?_eq_some_iff.mp hi).1, hi]
    kept := fun x hx => by
      rcases h.kept x hx with hp | ⟨i, o', hc, hr⟩
      · exact .inl hp
      · exact .inr ⟨i, o', hget hc, hr⟩ }

theorem coherent_arrive (h : Coherent objs s) {seq : ℕ} {response : β} (hr : s.receiver = .idle)
    (hseq : seq ∈ s.calls.map Prod.snd) (hnew : seq ∉ s.responses.map Prod.fst) :
    Coherent objs { s with
      receiver := .received seq response, responses := s.responses ++ [(seq, response)] } := by
  have ho := h.ordered.received hr seq response (s.responses ++ [(seq, response)])
  exact { h with
    lock := ho.lock
    exclusive := ho.exclusive
    answered := by
      rw [List.map_append, List.map_singleton, ← List.concat_eq_append]
      exact h.answered.concat hnew
    known := fun x hx => by
      rcases List.mem_append.mp hx with hold | hnew
      · exact h.known x hold
      · obtain rfl := List.mem_singleton.mp hnew
        exact hseq
    results := fun i r hi => by
      obtain ⟨o, seq', hc, hmem⟩ := h.results i r hi
      exact ⟨o, seq', hc, List.mem_append_left _ hmem⟩
    pending := fun x hx => by
      cases hx
      simp
    index := fun _ _ _ hx => by cases hx
    kept := fun x hx => by
      rcases List.mem_append.mp hx with hold | hnew
      · rcases h.kept x hold with hp | hk
        · rw [hr] at hp
          cases hp
        · exact .inr hk
      · obtain rfl := List.mem_singleton.mp hnew
        exact .inl rfl
    found := by simp
    complete := fun hc => by
      rcases hc with he | hsig
      · exact h.complete (.inl he)
      · cases hsig }

theorem coherent_receiver (h : Coherent objs s) {receiver : Receiver β} {lock : Bool}
    (hpending : receiver.pending = s.receiver.pending)
    (hindex : ∀ seq i response, receiver = .indexed seq i response →
      (s.calls.map Prod.snd)[i]? = some seq)
    (hfound : receiver ≠ .failed)
    (hsignal : receiver = .signalling → s.results.all (·.isSome) = true)
    (ho : Ordered { s with receiver := receiver, seqlock := lock }) :
    Coherent objs { s with receiver := receiver, seqlock := lock } :=
  { h with
    lock := ho.lock
    exclusive := ho.exclusive
    pending := fun x hx => h.pending x (by rw [← hpending, hx])
    index := hindex
    kept := fun x hx => by simpa only [hpending] using h.kept x hx
    found := hfound
    complete := fun hc => hc.elim (fun he => h.complete (.inl he)) hsignal }

theorem coherent_found (h : Coherent objs s) {seq i : ℕ} {response : β}
    (hr : s.receiver = .locked seq response) (hi : s.seqs.findIdx? (· == seq) = some i)
    (ho : Ordered { s with seqlock := false, receiver := .indexed seq i response }) :
    Coherent objs { s with seqlock := false, receiver := .indexed seq i response } := by
  refine coherent_receiver h (by rw [hr]; rfl) ?_ (by simp) (fun hx => by cases hx) ho
  intro seq' i' response' heq
  cases heq
  obtain ⟨hlt, hbeq, -⟩ := List.findIdx?_eq_some_iff_getElem.mp hi
  rw [h.ordered.seqs_of_locked hr, List.getElem?_eq_getElem hlt]
  simpa using hbeq

theorem findIdx_ne_none (h : Coherent objs s) {seq : ℕ} {response : β}
    (hr : s.receiver = .locked seq response) : s.seqs.findIdx? (· == seq) ≠ none := by
  have hmem := h.known (seq, response) (h.pending _ (by rw [hr]; rfl))
  rw [h.ordered.seqs_of_locked hr] at hmem
  exact fun hnone => findIdx_none_iff.mp hnone hmem

theorem coherent_store (h : Coherent objs s) {seq i : ℕ} {response : β}
    (hr : s.receiver = .indexed seq i response)
    (ho : Ordered { s with results := s.results.set i (some response), receiver := .stored }) :
    Coherent objs { s with results := s.results.set i (some response), receiver := .stored } := by
  have hmem := h.pending (seq, response) (by rw [hr]; rfl)
  have hindex := h.index seq i response hr
  obtain ⟨⟨o, seq'⟩, hcall, hseq⟩ := Option.map_eq_some_iff.mp (List.getElem?_map ▸ hindex)
  obtain rfl : seq' = seq := hseq
  have hlt : i < s.results.length := by
    have hobjs := congrArg List.length h.objects
    have hcalls := (List.getElem?_eq_some_iff.mp hcall).1
    simp only [List.length_append, List.length_map] at hobjs
    rw [h.length]
    omega
  have hget : ∀ j, (s.results.set i (some response))[j]? =
      if j = i then some (some response) else s.results[j]? := by
    intro j
    rw [List.getElem?_set]
    by_cases hij : i = j
    · simp [hij, hij ▸ hlt]
    · rw [if_neg hij, if_neg (Ne.symm hij)]
  exact { h with
    lock := ho.lock
    exclusive := ho.exclusive
    length := by rw [← h.length]; exact List.length_set
    results := fun j r hj => by
      simp only [hget] at hj
      split at hj
      · rename_i heq
        cases hj
        exact ⟨o, seq', by rw [heq]; exact hcall, hmem⟩
      · exact h.results j r hj
    pending := fun x hx => by cases hx
    index := fun _ _ _ hx => by cases hx
    kept := fun x hx => by
      right
      simp only [hget]
      rcases h.kept x hx with hp | ⟨j, o', hc, hres⟩
      · rw [hr] at hp
        cases hp
        exact ⟨i, o, hcall, by simp⟩
      · by_cases hji : j = i
        · -- the same call cannot have got another response
          subst hji
          rw [hcall] at hc
          cases hc
          have hsame := List.inj_on_of_nodup_map h.answered hmem hx rfl
          refine ⟨j, o, hcall, ?_⟩
          rw [if_pos rfl, ← hsame]
        · exact ⟨j, o', hc, by rw [if_neg hji, hres]⟩
    found := by simp
    complete := fun hc => by
      rcases hc with he | hsig
      · have hall := h.complete (.inl he)
        rw [List.all_eq_true] at hall ⊢
        intro x hx
        rcases List.mem_or_eq_of_mem_set hx with hold | rfl
        · exact hall x hold
        · rfl
      · cases hsig }

theorem coherent_step (h : Coherent objs s) {e : InvokeEvent β} (hu : invokeStep s e = some u) :
    Coherent objs u := by
  have ho := ordered_step h.ordered hu
  cases invokeStep_move hu with
  | acquire hs => exact coherent_sender h (by rw [hs]; rfl) ho
  | call hs hnew => exact coherent_call h hs hnew ho
  | append hs => exact coherent_sender h (by rw [hs]; rfl) ho
  | release hs => exact coherent_sender h (by rw [hs]; rfl) ho
  | wait hs => exact coherent_sender h (by rw [hs]; rfl) ho
  | endWait hs => exact coherent_sender h (by rw [hs]; rfl) ho
  | collect hs => exact coherent_sender h (by rw [hs]; rfl) ho
  | arrive hr hseq hnew => exact coherent_arrive h hr hseq hnew
  | lockSeqs hr =>
    exact coherent_receiver h (by rw [hr]; rfl) (fun _ _ _ hx => by cases hx) (by simp)
      (fun hx => by cases hx) ho
  | found hr hi => exact coherent_found h hr hi ho
  | notFound hr hnone => exact absurd hnone (findIdx_ne_none h hr)
  | store hr => exact coherent_store h hr ho
  | check hr =>
    cases hall : s.results.all (·.isSome) with
    | true =>
      rw [hall] at ho
      exact coherent_receiver h (by rw [hr]; rfl) (fun _ _ _ hx => by cases hx) (by simp)
        (fun _ => hall) ho
    | false =>
      rw [hall] at ho
      exact coherent_receiver h (by rw [hr]; rfl) (fun _ _ _ hx => by cases hx) (by simp)
        (fun hx => by cases hx) ho
  | signal hr =>
    have hall := h.complete (.inr hr)
    have hidle : Coherent objs { s with receiver := .idle, seqlock := s.seqlock } :=
      coherent_receiver h (by rw [hr]; rfl) (fun _ _ _ hx => by cases hx) (by simp)
        (fun hx => by cases hx) ⟨ho.numbers, ho.lock, ho.exclusive, ho.index⟩
    exact { hidle with complete := fun _ => hall }

/-! ## Nothing is taken back -/

structure Extends (s u : Invocation α β) : Prop where
  calls : ∀ (i : ℕ) (c : α × ℕ), s.calls[i]? = some c → u.calls[i]? = some c
  responses : ∀ x ∈ s.responses, x ∈ u.responses
  results : ∀ (i : ℕ) (r : β), s.results[i]? = some (some r) → u.results[i]? = some (some r)

theorem Extends.refl (s : Invocation α β) : Extends s s :=
  ⟨fun _ _ h => h, fun _ h => h, fun _ _ h => h⟩

theorem Extends.trans {v : Invocation α β} (h : Extends s u) (h' : Extends u v) : Extends s v :=
  ⟨fun i c hc => h'.calls i c (h.calls i c hc), fun x hx => h'.responses x (h.responses x hx),
    fun i r hr => h'.results i r (h.results i r hr)⟩

theorem Extends.answers (h : Extends s u) {i : ℕ} {r : β} (ha : Answers s i r) : Answers u i r := by
  obtain ⟨o, seq, hc, hr⟩ := ha
  exact ⟨o, seq, h.calls i _ hc, h.responses _ hr⟩

theorem Extends.of_eq (hcalls : u.calls = s.calls) (hresponses : u.responses = s.responses)
    (hresults : u.results = s.results) : Extends s u := by
  refine ⟨fun i c hc => ?_, fun x hx => ?_, fun i r hr => ?_⟩
  · rw [hcalls, hc]
  · rw [hresponses]
    exact hx
  · rw [hresults, hr]

theorem extends_store (h : Coherent objs s) {seq i : ℕ} {response : β}
    (hr : s.receiver = .indexed seq i response) :
    Extends s { s with results := s.results.set i (some response), receiver := .stored } := by
  refine ⟨fun _ _ hc => hc, fun _ hx => hx, fun j r hj => ?_⟩
  change (s.results.set i (some response))[j]? = some (some r)
  rw [List.getElem?_set]
  split
  · rename_i hij
    -- the entry that is overwritten holds the response to the same call
    subst hij
    obtain ⟨o, seq', hc, hmem'⟩ := h.results i r hj
    have hmem := h.pending (seq, response) (by rw [hr]; rfl)
    have hindex := h.index seq i response hr
    obtain rfl : seq' = seq := by simpa [hc] using hindex
    have hsame := List.inj_on_of_nodup_map h.answered hmem hmem' rfl
    cases hsame
    simp [(List.getElem?_eq_some_iff.mp hj).1]
  · exact hj

theorem extends_step (h : Coherent objs s) {e : InvokeEvent β} (hu : invokeStep s e = some u) :
    Extends s u := by
  cases invokeStep_move hu with
  | call hs hnew =>
    refine ⟨fun i c hc => ?_, fun _ hx => hx, fun _ _ hr => hr⟩
    exact (List.getElem?_append_left (List.getElem?_eq_some_iff.mp hc).1).trans hc
  | arrive hr hseq hnew =>
    exact ⟨fun _ _ hc => hc, fun x hx => List.mem_append_left _ hx, fun _ _ hr => hr⟩
  | store hr => exact extends_store h hr
  | acquire | append | release | wait | endWait | collect | lockSeqs | found | notFound | check
  | signal => exact .of_eq rfl rfl rfl

/-- Only the collecting of the results makes the sender return. -/
theorem returned_step {e : InvokeEvent β} {t : List (Option β)} (hu : invokeStep s e = some u)
    (ht : u.sender = .returned t) :
    s.sender = .returned t ∨ s.sender = .collecting ∧ t = s.results := by
  cases invokeStep_move hu with
  | collect hs =>
    cases ht
    exact .inr ⟨hs, rfl⟩
  | acquire | call | append | release | wait | endWait => cases ht
  | arrive | lockSeqs | found | notFound | store | check | signal => exact .inl ht

/-- What `invoke_method` has returned, if it has. -/
def Attributed (objs : List α) (s : Invocation α β) : Prop :=
  ∀ t, s.sender = .returned t → t.length = objs.length ∧
    ∀ i r, t[i]? = some (some r) → Answers s i r

theorem attributed_step (h : Coherent objs s) (ha : Attributed objs s) {e : InvokeEvent β}
    (hu : invokeStep s e = some u) : Attributed objs u := by
  intro t ht
  have hext := extends_step h hu
  rcases returned_step hu ht with hs | ⟨-, rfl⟩
  · exact ⟨(ha t hs).1, fun i r hi => hext.answers ((ha t hs).2 i r hi)⟩
  · exact ⟨h.length, fun i r hi => hext.answers (h.results i r hi)⟩

/-- What was stored before the results are collected is returned. -/
theorem returned_extends {v : Invocation α β} {es : List (InvokeEvent β)} {t : List (Option β)}
    (h : Coherent objs s) (hs : s.sender = .collecting) (hv : exec invokeStep s es = some v)
    (ht : v.sender = .returned t) {i : ℕ} {r : β} (hr : s.results[i]? = some (some r)) :
    t[i]? = some (some r) := by
  have hpres : Coherent objs v ∧ Extends s v ∧
      ∀ t, v.sender = .returned t → t[i]? = some (some r) := by
    refine exec_preserved (P := fun v => Coherent objs v ∧ Extends s v ∧
      ∀ t, v.sender = .returned t → t[i]? = some (some r)) ?_
      ⟨h, Extends.refl s, fun t ht => by rw [hs] at ht; cases ht⟩ hv
    rintro a e b ⟨hc, hext, hkeep⟩ hb
    refine ⟨coherent_step hc hb, hext.trans (extends_step hc hb), fun t ht => ?_⟩
    rcases returned_step hb ht with ha | ⟨-, rfl⟩
    · exact hkeep t ha
    · exact hext.results i r hr
  exact hpres.2.2 t ht

theorem coherent_exec {es : List (InvokeEvent β)}
    (h : exec invokeStep (invokeMethod objs) es = some s) : Coherent objs s :=
  exec_preserved (P := Coherent objs) (fun _ _ _ hc hu => coherent_step hc hu) (coherent_init objs) h

theorem extends_exec {es : List (InvokeEvent β)} (hc : Coherent objs s)
    (h : exec invokeStep s es = some u) : Extends s u := by
  have hpres := exec_preserved (P := fun v => Coherent objs v ∧ Extends s v)
    (fun a e b ha hb => ⟨coherent_step ha.1 hb, ha.2.trans (extends_step ha.1 hb)⟩)
    ⟨hc, Extends.refl s⟩ h
  exact hpres.2

theorem object_of_call (h : Coherent objs s) {i seq : ℕ} {o : α}
    (hc : s.calls[i]? = some (o, seq)) : objs[i]? = some o := by
  have hi := (List.getElem?_eq_some_iff.mp hc).1
  rw [← h.objects, List.getElem?_append_left (by simpa using hi), List.getElem?_map, hc]
  rfl

/-- Entry `i` of what is returned is `None` or the response to the call on object `i`. A response
that arrived before the wait ended is there, unless the handler had not stored it yet when the wait
ended. The event is set only after every response was stored. -/
theorem responses_attributed (objs : List α) (es : List (InvokeEvent β)) (s : Invocation α β)
    (h : exec invokeStep (invokeMethod objs) es = some s) :
    (∀ t, s.sender = .returned t → t.length = objs.length ∧
      ∀ (i : ℕ) (r : β), t[i]? = some (some r) →
        ∃ o seq, objs[i]? = some o ∧ s.calls[i]? = some (o, seq) ∧ (seq, r) ∈ s.responses) ∧
    (∀ early late s' t, es = early ++ .endWait :: late →
      exec invokeStep (invokeMethod objs) early = some s' → s.sender = .returned t →
      ∀ x ∈ s'.responses, s'.receiver.pending = some x ∨
        ∃ (i : ℕ) (o : α), s.calls[i]? = some (o, x.1) ∧ t[i]? = some (some x.2)) ∧
    (s.event = true → s.results.length = objs.length ∧ ∀ r ∈ s.results, r.isSome = true) := by
  have hc := coherent_exec h
  refine ⟨fun t ht => ?_, ?_, fun he => ?_⟩
  · have hpres := exec_preserved (P := fun v => Coherent objs v ∧ Attributed objs v)
      (fun a e b ha hb => ⟨coherent_step ha.1 hb, attributed_step ha.1 ha.2 hb⟩)
      ⟨coherent_init objs, fun t ht => by cases ht⟩ h
    obtain ⟨hlen, hentries⟩ := hpres.2 t ht
    refine ⟨hlen, fun i r hi => ?_⟩
    obtain ⟨o, seq, hcall, hr⟩ := hentries i r hi
    exact ⟨o, seq, object_of_call hc hcall, hcall, hr⟩
  · rintro early late s' t rfl hearly ht x hx
    have hc' := coherent_exec hearly
    rw [exec_append, hearly, Option.bind_some] at h
    obtain ⟨a, ha, hlate⟩ := exec_cons_some h
    have hext := (extends_step hc' ha).trans (extends_exec (coherent_step hc' ha) hlate)
    rcases hc'.kept x hx with hp | ⟨i, o, hcall, hres⟩
    · exact .inl hp
    · refine .inr ⟨i, o, hext.calls i _ hcall, ?_⟩
      have hcollect : a.sender = .collecting := by
        cases invokeStep_move ha with
        | endWait hs => rfl
      exact returned_extends (coherent_step hc' ha) hcollect hlate ht
        ((extends_step hc' ha).results i x.2 hres)
  · exact ⟨hc.length, List.all_eq_true.mp (hc.complete (.inl he))⟩

end

def twoResponses : List (InvokeEvent Bool) :=
  [.acquire, .call 5, .append, .release, .acquire, .call 9, .append, .release,
    .arrive 9 true, .lockSeqs, .findIndex, .store, .check,
    .arrive 5 false, .lockSeqs, .findIndex, .store, .check, .signal, .wait, .endWait, .collect]

theorem responses_attributed_two :
    ∃ s, exec invokeStep (invokeMethod ["a", "b"]) twoResponses = some s ∧
      s.sender = .returned [some false, some true] ∧
      ∀ t, s.sender = .returned t → t.length = 2 ∧
        ∀ (i : ℕ) (r : Bool), t[i]? = some (some r) → ∃ o seq, ["a", "b"][i]? = some o ∧
          s.calls[i]? = some (o, seq) ∧ (seq, r) ∈ s.responses := by
  obtain ⟨s, hs⟩ : ∃ s, exec invokeStep (invokeMethod ["a", "b"]) twoResponses = some s :=
    Option.isSome_iff_exists.mp (by decide)
  refine ⟨s, hs, ?_, (responses_attributed ["a", "b"] twoResponses s hs).1⟩
  have hsender : (exec invokeStep (invokeMethod ["a", "b"]) twoResponses).map (·.sender) =
      some (.returned [some false, some true]) := by decide
  simpa [hs] using hsender

def responseHandled : List (InvokeEvent Bool) :=
  [.acquire, .call 5, .append, .release, .wait, .arrive 5 true, .lockSeqs, .findIndex]

/-- The timeout ends the wait before the handler stores the response. -/
theorem response_lost_at_timeout :
    (exec invokeStep (invokeMethod ["a"]) responseHandled).map (fun s => (s.calls, s.responses)) =
      some ([("a", 5)], [(5, true)]) ∧
    (exec invokeStep (invokeMethod ["a"])
      (responseHandled ++ .endWait :: [.collect, .store, .check, .signal])).map (·.sender) =
        some (.returned [none]) := by
  decide

end Matahari.Manager
