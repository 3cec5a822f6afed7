import Matahari.HostUuidRuns

set_option autoImplicit false

/-!
# The UUID that can be set

A UUID that is set is kept in `/etc/custom-machine-id`. The process that sets it reads the file
again; the others go on with what they have found.
-/
namespace Matahari.Host.Uuids
open Mainloop Utilities Services TransitionRuns

def customAfter (file : FileState) : Event → FileState
  | .setUuid _ lifetime uuid result =>
    if isCustom lifetime then gFileSetContents file (uuid.getD []) result else file
  | .others .customMachineId state => state
  | _ => file

def Event.LeavesCustom : Event → Prop
  | .setUuid _ lifetime _ _ => isCustom lifetime = false
  | .others name _ => name ≠ .customMachineId
  | _ => True

theorem Event.LeavesCustom.after {e : Event} (h : e.LeavesCustom) (file : FileState) :
    customAfter file e = file := by
  cases e with
  | setUuid k lifetime uuid result => exact if_neg (by rw [h]; exact Bool.false_ne_true)
  | others name state =>
    cases name with
    | customMachineId => exact absurd rfl h
    | _ => rfl
  | _ => rfl

theorem Move.customMachineId {s v : Machine} {e : Event} (h : Move s e v) :
    v.files.customMachineId = customAfter s.files.customMachineId e := by
  cases h with
  | setCustom hx hidle hcustom => exact (if_pos hcustom).symm
  | setUnknown hx hidle hunknown =>
    exact (if_neg (by rw [hunknown]; exact Bool.false_ne_true)).symm
  | @finish k result x p hx hp => cases p <;> rfl
  | others name state => cases name <;> rfl
  | _ => rfl

/-! ## The UUID that an agent finds -/

def Statics.customFound (f : Files) (st : Statics) : Option Text :=
  st.customUuid.or (mhFileFirstLine f.customMachineId)

theorem publish_customUuid (f : Files) (st : Statics) :
    (publish f st).2.customUuid = st.customFound f :=
  filesystemUuid_customUuid f _

theorem refresh_customUuid (f : Files) (x : Agent) :
    (x.refresh f).statics.customUuid = x.statics.customUuid ∨
      (x.refresh f).statics.customUuid = x.statics.customFound f := by
  unfold Agent.refresh
  cases x.published with
  | none => exact .inl rfl
  | some p => exact .inr (publish_customUuid f x.statics)

theorem start_customUuid (f : Files) (qmf : Bool) :
    (Agent.start f qmf).statics.customUuid = none ∨
      (Agent.start f qmf).statics.customUuid = mhFileFirstLine f.customMachineId := by
  cases qmf with
  | false => exact .inl rfl
  | true => exact .inr (publish_customUuid f .init)

/-! ## A UUID that has been set -/

/-- Nothing else than `w` has been found, or the file is about to be read again. -/
def Agent.KnowsOnly (w : Text) (x : Agent) : Prop :=
  (∃ rc, x.pending = some (.readCustom rc)) ∨ ∀ u, x.statics.customUuid = some u → u = w

/-- After agent `k` has written the file, as long as nobody else writes it. The agents from `n` on
have been started after that. -/
structure Kept (k n : ℕ) (w : Text) (before : List Reply) (s : Machine) : Prop where
  file : mhFileFirstLine s.files.customMachineId = some w
  next : n ≤ s.agents.next
  agents : ∀ j x, s.agents.entry j = some x → j = k ∨ n ≤ j → x.KnowsOnly w
  replies : ∃ new, s.replies = before ++ new ∧
    ∀ j u, .uuid j .custom u ∈ new → j = k ∨ n ≤ j → u = shown (some w)

section

variable {k n : ℕ} {w : Text} {before : List Reply} {s v : Machine}

theorem Kept.change (h : Kept k n w before s) (hreplies : v.replies = s.replies)
    (hfile : v.files.customMachineId = s.files.customMachineId)
    (hnext : s.agents.next ≤ v.agents.next)
    (hagents : ∀ j x, v.agents.entry j = some x → j = k ∨ n ≤ j →
      s.agents.entry j = some x ∨ x.KnowsOnly w) : Kept k n w before v where
  file := hfile ▸ h.file
  next := h.next.trans hnext
  agents j x hx hj := (hagents j x hx hj).elim (fun hx => h.agents j x hx hj) id
  replies := hreplies ▸ h.replies

theorem Kept.put (h : Kept k n w before s) {j : ℕ} {x : Agent} {f : Files}
    (hfile : f.customMachineId = s.files.customMachineId)
    (hx : j = k ∨ n ≤ j → x.KnowsOnly w) : Kept k n w before ({ s with files := f }.put j x) := by
  refine Kept.change h rfl hfile (Nat.le_refl _) ?_
  intro i y hy hi
  rcases put_entry hy with ⟨rfl, rfl⟩ | ⟨-, hy⟩
  · exact .inr (hx hi)
  · exact .inl hy

theorem Kept.reply (h : Kept k n w before s) {r : Reply}
    (hr : ∀ j u, r = .uuid j .custom u → j = k ∨ n ≤ j → u = shown (some w)) :
    Kept k n w before (s.reply r) where
  file := h.file
  next := h.next
  agents := h.agents
  replies := by
    obtain ⟨new, hnew, hgood⟩ := h.replies
    refine ⟨new ++ [r], ?_, ?_⟩
    · rw [reply_replies, hnew, List.append_assoc]
    · intro j u hmem hj
      rw [List.mem_append, List.mem_singleton] at hmem
      rcases hmem with hmem | hmem
      · exact hgood j u hmem hj
      · exact hr j u hmem.symm hj

theorem Kept.found (h : Kept k n w before s) {st : Statics}
    (hst : ∀ u, st.customUuid = some u → u = w) : st.customFound s.files = some w := by
  rw [Statics.customFound]
  cases hcustom : st.customUuid with
  | none => exact h.file
  | some u => exact congrArg some (hst u hcustom)

theorem Kept.idle (h : Kept k n w before s) {j : ℕ} {x : Agent}
    (hx : s.agents.entry j = some x) (hp : ∀ rc, x.pending ≠ some (.readCustom rc))
    (hj : j = k ∨ n ≤ j) : ∀ u, x.statics.customUuid = some u → u = w := by
  rcases h.agents j x hx hj with ⟨rc, hrc⟩ | hknows
  · exact absurd hrc (hp rc)
  · exact hknows

theorem not_reading {x : Agent} (h : x.pending = none) (rc : ℕ) :
    x.pending ≠ some (.readCustom rc) := by simp [h]

theorem Kept.refresh (h : Kept k n w before s) {x : Agent}
    (hx : ∀ u, x.statics.customUuid = some u → u = w) : (x.refresh s.files).KnowsOnly w := by
  right
  intro u hu
  rcases refresh_customUuid s.files x with hsame | hfound
  · exact hx u (hsame ▸ hu)
  · rw [hfound, h.found hx] at hu
    exact (Option.some_inj.mp hu).symm

theorem Kept.move (h : Kept k n w before s) {e : Event} (hleaves : e.LeavesCustom)
    (hm : Move s e v) : Kept k n w before v := by
  have hcustomFile := hm.customMachineId.trans (hleaves.after _)
  cases hm with
  | start qmf =>
    refine Kept.change h rfl rfl (Nat.le_succ _) ?_
    intro j x hx _
    rcases FreshTable.add_entry_some hx with ⟨-, rfl⟩ | hx
    · right
      right
      intro u hu
      rcases start_customUuid s.files qmf with hnone | hfile
      · rw [hnone] at hu
        cases hu
      · rw [hfile, h.file] at hu
        exact (Option.some_inj.mp hu).symm
    · exact .inl hx
  | stop j =>
    refine Kept.change h rfl rfl (Nat.le_refl _) ?_
    exact fun i x hx _ => .inl (FreshTable.remove_entry_some hx).2
  | @answer j lifetime a x uuid hx hidle hfound =>
    have hknown := h.idle hx (not_reading hidle)
    refine (h.put (f := s.files) rfl ?_).reply ?_
    · intro hj
      right
      intro u hu
      have hget := customUuid_of_get s.files a lifetime x.statics
      rw [hu] at hget
      have hw : some w = some u := (h.found (hknown hj)).symm.trans hget.symm
      exact (Option.some_inj.mp hw).symm
    · intro i u hr hj
      obtain ⟨rfl, hl, rfl⟩ := Reply.uuid.inj hr
      rw [customUuid_of_answer hl hfound]
      exact congrArg shown (h.found (hknown hj))
  | @generate j lifetime a x hx hidle hfound hunknown hmissing =>
    have hknown := h.idle hx (not_reading hidle)
    refine h.put (f := s.files) rfl ?_
    exact fun hj => .inr (hknown hj)
  | @setCustom j lifetime uuid result x hx hidle hcustom =>
    exact absurd (hcustom.symm.trans hleaves) Bool.noConfusion
  | @setUnknown j lifetime uuid result x hx hidle hunknown =>
    refine (h.put (f := s.files) rfl ?_).reply ?_
    · intro hj
      exact h.refresh (h.idle hx (not_reading hidle) hj)
    · exact fun i u hr => Reply.noConfusion hr
  | @finish j result x p hx hp =>
    cases p with
    | writeReboot uuid =>
      have hknown := h.idle hx fun rc => by simp [hp]
      refine (h.put (f := (writeRebootUuid s.files uuid result x.statics).2.1) rfl ?_).reply ?_
      · exact fun hj => .inr (hknown hj)
      · exact fun i u hr => by cases hr
    | readCustom rc =>
      refine (h.put (f := s.files) rfl ?_).reply ?_
      · intro _
        apply h.refresh
        intro u hu
        exact (Option.some_inj.mp (h.file.symm.trans hu)).symm
      · exact fun i u hr => Reply.noConfusion hr
  | others name state =>
    refine Kept.change h rfl hcustomFile (Nat.le_refl _) ?_
    exact fun i x hx _ => .inl hx

end

/-- A UUID that agent `k` has set is the one that `k` answers with, and all agents that are
started later, as long as nobody else writes the file: its first line, if that is not empty. -/
theorem custom_uuid_kept (s u v : Machine) (k : ℕ) (lifetime : Option Text) (uuid : Text)
    (es : List Event) (hcustom : lifetimeOf lifetime = .custom)
    (hset : step s (.setUuid k lifetime (some uuid) none) = some u)
    (hleaves : ∀ e ∈ es, e.LeavesCustom) (hv : exec step u es = some v) :
    ∃ new, v.replies = u.replies ++ new ∧ ∀ j answer, .uuid j .custom answer ∈ new →
      j = k ∨ u.agents.next ≤ j → answer = shown (some (firstLine uuid)) := by
  have hstart : Kept k u.agents.next (firstLine uuid) u.replies u := by
    have hmove := step_move hset
    have hfile := hmove.customMachineId
    rw [customAfter, if_pos ((isCustom_iff lifetime).mpr hcustom)] at hfile
    cases hmove with
    | setUnknown hx hidle hunknown =>
      exact absurd ((isCustom_iff lifetime).mpr hcustom) (by rw [hunknown]; exact Bool.false_ne_true)
    | setCustom hx hidle _ =>
      refine ⟨by rw [hfile]; rfl, Nat.le_refl _, ?_, [], (List.append_nil _).symm, ?_⟩
      · intro j y hy hj
        rcases put_entry hy with ⟨-, rfl⟩ | ⟨hne, hy⟩
        · exact .inl ⟨_, rfl⟩
        · have hlt := FreshTable.lt_next hy
          exact hj.elim (fun h => absurd h hne) fun h => absurd hlt (not_lt.mpr h)
      · exact fun _ _ hr => by cases hr
  have hpreserved : ∀ s e t, Kept k u.agents.next (firstLine uuid) u.replies s → e.LeavesCustom →
      step s e = some t → Kept k u.agents.next (firstLine uuid) u.replies t :=
    fun s e t hs hok ht => hs.move hok (step_move ht)
  exact ((always_of_preserved hpreserved hstart
    (.of_forall (fun e he _ => hleaves e he) u)).final hv).replies

def oneInstance : Machine :=
  let s := Machine.boot .missing .missing .missing
  { s with agents := s.agents.add (.start s.files true) }

theorem custom_uuid_kept_second :
    ∃ u v, step oneInstance (.setUuid 1 (some "Custom".toList) (some "a\nb".toList) none) = some u ∧
      exec step u [.finish 1 none, .start false, .getUuid 2 (some "custom".toList) (answersOf [])]
        = some v ∧
      ∃ new, v.replies = u.replies ++ new ∧ ∀ j answer, .uuid j .custom answer ∈ new →
        j = 1 ∨ u.agents.next ≤ j → answer = shown (some (firstLine "a\nb".toList)) := by
  refine ⟨_, _, rfl, rfl, custom_uuid_kept oneInstance _ _ 1 (some "Custom".toList)
    "a\nb".toList [.finish 1 none, .start false, .getUuid 2 (some "custom".toList) (answersOf [])]
    (by decide) rfl ?_ rfl⟩
  simp [Event.LeavesCustom]

/-! ## The properties of an instance -/

def Agent.UpToDate (f : Files) (x : Agent) : Prop :=
  ∀ p, x.published = some p → (∀ rc, x.pending ≠ some (.readCustom rc)) →
    p = (shown (x.statics.customFound f), shown (filesystemUuid f x.statics).1)

def Published (s : Machine) : Prop := ∀ k x, s.agents.entry k = some x → x.UpToDate s.files

def Agent.Waits (x : Agent) : Prop :=
  x.published ≠ none ∧ (∀ rc, x.pending ≠ some (.readCustom rc)) ∧ x.statics.customUuid = none

/-- Nobody gives such an agent a file that reads differently, other than that agent itself. -/
def Unnoticed (s : Machine) (e : Event) : Prop :=
  ∀ k x, s.agents.entry k = some x → x.Waits →
    (∀ lifetime uuid result, e ≠ .setUuid k lifetime uuid result) →
    shown (mhFileFirstLine (customAfter s.files.customMachineId e)) =
      shown (mhFileFirstLine s.files.customMachineId)

def Agent.Configured (x : Agent) : Prop :=
  x.published ≠ none → ∃ w, x.statics.immutableUuid = some w

theorem filesystemUuid_of_some {st : Statics} {w : Text} (h : st.immutableUuid = some w)
    (f : Files) : filesystemUuid f st = (some w, st) := by
  rw [filesystemUuid, h]

theorem filesystemUuid_found (f : Files) (st : Statics) :
    ∃ w, (filesystemUuid f st).2.immutableUuid = some w ∧ (filesystemUuid f st).1 = some w := by
  unfold filesystemUuid
  cases h : st.immutableUuid with
  | some w => exact ⟨w, h, rfl⟩
  | none => exact ⟨_, rfl, rfl⟩

theorem publish_eq (f : Files) (st : Statics) :
    (publish f st).1 = (shown ((publish f st).2.customFound f),
      shown (filesystemUuid f (publish f st).2).1) ∧
    ∃ w, (publish f st).2.immutableUuid = some w := by
  obtain ⟨w, himmutable, hfound⟩ := filesystemUuid_found f (customUuid f st).2
  have hcustom : (publish f st).2.customFound f = st.customFound f := by
    rw [Statics.customFound, publish_customUuid, Statics.customFound, Option.or_assoc,
      Option.or_self]
  have himmutable' : (publish f st).2.immutableUuid = some w := himmutable
  refine ⟨?_, w, himmutable'⟩
  rw [hcustom, filesystemUuid_of_some himmutable']
  exact congrArg (fun u => (shown (st.customFound f), shown u)) hfound

structure Agent.Coherent (f : Files) (x : Agent) : Prop where
  upToDate : x.UpToDate f
  configured : x.Configured

theorem coherent_start (f : Files) (qmf : Bool) : (Agent.start f qmf).Coherent f := by
  cases qmf with
  | false =>
    constructor
    · intro p hp
      cases hp
    · exact fun h => absurd rfl h
  | true =>
    obtain ⟨heq, w, hw⟩ := publish_eq f .init
    constructor
    · intro p hp _
      cases hp
      exact heq
    · exact fun _ => ⟨w, hw⟩

theorem coherent_refresh (f : Files) (x : Agent) : (x.refresh f).Coherent f := by
  unfold Agent.refresh
  cases hpublished : x.published with
  | none =>
    constructor
    · intro p hp
      rw [hpublished] at hp
      cases hp
    · exact fun h => absurd hpublished h
  | some q =>
    obtain ⟨heq, w, hw⟩ := publish_eq f x.statics
    constructor
    · intro p hp _
      cases hp
      exact heq
    · exact fun _ => ⟨w, hw⟩

theorem Agent.Coherent.statics {f : Files} {x : Agent} (h : x.Coherent f) {st : Statics}
    {p : Option Pending} (hcustom : st.customFound f = x.statics.customFound f)
    (himmutable : ∀ w, x.statics.immutableUuid = some w → st.immutableUuid = some w)
    (hidle : ∀ rc, x.pending ≠ some (.readCustom rc)) :
    Agent.Coherent f { x with statics := st, pending := p } where
  upToDate q hq _ := by
    obtain ⟨w, hw⟩ := h.configured (by rw [hq]; exact Option.some_ne_none q)
    have hw' : st.immutableUuid = some w := himmutable w hw
    have hold := h.upToDate q hq hidle
    rw [filesystemUuid_of_some hw] at hold
    rw [hcustom, filesystemUuid_of_some hw']
    exact hold
  configured hq := by
    obtain ⟨w, hw⟩ := h.configured hq
    exact ⟨w, himmutable w hw⟩

theorem Agent.Coherent.files {f g : Files} {x : Agent} (h : x.Coherent f)
    (hfile : x.Waits → shown (mhFileFirstLine g.customMachineId) =
      shown (mhFileFirstLine f.customMachineId)) : x.Coherent g where
  configured := h.configured
  upToDate p hp hidle := by
    have hne : x.published ≠ none := by
      rw [hp]
      exact Option.some_ne_none p
    obtain ⟨w, hw⟩ := h.configured hne
    have hold := h.upToDate p hp hidle
    rw [filesystemUuid_of_some hw] at hold ⊢
    rw [hold, Statics.customFound, Statics.customFound]
    cases hcustom : x.statics.customUuid with
    | some u => rfl
    | none => rw [Option.none_or, Option.none_or, hfile ⟨hne, hidle, hcustom⟩]

theorem coherent_move {s v : Machine} {e : Event}
    (h : ∀ k x, s.agents.entry k = some x → x.Coherent s.files) (hunnoticed : Unnoticed s e)
    (hm : Move s e v) : ∀ k x, v.agents.entry k = some x → x.Coherent v.files := by
  have hput : ∀ {t : Machine} {k : ℕ} {y : Agent}, t = s → y.Coherent s.files →
      ∀ j x, (t.put k y).agents.entry j = some x → x.Coherent s.files := by
    rintro t k y rfl hy j x hx
    rcases put_entry hx with ⟨-, rfl⟩ | ⟨-, hx⟩
    · exact hy
    · exact h j x hx
  have hcustomFile := hm.customMachineId
  cases hm with
  | start qmf =>
    intro k x hx
    rcases FreshTable.add_entry_some hx with ⟨-, rfl⟩ | hx
    · exact coherent_start s.files qmf
    · exact h k x hx
  | stop k => exact fun j x hx => h j x (FreshTable.remove_entry_some hx).2
  | @answer k lifetime a x uuid hx hidle hfound =>
    exact hput rfl ((h k x hx).statics (customUuid_of_get s.files a lifetime x.statics)
      (fun w hw => Grows.get _ _ _ _ .filesystem w (by decide) hw) (not_reading hidle))
  | @generate k lifetime a x hx hidle hfound hunknown hmissing =>
    exact hput rfl ((h k x hx).statics rfl (fun _ hw => hw) (not_reading hidle))
  | @setUnknown k lifetime uuid result x hx hidle hunknown =>
    exact hput rfl (coherent_refresh s.files x)
  | @setCustom k lifetime uuid result x hx hidle hcustom =>
    intro j y hy
    rcases put_entry hy with ⟨-, rfl⟩ | ⟨hne, hy⟩
    · constructor
      · exact fun p _ hreading => absurd rfl (hreading _)
      · exact (h k x hx).configured
    · apply (h j y hy).files
      intro hwaits
      rw [hcustomFile]
      apply hunnoticed j y hy hwaits
      rintro lifetime' uuid' result' heq
      cases heq
      exact hne rfl
  | @finish k result x p hx hp =>
    cases p with
    | writeReboot uuid =>
      have hsame : ∀ j y, s.agents.entry j = some y →
          y.Coherent (writeRebootUuid s.files uuid result x.statics).2.1 :=
        fun j y hy => (h j y hy).files fun _ => rfl
      intro j y hy
      rcases put_entry hy with ⟨-, rfl⟩ | ⟨-, hy⟩
      · exact (hsame k x hx).statics rfl (fun _ hw => hw) fun rc => by simp [hp]
      · exact hsame j y hy
    | readCustom rc => exact hput rfl (coherent_refresh s.files _)
  | others name state =>
    intro k x hx
    apply (h k x hx).files
    intro hwaits
    rw [hcustomFile]
    exact hunnoticed k x hx hwaits fun _ _ _ => Event.noConfusion

/-- An agent that notices is no longer up to date. -/
theorem not_published_of_noticed {s v : Machine} {e : Event}
    (h : ∀ k x, s.agents.entry k = some x → x.Coherent s.files) (hnoticed : ¬ Unnoticed s e)
    (hm : Move s e v) : ¬ Published v := by
  simp only [Unnoticed, not_forall] at hnoticed
  obtain ⟨k, x, hx, hwaits, hother, hdiff⟩ := hnoticed
  have hfile := hm.customMachineId
  have hstays : v.agents.entry k = some x := by
    cases hm with
    | @setCustom j lifetime uuid result y hy hidle hcustom =>
      have hne : k ≠ j := by
        rintro rfl
        exact hother lifetime uuid result rfl
      rw [Machine.put, FreshTable.modify_entry, if_neg hne]
      exact hx
    | others name state => exact hx
    | setUnknown hy hidle hunknown =>
      exact absurd (congrArg (fun file => shown (mhFileFirstLine file)) hfile.symm) hdiff
    | _ => exact absurd rfl hdiff
  intro hpublished
  obtain ⟨p, hp⟩ := Option.ne_none_iff_exists'.mp hwaits.1
  have hold := (h k x hx).upToDate p hp hwaits.2.1
  have hnew := hpublished k x hstays p hp hwaits.2.1
  rw [hold, Statics.customFound, Statics.customFound, hwaits.2.2, hfile] at hnew
  exact hdiff (congrArg Prod.fst hnew).symm

/-- In every state of a run the instances show what their agents would answer, if and only if
nobody else gives an agent that has found no UUID a file that reads differently. -/
theorem published_iff_unnoticed (machineId dbusMachineId customMachineId : FileState)
    (es : List Event) :
    Always step Published (.boot machineId dbusMachineId customMachineId) es ↔
      Throughout step Unnoticed (.boot machineId dbusMachineId customMachineId) es := by
  have hstart : ∀ k x, (Machine.boot machineId dbusMachineId customMachineId).agents.entry k =
      some x → x.Coherent (Machine.boot machineId dbusMachineId customMachineId).files :=
    fun _ _ hx => by cases hx
  constructor
  · exact throughout_of_always (fun s e u hs hok hu => coherent_move hs hok (step_move hu))
      (fun s e u hs hn hu => not_published_of_noticed hs hn (step_move hu)) hstart
  · intro h
    have hall := always_of_preserved
      (fun s e u hs hok hu => coherent_move hs hok (step_move hu)) hstart h
    exact hall.imp fun s hs k x hx => (hs k x hx).upToDate

end Matahari.Host.Uuids
