import Matahari.HostUuid
import Matahari.Library.FreshTable
import Matahari.Library.Transition

set_option autoImplicit false

/-!
# The agents of a host and their UUIDs

Several processes of a host serve the UUIDs, of QMF and of D-Bus, and share the files. What one
process does between two calls that read or write a shared file is not interrupted in that
process, but others run in between.
-/
namespace Matahari.Host.Uuids
open Mainloop Utilities Services TransitionRuns

/-- What is left of a call: a UUID that has been generated is to be written, or the file has
been written and is to be read again. -/
inductive Pending where
  | writeReboot (uuid : Text)
  | readCustom (rc : ℕ)

/-- A process. The instance of the QMF agent has the properties `custom_uuid` and `uuid`; the
D-Bus agent asks whenever one of them is read. -/
structure Agent where
  statics : Statics
  pending : Option Pending
  published : Option (Text × Text)

inductive Reply where
  | uuid (agent : ℕ) (lifetime : Lifetime) (uuid : Text)
  | rc (agent : ℕ) (rc : ℕ)

structure Machine where
  files : Files
  agents : FreshTable Agent
  replies : List Reply

def Machine.boot (machineId dbusMachineId customMachineId : FileState) : Machine :=
  ⟨⟨machineId, dbusMachineId, customMachineId, .missing⟩, .empty, []⟩

inductive FileName where
  | machineId
  | dbusMachineId
  | customMachineId
  | matahariRebootId
  deriving DecidableEq, Repr

def Files.set (f : Files) : FileName → FileState → Files
  | .machineId, state => { f with machineId := state }
  | .dbusMachineId, state => { f with dbusMachineId := state }
  | .customMachineId, state => { f with customMachineId := state }
  | .matahariRebootId, state => { f with matahariRebootId := state }

def publish (f : Files) (st : Statics) : (Text × Text) × Statics :=
  let (custom, st) := customUuid f st
  let (uuid, st) := filesystemUuid f st
  ((shown custom, shown uuid), st)

def Agent.refresh (f : Files) (x : Agent) : Agent :=
  match x.published with
  | none => x
  | some _ =>
    let (properties, st) := publish f x.statics
    { x with statics := st, published := some properties }

def Agent.start (f : Files) (qmf : Bool) : Agent :=
  if qmf then
    let (properties, st) := publish f .init
    ⟨st, none, some properties⟩
  else ⟨.init, none, none⟩

/-- `result` is what writing a file comes to, and other programs may write the files too. -/
inductive Event where
  | start (qmf : Bool)
  | stop (k : ℕ)
  | getUuid (k : ℕ) (lifetime : Option Text) (a : Answers)
  | setUuid (k : ℕ) (lifetime uuid : Option Text) (result : WriteResult)
  | finish (k : ℕ) (result : WriteResult)
  | others (name : FileName) (state : FileState)

def Machine.idle (s : Machine) (k : ℕ) : Option Agent :=
  (s.agents.entry k).filter fun x => x.pending.isNone

def Machine.put (s : Machine) (k : ℕ) (x : Agent) : Machine := { s with agents := s.agents.modify k fun _ => x }

def Machine.reply (s : Machine) (r : Reply) : Machine := { s with replies := s.replies ++ [r] }

def finishCall (s : Machine) (k : ℕ) (x : Agent) (result : WriteResult) : Pending → Machine
  | .writeReboot uuid =>
    let (answer, files, st) := writeRebootUuid s.files uuid result x.statics
    ({ s with files := files }.put k { x with statics := st, pending := none }).reply
      (.uuid k .reboot answer)
  | .readCustom rc =>
    let st := rereadCustomUuid s.files x.statics
    (s.put k ({ x with statics := st, pending := none }.refresh s.files)).reply (.rc k rc)

def step (s : Machine) : Event → Option Machine
  | .start qmf => some { s with agents := s.agents.add (.start s.files qmf) }
  | .stop k => (s.agents.entry k).map fun _ => { s with agents := s.agents.remove k }
  | .getUuid k lifetime a => (s.idle k).map fun x =>
    match mhHostGetUuid s.files a lifetime x.statics with
    | (.answer uuid, st) =>
      (s.put k { x with statics := st }).reply (.uuid k (lifetimeOf lifetime) uuid)
    | (.generated uuid, st) => s.put k { x with statics := st, pending := some (.writeReboot uuid) }
  | .setUuid k lifetime uuid result => (s.idle k).map fun x =>
    if isCustom lifetime then
      let (rc, files) := hostOsSetCustomUuid s.files uuid result
      { s with files := files }.put k { x with pending := some (.readCustom rc) }
    else (s.put k (x.refresh s.files)).reply (.rc k G_FILE_ERROR_NOSYS)
  | .finish k result => (s.agents.entry k).bind fun x =>
    x.pending.map fun p => finishCall s k x result p
  | .others name state => some { s with files := s.files.set name state }

/-! ## What a step can do -/

inductive Move (s : Machine) : Event → Machine → Prop where
  | start (qmf : Bool) :
    Move s (.start qmf) { s with agents := s.agents.add (.start s.files qmf) }
  | stop (k : ℕ) : Move s (.stop k) { s with agents := s.agents.remove k }
  | answer {k : ℕ} {lifetime : Option Text} {a : Answers} {x : Agent} {uuid : Text}
      (entry : s.agents.entry k = some x) (idle : x.pending = none)
      (found : (mhHostGetUuid s.files a lifetime x.statics).1 = .answer uuid) :
    Move s (.getUuid k lifetime a)
      ((s.put k { x with statics := (mhHostGetUuid s.files a lifetime x.statics).2 }).reply
        (.uuid k (lifetimeOf lifetime) uuid))
  | generate {k : ℕ} {lifetime : Option Text} {a : Answers} {x : Agent}
      (entry : s.agents.entry k = some x) (idle : x.pending = none)
      (found : (mhHostGetUuid s.files a lifetime x.statics).1 = .generated a.generated)
      (unknown : x.statics.rebootUuid = none)
      (missing : mhFileFirstLine s.files.matahariRebootId = none) :
    Move s (.getUuid k lifetime a)
      (s.put k { x with pending := some (.writeReboot a.generated) })
  | setCustom {k : ℕ} {lifetime uuid : Option Text} {result : WriteResult} {x : Agent}
      (entry : s.agents.entry k = some x) (idle : x.pending = none)
      (custom : isCustom lifetime = true) :
    Move s (.setUuid k lifetime uuid result)
      ({ s with files := (hostOsSetCustomUuid s.files uuid result).2 }.put k
        { x with pending := some (.readCustom (hostOsSetCustomUuid s.files uuid result).1) })
  | setUnknown {k : ℕ} {lifetime uuid : Option Text} {result : WriteResult} {x : Agent}
      (entry : s.agents.entry k = some x) (idle : x.pending = none)
      (unknown : isCustom lifetime = false) :
    Move s (.setUuid k lifetime uuid result)
      ((s.put k (x.refresh s.files)).reply (.rc k G_FILE_ERROR_NOSYS))
  | finish {k : ℕ} {result : WriteResult} {x : Agent} {p : Pending}
      (entry : s.agents.entry k = some x) (pending : x.pending = some p) :
    Move s (.finish k result) (finishCall s k x result p)
  | others (name : FileName) (state : FileState) :
    Move s (.others name state) { s with files := s.files.set name state }

theorem idle_eq_some {s : Machine} {k : ℕ} {x : Agent} :
    s.idle k = some x ↔ s.agents.entry k = some x ∧ x.pending = none := by
  rw [Machine.idle, Option.filter_eq_some_iff, Option.isNone_iff_eq_none]

theorem step_move {s v : Machine} {e : Event} (h : step s e = some v) : Move s e v := by
  cases e with
  | start qmf =>
    cases h
    exact .start qmf
  | stop k =>
    obtain ⟨x, -, rfl⟩ := Option.map_eq_some_iff.mp h
    exact .stop k
  | getUuid k lifetime a =>
    obtain ⟨x, hidle, rfl⟩ := Option.map_eq_some_iff.mp h
    obtain ⟨hentry, hpending⟩ := idle_eq_some.mp hidle
    cases hget : mhHostGetUuid s.files a lifetime x.statics with
    | mk found st =>
      have hfound : (mhHostGetUuid s.files a lifetime x.statics).1 = found := by rw [hget]
      have hst : (mhHostGetUuid s.files a lifetime x.statics).2 = st := by rw [hget]
      cases found with
      | answer uuid =>
        rw [← hst]
        exact .answer hentry hpending hfound
      | generated uuid =>
        obtain ⟨-, hnone, hmissing, rfl, hsame⟩ := get_generated hfound
        obtain rfl : x.statics = st := hsame.symm.trans hst
        exact .generate hentry hpending hfound hnone hmissing
  | setUuid k lifetime uuid result =>
    obtain ⟨x, hidle, rfl⟩ := Option.map_eq_some_iff.mp h
    obtain ⟨hentry, hpending⟩ := idle_eq_some.mp hidle
    cases hcustom : isCustom lifetime with
    | true => exact .setCustom hentry hpending hcustom
    | false => exact .setUnknown hentry hpending hcustom
  | finish k result =>
    obtain ⟨x, hentry, hx⟩ := Option.bind_eq_some_iff.mp h
    obtain ⟨p, hp, rfl⟩ := Option.map_eq_some_iff.mp hx
    exact .finish hentry hp
  | others name state =>
    cases h
    exact .others name state

/-! ## What a process has found -/

def Grows (st st' : Statics) : Prop :=
  ∀ l uuid, l ≠ .custom → st.found l = some uuid → st'.found l = some uuid

theorem Grows.refl (st : Statics) : Grows st st := fun _ _ _ h => h

theorem Grows.get (f : Files) (a : Answers) (lifetime : Option Text) (st : Statics) :
    Grows st (mhHostGetUuid f a lifetime st).2 := fun _ _ _ h => found_of_get h

theorem Grows.publish (f : Files) (st : Statics) : Grows st (publish f st).2 :=
  fun _ _ _ h => found_filesystem (found_custom h)

theorem Grows.refresh (f : Files) (x : Agent) : Grows x.statics (x.refresh f).statics := by
  unfold Agent.refresh
  cases x.published with
  | none => exact .refl _
  | some p => exact .publish f x.statics

theorem Grows.reread {f : Files} {st st' : Statics} (h : Grows (rereadCustomUuid f st) st') :
    Grows st st' := by
  intro l uuid hl hfound
  apply h l uuid hl
  cases l with
  | custom => exact absurd rfl hl
  | _ => exact hfound

theorem grows_writeReboot (f : Files) {uuid : Text} {result : WriteResult} {st : Statics}
    (h : st.rebootUuid = none) : Grows st (writeRebootUuid f uuid result st).2.2 := by
  intro l uuid hl hfound
  cases l with
  | reboot => exact absurd (h.symm.trans hfound) (by simp)
  | _ => exact hfound

section

variable {s v : Machine} {e : Event} {j k : ℕ} {x y : Agent}

@[simp] theorem put_files : (s.put k x).files = s.files := rfl

@[simp] theorem put_replies : (s.put k x).replies = s.replies := rfl

@[simp] theorem reply_files (r : Reply) : (s.reply r).files = s.files := rfl

@[simp] theorem reply_agents (r : Reply) : (s.reply r).agents = s.agents := rfl

@[simp] theorem reply_replies (r : Reply) : (s.reply r).replies = s.replies ++ [r] := rfl

@[simp] theorem put_next : (s.put k x).agents.next = s.agents.next := rfl

theorem put_entry (h : (s.put k x).agents.entry j = some y) :
    (j = k ∧ y = x) ∨ (j ≠ k ∧ s.agents.entry j = some y) := by
  rw [Machine.put, FreshTable.modify_entry] at h
  split at h
  · rename_i hjk
    obtain ⟨_, -, rfl⟩ := Option.map_eq_some_iff.mp h
    exact .inl ⟨hjk, rfl⟩
  · rename_i hjk
    exact .inr ⟨hjk, h⟩

/-- The second answer is the same, if the first one was available. -/
def Reply.Stable : Reply → Reply → Prop
  | .uuid k l u, .uuid k' l' u' => k = k' → l = l' → l ≠ .custom → u ≠ notAvailable → u' = u
  | _, _ => True

structure Settled (s : Machine) : Prop where
  writing : ∀ k x uuid, s.agents.entry k = some x → x.pending = some (.writeReboot uuid) →
    x.statics.rebootUuid = none
  fresh : ∀ k l uuid, .uuid k l uuid ∈ s.replies → k < s.agents.next
  found : ∀ k l uuid, .uuid k l uuid ∈ s.replies → l ≠ .custom → uuid ≠ notAvailable →
    ∀ x, s.agents.entry k = some x → ∃ w, x.statics.found l = some w ∧ shown (some w) = uuid
  stable : s.replies.Pairwise Reply.Stable

structure Evolves (x y : Agent) : Prop where
  grows : Grows x.statics y.statics
  writing : ∀ uuid, y.pending = some (.writeReboot uuid) → y.statics.rebootUuid = none

theorem Settled.agents (h : Settled s) (hreplies : v.replies = s.replies)
    (hnext : s.agents.next ≤ v.agents.next)
    (hagents : ∀ k y, v.agents.entry k = some y →
      (∃ x, s.agents.entry k = some x ∧ Evolves x y) ∨ (s.agents.next ≤ k ∧ y.pending = none)) :
    Settled v where
  writing k y uuid hy hp := by
    rcases hagents k y hy with ⟨x, -, hxy⟩ | ⟨-, hnone⟩
    · exact hxy.writing uuid hp
    · rw [hnone] at hp
      cases hp
  fresh k l uuid hr := by
    rw [hreplies] at hr
    exact (h.fresh k l uuid hr).trans_le hnext
  found k l uuid hr hl hne y hy := by
    rw [hreplies] at hr
    rcases hagents k y hy with ⟨x, hx, hxy⟩ | ⟨hk, -⟩
    · obtain ⟨w, hw, hshown⟩ := h.found k l uuid hr hl hne x hx
      exact ⟨w, hxy.grows l w hl hw, hshown⟩
    · have hlt := h.fresh k l uuid hr
      omega
  stable := hreplies ▸ h.stable

theorem Settled.rc (h : Settled s) (k rc : ℕ) : Settled (s.reply (.rc k rc)) where
  writing := h.writing
  fresh k l uuid hr := by
    rw [reply_replies, List.mem_append, List.mem_singleton] at hr
    exact hr.elim (h.fresh k l uuid) Reply.noConfusion
  found k l uuid hr := by
    rw [reply_replies, List.mem_append, List.mem_singleton] at hr
    exact hr.elim (h.found k l uuid) Reply.noConfusion
  stable := by
    rw [reply_replies, List.pairwise_append]
    refine ⟨h.stable, List.pairwise_singleton _ _, ?_⟩
    intro r _ r' hr'
    obtain rfl := List.mem_singleton.mp hr'
    cases r <;> trivial

theorem shown_eq_some {uuid : Option Text} (h : shown uuid ≠ notAvailable) :
    ∃ w, uuid = some w := by
  cases uuid with
  | none => exact absurd rfl h
  | some w => exact ⟨w, rfl⟩

/-- An answer that tells what the process has found. -/
theorem Settled.answer (h : Settled s) {l : Lifetime} {uuid : Text}
    (hx : s.agents.entry k = some x) (huuid : uuid = shown (x.statics.found l)) :
    Settled (s.reply (.uuid k l uuid)) where
  writing := h.writing
  fresh k' l' uuid' hr := by
    rw [reply_replies, List.mem_append, List.mem_singleton] at hr
    rcases hr with hr | hr
    · exact h.fresh k' l' uuid' hr
    · cases hr
      exact FreshTable.lt_next hx
  found k' l' uuid' hr hl hne y hy := by
    rw [reply_replies, List.mem_append, List.mem_singleton] at hr
    rcases hr with hr | hr
    · exact h.found k' l' uuid' hr hl hne y hy
    · cases hr
      obtain rfl := Option.some_inj.mp (hx.symm.trans hy)
      rw [huuid] at hne ⊢
      obtain ⟨w, hw⟩ := shown_eq_some hne
      exact ⟨w, hw, by rw [hw]⟩
  stable := by
    rw [reply_replies, List.pairwise_append]
    refine ⟨h.stable, List.pairwise_singleton _ _, ?_⟩
    intro r hr r' hr'
    obtain rfl := List.mem_singleton.mp hr'
    cases r with
    | rc => trivial
    | uuid k' l' uuid' =>
      rintro rfl rfl hl hne
      obtain ⟨w, hw, hshown⟩ := h.found k' l' uuid' hr hl hne x hx
      rw [huuid, hw, hshown]

end

theorem Evolves.refl {s : Machine} (h : Settled s) {k : ℕ} {x : Agent}
    (hx : s.agents.entry k = some x) : Evolves x x where
  grows := .refl _
  writing uuid hp := h.writing k x uuid hx hp

theorem Settled.put {s : Machine} (h : Settled s) {k : ℕ} {x y : Agent} {f : Files}
    (hx : s.agents.entry k = some x) (hxy : Evolves x y) :
    Settled ({ s with files := f }.put k y) := by
  refine Settled.agents h rfl (Nat.le_refl _) ?_
  intro j z hz
  left
  rcases put_entry hz with ⟨rfl, rfl⟩ | ⟨-, hz⟩
  · exact ⟨x, hx, hxy⟩
  · exact ⟨z, hz, .refl h hz⟩

theorem put_entry_self {s : Machine} {k : ℕ} {x y : Agent} (hx : s.agents.entry k = some x) :
    (s.put k y).agents.entry k = some y := by
  rw [Machine.put, FreshTable.modify_entry, if_pos rfl, hx]
  rfl

theorem refresh_pending (f : Files) (x : Agent) : (x.refresh f).pending = x.pending := by
  unfold Agent.refresh
  cases x.published <;> rfl

theorem Settled.finish {s : Machine} (h : Settled s) {k : ℕ} {x : Agent} {p : Pending}
    (hx : s.agents.entry k = some x) (hp : x.pending = some p) (result : WriteResult) :
    Settled (finishCall s k x result p) := by
  cases p with
  | writeReboot uuid =>
    have hnone := h.writing k x uuid hx hp
    have hput : Settled ({ s with files := (writeRebootUuid s.files uuid result x.statics).2.1 }.put
        k { x with statics := (writeRebootUuid s.files uuid result x.statics).2.2, pending := none }) :=
      h.put hx ⟨grows_writeReboot s.files hnone, fun _ hp => by cases hp⟩
    exact hput.answer (put_entry_self hx) rfl
  | readCustom rc =>
    apply Settled.rc
    apply h.put (f := s.files) hx
    refine ⟨?_, ?_⟩
    · have hrefresh := Grows.refresh s.files
        { x with statics := rereadCustomUuid s.files x.statics, pending := none }
      exact hrefresh.reread
    intro uuid hpending
    rw [refresh_pending] at hpending
    cases hpending

theorem Settled.move {s v : Machine} {e : Event} (h : Settled s) (hm : Move s e v) : Settled v := by
  cases hm with
  | start qmf =>
    refine Settled.agents h rfl (Nat.le_succ _) ?_
    intro k y hy
    rcases FreshTable.add_entry_some hy with ⟨rfl, rfl⟩ | hy
    · refine .inr ⟨Nat.le_refl _, ?_⟩
      cases qmf <;> rfl
    · exact .inl ⟨y, hy, .refl h hy⟩
  | stop k =>
    refine Settled.agents h rfl (Nat.le_refl _) ?_
    intro j y hy
    have hy := (FreshTable.remove_entry_some hy).2
    exact .inl ⟨y, hy, .refl h hy⟩
  | answer hx hidle hfound =>
    refine (h.put (f := s.files) hx ⟨.get _ _ _ _, ?_⟩).answer (put_entry_self hx)
      (get_answer hfound)
    intro uuid hp
    rw [hidle] at hp
    cases hp
  | generate hx hidle hfound hunknown hmissing =>
    exact h.put (f := s.files) hx ⟨.refl _, fun _ _ => hunknown⟩
  | setCustom hx hidle hcustom =>
    exact h.put hx ⟨.refl _, fun _ hp => by cases hp⟩
  | setUnknown hx hidle hunknown =>
    apply Settled.rc
    apply h.put (f := s.files) hx
    refine ⟨.refresh _ _, ?_⟩
    intro uuid hpending
    rw [refresh_pending, hidle] at hpending
    cases hpending
  | finish hx hp => exact h.finish hx hp _
  | others name state =>
    refine Settled.agents h rfl (Nat.le_refl _) ?_
    intro k y hy
    exact .inl ⟨y, hy, .refl h hy⟩

theorem settled_boot (machineId dbusMachineId customMachineId : FileState) :
    Settled (Machine.boot machineId dbusMachineId customMachineId) where
  writing _ _ _ hx := by cases hx
  fresh _ _ _ hr := by cases hr
  found _ _ _ hr := by cases hr
  stable := .nil

/-- A process that has given a UUID for a lifetime other than `custom` gives the same one from
then on, whatever happens to the files. -/
theorem answers_stable (machineId dbusMachineId customMachineId : FileState) (es : List Event)
    (v : Machine) (hv : exec step (.boot machineId dbusMachineId customMachineId) es = some v) :
    v.replies.Pairwise Reply.Stable := by
  have hmove : ∀ s e u, Settled s → step s e = some u → Settled u :=
    fun s e u hs hu => hs.move (step_move hu)
  exact (exec_preserved hmove (settled_boot machineId dbusMachineId customMachineId) hv).stable

def answersOf (generated : Text) : Answers := ⟨none, ec2Answer [] 404, generated⟩

theorem answers_stable_changed :
    ∃ v, exec step (.boot (.contents "abc\n".toList) .missing .missing)
        [.start false, .getUuid 1 none (answersOf []),
          .others .machineId (.contents "def\n".toList),
          .getUuid 1 (some "Filesystem".toList) (answersOf [])] = some v ∧
      v.replies.Pairwise Reply.Stable := by
  have hv : exec step (.boot (.contents "abc\n".toList) .missing .missing)
      [.start false, .getUuid 1 none (answersOf []),
        .others .machineId (.contents "def\n".toList),
        .getUuid 1 (some "Filesystem".toList) (answersOf [])] = some _ := rfl
  exact ⟨_, hv, answers_stable _ _ _ _ _ hv⟩

/-! ## The UUID until the next boot -/

def Generates (s : Machine) (k : ℕ) (lifetime : Option Text) : Prop :=
  lifetimeOf lifetime = .reboot ∧ mhFileFirstLine s.files.matahariRebootId = none ∧
    ∀ x, s.agents.entry k = some x → x.statics.rebootUuid = none

/-- No UUID is generated while another process is to write one, what is generated is one line
and can be written, and other programs leave the file alone. -/
def NoRace (s : Machine) : Event → Prop
  | .getUuid k lifetime a => Generates s k lifetime → firstLine a.generated = a.generated ∧
      ∀ j x uuid, s.agents.entry j = some x → x.pending ≠ some (.writeReboot uuid)
  | .finish k result => ∀ x uuid, s.agents.entry k = some x →
      x.pending = some (.writeReboot uuid) → result = none
  | .others name _ => name ≠ .matahariRebootId
  | _ => True

structure OneUuid (s : Machine) : Prop where
  found : ∀ k x uuid, s.agents.entry k = some x → x.statics.rebootUuid = some uuid →
    mhFileFirstLine s.files.matahariRebootId = some uuid
  writing : ∀ k x uuid, s.agents.entry k = some x → x.pending = some (.writeReboot uuid) →
    mhFileFirstLine s.files.matahariRebootId = none ∧ firstLine uuid = uuid
  alone : ∀ j k x y uuid uuid', s.agents.entry j = some x → s.agents.entry k = some y →
    x.pending = some (.writeReboot uuid) → y.pending = some (.writeReboot uuid') → j = k
  replies : ∀ k u, .uuid k .reboot u ∈ s.replies →
    ∃ w, mhFileFirstLine s.files.matahariRebootId = some w ∧ u = shown (some w)

/-- An agent that has at most found the UUID of the file, and is not to write another one. -/
structure Follows (f : Files) (x : Option Agent) (y : Agent) : Prop where
  found : ∀ uuid, y.statics.rebootUuid = some uuid → mhFileFirstLine f.matahariRebootId = some uuid
  writing : ∀ uuid, y.pending = some (.writeReboot uuid) →
    ∃ z, x = some z ∧ z.pending = some (.writeReboot uuid)

theorem OneUuid.agents {s v : Machine} (h : OneUuid s) (hreplies : v.replies = s.replies)
    (hfile : v.files.matahariRebootId = s.files.matahariRebootId)
    (hagents : ∀ k y, v.agents.entry k = some y → Follows s.files (s.agents.entry k) y) :
    OneUuid v where
  found k y uuid hy hfound := hfile ▸ (hagents k y hy).found uuid hfound
  writing k y uuid hy hp := by
    obtain ⟨x, hx, hpx⟩ := (hagents k y hy).writing uuid hp
    rw [hfile]
    exact h.writing k x uuid hx hpx
  alone j k x y uuid uuid' hx hy hpx hpy := by
    obtain ⟨x', hx', hpx'⟩ := (hagents j x hx).writing uuid hpx
    obtain ⟨y', hy', hpy'⟩ := (hagents k y hy).writing uuid' hpy
    exact h.alone j k x' y' uuid uuid' hx' hy' hpx' hpy'
  replies k uuid hr := by
    rw [hfile]
    exact h.replies k uuid (hreplies ▸ hr)

theorem OneUuid.follows {s : Machine} (h : OneUuid s) {k : ℕ} {x : Agent}
    (hx : s.agents.entry k = some x) : Follows s.files (s.agents.entry k) x where
  found uuid hfound := h.found k x uuid hx hfound
  writing _ hp := ⟨x, hx, hp⟩

theorem OneUuid.put {s : Machine} (h : OneUuid s) {k : ℕ} {y : Agent} {f : Files}
    (hfile : f.matahariRebootId = s.files.matahariRebootId)
    (hy : Follows s.files (s.agents.entry k) y) : OneUuid ({ s with files := f }.put k y) := by
  refine OneUuid.agents h rfl hfile ?_
  intro j z hz
  rcases put_entry hz with ⟨rfl, rfl⟩ | ⟨-, hz⟩
  · exact hy
  · exact h.follows hz

theorem OneUuid.rc {s : Machine} (h : OneUuid s) (k rc : ℕ) : OneUuid (s.reply (.rc k rc)) where
  found := h.found
  writing := h.writing
  alone := h.alone
  replies j uuid hr := by
    rw [reply_replies, List.mem_append, List.mem_singleton] at hr
    exact hr.elim (h.replies j uuid) Reply.noConfusion

theorem OneUuid.answer {s : Machine} (h : OneUuid s) {k : ℕ} {l : Lifetime} {uuid : Text}
    (huuid : l = .reboot → ∃ w, mhFileFirstLine s.files.matahariRebootId = some w ∧
      uuid = shown (some w)) : OneUuid (s.reply (.uuid k l uuid)) where
  found := h.found
  writing := h.writing
  alone := h.alone
  replies j uuid' hr := by
    rw [reply_replies, List.mem_append, List.mem_singleton] at hr
    rcases hr with hr | hr
    · exact h.replies j uuid' hr
    · cases hr
      exact huuid rfl

theorem publish_rebootUuid (f : Files) (st : Statics) :
    (publish f st).2.rebootUuid = st.rebootUuid :=
  filesystemUuid_rebootUuid f _

theorem refresh_rebootUuid (f : Files) (x : Agent) :
    (x.refresh f).statics.rebootUuid = x.statics.rebootUuid := by
  unfold Agent.refresh
  cases x.published with
  | none => rfl
  | some p => exact publish_rebootUuid f x.statics

theorem OneUuid.generate {s : Machine} (h : OneUuid s) {k : ℕ} {x : Agent} {uuid : Text}
    (hx : s.agents.entry k = some x) (hmissing : mhFileFirstLine s.files.matahariRebootId = none)
    (hline : firstLine uuid = uuid)
    (hothers : ∀ j y w, s.agents.entry j = some y → y.pending ≠ some (.writeReboot w)) :
    OneUuid (s.put k { x with pending := some (.writeReboot uuid) }) where
  found j y w hy hfound := by
    rcases put_entry hy with ⟨rfl, rfl⟩ | ⟨-, hy⟩
    · exact h.found j x w hx hfound
    · exact h.found j y w hy hfound
  writing j y w hy hp := by
    rcases put_entry hy with ⟨rfl, rfl⟩ | ⟨-, hy⟩
    · cases hp
      exact ⟨hmissing, hline⟩
    · exact absurd hp (hothers j y w hy)
  alone i j y z w w' hy hz hpy hpz := by
    rcases put_entry hy with ⟨rfl, -⟩ | ⟨-, hy⟩
    · rcases put_entry hz with ⟨rfl, -⟩ | ⟨-, hz⟩
      · rfl
      · exact absurd hpz (hothers j z w' hz)
    · exact absurd hpy (hothers i y w hy)
  replies := h.replies

/-- Nobody has found a UUID before it is written. -/
theorem OneUuid.write {s : Machine} (h : OneUuid s) {k : ℕ} {x : Agent} {uuid : Text}
    (hx : s.agents.entry k = some x) (hp : x.pending = some (.writeReboot uuid)) :
    OneUuid (finishCall s k x none (.writeReboot uuid)) := by
  obtain ⟨hmissing, hline⟩ := h.writing k x uuid hx hp
  have hnone : ∀ w, mhFileFirstLine s.files.matahariRebootId ≠ some w := by
    intro w hw
    rw [hmissing] at hw
    cases hw
  have hfile : mhFileFirstLine (.contents uuid) = some uuid := congrArg some hline
  refine ⟨?_, ?_, ?_, ?_⟩
  · intro j y w hy hfound
    rcases put_entry hy with ⟨rfl, rfl⟩ | ⟨-, hy⟩
    · exact hfile.trans hfound
    · exact absurd (h.found j y w hy hfound) (hnone w)
  · intro j y w hy hpy
    rcases put_entry hy with ⟨rfl, rfl⟩ | ⟨hne, hy⟩
    · cases hpy
    · exact absurd (h.alone j k y x w uuid hy hx hpy hp) hne
  · intro i j y z w w' hy hz hpy hpz
    rcases put_entry hy with ⟨rfl, rfl⟩ | ⟨hne, hy⟩
    · cases hpy
    · exact absurd (h.alone i k y x w uuid hy hx hpy hp) hne
  · intro j w hr
    rw [finishCall, reply_replies, List.mem_append, List.mem_singleton] at hr
    rcases hr with hr | hr
    · obtain ⟨w', hw', -⟩ := h.replies j w hr
      exact absurd hw' (hnone w')
    · cases hr
      exact ⟨uuid, hfile, rfl⟩

theorem OneUuid.move {s v : Machine} {e : Event} (h : OneUuid s) (hrace : NoRace s e)
    (hm : Move s e v) : OneUuid v := by
  cases hm with
  | start qmf =>
    refine OneUuid.agents h rfl rfl ?_
    intro k y hy
    rcases FreshTable.add_entry_some hy with ⟨rfl, rfl⟩ | hy
    · cases qmf with
      | false =>
        constructor
        · intro w hfound
          cases hfound
        · intro w hp
          cases hp
      | true =>
        refine ⟨fun w hfound => ?_, fun _ hp => by cases hp⟩
        exact absurd ((publish_rebootUuid s.files .init).symm.trans hfound) (by simp [Statics.init])
    · exact h.follows hy
  | stop k =>
    refine OneUuid.agents h rfl rfl ?_
    intro j y hy
    exact h.follows (FreshTable.remove_entry_some hy).2
  | @answer k lifetime a x uuid hx hidle hfound =>
    have hstatics : ∀ w, (mhHostGetUuid s.files a lifetime x.statics).2.rebootUuid = some w →
        mhFileFirstLine s.files.matahariRebootId = some w :=
      fun w hw => (rebootUuid_of_get hw).elim (h.found k x w hx) id
    refine (h.put (f := s.files) rfl ⟨hstatics, ?_⟩).answer ?_
    · intro w hp
      rw [hidle] at hp
      cases hp
    · intro hl
      obtain ⟨w, hw⟩ := rebootUuid_of_answer hl hfound
      refine ⟨w, hstatics w hw, ?_⟩
      rw [get_answer hfound, hl, ← hw]
      rfl
  | @generate k lifetime a x hx hidle hfound hunknown hmissing =>
    obtain ⟨hl, -, -, -, -⟩ := get_generated hfound
    have hgenerates : Generates s k lifetime := by
      refine ⟨hl, hmissing, ?_⟩
      intro y hy
      obtain rfl := Option.some_inj.mp (hx.symm.trans hy)
      exact hunknown
    obtain ⟨hline, hothers⟩ := hrace hgenerates
    exact h.generate hx hmissing hline hothers
  | setCustom hx hidle hcustom =>
    refine h.put rfl ⟨?_, fun _ hp => by cases hp⟩
    exact fun w hw => h.found _ _ w hx hw
  | setUnknown hx hidle hunknown =>
    refine (h.put (f := s.files) rfl ⟨?_, ?_⟩).rc _ _
    · intro w hw
      rw [refresh_rebootUuid] at hw
      exact h.found _ _ w hx hw
    · intro w hp
      rw [refresh_pending, hidle] at hp
      cases hp
  | @finish k result x p hx hp =>
    cases p with
    | writeReboot uuid =>
      obtain rfl : result = none := hrace x uuid hx hp
      exact h.write hx hp
    | readCustom rc =>
      refine (h.put (f := s.files) rfl ⟨?_, ?_⟩).rc _ _
      · intro w hw
        rw [refresh_rebootUuid] at hw
        exact h.found k x w hx hw
      · intro w hp
        rw [refresh_pending] at hp
        cases hp
  | others name state =>
    have hfile : (s.files.set name state).matahariRebootId = s.files.matahariRebootId := by
      cases name with
      | matahariRebootId => exact absurd rfl hrace
      | _ => rfl
    refine OneUuid.agents h rfl hfile ?_
    exact fun k y hy => h.follows hy

theorem oneUuid_boot (machineId dbusMachineId customMachineId : FileState) :
    OneUuid (Machine.boot machineId dbusMachineId customMachineId) where
  found _ _ _ hx := by cases hx
  writing _ _ _ hx := by cases hx
  alone _ _ _ _ _ _ hx := by cases hx
  replies _ _ hr := by cases hr

/-- Between two boots all agents give the same UUID for the lifetime `reboot`, whenever they are
started, if no two of them generate one at the same time. -/
theorem reboot_uuid_agrees (machineId dbusMachineId customMachineId : FileState)
    (es : List Event) (v : Machine)
    (hrace : Throughout step NoRace (.boot machineId dbusMachineId customMachineId) es)
    (hv : exec step (.boot machineId dbusMachineId customMachineId) es = some v)
    (j k : ℕ) (uuid uuid' : Text) (hj : .uuid j .reboot uuid ∈ v.replies)
    (hk : .uuid k .reboot uuid' ∈ v.replies) : uuid = uuid' := by
  have hstart := oneUuid_boot machineId dbusMachineId customMachineId
  have hpreserved : ∀ s e u, OneUuid s → NoRace s e → step s e = some u → OneUuid u :=
    fun s e u hs hok hu => hs.move hok (step_move hu)
  have hone := (always_of_preserved hpreserved hstart hrace).final hv
  obtain ⟨w, hw, rfl⟩ := hone.replies j uuid hj
  obtain ⟨w', hw', rfl⟩ := hone.replies k uuid' hk
  rw [hw] at hw'
  cases hw'
  rfl

def secondReads : List Event :=
  [.start false, .start true, .getUuid 1 (some "reboot".toList) (answersOf "1-2".toList),
    .finish 1 none, .getUuid 2 (some "Reboot".toList) (answersOf "3-4".toList)]

theorem reboot_uuid_agrees_second :
    ∃ v uuid uuid', exec step (.boot .missing .missing .missing) secondReads = some v ∧
      .uuid 1 .reboot uuid ∈ v.replies ∧ .uuid 2 .reboot uuid' ∈ v.replies ∧ uuid = uuid' := by
  have hv : exec step (.boot .missing .missing .missing) secondReads = some _ := rfl
  have hone : Reply.uuid 1 .reboot "1-2".toList ∈ [Reply.uuid 1 .reboot "1-2".toList,
      .uuid 2 .reboot "1-2".toList] := List.mem_cons_self
  have htwo : Reply.uuid 2 .reboot "1-2".toList ∈ [Reply.uuid 1 .reboot "1-2".toList,
      .uuid 2 .reboot "1-2".toList] := List.mem_cons_of_mem _ List.mem_cons_self
  refine ⟨_, _, _, hv, hone, htwo, reboot_uuid_agrees _ _ _ _ _ ?_ hv _ _ _ _ hone htwo⟩
  refine fun _ h₁ => ⟨trivial, fun _ h₂ => ⟨trivial, fun _ h₃ => ⟨?_, fun _ h₄ => ⟨?_,
    fun _ _ => ⟨?_, trivial⟩⟩⟩⟩⟩
  · cases h₁
    cases h₂
    refine fun _ => ⟨by decide, ?_⟩
    intro j x uuid hx hp
    rcases FreshTable.add_entry_some hx with ⟨-, rfl⟩ | hx
    · cases hp
    · rcases FreshTable.add_entry_some hx with ⟨-, rfl⟩ | hx
      · cases hp
      · cases hx
  · exact fun _ _ _ _ => rfl
  · cases h₁
    cases h₂
    cases h₃
    cases h₄
    intro hgenerates
    cases hgenerates.2.1

end Matahari.Host.Uuids
