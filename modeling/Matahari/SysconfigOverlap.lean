import Matahari.Library.Transition
import Matahari.SysconfigReplies

set_option autoImplicit false

/-!
# Requests that overlap a run

A request looks for the key when it arrives. A puppet run stores the key only when the process
has ended, and in between the key does not show that it is running.
-/
namespace Matahari.Sysconfig
open Mainloop Utilities Services TransitionRuns

/-! ## What a run depends on -/

structure RunView where
  keys : Keys
  actions : FreshTable ActionData
  started : List (Text × ConfigRun)

def Sys.runs (s : Sys) : RunView := ⟨s.keys, s.actions, s.started⟩

theorem FilesOnly.runs {s t : Sys} (h : FilesOnly s t) : t.runs = s.runs := by
  obtain ⟨_, _, rfl⟩ := h
  rfl

@[simp] theorem runs_unlink (s : Sys) (filename : Text) : (unlink s filename).runs = s.runs :=
  ((FilesOnly.refl s).unlink filename).runs

@[simp] theorem runs_resultCb (s : Sys) (cbData : ℕ) (res : ℤ) :
    (resultCb s cbData res).runs = s.runs := by
  unfold resultCb
  dsimp only
  split <;> rfl

@[simp] theorem runs_endCall (request : ℕ) (ended : Option MhResult × Sys) :
    (endCall request ended).runs = ended.2.runs := by
  obtain ⟨res, t⟩ := ended
  cases res with
  | none => rfl
  | some res =>
    unfold endCall
    dsimp only
    split <;> rfl

theorem isConfigured_setConfigured {k : Keys} {key : Text} (h : checkKeySanity key = true)
    (contents : Text) :
    mhSysconfigIsConfigured (mhSysconfigSetConfigured k .ok key contents).2 key = some contents := by
  have hset : (mhSysconfigSetConfigured k .ok key contents).2 =
      { k with files := Function.update k.files (keyFile k key) (some contents) } := by
    unfold mhSysconfigSetConfigured setKey
    rw [if_neg (by simp [h])]
  rw [hset]
  unfold mhSysconfigIsConfigured getKey
  rw [if_neg (by simp [h])]
  exact Function.update_self _ _ _

/-! ## Requests when everything outside works -/

structure Succeeds (o : Outcomes) : Prop where
  puppetVersion : (checkPuppet o).isSome = true
  mkstemp : o.mkstemp.isSome = true
  fdopen : o.fdopen = true
  download : ∀ uri, sysconfigOsDownload o uri = .success
  dataWritten : o.dataWritten = true
  downloaded : o.downloaded.isSome = true
  resultMkstemp : o.resultMkstemp.isSome = true
  resultFdopen : o.resultFdopen = true
  augInit : o.augInit = true
  augOutput : o.augOutput.isSome = true
  fork : o.fork = true
  keyWrite : o.keyWrite = .ok

def Source.Runnable : Source → Prop
  | .uri u => isPuppetUri u = true → (puppetDomain u).isSome = true ∧ ¬ LongDomain u
  | .string _ => True

def RunRequest.Starts (haveAugeas : Bool) (r : RunRequest) : Prop :=
  checkKeySanity r.key = true ∧
    if strcasecmp r.scheme "puppet".toList then r.source.Runnable else haveAugeas = true

section
variable {o : Outcomes} {s : Sys} {key : Text}

theorem of_runs_eq {t : Sys} (h : t.runs = s.runs) :
    t.keys = s.keys ∧ t.actions = s.actions ∧ t.started = s.started :=
  ⟨congrArg RunView.keys h, congrArg RunView.actions h, congrArg RunView.started h⟩

theorem downloadToFile_succeeds (h : Succeeds o) (template uri : Text) (s : Sys) :
    ∃ filename t, downloadToFile template o uri s = (.ok (template ++ filename), t) := by
  obtain ⟨suffix, hsuffix⟩ := Option.isSome_iff_exists.mp h.mkstemp
  refine ⟨suffix, { s with created := (template ++ suffix) :: s.created }, ?_⟩
  unfold downloadToFile
  rw [hsuffix]
  dsimp only
  rw [if_neg (by simp [h.fdopen]), if_neg (by simp [h.download])]

def RunView.StartsPuppet (key : Text) (v u : RunView) : Prop :=
  ∃ data run, data.key = key ∧
    u = ⟨v.keys, v.actions.add data, (key, run) :: v.started⟩

def RunView.StartsAugeas (key : Text) (v u : RunView) : Prop :=
  ∃ run contents, u =
    ⟨(mhSysconfigSetConfigured v.keys .ok key contents).2, v.actions, (key, run) :: v.started⟩

theorem ready_iff_runnable (h : Succeeds o) (source : Source) :
    source.Ready o ↔ source.Runnable := by
  cases source with
  | string text => exact Iff.rfl
  | uri u =>
    unfold Source.Runnable
    by_cases hpuppet : isPuppetUri u = true
    · rw [ready_server hpuppet]
      exact ⟨fun hready _ => hready, fun hrunnable => hrunnable hpuppet⟩
    · rw [ready_file hpuppet]
      exact ⟨fun _ hyes => absurd hyes hpuppet, fun _ => ⟨h.mkstemp, h.fdopen, h.download u⟩⟩

/-- Puppet is started if its input is there and the arguments can be printed. -/
theorem runPuppet_runs (h : Succeeds o) (source : Source) (key : Text) (cbData : ℕ) (s : Sys) :
    let t := (runPuppet o source.uriArg source.oneoff source.dataArg key cbData s).2
    (source.Ready o ∧ s.runs.StartsPuppet key t.runs) ∨ (¬ source.Ready o ∧ t.runs = s.runs) := by
  intro t
  obtain ⟨useApply, huse⟩ := Option.isSome_iff_exists.mp h.puppetVersion
  have hruns := (puppetInput_spec o source.uriArg source.dataArg s).1.runs
  have ht : t = (runPuppet o source.uriArg source.oneoff source.dataArg key cbData s).2 := rfl
  unfold runPuppet at ht
  rw [huse] at ht
  dsimp only at ht
  by_cases hready : source.Ready o
  · left
    obtain ⟨filename, domain, u, hinput, hrender⟩ := puppetInput_ready hready useApply s
    obtain ⟨written, hwritten⟩ := Option.ne_none_iff_exists'.mp hrender
    rw [hinput] at hruns ht
    dsimp only at ht
    rw [hwritten] at ht
    dsimp only at ht
    rw [if_pos h.fork] at ht
    obtain ⟨hkeys, hactions, hstarted⟩ := of_runs_eq hruns
    refine ⟨hready, ⟨key, if mhStrlenZero filename then none else some filename, cbData⟩,
      .puppet (puppetArgs useApply source.oneoff filename domain), rfl, ?_⟩
    rw [ht]
    change RunView.mk u.keys (u.actions.add _) (_ :: u.started) = _
    rw [hkeys, hactions, hstarted]
    rfl
  · right
    refine ⟨hready, ?_⟩
    split at ht
    · rename_i hinput
      rw [hinput] at hruns
      rw [ht]
      exact hruns
    · rename_i filename domain u hinput
      rw [hinput] at hruns
      split at ht
      · rw [ht]
        exact hruns
      · rename_i written hrender
        refine absurd (ready_of_puppetInput useApply hinput ?_) hready
        rw [hrender]
        exact Option.some_ne_none written

theorem augeasText_succeeds (h : Succeeds o) {uri data : Option Text}
    (hinput : uri.isSome = true ∨ data.isSome = true) (s : Sys) :
    ∃ text t, augeasText o uri data s = (.ok text, t) := by
  unfold augeasText
  cases uri with
  | some uri =>
    obtain ⟨filename, t, hdownload⟩ := downloadToFile_succeeds h "augeas_conf_".toList uri s
    obtain ⟨text, htext⟩ := Option.isSome_iff_exists.mp h.downloaded
    dsimp only
    rw [hdownload, htext]
    exact ⟨_, _, rfl⟩
  | none =>
    cases data with
    | some text => exact ⟨_, _, rfl⟩
    | none => simp at hinput

theorem runAugeas_runs (h : Succeeds o) {uri data : Option Text}
    (hinput : uri.isSome = true ∨ data.isSome = true) (key : Text) (cbData : ℕ) (s : Sys) :
    s.runs.StartsAugeas key (runAugeas true o uri data key cbData s).2.runs := by
  obtain ⟨text, t, htext⟩ := augeasText_succeeds h hinput s
  obtain ⟨suffix, hsuffix⟩ := Option.isSome_iff_exists.mp h.resultMkstemp
  obtain ⟨value, hvalue⟩ := Option.isSome_iff_exists.mp h.augOutput
  have hruns := (augeasText_spec o uri data s).1.runs
  rw [htext] at hruns
  obtain ⟨hkeys, hactions, hstarted⟩ := of_runs_eq hruns
  unfold runAugeas
  rw [if_neg (by simp), htext]
  dsimp only
  rw [hsuffix]
  dsimp only
  rw [if_neg (by simp [h.resultFdopen]), if_neg (by simp [h.augInit]), hvalue]
  dsimp only
  rw [runs_unlink, runs_resultCb, h.keyWrite]
  refine ⟨.augeas text, augeasStatus o.augSrun value, ?_⟩
  change RunView.mk (mhSysconfigSetConfigured t.keys .ok key _).2 t.actions (_ :: t.started) = _
  rw [hkeys, hactions, hstarted]
  rfl

/-- A request for a key that is configured, or one that is refused, changes nothing that later
runs depend on; any other starts a run. -/
theorem mhSysconfigRun_runs (haveAugeas : Bool) (h : Succeeds o) {r : RunRequest}
    (hforced : r.forced = false)
    (hscheme : strcasecmp r.scheme "puppet".toList = true ∨
      strcasecmp r.scheme "augeas".toList = true) (cbData : ℕ) (s : Sys) :
    let t := (mhSysconfigRun haveAugeas o r cbData s).2
    ((mhSysconfigIsConfigured s.keys r.key ≠ none ∨ ¬ r.Starts haveAugeas) ∧ t.runs = s.runs) ∨
    (mhSysconfigIsConfigured s.keys r.key = none ∧ r.Starts haveAugeas) ∧
      if strcasecmp r.scheme "puppet".toList then s.runs.StartsPuppet r.key t.runs
      else s.runs.StartsAugeas r.key t.runs := by
  intro t
  have ht : t = (mhSysconfigRun haveAugeas o r cbData s).2 := rfl
  rw [mhSysconfigRun_eq] at ht
  split at ht
  · rename_i hinsane
    refine Or.inl ⟨Or.inr fun hstarts => ?_, by rw [ht]⟩
    rw [hstarts.1] at hinsane
    cases hinsane
  rename_i hsane
  unfold sysconfigOsRun at ht
  split at ht
  · rename_i hguard
    refine Or.inl ⟨Or.inl fun hnone => ?_, by rw [ht, runs_resultCb]⟩
    rw [hnone] at hguard
    cases hguard
  rename_i hguard
  have hkey : mhSysconfigIsConfigured s.keys r.key = none :=
    (not_answered_iff.mp hguard).resolve_right (by simp [hforced])
  by_cases hpuppet : strcasecmp r.scheme "puppet".toList = true
  · have hstarts : r.Starts haveAugeas ↔ r.source.Ready o := by
      unfold RunRequest.Starts
      rw [if_pos hpuppet, ready_iff_runnable h]
      exact and_iff_right (by simpa using hsane)
    rw [if_pos hpuppet] at ht
    rw [if_pos hpuppet, hstarts, ht]
    rcases runPuppet_runs h r.source r.key cbData s with ⟨hready, hstart⟩ | ⟨hno, hsame⟩
    · exact Or.inr ⟨⟨hkey, hready⟩, hstart⟩
    · exact Or.inl ⟨Or.inr hno, hsame⟩
  · have hstarts : r.Starts haveAugeas ↔ haveAugeas = true := by
      unfold RunRequest.Starts
      rw [if_neg hpuppet]
      exact and_iff_right (by simpa using hsane)
    rw [if_neg hpuppet, if_pos (hscheme.resolve_left hpuppet)] at ht
    rw [if_neg hpuppet, hstarts, ht]
    cases haveAugeas with
    | true =>
      have hinput : r.source.uriArg.isSome = true ∨ r.source.dataArg.isSome = true := by
        cases r.source with
        | uri u => exact Or.inl rfl
        | string text => exact Or.inr rfl
      exact Or.inr ⟨⟨hkey, rfl⟩, runAugeas_runs h hinput r.key cbData s⟩
    | false => exact Or.inl ⟨Or.inr Bool.false_ne_true, rfl⟩

end

/-! ## Whole runs -/

/-- A request for the key that does not force a run, with everything outside working. -/
def RunRequest.Concerns (key : Text) (r : RunRequest) (o : Outcomes) : Prop :=
  r.key = key ∧ r.forced = false ∧
    (strcasecmp r.scheme "puppet".toList = true ∨ strcasecmp r.scheme "augeas".toList = true) ∧
    Succeeds o

def Concerns (key : Text) : Event → Prop
  | .qmf args o => ∃ r, args.request = some r ∧ r.Concerns key o
  | .dbus none r o => r.Concerns key o
  | .dbus (some _) _ _ | .exit _ => True
  | .complete _ _ keyWrite => keyWrite = .ok

abbrev KeyEvent (key : Text) := {e : Event // Concerns key e}

def keyStep (haveAugeas : Bool) (key : Text) (s : Sys) (e : KeyEvent key) : Option Sys :=
  step haveAugeas s e.1

def RunView.count (key : Text) (v : RunView) : ℕ :=
  (v.started.filter fun run => run.1 = key).length

def runsOf (key : Text) (s : Sys) : ℕ := s.runs.count key

def Event.Starts (haveAugeas : Bool) : Event → Prop
  | .qmf args _ => ∃ r, args.request = some r ∧ r.Starts haveAugeas
  | .dbus none r _ => r.Starts haveAugeas
  | .dbus (some _) _ _ | .exit _ | .complete _ _ _ => False

def Overlaps (haveAugeas : Bool) (s : Sys) (e : Event) : Prop :=
  e.Starts haveAugeas ∧ ∃ a data, s.actions.entry a = some data

/-- Before the run; while puppet is running, and the key does not show it; after the run. -/
inductive RunView.Phase (key : Text) (v : RunView) : Prop where
  | before (hcount : v.count key = 0) (hidle : ∀ a, v.actions.entry a = none)
      (hkey : mhSysconfigIsConfigured v.keys key = none)
  | running (a : ℕ) (data : ActionData) (hcount : v.count key = 1) (hdata : data.key = key)
      (honly : ∀ b, v.actions.entry b = if b = a then some data else none)
      (hkey : mhSysconfigIsConfigured v.keys key = none) (hsane : checkKeySanity key = true)
  | after (hcount : v.count key = 1) (hidle : ∀ a, v.actions.entry a = none)
      (hkey : mhSysconfigIsConfigured v.keys key ≠ none)

section
variable {key : Text} {v u : RunView}

theorem RunView.Phase.count_le (h : v.Phase key) : v.count key ≤ 1 := by
  cases h with
  | before hcount => omega
  | running _ _ hcount => omega
  | after hcount => omega

theorem RunView.StartsPuppet.count (h : v.StartsPuppet key u) : u.count key = v.count key + 1 := by
  obtain ⟨data, run, -, rfl⟩ := h
  simp [RunView.count]

theorem RunView.StartsAugeas.count (h : v.StartsAugeas key u) : u.count key = v.count key + 1 := by
  obtain ⟨run, contents, rfl⟩ := h
  simp [RunView.count]

theorem RunView.StartsPuppet.phase (h : v.StartsPuppet key u) (hcount : v.count key = 0)
    (hidle : ∀ a, v.actions.entry a = none) (hkey : mhSysconfigIsConfigured v.keys key = none)
    (hsane : checkKeySanity key = true) : u.Phase key := by
  have hnew := h.count
  obtain ⟨data, run, hdata, rfl⟩ := h
  refine .running v.actions.next data (by omega) hdata (fun b => ?_) hkey hsane
  rw [FreshTable.add_entry, hidle b]

theorem RunView.StartsAugeas.phase (h : v.StartsAugeas key u) (hcount : v.count key = 0)
    (hidle : ∀ a, v.actions.entry a = none) (hsane : checkKeySanity key = true) :
    u.Phase key := by
  have hnew := h.count
  obtain ⟨run, contents, rfl⟩ := h
  refine .after (by omega) hidle ?_
  rw [isConfigured_setConfigured hsane]
  exact Option.some_ne_none contents

end

theorem no_action {s : Sys} (hidle : ∀ a, s.runs.actions.entry a = none) :
    ¬ ∃ a data, s.actions.entry a = some data := by
  rintro ⟨a, data, hentry⟩
  have hnone : s.actions.entry a = none := hidle a
  rw [hnone] at hentry
  cases hentry

/-- The handler of a request, for a key that is in one of the phases. -/
theorem invoke_phase (haveAugeas : Bool) (front : FrontEnd) {o : Outcomes} {r : RunRequest}
    (ho : Succeeds o) (hforced : r.forced = false)
    (hscheme : strcasecmp r.scheme "puppet".toList = true ∨
      strcasecmp r.scheme "augeas".toList = true) (request : ℕ) {s : Sys} (hs : s.runs.Phase r.key) :
    let u := invoke haveAugeas front o r request s
    (¬ (r.Starts haveAugeas ∧ ∃ a data, s.actions.entry a = some data) ∧ u.runs.Phase r.key) ∨
      (r.Starts haveAugeas ∧ ∃ a data, s.actions.entry a = some data) ∧ u.runs.count r.key = 2 := by
  intro u
  have hcases := mhSysconfigRun_runs haveAugeas ho hforced hscheme request
    { s with asyncCBs := Function.update s.asyncCBs request (some ⟨front, r.key⟩) }
  have hu : u.runs = _ := runs_endCall request _
  dsimp only at hcases
  rw [← hu] at hcases
  cases hs with
  | before hcount hidle hkey =>
    have hnone : ¬ (r.Starts haveAugeas ∧ ∃ a data, s.actions.entry a = some data) := fun h =>
      no_action hidle h.2
    rcases hcases with ⟨-, hsame⟩ | ⟨⟨-, hstarts⟩, hstarted⟩
    · exact Or.inl ⟨hnone, hsame ▸ .before hcount hidle hkey⟩
    · refine Or.inl ⟨hnone, ?_⟩
      split at hstarted
      · exact hstarted.phase hcount hidle hkey hstarts.1
      · exact hstarted.phase hcount hidle hstarts.1
  | running a data hcount hdata honly hkey hsane =>
    have hexists : ∃ a data, s.actions.entry a = some data := ⟨a, data, (honly a).trans (if_pos rfl)⟩
    rcases hcases with ⟨hidle, hsame⟩ | ⟨⟨-, hstarts⟩, hstarted⟩
    · refine Or.inl ⟨fun hboth => ?_, hsame ▸ .running a data hcount hdata honly hkey hsane⟩
      exact hidle.elim (fun hset => hset hkey) fun hno => hno hboth.1
    · refine Or.inr ⟨⟨hstarts, hexists⟩, ?_⟩
      have hcount : s.runs.count r.key = 1 := hcount
      split at hstarted
      · exact hstarted.count.trans (congrArg (· + 1) hcount)
      · exact hstarted.count.trans (congrArg (· + 1) hcount)
  | after hcount hidle hkey =>
    have hnone : ¬ (r.Starts haveAugeas ∧ ∃ a data, s.actions.entry a = some data) := fun h =>
      no_action hidle h.2
    rcases hcases with ⟨-, hsame⟩ | ⟨⟨hunset, -⟩, -⟩
    · exact Or.inl ⟨hnone, hsame ▸ .after hcount hidle hkey⟩
    · exact absurd hunset hkey

/-- The end of the process stores the key. -/
theorem actionCb_phase {key : Text} {s : Sys} {a : ℕ} {data : ActionData} (rc : ℤ)
    (hs : s.runs.Phase key) (hentry : s.actions.entry a = some data) :
    (actionCb { s with actions := s.actions.remove a, sigchld := false } data rc
      .ok).runs.Phase key := by
  have hruns : ∃ contents,
      (actionCb { s with actions := s.actions.remove a, sigchld := false } data rc .ok).runs =
        ⟨(mhSysconfigSetConfigured s.keys .ok data.key contents).2, s.actions.remove a,
          s.started⟩ := by
    refine ⟨if rc ≠ 0 then snprintf 32 ("FAILED\n".toList ++ decimal rc) else "OK".toList, ?_⟩
    unfold actionCb
    dsimp only
    cases data.filename with
    | none => exact runs_resultCb _ _ _
    | some filename => exact (runs_unlink _ _).trans (runs_resultCb _ _ _)
  obtain ⟨contents, hruns⟩ := hruns
  cases hs with
  | before _ hidle _ => exact absurd ⟨a, data, hentry⟩ (no_action hidle)
  | after _ hidle _ => exact absurd ⟨a, data, hentry⟩ (no_action hidle)
  | running b data' hcount hdata honly hkey hsane =>
    have hb : s.actions.entry a = if a = b then some data' else none := honly a
    rw [hentry] at hb
    split at hb
    case isFalse => cases hb
    rename_i hab
    cases hb
    rw [hruns, hdata]
    refine .after hcount (fun c => ?_) ?_
    · rw [FreshTable.remove_entry, hab]
      split
      · rfl
      · rename_i hc
        exact (honly c).trans (if_neg hc)
    · rw [isConfigured_setConfigured hsane]
      exact Option.some_ne_none contents

theorem keyStep_phase (haveAugeas : Bool) {key : Text} {s u : Sys} {e : KeyEvent key}
    (hs : s.runs.Phase key) (hstep : keyStep haveAugeas key s e = some u) :
    (¬ Overlaps haveAugeas s e.1 ∧ u.runs.Phase key) ∨
      Overlaps haveAugeas s e.1 ∧ u.runs.count key = 2 := by
  obtain ⟨e, he⟩ := e
  cases (step_move hstep).2 with
  | unconverted o asyncCBs hnone =>
    obtain ⟨r, hargs, -⟩ := he
    cases hnone.symm.trans hargs
  | @qmf args r o hargs =>
    obtain ⟨r', hargs', rfl, hforced, hscheme, ho⟩ := he
    obtain rfl : r = r' := Option.some.inj (hargs.symm.trans hargs')
    have hoverlaps : Overlaps haveAugeas s (.qmf args o) ↔
        r.Starts haveAugeas ∧ ∃ a data, s.actions.entry a = some data := by
      refine and_congr_left fun _ => ⟨?_, fun h => ⟨r, hargs, h⟩⟩
      rintro ⟨r', hargs', h⟩
      cases hargs.symm.trans hargs'
      exact h
    rw [hoverlaps]
    exact invoke_phase haveAugeas .qmf ho hforced hscheme s.requests
      (s := { s with requests := s.requests + 1 }) hs
  | denied message r o => exact Or.inl ⟨fun h => h.1, hs⟩
  | dbus r o =>
    obtain ⟨rfl, hforced, hscheme, ho⟩ := he
    exact invoke_phase haveAugeas .dbus ho hforced hscheme s.requests
      (s := { s with requests := s.requests + 1 }) hs
  | exit hentry => exact Or.inl ⟨fun h => h.1, hs⟩
  | complete status keyWrite hentry =>
    obtain rfl : keyWrite = .ok := he
    exact Or.inl ⟨fun h => h.1, actionCb_phase (childRc status) hs hentry⟩

theorem phase_start {keys : Keys} {key : Text} (h : mhSysconfigIsConfigured keys key = none) :
    (start keys).runs.Phase key := .before rfl (fun _ => rfl) h

/-- At most one run is started for a key that is not configured, however requests and the ends
of processes interleave, if and only if no request that starts one arrives while puppet is
running. -/
theorem at_most_one_run_iff (haveAugeas : Bool) (keys : Keys) (key : Text)
    (hkey : mhSysconfigIsConfigured keys key = none) (es : List (KeyEvent key)) :
    Always (keyStep haveAugeas key) (fun s => runsOf key s ≤ 1) (start keys) es ↔
      Throughout (keyStep haveAugeas key) (fun s e => ¬ Overlaps haveAugeas s e.1) (start keys)
        es := by
  have hpreserved : ∀ (s : Sys) (e : KeyEvent key) (u : Sys), s.runs.Phase key →
      ¬ Overlaps haveAugeas s e.1 → keyStep haveAugeas key s e = some u → u.runs.Phase key := by
    intro s e u hs hok hstep
    rcases keyStep_phase haveAugeas hs hstep with ⟨-, hu⟩ | ⟨hoverlap, -⟩
    · exact hu
    · exact absurd hoverlap hok
  constructor
  · intro halways
    refine throughout_of_always hpreserved ?_ (phase_start hkey) halways
    intro s e u hs hoverlap hstep
    rcases keyStep_phase haveAugeas hs hstep with ⟨hno, -⟩ | ⟨-, hcount⟩
    · exact absurd hno hoverlap
    · unfold runsOf
      omega
  · intro hok
    exact (always_of_preserved hpreserved (phase_start hkey) hok).imp fun _ hs => hs.count_le

theorem succeeds_goodOutcomes : Succeeds goodOutcomes where
  puppetVersion := by decide
  mkstemp := rfl
  fdopen := rfl
  download uri := by
    unfold sysconfigOsDownload goodOutcomes
    simp
  dataWritten := rfl
  downloaded := rfl
  resultMkstemp := rfl
  resultFdopen := rfl
  augInit := rfl
  augOutput := rfl
  fork := rfl
  keyWrite := rfl

def testRequest : RunRequest := ⟨.string "class web".toList, 0, "puppet".toList, "web".toList⟩

theorem concerns_testRequest : Concerns "web".toList (.qmf testRequest.args goodOutcomes) :=
  ⟨testRequest, rfl, rfl, by decide, Or.inl (by decide), succeeds_goodOutcomes⟩

theorem isConfigured_testKeys (key : Text) : mhSysconfigIsConfigured testKeys key = none := by
  unfold mhSysconfigIsConfigured getKey
  split <;> rfl

theorem at_most_one_run_iff_web :
    Always (keyStep true "web".toList) (fun s => runsOf "web".toList s ≤ 1) (start testKeys)
      [⟨.qmf testRequest.args goodOutcomes, concerns_testRequest⟩, ⟨.complete 1 0 .ok, rfl⟩] := by
  rw [at_most_one_run_iff true testKeys _ (isConfigured_testKeys _)]
  refine fun u _ => ⟨?_, fun w _ => ⟨fun h => h.1, trivial⟩⟩
  rintro ⟨-, a, data, hentry⟩
  cases hentry

theorem starts_testRequest : testRequest.Starts true := by
  refine ⟨(checkKeySanity_eq_validKey (by decide)).mpr (Or.inl (by decide)), ?_⟩
  rw [if_pos (by decide)]
  trivial

theorem returns_testRequest (s : Sys) : Returns s (.qmf testRequest.args goodOutcomes) := by
  refine ⟨testRequest, rfl, ?_⟩
  rintro ⟨-, -, -, -, uri, hsource, -⟩
  cases hsource

/-- Two requests for the same key start puppet twice if the first run has not ended. -/
theorem overlapping_requests_run_twice :
    ¬ Always (keyStep true "web".toList) (fun s => runsOf "web".toList s ≤ 1) (start testKeys)
      [⟨.qmf testRequest.args goodOutcomes, concerns_testRequest⟩,
        ⟨.qmf testRequest.args goodOutcomes, concerns_testRequest⟩] := by
  intro halways
  obtain ⟨s, hs⟩ : ∃ s, step true (start testKeys) (.qmf testRequest.args goodOutcomes) = some s :=
    ⟨_, rfl⟩
  have hfault : s.fault = false :=
    (step_sound true (sound_start testKeys) (returns_testRequest _) hs).fault
  obtain ⟨u, hu⟩ : ∃ u, step true s (.qmf testRequest.args goodOutcomes) = some u := by
    unfold step
    rw [if_neg (by simp [hfault])]
    exact ⟨_, rfl⟩
  -- the first request starts puppet and leaves the key as it was
  have hfirst : (start testKeys).runs.StartsPuppet "web".toList s.runs := by
    cases hs
    rcases mhSysconfigRun_runs (r := testRequest) true succeeds_goodOutcomes (by decide)
      (Or.inl (by decide)) 0 { start testKeys with
        requests := 1
        asyncCBs := Function.update (fun _ => none) 0 (some ⟨.qmf, "web".toList⟩) } with
      ⟨hidle, -⟩ | ⟨-, hstarted⟩
    · exact (hidle.elim (fun hset => hset (isConfigured_testKeys _))
        fun hno => hno starts_testRequest).elim
    · rw [if_pos (by decide)] at hstarted
      exact (runs_endCall _ _).symm ▸ hstarted
  have hphase := hfirst.phase rfl (fun _ => rfl) (isConfigured_testKeys _) starts_testRequest.1
  have hrunning : ∃ a data, s.actions.entry a = some data := by
    obtain ⟨data, run, -, hruns⟩ := hfirst
    refine ⟨1, data, ?_⟩
    rw [show s.actions = _ from congrArg RunView.actions hruns]
    rfl
  rcases keyStep_phase true (e := ⟨.qmf testRequest.args goodOutcomes, concerns_testRequest⟩) hphase hu
    with ⟨hno, -⟩ | ⟨-, hcount⟩
  · exact hno ⟨⟨testRequest, rfl, starts_testRequest⟩, hrunning⟩
  · have hle : runsOf "web".toList u ≤ 1 := (halways.2 s hs).2 u hu
    unfold runsOf at hle
    omega

end Matahari.Sysconfig
