import Matahari.Library.Transition
import Matahari.SysconfigStatus

set_option autoImplicit false

/-!
# Temporary files

Puppet gets its configuration in a temporary file, and augeas writes its output into one.
`mkstemp` makes a file under a name that no other file has. For a configuration string
`run_puppet` draws a name itself, does not ask whether there is such a file, and goes on when
the file could not be written.
-/
namespace Matahari.Sysconfig
open Mainloop Utilities Services TransitionRuns

/-! ## The directory -/

inductive Owner where
  | request (n : ℕ)
  | other
  deriving DecidableEq, Repr

def foreign (n : ℕ) : Option Owner → Bool
  | none => false
  | some .other => true
  | some (.request m) => decide (m ≠ n)

/-- The process and the directory that it runs in. `taken` are the names under which a request
has unlinked, or replaced, a file that was not its own. -/
structure Workdir where
  sys : Sys
  files : Text → Option Owner
  taken : List Text

def added (before after : List Text) : List Text := after.take (after.length - before.length)

/-- A file that is made and unlinked in the same step is made first. -/
def Workdir.follow (w : Workdir) (n : ℕ) (t : Sys) : Workdir :=
  let made := added w.sys.created t.created
  let gone := added w.sys.unlinked t.unlinked
  { sys := t
    files := fun f =>
      if gone.contains f then none else if made.contains f then some (.request n) else w.files f
    taken := (made ++ gone).filter (fun f => foreign n (w.files f)) ++ w.taken }

def Event.request (s : Sys) : Event → Option ℕ
  | .qmf _ _ | .dbus _ _ _ => some s.requests
  | .exit a | .complete a _ _ => (s.actions.entry a).map fun data => data.cbData

inductive DirEvent where
  | process (e : Event)
  | others (filename : Text) (file : Bool)

def dirStep (haveAugeas : Bool) (w : Workdir) : DirEvent → Option Workdir
  | .process e =>
    (step haveAugeas w.sys e).bind fun t => (e.request w.sys).map fun n => w.follow n t
  | .others filename file =>
    some { w with files := Function.update w.files filename (if file then some .other else none) }

def startIn (keys : Keys) (present : Text → Bool) : Workdir where
  sys := start keys
  files := fun f => if present f then some .other else none
  taken := []

/-- The library has returned an error, or called the callback. -/
def Delivered (l : RequestLog) : Prop :=
  (∃ res, l.returned = some res ∧ res ≠ .success) ∨ l.calls ≠ []

/-- No file is left of a request that has been dealt with, and only own files were unlinked. -/
structure Tidy (w : Workdir) : Prop where
  removed : ∀ f n, w.files f = some (.request n) → ¬ Delivered (w.sys.log n)
  own : w.taken = []

/-! ## The names of temporary files -/

def mkstempName (template : Text) (suffix : Option Text) : List Text :=
  (suffix.map fun suffix => template ++ suffix).toList

def puppetNames (o : Outcomes) : Source → List Text
  | .uri u => if isPuppetUri u then [] else mkstempName "puppet_conf_".toList o.mkstemp
  | .string _ => ["puppet_conf_".toList ++ decimal o.randomInt.toNat]

def augeasNames (o : Outcomes) : Source → List Text
  | .uri _ => mkstempName "augeas_conf_".toList o.mkstemp ++
      mkstempName "augeas_conf_".toList o.resultMkstemp
  | .string _ => mkstempName "augeas_conf_".toList o.resultMkstemp

def RunRequest.tempNames (keys : Keys) (r : RunRequest) (o : Outcomes) : List Text :=
  if checkKeySanity r.key = false then []
  else if (mhSysconfigIsConfigured keys r.key).isSome && !r.forced then []
  else if strcasecmp r.scheme "puppet".toList then
    if (checkPuppet o).isSome then puppetNames o r.source else []
  else if strcasecmp r.scheme "augeas".toList then augeasNames o r.source
  else []

def Unused (s : Sys) (f : Text) : Prop :=
  ∀ a data, s.actions.entry a = some data → data.filename ≠ some f

/-- The name of a new temporary file is neither that of a file nor of a run in progress, and other
programs keep away from both. -/
def FreshNames (w : Workdir) : DirEvent → Prop
  | .process (.qmf args o) => ∀ r, args.request = some r →
    ∀ f ∈ r.tempNames w.sys.keys o, w.files f = none ∧ Unused w.sys f
  | .process (.dbus none r o) =>
    ∀ f ∈ r.tempNames w.sys.keys o, w.files f = none ∧ Unused w.sys f
  | .process (.dbus (some _) _ _) | .process (.exit _) | .process (.complete _ _ _) => True
  | .others f _ => (∀ n, w.files f ≠ some (.request n)) ∧ Unused w.sys f

/-! ## What a call leaves -/

structure TempView where
  actions : FreshTable ActionData
  created : List Text
  unlinked : List Text

def Sys.temp (s : Sys) : TempView := ⟨s.actions, s.created, s.unlinked⟩

@[simp] theorem temp_resultCb (s : Sys) (cbData : ℕ) (res : ℤ) :
    (resultCb s cbData res).temp = s.temp := by
  unfold resultCb
  dsimp only
  split <;> rfl

@[simp] theorem temp_endCall (request : ℕ) (ended : Option MhResult × Sys) :
    (endCall request ended).temp = ended.2.temp := by
  obtain ⟨res, t⟩ := ended
  cases res with
  | none => rfl
  | some res =>
    unfold endCall
    dsimp only
    split <;> rfl

theorem temp_unlink {s : Sys} {filename : Text} (h : filename ≠ []) :
    (unlink s filename).temp = { s.temp with unlinked := filename :: s.unlinked } := by
  unfold unlink
  rw [if_neg (by simpa using h)]
  rfl

structure FileEffect (names made gone : List Text) (v u : TempView) : Prop where
  created : u.created = made ++ v.created
  unlinked : u.unlinked = gone ++ v.unlinked
  made_names : ∀ f ∈ made, f ∈ names
  gone_names : ∀ f ∈ gone, f ∈ names

def LeavesNothing (names : List Text) (v u : TempView) : Prop :=
  u.actions = v.actions ∧ ∃ made gone, FileEffect names made gone v u ∧ ∀ f ∈ made, f ∈ gone

structure LeavesFile (names : List Text) (cbData : ℕ) (v u : TempView) (data : ActionData)
    (made : List Text) : Prop where
  actions : u.actions = v.actions.add data
  cbData : data.cbData = cbData
  effect : FileEffect names made [] v u
  made_file : ∀ f ∈ made, data.filename = some f
  file_name : ∀ f, data.filename = some f → f ∈ names ∧ f ≠ []

def CallLeaves (names : List Text) (cbData : ℕ) (v u : TempView) : Prop :=
  LeavesNothing names v u ∨ ∃ data made, LeavesFile names cbData v u data made

section
variable {names made gone made' gone' : List Text} {v u w : TempView} {cbData : ℕ}

theorem FileEffect.refl (names : List Text) (v : TempView) : FileEffect names [] [] v v :=
  ⟨rfl, rfl, by simp, by simp⟩

theorem FileEffect.trans (h : FileEffect names made gone v u)
    (h' : FileEffect names made' gone' u w) :
    FileEffect names (made' ++ made) (gone' ++ gone) v w where
  created := by rw [h'.created, h.created, List.append_assoc]
  unlinked := by rw [h'.unlinked, h.unlinked, List.append_assoc]
  made_names f hf := by
    rcases List.mem_append.mp hf with hnew | hold
    · exact h'.made_names f hnew
    · exact h.made_names f hold
  gone_names f hf := by
    rcases List.mem_append.mp hf with hnew | hold
    · exact h'.gone_names f hnew
    · exact h.gone_names f hold

theorem FileEffect.mono {names' : List Text} (h : FileEffect names made gone v u)
    (hsub : ∀ f ∈ names, f ∈ names') : FileEffect names' made gone v u :=
  ⟨h.created, h.unlinked, fun f hf => hsub f (h.made_names f hf),
    fun f hf => hsub f (h.gone_names f hf)⟩

theorem LeavesNothing.refl (names : List Text) (v : TempView) : LeavesNothing names v v :=
  ⟨rfl, [], [], FileEffect.refl names v, by simp⟩

theorem LeavesNothing.trans (h : LeavesNothing names v u) (h' : LeavesNothing names u w) :
    LeavesNothing names v w := by
  obtain ⟨hactions, made, gone, heffect, hgone⟩ := h
  obtain ⟨hactions', made', gone', heffect', hgone'⟩ := h'
  refine ⟨hactions'.trans hactions, _, _, heffect.trans heffect', fun f hf => ?_⟩
  rcases List.mem_append.mp hf with hnew | hold
  · exact List.mem_append_left _ (hgone' f hnew)
  · exact List.mem_append_right _ (hgone f hold)

theorem LeavesNothing.mono {names' : List Text} (h : LeavesNothing names v u)
    (hsub : ∀ f ∈ names, f ∈ names') : LeavesNothing names' v u := by
  obtain ⟨hactions, made, gone, heffect, hgone⟩ := h
  exact ⟨hactions, made, gone, heffect.mono hsub, hgone⟩

theorem leavesNothing_file {s t : Sys} {filename : Text} (hname : filename ∈ names)
    (hne : filename ≠ []) (h : t.temp = { s.temp with created := filename :: s.created }) :
    LeavesNothing names s.temp (unlink t filename).temp := by
  have hunlinked : t.unlinked = s.unlinked := congrArg TempView.unlinked h
  rw [temp_unlink hne, h, hunlinked]
  refine ⟨rfl, [filename], [filename], ⟨rfl, rfl, ?_, ?_⟩, fun f hf => hf⟩
  · exact List.forall_mem_singleton.mpr hname
  · exact List.forall_mem_singleton.mpr hname

end

section
variable {o : Outcomes} {source : Source} {s t : Sys}

/-- The download is in a new file, or there is none. -/
theorem downloadToFile_leaves {template : Text} (htemplate : template ≠ []) (o : Outcomes)
    (uri : Text) (s : Sys) :
    (∃ res t, downloadToFile template o uri s = (.error res, t) ∧
      LeavesNothing (mkstempName template o.mkstemp) s.temp t.temp) ∨
    ∃ filename t, downloadToFile template o uri s = (.ok filename, t) ∧ filename ≠ [] ∧
      filename ∈ mkstempName template o.mkstemp ∧
      t.temp = { s.temp with created := filename :: s.created } := by
  unfold downloadToFile
  cases hmkstemp : o.mkstemp with
  | none => exact Or.inl ⟨_, _, rfl, LeavesNothing.refl _ _⟩
  | some suffix =>
    have hne : template ++ suffix ≠ [] := List.append_ne_nil_of_left_ne_nil htemplate suffix
    have hname : template ++ suffix ∈ mkstempName template (some suffix) := List.mem_singleton.mpr rfl
    dsimp only
    split
    · exact Or.inl ⟨_, _, rfl, leavesNothing_file hname hne rfl⟩
    · split
      · exact Or.inl ⟨_, _, rfl, leavesNothing_file hname hne rfl⟩
      · exact Or.inr ⟨_, _, rfl, hne, hname, rfl⟩

theorem puppetInput_leaves (o : Outcomes) (source : Source) (s : Sys) :
    (∃ res t, puppetInput o source.uriArg source.dataArg s = (.error res, t) ∧
      LeavesNothing (puppetNames o source) s.temp t.temp) ∨
    (∃ domain, puppetInput o source.uriArg source.dataArg s = (.ok ([], domain), s)) ∨
    ∃ filename domain t made, puppetInput o source.uriArg source.dataArg s =
        (.ok (filename, domain), t) ∧ filename ≠ [] ∧ filename ∈ puppetNames o source ∧
      t.actions = s.actions ∧ FileEffect (puppetNames o source) made [] s.temp t.temp ∧
      ∀ f ∈ made, f = filename := by
  cases source with
  | uri u =>
    unfold puppetInput Source.uriArg puppetNames
    dsimp only
    by_cases hpuppet : isPuppetUri u = true
    · rw [if_pos hpuppet]
      split
      · exact Or.inl ⟨_, _, rfl, LeavesNothing.refl _ _⟩
      · exact Or.inr (Or.inl ⟨_, rfl⟩)
    · rw [if_neg hpuppet, if_neg hpuppet]
      have htemplate : "puppet_conf_".toList ≠ [] := by decide
      rcases downloadToFile_leaves htemplate o u s with
        ⟨res, t, hdownload, hnothing⟩ | ⟨filename, t, hdownload, hne, hname, htemp⟩
      · rw [hdownload]
        exact Or.inl ⟨res, t, rfl, hnothing⟩
      · rw [hdownload]
        refine Or.inr (Or.inr ⟨filename, [], t, [filename], rfl, hne, hname, ?_, ?_, by simp⟩)
        · exact congrArg TempView.actions htemp
        · rw [htemp]
          exact ⟨rfl, rfl, List.forall_mem_singleton.mpr hname, by simp⟩
  | string text =>
    right
    right
    have hname : "puppet_conf_".toList ++ decimal o.randomInt.toNat ∈
        puppetNames o (.string text) := List.mem_singleton.mpr rfl
    have hne : "puppet_conf_".toList ++ decimal o.randomInt.toNat ≠ [] :=
      List.append_ne_nil_of_left_ne_nil (by decide) _
    unfold puppetInput Source.uriArg Source.dataArg
    dsimp only
    split
    · refine ⟨_, _, _, ["puppet_conf_".toList ++ decimal o.randomInt.toNat], rfl, hne, hname, rfl,
        ?_, by simp⟩
      exact ⟨rfl, rfl, List.forall_mem_singleton.mpr hname, by simp⟩
    · exact ⟨_, _, _, [], rfl, hne, hname, rfl, FileEffect.refl _ _, by simp⟩

/-- The file is removed where puppet does not start; otherwise it goes with the action. -/
theorem runPuppet_leaves (o : Outcomes) (source : Source) (key : Text) (cbData : ℕ) (s : Sys) :
    CallLeaves (if (checkPuppet o).isSome then puppetNames o source else []) cbData s.temp
      (runPuppet o source.uriArg source.oneoff source.dataArg key cbData s).2.temp := by
  unfold runPuppet
  cases checkPuppet o with
  | none => exact Or.inl (LeavesNothing.refl _ _)
  | some useApply =>
    rw [if_pos (show (some useApply).isSome = true from rfl)]
    dsimp only
    rcases puppetInput_leaves o source s with ⟨res, t, hinput, hnothing⟩ | ⟨domain, hinput⟩ |
      ⟨filename, domain, t, made, hinput, hne, hname, hactions, heffect, hmade⟩
    · rw [hinput]
      exact Or.inl hnothing
    · -- no file: its name is empty
      rw [hinput]
      dsimp only
      split
      · exact Or.inl (LeavesNothing.refl _ _)
      split
      · refine Or.inr ⟨_, [], rfl, rfl, ⟨rfl, rfl, by simp, by simp⟩, by simp, fun f hf => ?_⟩
        cases hf
      · exact Or.inl (LeavesNothing.refl _ _)
    · rw [hinput]
      have hfile : (if mhStrlenZero filename = true then none else some filename) = some filename :=
        if_neg (by simpa [mhStrlenZero] using hne)
      dsimp only
      rw [hfile]
      split
      · rename_i hrender
        exact absurd ((renderArgs_puppetArgs _ _ _ _).mp hrender).1 hne
      split
      · have hstarted : FileEffect (puppetNames o source) made [] s.temp
            { t.temp with actions := t.actions.add ⟨key, some filename, cbData⟩ } :=
          ⟨heffect.created, heffect.unlinked, heffect.made_names, heffect.gone_names⟩
        refine Or.inr ⟨⟨key, some filename, cbData⟩, made, ?_, rfl, hstarted,
          fun f hf => congrArg some (hmade f hf).symm, fun f hf => ?_⟩
        · exact congrArg (FreshTable.add · ⟨key, some filename, cbData⟩) hactions
        · cases hf
          exact ⟨hname, hne⟩
      · left
        refine ⟨?_, made, [filename], ⟨?_, ?_, heffect.made_names, ?_⟩, fun f hf => ?_⟩
        · rw [temp_unlink hne]
          exact hactions
        · rw [temp_unlink hne]
          exact heffect.created
        · rw [temp_unlink hne]
          exact congrArg (filename :: ·) heffect.unlinked
        · exact List.forall_mem_singleton.mpr hname
        · exact List.mem_singleton.mpr (hmade f hf)

theorem augeasText_leaves (o : Outcomes) (source : Source) (s : Sys) :
    LeavesNothing (augeasNames o source) s.temp
      (augeasText o source.uriArg source.dataArg s).2.temp := by
  cases source with
  | uri u =>
    have htemplate : "augeas_conf_".toList ≠ [] := by decide
    have hsub : ∀ f ∈ mkstempName "augeas_conf_".toList o.mkstemp, f ∈ augeasNames o (.uri u) :=
      fun f hf => List.mem_append_left _ hf
    unfold augeasText Source.uriArg
    dsimp only
    rcases downloadToFile_leaves htemplate o u s with
      ⟨res, t, hdownload, hnothing⟩ | ⟨filename, t, hdownload, hne, hname, htemp⟩
    · rw [hdownload]
      exact hnothing.mono hsub
    · rw [hdownload]
      dsimp only
      split
      · exact leavesNothing_file (hsub _ hname) hne htemp
      · exact leavesNothing_file (hsub _ hname) hne htemp
  | string text => exact LeavesNothing.refl _ _

/-- Augeas has ended when the function returns, and both files are gone. -/
theorem runAugeas_leaves (haveAugeas : Bool) (o : Outcomes) (source : Source) (key : Text)
    (cbData : ℕ) (s : Sys) :
    LeavesNothing (augeasNames o source) s.temp
      (runAugeas haveAugeas o source.uriArg source.dataArg key cbData s).2.temp := by
  have htext := augeasText_leaves o source s
  unfold runAugeas
  split
  · exact LeavesNothing.refl _ _
  split
  · rename_i hinput
    rw [hinput] at htext
    exact htext
  rename_i text t hinput
  rw [hinput] at htext
  split
  · exact htext
  rename_i suffix hmkstemp
  have hname : "augeas_conf_".toList ++ suffix ∈ augeasNames o source := by
    have hresult : "augeas_conf_".toList ++ suffix ∈
        mkstempName "augeas_conf_".toList o.resultMkstemp := by
      rw [hmkstemp]
      exact List.mem_singleton.mpr rfl
    cases source with
    | uri u => exact List.mem_append_right _ hresult
    | string text => exact hresult
  have hne : "augeas_conf_".toList ++ suffix ≠ [] := List.append_ne_nil_of_left_ne_nil (by decide) _
  have hresult : ∀ u : Sys,
      u.temp = { t.temp with created := ("augeas_conf_".toList ++ suffix) :: t.created } →
      LeavesNothing (augeasNames o source) s.temp
        (unlink u ("augeas_conf_".toList ++ suffix)).temp :=
    fun u hu => htext.trans (leavesNothing_file hname hne hu)
  dsimp only
  split
  · exact hresult _ rfl
  split
  · exact hresult _ rfl
  split
  · exact hresult _ rfl
  · apply hresult
    rw [temp_resultCb]
    rfl

theorem mhSysconfigRun_leaves (haveAugeas : Bool) (o : Outcomes) (r : RunRequest) (cbData : ℕ)
    (s : Sys) : CallLeaves (r.tempNames s.keys o) cbData s.temp
      (mhSysconfigRun haveAugeas o r cbData s).2.temp := by
  rw [mhSysconfigRun_eq]
  unfold RunRequest.tempNames sysconfigOsRun
  split
  · exact Or.inl (LeavesNothing.refl _ _)
  split
  · rw [temp_resultCb]
    exact Or.inl (LeavesNothing.refl _ _)
  split
  · exact runPuppet_leaves o r.source r.key cbData s
  split
  · exact Or.inl (runAugeas_leaves haveAugeas o r.source r.key cbData s)
  · exact Or.inl (LeavesNothing.refl _ _)

end

/-! ## What an event leaves -/

def Event.tempNames (s : Sys) : Event → List Text
  | .qmf args o => (args.request.map fun r => r.tempNames s.keys o).getD []
  | .dbus none r o => r.tempNames s.keys o
  | .dbus (some _) _ _ | .exit _ | .complete _ _ _ => []

theorem temp_actionCb (s : Sys) (data : ActionData) (rc : ℤ) (keyWrite : WriteOutcome)
    (hname : data.filename ≠ some []) :
    (actionCb s data rc keyWrite).temp =
      { s.temp with unlinked := data.filename.toList ++ s.unlinked } := by
  have hcalled : ∀ contents, (resultCb (setConfigured s keyWrite data.key contents) data.cbData
      rc).temp = s.temp := fun contents => temp_resultCb _ _ _
  unfold actionCb
  dsimp only
  generalize (if rc ≠ 0 then snprintf 32 ("FAILED\n".toList ++ decimal rc) else "OK".toList) = buf
  cases hfile : data.filename with
  | none => exact hcalled buf
  | some filename =>
    have hne : filename ≠ [] := fun h => hname (hfile.trans (congrArg some h))
    dsimp only
    rw [temp_unlink hne, hcalled]
    exact congrArg (fun l => TempView.mk s.actions s.created (filename :: l))
      (congrArg TempView.unlinked (hcalled buf))

theorem step_leaves (haveAugeas : Bool) {s t : Sys} {e : Event}
    (hstep : step haveAugeas s e = some t)
    (hcomplete : ∀ a status keyWrite, e ≠ .complete a status keyWrite) :
    CallLeaves (e.tempNames s) s.requests s.temp t.temp := by
  cases (step_move hstep).2 with
  | unconverted o asyncCBs hnone => exact Or.inl (LeavesNothing.refl _ _)
  | qmf o hargs =>
    unfold Event.tempNames invoke
    dsimp only
    rw [hargs, temp_endCall]
    exact mhSysconfigRun_leaves haveAugeas o _ s.requests _
  | denied message r o => exact Or.inl (LeavesNothing.refl _ _)
  | dbus r o =>
    unfold invoke
    dsimp only
    rw [temp_endCall]
    exact mhSysconfigRun_leaves haveAugeas o r s.requests _
  | exit hentry => exact Or.inl (LeavesNothing.refl _ _)
  | complete status keyWrite hentry => exact absurd rfl (hcomplete _ status keyWrite)

theorem step_not_returns (haveAugeas : Bool) {s t : Sys} {e : Event} (h : ¬ Returns s e)
    (hstep : step haveAugeas s e = some t) :
    t.fault = true ∧ t.temp = s.temp ∧ t.log = s.log := by
  have hrequest : ∀ front r o, Overruns s.keys r o →
      invoke haveAugeas front o r s.requests { s with requests := s.requests + 1 } =
        { s with
          requests := s.requests + 1
          asyncCBs := Function.update s.asyncCBs s.requests (some ⟨front, r.key⟩)
          fault := true } := by
    intro front r o hoverrun
    exact congrArg (endCall s.requests) (mhSysconfigRun_overruns haveAugeas s.requests
      (s := { s with
        requests := s.requests + 1
        asyncCBs := Function.update s.asyncCBs s.requests (some ⟨front, r.key⟩) }) hoverrun)
  cases (step_move hstep).2 with
  | unconverted o asyncCBs hnone => exact ⟨rfl, rfl, rfl⟩
  | @qmf args r o hargs =>
    rw [hrequest .qmf r o (by_contra fun hover => h ⟨r, hargs, hover⟩)]
    exact ⟨rfl, rfl, rfl⟩
  | denied message r o => exact absurd trivial h
  | dbus r o =>
    rw [hrequest .dbus r o (not_not.mp h)]
    exact ⟨rfl, rfl, rfl⟩
  | exit hentry => exact absurd trivial h
  | complete status keyWrite hentry => exact absurd trivial h

/-! ## Whole runs -/

/-- The file of a run in progress is its own, and every file of a request has a run in progress
that is going to remove it. -/
structure Kept (w : Workdir) : Prop where
  sound : w.sys.view.Sound
  waiting : ∀ a data f, w.sys.actions.entry a = some data → data.filename = some f →
    f ≠ [] ∧ (w.files f = none ∨ w.files f = some (.request data.cbData))
  owned : ∀ f n, w.files f = some (.request n) →
    ∃ a data, w.sys.actions.entry a = some data ∧ data.filename = some f ∧ data.cbData = n
  own : w.taken = []

theorem Kept.tidy {w : Workdir} (h : Kept w) : Tidy w := by
  refine ⟨fun f n hf => ?_, h.own⟩
  obtain ⟨a, data, hentry, -, rfl⟩ := h.owned f n hf
  have hlog : w.sys.log data.cbData = waitingLog := (h.sound.waiting a data hentry).2.2
  rw [hlog]
  rintro (⟨res, hres, hne⟩ | hcalls)
  · exact hne (Option.some.inj hres).symm
  · exact hcalls rfl

theorem added_append (made before : List Text) : added before (made ++ before) = made := by
  unfold added
  rw [List.length_append, Nat.add_sub_cancel]
  exact List.take_left

section
variable {names made gone : List Text} {w : Workdir} {t : Sys} {n : ℕ}

theorem follow_effect (h : FileEffect names made gone w.sys.temp t.temp) (n : ℕ) :
    w.follow n t =
      { sys := t
        files := fun f =>
          if f ∈ gone then none else if f ∈ made then some (.request n) else w.files f
        taken := (made ++ gone).filter (fun f => foreign n (w.files f)) ++ w.taken } := by
  have hmade : added w.sys.created t.created = made := by
    rw [show t.created = made ++ w.sys.created from h.created]
    exact added_append made w.sys.created
  have hgone : added w.sys.unlinked t.unlinked = gone := by
    rw [show t.unlinked = gone ++ w.sys.unlinked from h.unlinked]
    exact added_append gone w.sys.unlinked
  unfold Workdir.follow
  rw [hmade, hgone]
  simp only [List.contains_iff_mem]

theorem filter_free {fs : List Text} (h : ∀ f ∈ fs, w.files f = none) :
    fs.filter (fun f => foreign n (w.files f)) = [] := by
  rw [List.filter_eq_nil_iff]
  intro f hf
  rw [h f hf]
  exact Bool.false_ne_true

theorem Kept.nothing (hw : Kept w) (h : LeavesNothing names w.sys.temp t.temp)
    (hfree : ∀ f ∈ names, w.files f = none) (hsound : t.view.Sound) (n : ℕ) :
    Kept (w.follow n t) := by
  obtain ⟨hactions, made, gone, heffect, hgone⟩ := h
  have hactions : t.actions = w.sys.actions := hactions
  have hfiles : (w.follow n t).files = w.files := by
    rw [follow_effect heffect]
    funext f
    dsimp only
    split
    · rename_i hf
      exact (hfree f (heffect.gone_names f hf)).symm
    · rename_i hf
      rw [if_neg fun hmade => hf (hgone f hmade)]
  refine ⟨hsound, fun a data f hentry hf => ?_, fun f m hf => ?_, ?_⟩
  · rw [hfiles]
    rw [show (w.follow n t).sys.actions = w.sys.actions from hactions] at hentry
    exact hw.waiting a data f hentry hf
  · rw [hfiles] at hf
    rw [show (w.follow n t).sys.actions = w.sys.actions from hactions]
    exact hw.owned f m hf
  · rw [follow_effect heffect]
    dsimp only
    rw [filter_free, hw.own]
    · rfl
    · intro f hf
      rcases List.mem_append.mp hf with hmade | hgone
      · exact hfree f (heffect.made_names f hmade)
      · exact hfree f (heffect.gone_names f hgone)

theorem Kept.file {data : ActionData} (hw : Kept w)
    (h : LeavesFile names n w.sys.temp t.temp data made)
    (hfree : ∀ f ∈ names, w.files f = none ∧ Unused w.sys f) (hsound : t.view.Sound) :
    Kept (w.follow n t) := by
  have hactions : t.actions = w.sys.actions.add data := h.actions
  have hfollow := follow_effect h.effect n
  have hfile : ∀ f, (w.follow n t).files f = if f ∈ made then some (.request n) else w.files f := by
    intro f
    rw [hfollow]
    dsimp only
    rw [if_neg (show f ∉ ([] : List Text) from List.not_mem_nil)]
  refine ⟨hsound, fun a x f hentry hf => ?_, fun f m hf => ?_, ?_⟩
  · rw [show (w.follow n t).sys.actions = _ from hactions] at hentry
    rw [hfile]
    rcases FreshTable.add_entry_some hentry with ⟨-, rfl⟩ | hold
    · refine ⟨(h.file_name f hf).2, ?_⟩
      split
      · rw [h.cbData]
        exact Or.inr rfl
      · exact Or.inl (hfree f (h.file_name f hf).1).1
    · rw [if_neg fun hmade => (hfree f (h.effect.made_names f hmade)).2 a x hold hf]
      exact hw.waiting a x f hold hf
  · rw [show (w.follow n t).sys.actions = _ from hactions]
    rw [hfile] at hf
    split at hf
    · rename_i hmade
      cases hf
      exact ⟨_, data, (FreshTable.add_entry _ _ _).trans (if_pos rfl), h.made_file f hmade, h.cbData⟩
    · obtain ⟨a, x, hentry, hname, hcb⟩ := hw.owned f m hf
      refine ⟨a, x, ?_, hname, hcb⟩
      exact (FreshTable.add_entry _ _ _).trans ((if_neg (FreshTable.ne_next hentry)).trans hentry)
  · rw [hfollow]
    dsimp only
    rw [filter_free, hw.own]
    · rfl
    · intro f hf
      rw [List.append_nil] at hf
      exact (hfree f (h.effect.made_names f hf)).1

theorem Kept.complete {a : ℕ} {data : ActionData} (hw : Kept w)
    (hentry : w.sys.actions.entry a = some data)
    (htemp : t.temp = ⟨w.sys.actions.remove a, w.sys.created,
      data.filename.toList ++ w.sys.unlinked⟩)
    (hsound : t.view.Sound) : Kept (w.follow data.cbData t) := by
  have heffect : FileEffect data.filename.toList [] data.filename.toList w.sys.temp t.temp := by
    rw [htemp]
    exact ⟨rfl, rfl, by simp, fun f hf => hf⟩
  have hactions : t.actions = w.sys.actions.remove a := congrArg TempView.actions htemp
  have hfollow := follow_effect heffect data.cbData
  have hfile : ∀ f, (w.follow data.cbData t).files f =
      if data.filename = some f then none else w.files f := by
    intro f
    rw [hfollow]
    dsimp only
    rw [if_neg (show f ∉ ([] : List Text) from List.not_mem_nil)]
    simp only [Option.mem_toList]
  refine ⟨hsound, fun b x f hx hf => ?_, fun f m hf => ?_, ?_⟩
  · rw [show (w.follow data.cbData t).sys.actions = _ from hactions] at hx
    obtain ⟨-, hold⟩ := FreshTable.remove_entry_some hx
    obtain ⟨hne, howner⟩ := hw.waiting b x f hold hf
    rw [hfile]
    refine ⟨hne, ?_⟩
    split
    · exact Or.inl rfl
    · exact howner
  · rw [show (w.follow data.cbData t).sys.actions = _ from hactions]
    rw [hfile] at hf
    split at hf
    · cases hf
    · rename_i hother
      obtain ⟨b, x, hx, hname, hcb⟩ := hw.owned f m hf
      have hb : b ≠ a := by
        rintro rfl
        rw [hentry] at hx
        cases hx
        exact hother hname
      exact ⟨b, x, (FreshTable.remove_entry _ _ _).trans ((if_neg hb).trans hx), hname, hcb⟩
  · rw [hfollow]
    dsimp only
    rw [hw.own, List.append_nil, List.nil_append, List.filter_eq_nil_iff]
    intro f hf
    rw [Option.mem_toList] at hf
    rcases (hw.waiting a data f hentry hf).2 with hnone | hown
    · rw [hnone]
      exact Bool.false_ne_true
    · rw [hown]
      exact of_decide_eq_true.mt (not_not.mpr rfl)

end

def Inv (w : Workdir) : Prop := Tidy w ∧ (w.sys.fault = true ∨ Kept w)

theorem inv_startIn (keys : Keys) (present : Text → Bool) : Inv (startIn keys present) := by
  have hkept : Kept (startIn keys present) := by
    refine ⟨sound_start keys, fun a data f hentry => ?_, fun f n hf => ?_, rfl⟩
    · cases hentry
    · unfold startIn at hf
      dsimp only at hf
      split at hf <;> cases hf
  exact ⟨hkept.tidy, Or.inr hkept⟩

theorem Kept.process (haveAugeas : Bool) {w : Workdir} {e : Event} {t : Sys} {n : ℕ} (hw : Kept w)
    (hfresh : FreshNames w (.process e)) (hok : Returns w.sys e)
    (hstep : step haveAugeas w.sys e = some t) (hn : e.request w.sys = some n) :
    Kept (w.follow n t) := by
  have hsound := step_sound haveAugeas hw.sound hok hstep
  have hrequest : (∀ a status keyWrite, e ≠ .complete a status keyWrite) →
      (∀ f ∈ e.tempNames w.sys, w.files f = none ∧ Unused w.sys f) → n = w.sys.requests →
      Kept (w.follow n t) := by
    rintro hcomplete hfree rfl
    rcases step_leaves haveAugeas hstep hcomplete with hnothing | ⟨data, made, hfile⟩
    · exact hw.nothing hnothing (fun f hf => (hfree f hf).1) hsound w.sys.requests
    · exact hw.file hfile hfree hsound
  cases (step_move hstep).2 with
  | unconverted o asyncCBs hnone =>
    obtain ⟨r, hargs, -⟩ := hok
    cases hnone.symm.trans hargs
  | @qmf args r o hargs =>
    refine hrequest (by simp) (fun f hf => hfresh r hargs f ?_) (Option.some.inj hn).symm
    unfold Event.tempNames at hf
    dsimp only at hf
    rwa [hargs] at hf
  | denied message r o =>
    refine hrequest (by simp) (fun f hf => ?_) (Option.some.inj hn).symm
    cases hf
  | dbus r o => exact hrequest (by simp) hfresh (Option.some.inj hn).symm
  | @exit a data hentry =>
    have hnothing : LeavesNothing [] w.sys.temp
        { w.sys with ended := Function.update w.sys.ended a true, sigchld := true }.temp :=
      LeavesNothing.refl [] w.sys.temp
    refine hw.nothing hnothing (fun f hf => ?_) hsound n
    cases hf
  | @complete a data status keyWrite hentry =>
    obtain ⟨data', hentry', rfl⟩ := Option.map_eq_some_iff.mp hn
    obtain rfl : data = data' := Option.some.inj (hentry.symm.trans hentry')
    refine hw.complete hentry ?_ hsound
    apply temp_actionCb
    intro hempty
    exact (hw.waiting a data [] hentry hempty).1 rfl

theorem Inv.step (haveAugeas : Bool) {w u : Workdir} {e : DirEvent} (hw : Inv w)
    (hfresh : FreshNames w e) (hstep : dirStep haveAugeas w e = some u) : Inv u := by
  obtain ⟨htidy, hkept⟩ := hw
  cases e with
  | others f file =>
    obtain ⟨hother, hunused⟩ := hfresh
    cases hstep
    have hfile : ∀ g n, (Function.update w.files f (if file then some .other else none)) g =
        some (.request n) → g ≠ f ∧ w.files g = some (.request n) := by
      intro g n hg
      by_cases heq : g = f
      · rw [heq, Function.update_self] at hg
        split at hg <;> cases hg
      · rw [Function.update_of_ne heq] at hg
        exact ⟨heq, hg⟩
    refine ⟨⟨fun g n hg => htidy.removed g n (hfile g n hg).2, htidy.own⟩, ?_⟩
    rcases hkept with hfault | hkept
    · exact Or.inl hfault
    · refine Or.inr ⟨hkept.sound, fun a data g hentry hg => ?_,
        fun g n hg => hkept.owned g n (hfile g n hg).2, hkept.own⟩
      have hne : g ≠ f := by
        rintro rfl
        exact hunused a data hentry hg
      dsimp only
      rw [Function.update_of_ne hne]
      exact hkept.waiting a data g hentry hg
  | process e =>
    obtain ⟨t, ht, hstep⟩ := Option.bind_eq_some_iff.mp hstep
    obtain ⟨n, hn, rfl⟩ := Option.map_eq_some_iff.mp hstep
    have hfault : ¬ w.sys.fault = true := by
      intro hfault
      unfold Sysconfig.step at ht
      rw [if_pos hfault] at ht
      cases ht
    have hkept := hkept.resolve_left hfault
    by_cases hok : Returns w.sys e
    · have hafter := hkept.process haveAugeas hfresh hok ht hn
      exact ⟨hafter.tidy, Or.inr hafter⟩
    · obtain ⟨hafter, htemp, hlog⟩ := step_not_returns haveAugeas hok ht
      have heffect : FileEffect [] [] [] w.sys.temp t.temp := by
        rw [htemp]
        exact FileEffect.refl _ _
      rw [follow_effect heffect]
      refine ⟨⟨fun f m hf => ?_, htidy.own⟩, Or.inl hafter⟩
      dsimp only at hf ⊢
      rw [if_neg (show f ∉ ([] : List Text) from List.not_mem_nil),
        if_neg (show f ∉ ([] : List Text) from List.not_mem_nil)] at hf
      rw [hlog]
      exact htidy.removed f m hf

/-- As long as new temporary files have new names, the files of every request that has been dealt
with are gone, and no request has removed a file that was not its own. -/
theorem temp_files_removed (haveAugeas : Bool) (keys : Keys) (present : Text → Bool)
    (es : List DirEvent)
    (hfresh : Throughout (dirStep haveAugeas) FreshNames (startIn keys present) es) :
    Always (dirStep haveAugeas) Tidy (startIn keys present) es :=
  (always_of_preserved (fun _ _ _ hw hok hstep => hw.step haveAugeas hok hstep)
    (inv_startIn keys present) hfresh).imp fun _ hw => hw.1

def tempRun : List DirEvent :=
  [.process (.qmf testRequest.args goodOutcomes), .process (.complete 1 0 .ok)]

theorem temp_files_removed_web :
    Always (dirStep true) Tidy (startIn testKeys fun _ => false) tempRun := by
  apply temp_files_removed
  refine fun u _ => ⟨fun r _ f _ => ⟨rfl, fun a data hentry => ?_⟩,
    fun v _ => ⟨trivial, trivial⟩⟩
  cases hentry

def notWritten : Outcomes := { goodOutcomes with dataWritten := false }

theorem foreign_file_unlinked :
    ¬ Always (dirStep true) Tidy (startIn testKeys fun f => f == "puppet_conf_7".toList)
      [.process (.qmf testRequest.args notWritten), .process (.complete 1 0 .ok)] := by
  intro halways
  have hend : (exec (dirStep true) (startIn testKeys fun f => f == "puppet_conf_7".toList)
      [.process (.qmf testRequest.args notWritten), .process (.complete 1 0 .ok)]).map (·.taken) =
        some ["puppet_conf_7".toList] := by
    decide +kernel
  obtain ⟨w, hw, htaken⟩ := Option.map_eq_some_iff.mp hend
  rw [(halways.final hw).own] at htaken
  cases htaken

end Matahari.Sysconfig
