import Matahari.Library.Transition
import Matahari.SysconfigLinux

set_option autoImplicit false

/-!
# One callback for each request

The library calls `result_cb` exactly once for a request that it accepts, and the front ends
rely on this: the callback answers the request and releases its data. It is broken where the
arguments of puppet do not fit into the buffer they are printed to, where an argument of a QMF call
is not converted, and where two runs have ended when `SIGCHLD` is dispatched.
-/
namespace Matahari.Sysconfig
open Mainloop Utilities Services TransitionRuns

/-! ## What the library does to a request -/

structure View where
  actions : FreshTable ActionData
  ended : ℕ → Bool
  sigchld : Bool
  requests : ℕ
  asyncCBs : ℕ → Option AsyncCB
  log : ℕ → RequestLog
  fault : Bool

def Sys.view (s : Sys) : View :=
  ⟨s.actions, s.ended, s.sigchld, s.requests, s.asyncCBs, s.log, s.fault⟩

def View.addAction (data : ActionData) (v : View) : View :=
  { v with actions := v.actions.add data }

@[simp] theorem view_unlink (s : Sys) (filename : Text) : (unlink s filename).view = s.view := by
  unfold unlink
  split <;> rfl

theorem FilesOnly.view {s t : Sys} (h : FilesOnly s t) : t.view = s.view := by
  obtain ⟨_, _, rfl⟩ := h
  rfl

inductive CallEnds (s : Sys) (cbData : ℕ) : Option MhResult × Sys → Prop where
  | failed {res : MhResult} {t : Sys} (hres : res ≠ .success) (hview : t.view = s.view) :
      CallEnds s cbData (some res, t)
  | called {t u : Sys} (hbefore : t.view = s.view) (hview : u.view = (resultCb t cbData 0).view) :
      CallEnds s cbData (some .success, u)
  | started (data : ActionData) {t : Sys} (hdata : data.cbData = cbData)
      (hview : t.view = s.view.addAction data) :
      CallEnds s cbData (some .success, t)

theorem runAugeas_ends (haveAugeas : Bool) (o : Outcomes) (uri data : Option Text) (key : Text)
    (cbData : ℕ) (s : Sys) :
    CallEnds s cbData (runAugeas haveAugeas o uri data key cbData s) := by
  obtain ⟨hfiles, hres⟩ := augeasText_spec o uri data s
  have hview := hfiles.view
  unfold runAugeas
  split
  · exact .failed (by simp) rfl
  split
  · rename_i htext
    rw [htext] at hview hres
    exact .failed (fun h => hres (congrArg _ h)) hview
  rename_i htext
  rw [htext] at hview
  split
  · exact .failed (by simp) hview
  dsimp only
  split
  · exact .failed (by simp) ((view_unlink _ _).trans hview)
  split
  · exact .failed (by simp) ((view_unlink _ _).trans hview)
  split
  · exact .failed (by simp) ((view_unlink _ _).trans hview)
  · refine .called ?_ (view_unlink _ _)
    exact hview

theorem runPuppet_ends (o : Outcomes) (uri : Option Text) (oneoff : Bool) (data : Option Text)
    (key : Text) (cbData : ℕ) (s : Sys)
    (h : ¬ ((checkPuppet o).isSome = true ∧ oneoff = true ∧ ∃ u, uri = some u ∧ LongDomain u)) :
    CallEnds s cbData (runPuppet o uri oneoff data key cbData s) := by
  obtain ⟨hfiles, hres⟩ := puppetInput_spec o uri data s
  have hview := hfiles.view
  unfold runPuppet
  split
  · exact .failed (by simp) rfl
  rename_i useApply hpuppet
  split
  · rename_i hinput
    rw [hinput] at hview hres
    exact .failed (fun heq => hres (congrArg _ heq)) hview
  rename_i filename domain t hinput
  rw [hinput] at hview
  dsimp only
  split
  · rename_i hrender
    exact absurd ⟨by rw [hpuppet]; rfl, renderArgs_overrun hinput hrender⟩ h
  split
  · exact .started ⟨key, if mhStrlenZero filename then none else some filename, cbData⟩ rfl
      (congrArg (View.addAction _) hview)
  · refine .failed (by simp) ((view_unlink _ _).trans ?_)
    exact hview

/-- The URI is overlong, and nothing keeps the request from running puppet with it. -/
def Overruns (keys : Keys) (r : RunRequest) (o : Outcomes) : Prop :=
  checkKeySanity r.key = true ∧ (mhSysconfigIsConfigured keys r.key = none ∨ r.forced = true) ∧
    strcasecmp r.scheme "puppet".toList = true ∧ (checkPuppet o).isSome = true ∧
    ∃ uri, r.source = .uri uri ∧ LongDomain uri

theorem mhSysconfigRun_ends (haveAugeas : Bool) {o : Outcomes} {r : RunRequest} (cbData : ℕ)
    {s : Sys} (h : ¬ Overruns s.keys r o) :
    CallEnds s cbData (mhSysconfigRun haveAugeas o r cbData s) := by
  rw [mhSysconfigRun_eq]
  split
  · exact .failed (by simp) rfl
  rename_i hsane
  unfold sysconfigOsRun
  split
  · exact .called rfl rfl
  rename_i hguard
  split
  · rename_i hscheme
    apply runPuppet_ends
    rintro ⟨hpuppet, -, u, hu, hlong⟩
    exact h ⟨by simpa using hsane, not_answered_iff.mp hguard, hscheme, hpuppet, u,
      Source.eq_uri hu, hlong⟩
  split
  · exact runAugeas_ends haveAugeas o r.source.uriArg r.source.dataArg r.key cbData s
  · exact .failed (by simp) rfl

/-! ## What the front ends make of it -/

structure View.SameExcept (r : ℕ) (v u : View) : Prop where
  actions : u.actions = v.actions
  ended : u.ended = v.ended
  sigchld : u.sigchld = v.sigchld
  requests : u.requests = v.requests
  fault : u.fault = v.fault
  asyncCBs : ∀ x, x ≠ r → u.asyncCBs x = v.asyncCBs x
  log : ∀ x, x ≠ r → u.log x = v.log x

theorem View.SameExcept.trans {r : ℕ} {v u w : View} (h : v.SameExcept r u) (h' : u.SameExcept r w) :
    v.SameExcept r w where
  actions := h'.actions.trans h.actions
  ended := h'.ended.trans h.ended
  sigchld := h'.sigchld.trans h.sigchld
  requests := h'.requests.trans h.requests
  fault := h'.fault.trans h.fault
  asyncCBs x hx := (h'.asyncCBs x hx).trans (h.asyncCBs x hx)
  log x hx := (h'.log x hx).trans (h.log x hx)

theorem sameExcept_updateLog (s : Sys) (r : ℕ) (f : RequestLog → RequestLog) :
    s.view.SameExcept r (updateLog s r f).view :=
  ⟨rfl, rfl, rfl, rfl, rfl, fun _ _ => rfl, fun _ hx => Function.update_of_ne hx _ _⟩

theorem sameExcept_asyncCBs (s : Sys) (r : ℕ) (data : Option AsyncCB) :
    s.view.SameExcept r { s with asyncCBs := Function.update s.asyncCBs r data }.view :=
  ⟨rfl, rfl, rfl, rfl, rfl, fun _ hx => Function.update_of_ne hx _ _, fun _ _ => rfl⟩

theorem sameExcept_release (s : Sys) (r : ℕ) : s.view.SameExcept r (release s r).view :=
  (sameExcept_asyncCBs s r none).trans (sameExcept_updateLog _ r _)

@[simp] theorem log_updateLog (s : Sys) (r : ℕ) (f : RequestLog → RequestLog) :
    (updateLog s r f).log r = f (s.log r) := Function.update_self _ _ _

@[simp] theorem log_answer (s : Sys) (r : ℕ) (reply : Reply) :
    (answer s r reply).log r = { s.log r with answers := (s.log r).answers ++ [reply] } :=
  log_updateLog s r _

@[simp] theorem log_release (s : Sys) (r : ℕ) :
    (release s r).log r = { s.log r with releases := (s.log r).releases + 1 } :=
  log_updateLog _ r _

@[simp] theorem log_recordReturn (s : Sys) (r : ℕ) (res : MhResult) :
    (recordReturn s r res).log r = { s.log r with returned := some res } :=
  log_updateLog s r _

theorem resultCb_spec {s : Sys} {r : ℕ} (res : ℤ) (hdata : (s.asyncCBs r).isSome = true) :
    s.view.SameExcept r (resultCb s r res).view ∧
      ∃ reply, (resultCb s r res).log r =
        ⟨(s.log r).returned, (s.log r).calls ++ [res], (s.log r).answers ++ [reply],
          (s.log r).releases + 1⟩ := by
  obtain ⟨data, hsome⟩ := Option.isSome_iff_exists.mp hdata
  have hsame : (updateLog s r fun l => { l with calls := l.calls ++ [res] }).asyncCBs r =
      some data := hsome
  unfold resultCb
  dsimp only
  rw [hsame]
  dsimp only
  constructor
  · exact ((sameExcept_updateLog s r _).trans (sameExcept_updateLog _ r _)).trans
      (sameExcept_release _ r)
  · exact ⟨_, by rw [log_release, log_answer, log_updateLog]⟩

def newLog : RequestLog := ⟨none, [], [], 0⟩

def waitingLog : RequestLog := ⟨some .success, [], [], 0⟩

/-- One answer, and one release of the callback data if there is any. The callback has been
called once if the library returned success, and not at all otherwise. -/
def Settled (l : RequestLog) : Prop :=
  (∃ res reply, l = ⟨some .success, [res], [reply], 1⟩) ∨
    (∃ res reply, res ≠ MhResult.success ∧ l = ⟨some res, [], [reply], 1⟩) ∨
    ∃ message, l = ⟨none, [], [.exception message], 0⟩

theorem denied_spec {s : Sys} {request : ℕ} (hnew : s.log request = newLog) (message : Text) :
    s.view.SameExcept request (answer s request (.exception message)).view ∧
      Settled ((answer s request (.exception message)).log request) := by
  refine ⟨sameExcept_updateLog s request _, Or.inr (Or.inr ⟨message, ?_⟩)⟩
  rw [log_answer, hnew]
  rfl

/-- The request is answered when the handler ends, or puppet is running for it. -/
theorem endCall_spec {request : ℕ} {s : Sys} {ended : Option MhResult × Sys}
    (hends : CallEnds s request ended) (hnew : s.log request = newLog)
    (hdata : (s.asyncCBs request).isSome = true) :
    (s.view.SameExcept request (endCall request ended).view ∧
      Settled ((endCall request ended).log request)) ∨
    ∃ data : ActionData, data.cbData = request ∧
      (s.view.addAction data).SameExcept request (endCall request ended).view ∧
      ((endCall request ended).asyncCBs request).isSome = true ∧
      (endCall request ended).log request = waitingLog := by
  have hreturn : ∀ (t : Sys) (res : MhResult),
      t.view.SameExcept request (recordReturn t request res).view :=
    fun t _ => sameExcept_updateLog t request _
  cases hends with
  | @failed res t hres hview =>
    left
    have hlog : t.log request = newLog := (congrFun (congrArg View.log hview) request).trans hnew
    unfold endCall
    dsimp only
    rw [if_neg hres]
    refine ⟨?_, Or.inr (Or.inl ⟨res, .exception (mhResultToStr res), hres, ?_⟩)⟩
    · rw [← hview]
      exact ((hreturn t res).trans (sameExcept_updateLog _ request _)).trans (sameExcept_release _ _)
    · simp [hlog, newLog]
  | @called t u hbefore hview =>
    left
    have hcb : (t.asyncCBs request).isSome = true := by
      rw [show t.asyncCBs = s.asyncCBs from congrArg View.asyncCBs hbefore]
      exact hdata
    have hlog : t.log request = newLog := (congrFun (congrArg View.log hbefore) request).trans hnew
    obtain ⟨hsame, reply, hcalled⟩ := resultCb_spec 0 hcb
    have hu : u.log request = (resultCb t request 0).log request :=
      congrFun (congrArg View.log hview) request
    unfold endCall
    dsimp only
    rw [if_pos rfl]
    refine ⟨?_, Or.inl ⟨0, reply, ?_⟩⟩
    · rw [← hbefore]
      exact (hview ▸ hsame : t.view.SameExcept request u.view).trans (hreturn u _)
    · rw [log_recordReturn, hu, hcalled, hlog]
      rfl
  | @started data t hdata' hview =>
    right
    have hlog : t.log request = newLog := (congrFun (congrArg View.log hview) request).trans hnew
    have hcb : t.asyncCBs request = s.asyncCBs request :=
      congrFun (congrArg View.asyncCBs hview) request
    unfold endCall
    dsimp only
    rw [if_pos rfl]
    refine ⟨data, hdata', ?_, ?_, ?_⟩
    · rw [← hview]
      exact hreturn t _
    · exact (congrArg Option.isSome hcb).trans hdata
    · rw [log_recordReturn, hlog]
      rfl

theorem invoke_spec (haveAugeas : Bool) (front : FrontEnd) {o : Outcomes} {r : RunRequest}
    {request : ℕ} {s : Sys} (hnew : s.log request = newLog) (h : ¬ Overruns s.keys r o) :
    (s.view.SameExcept request (invoke haveAugeas front o r request s).view ∧
      Settled ((invoke haveAugeas front o r request s).log request)) ∨
    ∃ data : ActionData, data.cbData = request ∧
      (s.view.addAction data).SameExcept request (invoke haveAugeas front o r request s).view ∧
      ((invoke haveAugeas front o r request s).asyncCBs request).isSome = true ∧
      (invoke haveAugeas front o r request s).log request = waitingLog := by
  have halloc := sameExcept_asyncCBs s request (some ⟨front, r.key⟩)
  have hends := mhSysconfigRun_ends haveAugeas request
    (s := { s with asyncCBs := Function.update s.asyncCBs request (some ⟨front, r.key⟩) }) h
  have hdata : ((Function.update s.asyncCBs request (some ⟨front, r.key⟩)) request).isSome = true := by
    rw [Function.update_self]
    rfl
  rcases endCall_spec hends hnew hdata with ⟨hsame, hsettled⟩ | ⟨data, hdata, hsame, hcb, hlog⟩
  · exact Or.inl ⟨halloc.trans hsame, hsettled⟩
  · refine Or.inr ⟨data, hdata, View.SameExcept.trans ?_ hsame, hcb, hlog⟩
    exact ⟨rfl, rfl, rfl, rfl, rfl, halloc.asyncCBs, halloc.log⟩

/-! ## Whole runs -/

/-- What holds between two events: the requests that puppet runs for wait for its end, each for
one process, and all others are settled. -/
structure View.Sound (v : View) : Prop where
  fault : v.fault = false
  unused : ∀ r, v.requests ≤ r → v.log r = newLog
  waiting : ∀ a data, v.actions.entry a = some data → data.cbData < v.requests ∧
    (v.asyncCBs data.cbData).isSome = true ∧ v.log data.cbData = waitingLog
  distinct : ∀ a b x y, v.actions.entry a = some x → v.actions.entry b = some y →
    x.cbData = y.cbData → a = b
  settled : ∀ r, r < v.requests → (∀ a data, v.actions.entry a = some data → data.cbData ≠ r) →
    Settled (v.log r)

section
variable {v u : View}

theorem View.Sound.of_settled (hv : v.Sound)
    (h : { v with requests := v.requests + 1 }.SameExcept v.requests u)
    (hlog : Settled (u.log v.requests)) : u.Sound := by
  have hother : ∀ a data, v.actions.entry a = some data → data.cbData ≠ v.requests :=
    fun a data hentry => Nat.ne_of_lt (hv.waiting a data hentry).1
  refine ⟨h.fault.trans hv.fault, fun r hr => ?_, fun a data hentry => ?_, ?_, fun r hr hnone => ?_⟩
  · rw [h.requests] at hr
    rw [h.log r (by dsimp only at hr; omega)]
    exact hv.unused r (Nat.le_of_succ_le hr)
  · rw [h.actions] at hentry
    obtain ⟨hlt, hcb, hwait⟩ := hv.waiting a data hentry
    rw [h.requests, h.asyncCBs _ (hother a data hentry), h.log _ (hother a data hentry)]
    exact ⟨Nat.lt_succ_of_lt hlt, hcb, hwait⟩
  · rw [h.actions]
    exact hv.distinct
  · rw [h.requests] at hr
    rw [h.actions] at hnone
    by_cases heq : r = v.requests
    · rw [heq]
      exact hlog
    · rw [h.log r heq]
      exact hv.settled r (by dsimp only at hr; omega) hnone

theorem View.Sound.of_started (hv : v.Sound) {data : ActionData} (hdata : data.cbData = v.requests)
    (h : ({ v with requests := v.requests + 1 }.addAction data).SameExcept v.requests u)
    (hcb : (u.asyncCBs v.requests).isSome = true) (hlog : u.log v.requests = waitingLog) :
    u.Sound := by
  have hentry : ∀ a x, u.actions.entry a = some x →
      (a = v.actions.next ∧ x = data) ∨ v.actions.entry a = some x := by
    intro a x hx
    rw [h.actions] at hx
    exact FreshTable.add_entry_some hx
  have hother : ∀ a x, v.actions.entry a = some x → x.cbData ≠ v.requests :=
    fun a x hx => Nat.ne_of_lt (hv.waiting a x hx).1
  have hrequests : u.requests = v.requests + 1 := h.requests
  refine ⟨h.fault.trans hv.fault, fun r hr => ?_, fun a x hx => ?_, fun a b x y hx hy heq => ?_,
    fun r hr hnone => ?_⟩
  · rw [h.log r (by omega)]
    exact hv.unused r (by omega)
  · rcases hentry a x hx with ⟨-, rfl⟩ | hold
    · rw [hdata, hrequests]
      exact ⟨Nat.lt_succ_self _, hcb, hlog⟩
    · obtain ⟨hlt, hxcb, hwait⟩ := hv.waiting a x hold
      rw [hrequests, h.asyncCBs _ (hother a x hold), h.log _ (hother a x hold)]
      exact ⟨Nat.lt_succ_of_lt hlt, hxcb, hwait⟩
  · rcases hentry a x hx with ⟨ha, rfl⟩ | hold
    · rcases hentry b y hy with ⟨hb, -⟩ | hold'
      · rw [ha, hb]
      · exact absurd (heq.symm.trans hdata) (hother b y hold')
    · rcases hentry b y hy with ⟨-, rfl⟩ | hold'
      · exact absurd (heq.trans hdata) (hother a x hold)
      · exact hv.distinct a b x y hold hold' heq
  · have hne : r ≠ v.requests := by
      rintro rfl
      refine hnone v.actions.next data ?_ hdata
      rw [h.actions]
      exact (FreshTable.add_entry v.actions data v.actions.next).trans (if_pos rfl)
    rw [h.log r hne]
    refine hv.settled r (by omega) fun a x hx => hnone a x ?_
    rw [h.actions]
    exact (FreshTable.add_entry _ _ _).trans ((if_neg (FreshTable.ne_next hx)).trans hx)

theorem View.Sound.of_completed (hv : v.Sound) {a : ℕ} {data : ActionData}
    (hdata : v.actions.entry a = some data)
    (h : { v with actions := v.actions.remove a, sigchld := false }.SameExcept data.cbData u)
    (hlog : Settled (u.log data.cbData)) : u.Sound := by
  have hentry : ∀ b x, u.actions.entry b = some x → b ≠ a ∧ v.actions.entry b = some x := by
    intro b x hx
    rw [h.actions] at hx
    exact FreshTable.remove_entry_some hx
  have hother : ∀ b x, b ≠ a → v.actions.entry b = some x → x.cbData ≠ data.cbData :=
    fun b x hb hx heq => hb (hv.distinct b a x data hx hdata heq)
  obtain ⟨hlt, -, -⟩ := hv.waiting a data hdata
  have hrequests : u.requests = v.requests := h.requests
  refine ⟨h.fault.trans hv.fault, fun r hr => ?_, fun b x hx => ?_, fun b c x y hx hy heq => ?_,
    fun r hr hnone => ?_⟩
  · rw [h.log r (by omega)]
    exact hv.unused r (by omega)
  · obtain ⟨hb, hold⟩ := hentry b x hx
    rw [hrequests, h.asyncCBs _ (hother b x hb hold), h.log _ (hother b x hb hold)]
    exact hv.waiting b x hold
  · exact hv.distinct b c x y (hentry b x hx).2 (hentry c y hy).2 heq
  · by_cases heq : r = data.cbData
    · rw [heq]
      exact hlog
    · rw [h.log r heq]
      refine hv.settled r (by omega) fun b x hx => ?_
      by_cases hb : b = a
      · rw [hb, hdata] at hx
        cases hx
        exact fun hr => heq hr.symm
      · refine hnone b x ?_
        rw [h.actions]
        exact (FreshTable.remove_entry _ _ _).trans ((if_neg hb).trans hx)

end

theorem actionCb_spec {s : Sys} {data : ActionData} (rc : ℤ) (keyWrite : WriteOutcome)
    (hcb : (s.asyncCBs data.cbData).isSome = true) (hlog : s.log data.cbData = waitingLog) :
    s.view.SameExcept data.cbData (actionCb s data rc keyWrite).view ∧
      Settled ((actionCb s data rc keyWrite).log data.cbData) := by
  have hcalled : ∀ contents, s.view.SameExcept data.cbData
        (resultCb (setConfigured s keyWrite data.key contents) data.cbData rc).view ∧
      Settled ((resultCb (setConfigured s keyWrite data.key contents) data.cbData rc).log
        data.cbData) := by
    intro contents
    obtain ⟨hsame, reply, hafter⟩ :=
      resultCb_spec (s := setConfigured s keyWrite data.key contents) rc hcb
    refine ⟨hsame, Or.inl ⟨rc, reply, hafter.trans ?_⟩⟩
    rw [show (setConfigured s keyWrite data.key contents).log data.cbData = waitingLog from hlog]
    rfl
  unfold actionCb
  dsimp only
  generalize (if rc ≠ 0 then snprintf 32 ("FAILED\n".toList ++ decimal rc) else "OK".toList) = buf
  obtain ⟨hsame, hsettled⟩ := hcalled buf
  cases data.filename with
  | none => exact ⟨hsame, hsettled⟩
  | some filename =>
    dsimp only
    have hview := view_unlink (resultCb (setConfigured s keyWrite data.key buf) data.cbData rc)
      filename
    constructor
    · rw [hview]
      exact hsame
    · rw [show (unlink _ filename).log = _ from congrArg View.log hview]
      exact hsettled

/-- The arguments of a QMF call are converted, and `run_puppet` does not write past its buffer. -/
def Returns (s : Sys) : Event → Prop
  | .qmf args o => ∃ r, args.request = some r ∧ ¬ Overruns s.keys r o
  | .dbus none r o => ¬ Overruns s.keys r o
  | .dbus (some _) _ _ | .exit _ | .complete _ _ _ => True

theorem invoke_sound (haveAugeas : Bool) (front : FrontEnd) {o : Outcomes} {r : RunRequest}
    {s : Sys} (hs : s.view.Sound) (h : ¬ Overruns s.keys r o) :
    (invoke haveAugeas front o r s.requests { s with requests := s.requests + 1 }).view.Sound := by
  have hnew : s.log s.requests = newLog := hs.unused _ (le_refl _)
  rcases invoke_spec haveAugeas front (s := { s with requests := s.requests + 1 }) hnew h with
    ⟨hsame, hsettled⟩ | ⟨data, hdata, hsame, hcb, hlog⟩
  · exact hs.of_settled hsame hsettled
  · exact hs.of_started hdata hsame hcb hlog

theorem step_sound (haveAugeas : Bool) {s u : Sys} {e : Event} (hs : s.view.Sound)
    (hok : Returns s e) (hstep : step haveAugeas s e = some u) : u.view.Sound := by
  cases (step_move hstep).2 with
  | unconverted o asyncCBs hnone =>
    obtain ⟨r, hargs, -⟩ := hok
    cases hnone.symm.trans hargs
  | qmf o hargs =>
    obtain ⟨r, hargs', hover⟩ := hok
    cases hargs.symm.trans hargs'
    exact invoke_sound haveAugeas .qmf hs hover
  | denied message r o =>
    have hnew : s.log s.requests = newLog := hs.unused _ (le_refl _)
    obtain ⟨hsame, hsettled⟩ := denied_spec (s := { s with requests := s.requests + 1 }) hnew
      message
    exact hs.of_settled hsame hsettled
  | dbus r o => exact invoke_sound haveAugeas .dbus hs hok
  | exit hentry => exact ⟨hs.fault, hs.unused, hs.waiting, hs.distinct, hs.settled⟩
  | @complete a data status keyWrite hentry =>
    obtain ⟨-, hcb, hlog⟩ := hs.waiting a data hentry
    obtain ⟨hsame, hsettled⟩ := actionCb_spec
      (s := { s with actions := s.actions.remove a, sigchld := false }) (childRc status) keyWrite
      hcb hlog
    exact hs.of_completed hentry hsame hsettled

/-! ## The ends of the runs -/

structure View.Reported (v : View) : Prop where
  known : ∀ a, v.ended a = true → a < v.actions.next
  pending : ∀ a data, v.actions.entry a = some data → v.ended a = true → v.sigchld = true

def EndsAlone (s : Sys) : Event → Prop
  | .qmf _ _ | .dbus _ _ _ | .exit _ => True
  | .complete a _ _ => ∀ b data, s.actions.entry b = some data → s.ended b = true → b = a

theorem View.Reported.of_same {v u : View} {r : ℕ} (hv : v.Reported) (h : v.SameExcept r u) :
    u.Reported := by
  refine ⟨?_, ?_⟩
  · rw [h.ended, h.actions]
    exact hv.known
  · rw [h.ended, h.actions, h.sigchld]
    exact hv.pending

theorem View.Reported.addAction {v : View} (hv : v.Reported) (data : ActionData) :
    (v.addAction data).Reported := by
  refine ⟨fun a ha => Nat.lt_succ_of_lt (hv.known a ha), fun a x hx ha => ?_⟩
  rcases FreshTable.add_entry_some hx with ⟨rfl, -⟩ | hold
  · exact absurd (hv.known _ ha) (lt_irrefl _)
  · exact hv.pending a x hold ha

theorem invoke_reported (haveAugeas : Bool) (front : FrontEnd) {o : Outcomes} {r : RunRequest}
    {s : Sys} (hs : s.view.Sound) (hreported : s.view.Reported) (h : ¬ Overruns s.keys r o) :
    (invoke haveAugeas front o r s.requests
      { s with requests := s.requests + 1 }).view.Reported := by
  have hnew : s.log s.requests = newLog := hs.unused _ (le_refl _)
  have hreported : View.Reported { s with requests := s.requests + 1 }.view :=
    ⟨hreported.known, hreported.pending⟩
  rcases invoke_spec haveAugeas front (s := { s with requests := s.requests + 1 }) hnew h with
    ⟨hsame, -⟩ | ⟨data, -, hsame, -, -⟩
  · exact hreported.of_same hsame
  · exact (hreported.addAction data).of_same hsame

theorem step_reported (haveAugeas : Bool) {s u : Sys} {e : Event} (hs : s.view.Sound)
    (hreported : s.view.Reported) (hok : Returns s e) (hends : EndsAlone s e)
    (hstep : step haveAugeas s e = some u) : u.view.Reported := by
  cases (step_move hstep).2 with
  | unconverted o asyncCBs hnone =>
    obtain ⟨r, hargs, -⟩ := hok
    cases hnone.symm.trans hargs
  | qmf o hargs =>
    obtain ⟨r, hargs', hover⟩ := hok
    cases hargs.symm.trans hargs'
    exact invoke_reported haveAugeas .qmf hs hreported hover
  | denied message r o => exact ⟨hreported.known, hreported.pending⟩
  | dbus r o => exact invoke_reported haveAugeas .dbus hs hreported hok
  | @exit a data hentry =>
    refine ⟨fun b hb => ?_, fun _ _ _ _ => rfl⟩
    by_cases heq : b = a
    · rw [heq]
      exact FreshTable.lt_next hentry
    · exact hreported.known b ((Function.update_of_ne heq _ _).symm.trans hb)
  | @complete a data status keyWrite hentry =>
    obtain ⟨-, hcb, hlog⟩ := hs.waiting a data hentry
    obtain ⟨hsame, -⟩ := actionCb_spec
      (s := { s with actions := s.actions.remove a, sigchld := false }) (childRc status) keyWrite
      hcb hlog
    have hremoved :
        View.Reported { s with actions := s.actions.remove a, sigchld := false }.view := by
      refine ⟨hreported.known, fun b x hx hb => ?_⟩
      obtain ⟨hne, hold⟩ := FreshTable.remove_entry_some hx
      exact absurd (hends b x hold hb) hne
    exact hremoved.of_same hsame

theorem reported_start (keys : Keys) : (start keys).view.Reported where
  known _ h := by cases h
  pending _ _ h := by cases h

/-! ## The contract -/

/-- A request that puppet is running for has been accepted and waits, until puppet has ended and
`SIGCHLD` has been dispatched; any other is settled. -/
def Contract (s : Sys) : Prop :=
  ∀ r, r < s.requests →
    (∃ a data, s.actions.entry a = some data ∧ data.cbData = r ∧ s.log r = waitingLog ∧
      (s.ended a = true → s.sigchld = true)) ∨
    (∀ a data, s.actions.entry a = some data → data.cbData ≠ r) ∧ Settled (s.log r)

theorem View.Sound.contract {s : Sys} (hs : s.view.Sound) (hreported : s.view.Reported) :
    Contract s := by
  intro r hr
  by_cases hwait : ∃ a data, s.actions.entry a = some data ∧ data.cbData = r
  · obtain ⟨a, data, hentry, rfl⟩ := hwait
    exact Or.inl ⟨a, data, hentry, rfl, (hs.waiting a data hentry).2.2, hreported.pending a data hentry⟩
  · have hnone : ∀ a data, s.actions.entry a = some data → data.cbData ≠ r :=
      fun a data hentry heq => hwait ⟨a, data, hentry, heq⟩
    exact Or.inr ⟨hnone, hs.settled r hr hnone⟩

theorem sound_start (keys : Keys) : (start keys).view.Sound where
  fault := rfl
  unused _ _ := rfl
  waiting _ _ h := by cases h
  distinct _ _ _ _ h := by cases h
  settled _ h := by cases h

/-! ## The branches that do not keep the contract -/

theorem mhSysconfigRun_overruns (haveAugeas : Bool) {o : Outcomes} {r : RunRequest} (cbData : ℕ)
    {s : Sys} (h : Overruns s.keys r o) :
    mhSysconfigRun haveAugeas o r cbData s = (none, { s with fault := true }) := by
  obtain ⟨hsane, hguard, hscheme, hpuppet, uri, hsource, hlong⟩ := h
  obtain ⟨huri, hslash, hlength⟩ := hlong
  obtain ⟨useApply, hpuppet⟩ := Option.isSome_iff_exists.mp hpuppet
  have hdomain : puppetDomain uri = some (uri.drop 9) := by
    rw [puppetDomain_eq huri, if_neg]
    rintro (hempty | hmem)
    · rw [List.isEmpty_iff] at hempty
      rw [hempty] at hlength
      cases hlength
    · exact hslash hmem
  have hinput : puppetInput o (some uri) none s = (.ok ([], uri.drop 9), s) := by
    simp only [puppetInput, huri, hdomain, if_true]
  have hrender := (renderArgs_puppetArgs useApply true [] (uri.drop 9)).mpr ⟨rfl, rfl, hlength⟩
  unfold mhSysconfigRun
  rw [if_neg (by simp [hsane]), hsource]
  dsimp only
  unfold sysconfigOsRunUri sysconfigOsRun
  rw [if_neg (not_answered_iff.mpr hguard), if_pos hscheme]
  unfold runPuppet
  rw [hpuppet]
  dsimp only
  rw [hinput]
  dsimp only
  rw [hrender]

/-- Nothing has happened to the request, and no run has been started for it. -/
theorem unanswered_breaks {s u : Sys} (hs : s.view.Sound) (hlog : u.log = s.log)
    (hrequests : u.requests = s.requests + 1) : ¬ Contract u := by
  have hnew : u.log s.requests = newLog := by
    rw [hlog]
    exact hs.unused _ (le_refl _)
  intro hcontract
  rcases hcontract s.requests (by omega) with ⟨_, _, _, _, hwait, -⟩ | ⟨-, hsettled⟩
  · exact absurd (hwait.symm.trans hnew) (by decide)
  · have hsettled : Settled newLog := hnew ▸ hsettled
    rcases hsettled with ⟨_, _, hlog⟩ | ⟨_, _, _, hlog⟩ | ⟨_, hlog⟩ <;> cases hlog

theorem invoke_overruns (haveAugeas : Bool) (front : FrontEnd) {o : Outcomes} {r : RunRequest}
    {s : Sys} (hs : s.view.Sound) (h : Overruns s.keys r o) :
    ¬ Contract (invoke haveAugeas front o r s.requests { s with requests := s.requests + 1 }) := by
  have hrun := mhSysconfigRun_overruns haveAugeas s.requests
    (s := { s with
      requests := s.requests + 1
      asyncCBs := Function.update s.asyncCBs s.requests (some ⟨front, r.key⟩) }) h
  unfold invoke
  dsimp only
  rw [hrun]
  exact unanswered_breaks hs rfl rfl

theorem not_returns_breaks (haveAugeas : Bool) {s u : Sys} {e : Event} (hs : s.view.Sound)
    (h : ¬ Returns s e) (hstep : step haveAugeas s e = some u) : ¬ Contract u := by
  cases (step_move hstep).2 with
  | unconverted o asyncCBs hnone => exact unanswered_breaks hs rfl rfl
  | qmf o hargs =>
    exact invoke_overruns haveAugeas .qmf hs (by_contra fun hover => h ⟨_, hargs, hover⟩)
  | denied message r o => exact absurd trivial h
  | dbus r o => exact invoke_overruns haveAugeas .dbus hs (not_not.mp h)
  | exit hentry => exact absurd trivial h
  | complete status keyWrite hentry => exact absurd trivial h

/-- A run that has ended is left behind by the dispatch that reports another one. -/
theorem leftBehind_breaks (haveAugeas : Bool) {s u : Sys} {a b status : ℕ} {keyWrite : WriteOutcome}
    {data : ActionData} (hs : s.view.Sound) (hentry : s.actions.entry b = some data)
    (hended : s.ended b = true) (hne : b ≠ a)
    (hstep : step haveAugeas s (.complete a status keyWrite) = some u) : ¬ Contract u := by
  have hu : u.view.Sound := step_sound haveAugeas (e := .complete a status keyWrite) hs trivial hstep
  cases (step_move hstep).2 with
  | @complete _ first _ _ hfirst =>
    obtain ⟨-, hcb, hlog⟩ := hs.waiting a first hfirst
    obtain ⟨hsame, -⟩ := actionCb_spec
      (s := { s with actions := s.actions.remove a, sigchld := false }) (childRc status) keyWrite
      hcb hlog
    have hafter : (actionCb { s with actions := s.actions.remove a, sigchld := false } first
        (childRc status) keyWrite).actions.entry b = some data := by
      rw [show (actionCb _ first (childRc status) keyWrite).actions = s.actions.remove a
        from hsame.actions]
      exact (FreshTable.remove_entry _ _ _).trans ((if_neg hne).trans hentry)
    intro hcontract
    rcases hcontract data.cbData (hu.waiting b data hafter).1 with
      ⟨c, x, hx, hcbData, -, hreported⟩ | ⟨hnone, -⟩
    · obtain rfl : c = b := hu.distinct c b x data hx hafter hcbData
      have hsigchld := hreported ((congrFun hsame.ended c).trans hended)
      rw [show (actionCb _ first (childRc status) keyWrite).sigchld = false
        from hsame.sigchld] at hsigchld
      cases hsigchld
    · exact hnone b data hafter rfl

def KeepsContract (s : Sys) (e : Event) : Prop := Returns s e ∧ EndsAlone s e

/-- Every request is answered once and its data is released once, with one call of `result_cb` if
the library returned success and none otherwise, throughout every run in which no request reaches
`run_puppet` with a server name that is too long, the arguments of QMF calls are converted and no
other run has ended when `SIGCHLD` is dispatched, and in no other. -/
theorem callback_contract_iff (haveAugeas : Bool) (keys : Keys) (es : List Event) :
    Always (step haveAugeas) Contract (start keys) es ↔
      Throughout (step haveAugeas) KeepsContract (start keys) es := by
  have hpreserved : ∀ s e u, s.view.Sound ∧ s.view.Reported → KeepsContract s e →
      step haveAugeas s e = some u → u.view.Sound ∧ u.view.Reported :=
    fun _ _ _ hs hok hstep => ⟨step_sound haveAugeas hs.1 hok.1 hstep,
      step_reported haveAugeas hs.1 hs.2 hok.1 hok.2 hstep⟩
  have hstart : (start keys).view.Sound ∧ (start keys).view.Reported :=
    ⟨sound_start keys, reported_start keys⟩
  constructor
  · intro halways
    refine throughout_of_always hpreserved ?_ hstart halways
    rintro s e u ⟨hs, -⟩ hbreaks hstep
    rcases not_and_or.mp hbreaks with hreturns | hends
    · exact not_returns_breaks haveAugeas hs hreturns hstep
    · cases e with
      | qmf args o => exact absurd trivial hends
      | dbus denied r o => exact absurd trivial hends
      | exit a => exact absurd trivial hends
      | complete a status keyWrite =>
        unfold EndsAlone at hends
        push Not at hends
        obtain ⟨b, data, hentry, hended, hne⟩ := hends
        exact leftBehind_breaks haveAugeas hs hentry hended hne hstep
  · intro hok
    exact (always_of_preserved hpreserved hstart hok).imp fun _ hs => hs.1.contract hs.2

def longUri : Text := "puppet://".toList ++ List.replicate 114 'a'

theorem overruns_longUri :
    Overruns testKeys ⟨.uri longUri, 0, "puppet".toList, "web".toList⟩ goodOutcomes := by
  refine ⟨?_, Or.inl ?_, by decide, by decide, longUri, rfl, by decide, by decide, by decide⟩
  · exact (checkKeySanity_eq_validKey (by decide)).mpr (Or.inl (by decide))
  · unfold mhSysconfigIsConfigured getKey
    split <;> rfl

/-- The first request is for a server whose name has 114 letters, and it is never answered. -/
theorem longUri_not_answered :
    ¬ Always (step true) Contract (start testKeys)
      [.qmf (RunRequest.args ⟨.uri longUri, 0, "puppet".toList, "web".toList⟩) goodOutcomes] := by
  intro h
  exact invoke_overruns true .qmf (sound_start testKeys) overruns_longUri (h.2 _ rfl)

end Matahari.Sysconfig
