import Matahari.Library.FreshTable
import Matahari.ServicesAction
import Matahari.SysconfigKeys

set_option autoImplicit false

/-!
# Configuration runs

`sysconfig_linux.c` with the two front ends that call it. A request is passed down with the
address of its callback data. What the library does not decide itself (the temporary files, the
download, `fork`, augeas) is given by `Outcomes`.
-/
namespace Matahari.Sysconfig
open Mainloop Utilities Services

def strncasecmp (a b : Text) (n : ℕ) : Bool := strcasecmp (a.take n) (b.take n)

def strstr (haystack needle : Text) : Option Text := haystack.tails.find? needle.isPrefixOf

/-- `sscanf` with `%u`, on a machine whose `unsigned long` has 64 bits. -/
def scanUnsigned (s : Text) : Option ℕ :=
  let s := s.dropWhile Char.isWhitespace
  let negative := s.head? == some '-'
  let digits := (if s.head? ∈ [some '-', some '+'] then s.tail else s).takeWhile Char.isDigit
  let n := Nat.ofDigits 10 (digits.reverse.map fun c => c.toNat - '0'.toNat)
  if digits.isEmpty then none
  else if 2 ^ 64 ≤ n then some (2 ^ 32 - 1)
  else some ((if negative then 2 ^ 64 - n else n) % 2 ^ 32)

structure Outcomes where
  /-- What `puppet --version` prints, if it could be run. -/
  puppetVersion : Option Text
  /-- The end of the name that `mkstemp` makes. -/
  mkstemp : Option Text
  fdopen : Bool
  curlInit : MhResult
  curlEasyInit : Bool
  curlUrl : Bool
  curlWritedata : Bool
  curlPerform : Bool
  responseCode : ℤ
  randomInt : UInt32
  dataWritten : Bool
  downloaded : Option Text
  resultMkstemp : Option Text
  resultFdopen : Bool
  augInit : Bool
  augSrun : ℤ
  augOutput : Option Text
  fork : Bool
  keyWrite : WriteOutcome

inductive FrontEnd where
  | qmf
  | dbus
  deriving DecidableEq, Repr

structure AsyncCB where
  front : FrontEnd
  key : Text
  deriving DecidableEq, Repr

structure ActionData where
  key : Text
  filename : Option Text
  cbData : ℕ
  deriving DecidableEq, Repr

inductive Reply where
  | methodSuccess (status : Option Text)
  | exception (message : Text)
  deriving DecidableEq, Repr

/-- What has happened to a request: what the library call returned, the results its callback was
called with, the answers, and how often its callback data was released. -/
structure RequestLog where
  returned : Option MhResult
  calls : List ℤ
  answers : List Reply
  releases : ℕ
  deriving DecidableEq, Repr

inductive ConfigRun where
  | puppet (args : List Text)
  | augeas (script : Text)
  deriving DecidableEq, Repr

/-- The process. `actions` are the puppet processes it waits for, and `ended` those of them that
have ended; `sigchld` is the trigger of the main loop. `asyncCBs` is the callback data by the number
of the request, `started` the runs with their keys. `fault` is set by an access to memory that is
not its own, and by an exception that nobody catches. -/
structure Sys where
  keys : Keys
  actions : FreshTable ActionData
  ended : ℕ → Bool
  sigchld : Bool
  created : List Text
  unlinked : List Text
  started : List (Text × ConfigRun)
  requests : ℕ
  asyncCBs : ℕ → Option AsyncCB
  log : ℕ → RequestLog
  fault : Bool

def mhResultToStr : MhResult → Text
  | .success => "Success".toList
  | .notImplemented => "Not implemented".toList
  | .invalidArgs => "Invalid Arguments".toList
  | .downloadError => "Unable to download file".toList
  | .backendError => "Error in backend".toList
  | .authenticationError => "You are not authorized for specified action".toList
  | .otherError => "General error".toList

def unlink (s : Sys) (filename : Text) : Sys :=
  if filename.isEmpty then s else { s with unlinked := filename :: s.unlinked }

def setConfigured (s : Sys) (outcome : WriteOutcome) (key contents : Text) : Sys :=
  { s with keys := (mhSysconfigSetConfigured s.keys outcome key contents).2 }

def updateLog (s : Sys) (request : ℕ) (f : RequestLog → RequestLog) : Sys :=
  { s with log := Function.update s.log request (f (s.log request)) }

def answer (s : Sys) (request : ℕ) (reply : Reply) : Sys :=
  updateLog s request fun l => { l with answers := l.answers ++ [reply] }

def release (s : Sys) (request : ℕ) : Sys :=
  updateLog { s with asyncCBs := Function.update s.asyncCBs request none } request
    fun l => { l with releases := l.releases + 1 }

/-! ## The callbacks -/

/-- The `result_cb` that the front end passed: it answers with the status that is now stored, and
releases its data. -/
def resultCb (s : Sys) (cbData : ℕ) (res : ℤ) : Sys :=
  let s := updateLog s cbData fun l => { l with calls := l.calls ++ [res] }
  match s.asyncCBs cbData with
  | none => { s with fault := true }
  | some data =>
    let status := mhSysconfigIsConfigured s.keys data.key
    let status := match data.front with
      | .qmf => some (status.getD "unknown".toList)
      | .dbus => status
    release (answer s cbData (.methodSuccess status)) cbData

def childRc (status : ℕ) : ℤ :=
  let codes := deathCodes status
  if codes.1 ≠ 0 then ocfSignal else codes.2

def actionCb (s : Sys) (data : ActionData) (rc : ℤ) (keyWrite : WriteOutcome) : Sys :=
  let buf := if rc ≠ 0 then snprintf 32 ("FAILED\n".toList ++ decimal rc) else "OK".toList
  let s := setConfigured s keyWrite data.key buf
  let s := resultCb s data.cbData rc
  match data.filename with
  | some filename => unlink s filename
  | none => s

/-! ## Puppet -/

def checkPuppet (o : Outcomes) : Option Bool :=
  o.puppetVersion.bind fun out =>
    if '.' ∈ out then (scanUnsigned (out.takeWhile (· ≠ '.'))).map fun major => decide (2 ≤ major)
    else none

def sysconfigOsDownload (o : Outcomes) (uri : Text) : MhResult :=
  if o.curlInit ≠ .success then o.curlInit
  else if ¬ o.curlEasyInit then .otherError
  else if ¬ o.curlUrl then .otherError
  else if ¬ o.curlWritedata then .otherError
  else if ¬ o.curlPerform then .downloadError
  else if (strncasecmp uri "http".toList 4 || strncasecmp uri "ftp".toList 3) &&
      (o.responseCode < 200 || o.responseCode > 299) then .downloadError
  else .success

def downloadToFile (template : Text) (o : Outcomes) (uri : Text) (s : Sys) :
    Except MhResult Text × Sys :=
  match o.mkstemp with
  | none => (.error .otherError, s)
  | some suffix =>
    let filename := template ++ suffix
    let s := { s with created := filename :: s.created }
    if ¬ o.fdopen then (.error .otherError, unlink s filename)
    else if sysconfigOsDownload o uri ≠ .success then
      (.error (sysconfigOsDownload o uri), unlink s filename)
    else (.ok filename, s)

def isPuppetUri (uri : Text) : Bool := strncasecmp uri "puppet://".toList 9

def puppetDomain (uri : Text) : Option Text :=
  match strstr uri "//".toList with
  | none => none
  | some domain =>
    if domain.length < 3 then none
    else if (strstr (domain.drop 2) "/".toList).isSome then none
    else some (domain.drop 2)

/-- The file name and the domain that puppet is started with; one of them is empty. -/
def puppetInput (o : Outcomes) (uri data : Option Text) (s : Sys) :
    Except MhResult (Text × Text) × Sys :=
  match uri, data with
  | some uri, _ =>
    if isPuppetUri uri then
      match puppetDomain uri with
      | none => (.error .invalidArgs, s)
      | some domain => (.ok ([], domain), s)
    else
      match downloadToFile "puppet_conf_".toList o uri s with
      | (.error res, s) => (.error res, s)
      | (.ok filename, s) => (.ok (filename, []), s)
  | none, some _ =>
    let filename := "puppet_conf_".toList ++ decimal o.randomInt.toNat
    (.ok (filename, []), if o.dataWritten then { s with created := filename :: s.created } else s)
  | none, none => (.error .invalidArgs, s)

def puppetArgs (useApply oneoff : Bool) (filename domain : Text) : List Text :=
  if ¬ mhStrlenZero filename then
    if useApply then ["apply".toList, filename] else [filename]
  else
    ["agent".toList, "--server".toList, domain] ++ if oneoff then ["--test".toList] else []

def bufSize : ℕ := 128

/-- The loop that prints the arguments into `buf`, from the offset `written` on: the last offset,
or `none` where a call of `snprintf` writes past the end. -/
def renderArgs : ℕ → List Text → ℕ → Option ℕ
  | _, [], written => some written
  | i, arg :: args, written =>
    let text := (if i = 0 then [] else [' ']) ++ arg
    let stored :=
      if written < bufSize then min text.length (bufSize - written - 1) + 1
      else if written = bufSize then 0
      -- `sizeof(buf) - written` is unsigned, and so it is more than any text needs
      else text.length + 1
    if stored ≠ 0 ∧ bufSize < written + stored then none
    else renderArgs (i + 1) args (written + text.length)

def runPuppet (o : Outcomes) (uri : Option Text) (oneoff : Bool) (data : Option Text) (key : Text)
    (cbData : ℕ) (s : Sys) : Option MhResult × Sys :=
  match checkPuppet o with
  | none => (some .backendError, s)
  | some useApply =>
    match puppetInput o uri data s with
    | (.error res, s) => (some res, s)
    | (.ok (filename, domain), s) =>
      let args := puppetArgs useApply oneoff filename domain
      let data := ⟨key, if mhStrlenZero filename then none else some filename, cbData⟩
      match renderArgs 0 args 0 with
      | none => (none, { s with fault := true })
      | some _ =>
        if o.fork then
          (some .success,
            { s with actions := s.actions.add data, started := (key, .puppet args) :: s.started })
        else (some .backendError, unlink (setConfigured s o.keyWrite key "ERROR".toList) filename)

/-! ## Augeas -/

def augeasText (o : Outcomes) (uri data : Option Text) (s : Sys) : Except MhResult Text × Sys :=
  match uri, data with
  | some uri, _ =>
    match downloadToFile "augeas_conf_".toList o uri s with
    | (.error res, s) => (.error res, s)
    | (.ok filename, s) =>
      match o.downloaded with
      | none => (.error .downloadError, unlink s filename)
      | some text => (.ok text, unlink s filename)
  | none, some text => (.ok text, s)
  | none, none => (.error .invalidArgs, s)

def augeasStatus (result : ℤ) (value : Text) : Text :=
  if result < 0 then "FAILED\n".toList ++ decimal result ++ '\n' :: value
  else "OK\n".toList ++ value

def runAugeas (haveAugeas : Bool) (o : Outcomes) (uri data : Option Text) (key : Text) (cbData : ℕ)
    (s : Sys) : Option MhResult × Sys :=
  if ¬ haveAugeas then (some .notImplemented, s)
  else match augeasText o uri data s with
    | (.error res, s) => (some res, s)
    | (.ok text, s) =>
      match o.resultMkstemp with
      | none => (some .otherError, s)
      | some suffix =>
        let filename := "augeas_conf_".toList ++ suffix
        let s := { s with created := filename :: s.created }
        if ¬ o.resultFdopen then (some .otherError, unlink s filename)
        else if ¬ o.augInit then (some .backendError, unlink s filename)
        else
          let s := { s with started := (key, .augeas text) :: s.started }
          match o.augOutput with
          | none => (some .backendError, unlink s filename)
          | some value =>
            let s := setConfigured s o.keyWrite key (augeasStatus o.augSrun value)
            let s := resultCb s cbData 0
            (some .success, unlink s filename)

/-! ## Requests -/

inductive Source where
  | uri (uri : Text)
  | string (text : Text)
  deriving DecidableEq, Repr

structure RunRequest where
  source : Source
  flags : UInt32
  scheme : Text
  key : Text
  deriving DecidableEq, Repr

def flagForce : UInt32 := 1

def RunRequest.forced (r : RunRequest) : Bool := r.flags &&& flagForce ≠ 0

/-- The bodies of the two functions differ in what they pass to `run_puppet` and `run_augeas`. -/
def sysconfigOsRun (haveAugeas : Bool) (o : Outcomes) (uri data : Option Text) (oneoff : Bool)
    (r : RunRequest) (cbData : ℕ) (s : Sys) : Option MhResult × Sys :=
  if (mhSysconfigIsConfigured s.keys r.key).isSome && !r.forced then
    (some .success, resultCb s cbData 0)
  else if strcasecmp r.scheme "puppet".toList then runPuppet o uri oneoff data r.key cbData s
  else if strcasecmp r.scheme "augeas".toList then runAugeas haveAugeas o uri data r.key cbData s
  else (some .invalidArgs, s)

def sysconfigOsRunUri (haveAugeas : Bool) (o : Outcomes) (uri : Text) (r : RunRequest)
    (cbData : ℕ) (s : Sys) : Option MhResult × Sys :=
  sysconfigOsRun haveAugeas o (some uri) none true r cbData s

def sysconfigOsRunString (haveAugeas : Bool) (o : Outcomes) (text : Text) (r : RunRequest)
    (cbData : ℕ) (s : Sys) : Option MhResult × Sys :=
  sysconfigOsRun haveAugeas o none (some text) false r cbData s

def mhSysconfigRun (haveAugeas : Bool) (o : Outcomes) (r : RunRequest) (cbData : ℕ) (s : Sys) :
    Option MhResult × Sys :=
  if checkKeySanity r.key = false then (some .invalidArgs, s)
  else match r.source with
    | .uri uri => sysconfigOsRunUri haveAugeas o uri r cbData s
    | .string text => sysconfigOsRunString haveAugeas o text r cbData s

/-! ## The front ends -/

def recordReturn (s : Sys) (request : ℕ) (res : MhResult) : Sys :=
  updateLog s request fun l => { l with returned := some res }

def endCall (request : ℕ) : Option MhResult × Sys → Sys
  | (none, s) => s
  | (some res, s) =>
    let s := recordReturn s request res
    if res = .success then s
    else release (answer s request (.exception (mhResultToStr res))) request

/-- From the allocation of the callback data to the end of the handler, for the arguments that the
library is called with. -/
def invoke (haveAugeas : Bool) (front : FrontEnd) (o : Outcomes) (r : RunRequest) (request : ℕ)
    (s : Sys) : Sys :=
  let s := { s with asyncCBs := Function.update s.asyncCBs request (some ⟨front, r.key⟩) }
  endCall request (mhSysconfigRun haveAugeas o r request s)

/-- The arguments of a QMF call, as far as `asString` and `asUint32` convert them. -/
structure RunArgs where
  source : Option Source
  flags : Option UInt32
  scheme : Option Text
  key : Option Text
  deriving DecidableEq, Repr

def RunArgs.request (args : RunArgs) : Option RunRequest :=
  match args.source, args.flags, args.scheme, args.key with
  | some source, some flags, some scheme, some key => some ⟨source, flags, scheme, key⟩
  | _, _, _, _ => none

def RunRequest.args (r : RunRequest) : RunArgs :=
  ⟨some r.source, some r.flags, some r.scheme, some r.key⟩

/-- The key is converted before there is callback data, and the other arguments after it. -/
def configAgentInvoke (haveAugeas : Bool) (o : Outcomes) (args : RunArgs) (request : ℕ) (s : Sys) :
    Sys :=
  match args.key with
  | none => { s with fault := true }
  | some key =>
    match args.request with
    | none =>
      { s with
        asyncCBs := Function.update s.asyncCBs request (some ⟨.qmf, key⟩)
        fault := true }
    | some r => invoke haveAugeas .qmf o r request s

/-- `denied` is the error that `check_authorization` sets where the caller is not authorized. With
`exit` a puppet process ends and `SIGCHLD` arrives; `complete` is the dispatch of that signal for
which `wait3` returns the process, which may have ended just then. -/
inductive Event where
  | qmf (args : RunArgs) (o : Outcomes)
  | dbus (denied : Option Text) (r : RunRequest) (o : Outcomes)
  | exit (action : ℕ)
  | complete (action status : ℕ) (keyWrite : WriteOutcome)

def step (haveAugeas : Bool) (s : Sys) (e : Event) : Option Sys :=
  if s.fault then none
  else match e with
    | .qmf args o =>
      some (configAgentInvoke haveAugeas o args s.requests { s with requests := s.requests + 1 })
    | .dbus (some message) _ _ =>
      some (answer { s with requests := s.requests + 1 } s.requests (.exception message))
    | .dbus none r o =>
      some (invoke haveAugeas .dbus o r s.requests { s with requests := s.requests + 1 })
    | .exit a =>
      if s.ended a then none
      else (s.actions.entry a).map fun _ =>
        { s with ended := Function.update s.ended a true, sigchld := true }
    -- `child_death_dispatch` returns after the first process, and the trigger is clear
    | .complete a status keyWrite =>
      (s.actions.entry a).map fun data =>
        actionCb { s with actions := s.actions.remove a, sigchld := false } data (childRc status)
          keyWrite

def start (keys : Keys) : Sys where
  keys := keys
  actions := .empty
  ended := fun _ => false
  sigchld := false
  created := []
  unlinked := []
  started := []
  requests := 0
  asyncCBs := fun _ => none
  log := fun _ => ⟨none, [], [], 0⟩
  fault := false

/-! ## The arguments of a QMF call -/

theorem RunArgs.key_of_request {args : RunArgs} {r : RunRequest} (h : args.request = some r) :
    args.key = some r.key := by
  obtain ⟨source, flags, scheme, key⟩ := args
  unfold RunArgs.request at h
  dsimp only at h
  split at h
  · cases h
    rfl
  · cases h

theorem configAgentInvoke_some {args : RunArgs} {r : RunRequest} (h : args.request = some r)
    (haveAugeas : Bool) (o : Outcomes) (request : ℕ) (s : Sys) :
    configAgentInvoke haveAugeas o args request s = invoke haveAugeas .qmf o r request s := by
  unfold configAgentInvoke
  rw [RunArgs.key_of_request h, h]

/-- An argument that is not converted ends the process. -/
theorem configAgentInvoke_none {args : RunArgs} (h : args.request = none) (haveAugeas : Bool)
    (o : Outcomes) (request : ℕ) (s : Sys) :
    ∃ asyncCBs, configAgentInvoke haveAugeas o args request s =
      { s with asyncCBs := asyncCBs, fault := true } := by
  unfold configAgentInvoke
  rw [h]
  cases args.key with
  | none => exact ⟨s.asyncCBs, rfl⟩
  | some key => exact ⟨_, rfl⟩

/-! ## What an event does -/

inductive Move (haveAugeas : Bool) (s : Sys) : Event → Sys → Prop
  | unconverted {args : RunArgs} (o : Outcomes) (asyncCBs : ℕ → Option AsyncCB) :
      args.request = none → Move haveAugeas s (.qmf args o)
        { s with requests := s.requests + 1, asyncCBs := asyncCBs, fault := true }
  | qmf {args : RunArgs} {r : RunRequest} (o : Outcomes) : args.request = some r →
      Move haveAugeas s (.qmf args o)
        (invoke haveAugeas .qmf o r s.requests { s with requests := s.requests + 1 })
  | denied (message : Text) (r : RunRequest) (o : Outcomes) :
      Move haveAugeas s (.dbus (some message) r o)
        (answer { s with requests := s.requests + 1 } s.requests (.exception message))
  | dbus (r : RunRequest) (o : Outcomes) :
      Move haveAugeas s (.dbus none r o)
        (invoke haveAugeas .dbus o r s.requests { s with requests := s.requests + 1 })
  | exit {a : ℕ} {data : ActionData} : s.actions.entry a = some data →
      Move haveAugeas s (.exit a)
        { s with ended := Function.update s.ended a true, sigchld := true }
  | complete {a : ℕ} {data : ActionData} (status : ℕ) (keyWrite : WriteOutcome) :
      s.actions.entry a = some data → Move haveAugeas s (.complete a status keyWrite)
        (actionCb { s with actions := s.actions.remove a, sigchld := false } data (childRc status)
          keyWrite)

theorem step_move {haveAugeas : Bool} {s u : Sys} {e : Event} (h : step haveAugeas s e = some u) :
    s.fault = false ∧ Move haveAugeas s e u := by
  unfold step at h
  split at h
  · cases h
  rename_i hfault
  refine ⟨Bool.eq_false_iff.mpr hfault, ?_⟩
  cases e with
  | qmf args o =>
    cases h
    cases hargs : args.request with
    | none =>
      obtain ⟨asyncCBs, hafter⟩ := configAgentInvoke_none hargs haveAugeas o s.requests
        { s with requests := s.requests + 1 }
      rw [hafter]
      exact .unconverted o asyncCBs hargs
    | some r =>
      rw [configAgentInvoke_some hargs]
      exact .qmf o hargs
  | dbus denied r o =>
    cases denied with
    | none =>
      cases h
      exact .dbus r o
    | some message =>
      cases h
      exact .denied message r o
  | exit a =>
    dsimp only at h
    split at h
    · cases h
    · obtain ⟨data, hentry, rfl⟩ := Option.map_eq_some_iff.mp h
      exact .exit hentry
  | complete a status keyWrite =>
    obtain ⟨data, hentry, rfl⟩ := Option.map_eq_some_iff.mp h
    exact .complete status keyWrite hentry

/-! ## The puppet URI -/

def LongDomain (uri : Text) : Prop :=
  isPuppetUri uri = true ∧ '/' ∉ uri.drop 9 ∧ 114 ≤ (uri.drop 9).length

theorem eq_of_toLower_slash {c : Char} (h : c.toLower = '/') : c = '/' := by
  unfold Char.toLower at h
  split at h
  · rename_i hupper
    have hval := congrArg (fun c : Char => c.val.toNat) h
    simp at hval
    simp [UInt32.le_iff_toNat_le] at hupper
    omega
  · exact h

theorem strstr_append {c : Char} {word : Text} (h : c ∉ word) (needle text : Text) :
    strstr (word ++ text) (c :: needle) = strstr text (c :: needle) := by
  induction word with
  | nil => rfl
  | cons d word ih =>
    rw [List.mem_cons, not_or] at h
    have hno : (c :: needle).isPrefixOf (d :: (word ++ text)) = false := by
      simp [List.isPrefixOf, h.1]
    rw [← ih h.2, List.cons_append]
    unfold strstr
    rw [List.tails_cons, List.find?_cons, hno]

theorem strstr_prefix (needle text : Text) :
    strstr (needle ++ text) needle = some (needle ++ text) := by
  have hyes : needle.isPrefixOf (needle ++ text) = true := by
    rw [List.isPrefixOf_iff_prefix]
    exact List.prefix_append needle text
  unfold strstr
  cases hlist : needle ++ text with
  | nil => simp_all
  | cons c cs => rw [List.tails_cons, List.find?_cons, ← hlist, hyes]

theorem strstr_eq_none {c : Char} {text : Text} (h : c ∉ text) : strstr text [c] = none := by
  have happend := strstr_append h [] []
  rw [List.append_nil] at happend
  exact happend.trans rfl

theorem strstr_isSome_of_mem {c : Char} {text : Text} (h : c ∈ text) :
    (strstr text [c]).isSome = true := by
  obtain ⟨word, rest, rfl, hnot⟩ := List.eq_append_cons_of_mem h
  rw [strstr_append hnot, ← List.singleton_append, strstr_prefix]
  rfl

theorem isPuppetUri_eq {uri : Text} (h : isPuppetUri uri = true) :
    uri = uri.take 7 ++ ("//".toList ++ uri.drop 9) ∧ '/' ∉ uri.take 7 := by
  unfold isPuppetUri strncasecmp strcasecmp at h
  have hmap : (uri.take 9).map Char.toLower = "puppet:".toList ++ "//".toList :=
    (beq_iff_eq.mp h).trans (by decide)
  obtain ⟨name, slashes, htake, hname, hslashes⟩ := List.map_eq_append_iff.mp hmap
  have hslashes : slashes = "//".toList := by
    obtain ⟨c, rest, rfl, hc, hrest⟩ := List.map_eq_cons_iff.mp hslashes
    obtain ⟨d, rest, rfl, hd, hrest⟩ := List.map_eq_cons_iff.mp hrest
    rw [eq_of_toLower_slash hc, eq_of_toLower_slash hd, List.map_eq_nil_iff.mp hrest]
    rfl
  have hseven : name.length = 7 := by
    rw [← List.length_map (f := Char.toLower), hname]
    rfl
  have huri : uri = name ++ ("//".toList ++ uri.drop 9) := by
    rw [← List.append_assoc, ← hslashes, ← htake, List.take_append_drop]
  have hscheme : uri.take 7 = name := by
    rw [huri]
    exact List.take_left' hseven
  rw [hscheme]
  refine ⟨huri, fun hmem => ?_⟩
  have hlower := List.mem_map_of_mem (f := Char.toLower) hmem
  rw [hname] at hlower
  exact absurd hlower (by decide)

theorem puppetDomain_eq {uri : Text} (h : isPuppetUri uri = true) :
    puppetDomain uri =
      if (uri.drop 9).isEmpty ∨ '/' ∈ uri.drop 9 then none else some (uri.drop 9) := by
  obtain ⟨huri, hname⟩ := isPuppetUri_eq h
  have hfirst : strstr uri "//".toList = some ("//".toList ++ uri.drop 9) := by
    calc
      strstr uri "//".toList = strstr (uri.take 7 ++ ("//".toList ++ uri.drop 9)) "//".toList := by
        rw [← huri]
      _ = some ("//".toList ++ uri.drop 9) := by
        rw [show "//".toList = ['/', '/'] from rfl, strstr_append hname, strstr_prefix]
  have hdrop : ("//".toList ++ uri.drop 9).drop 2 = uri.drop 9 := rfl
  unfold puppetDomain
  rw [hfirst]
  dsimp only
  rw [hdrop, List.length_append, show "/".toList = ['/'] from rfl]
  by_cases hempty : uri.drop 9 = []
  · simp [hempty]
  · have hlong : ¬ "//".toList.length + (uri.drop 9).length < 3 := by
      have hpos := List.length_pos_iff.mpr hempty
      have htwo : "//".toList.length = 2 := rfl
      omega
    rw [if_neg hlong]
    by_cases hslash : '/' ∈ uri.drop 9
    · rw [if_pos (strstr_isSome_of_mem hslash), if_pos (Or.inr hslash)]
    · rw [strstr_eq_none hslash, if_neg (by simp), if_neg]
      simp [hempty, hslash]

/-! ## The buffer -/

/-- A call of `snprintf` writes past the end where the loop is past the end already. -/
theorem renderArgs_cons (i : ℕ) (arg : Text) (args : List Text) (written : ℕ) :
    renderArgs i (arg :: args) written =
      if bufSize < written then none
      else renderArgs (i + 1) args (written + (if i = 0 then 0 else 1) + arg.length) := by
  have hlen : written + ((if i = 0 then [] else [' ']) ++ arg).length =
      written + (if i = 0 then 0 else 1) + arg.length := by
    rw [List.length_append]
    split
    · simp
    · simp [Nat.add_assoc]
  rw [renderArgs, hlen]
  congr 1
  apply propext
  constructor
  · rintro ⟨hstored, hpast⟩
    by_contra hinside
    split_ifs at hstored hpast <;> omega
  · intro hpast
    rw [if_neg (by omega), if_neg (by omega)]
    omega

@[simp] theorem renderArgs_nil (i written : ℕ) : renderArgs i [] written = some written := rfl

/-- Only the arguments of `puppet agent` can do that. -/
theorem renderArgs_puppetArgs (useApply oneoff : Bool) (filename domain : Text) :
    renderArgs 0 (puppetArgs useApply oneoff filename domain) 0 = none ↔
      filename = [] ∧ oneoff = true ∧ 114 ≤ domain.length := by
  unfold puppetArgs mhStrlenZero
  cases filename with
  | cons c cs =>
    rw [if_pos (by simp)]
    cases useApply
    · simp [renderArgs_cons]
    · simp [renderArgs_cons, bufSize]
  | nil =>
    cases oneoff
    · simp [renderArgs_cons, bufSize]
    · simp [renderArgs_cons, bufSize]
      omega

/-! ## The input of a run -/

def FilesOnly (s t : Sys) : Prop :=
  ∃ created unlinked, t = { s with created := created, unlinked := unlinked }

theorem FilesOnly.refl (s : Sys) : FilesOnly s s := ⟨s.created, s.unlinked, rfl⟩

theorem FilesOnly.unlink {s t : Sys} (h : FilesOnly s t) (filename : Text) :
    FilesOnly s (unlink t filename) := by
  obtain ⟨created, unlinked, rfl⟩ := h
  unfold Sysconfig.unlink
  split
  · exact ⟨created, unlinked, rfl⟩
  · exact ⟨created, filename :: unlinked, rfl⟩

theorem FilesOnly.created_unlink (s : Sys) (created : List Text) (filename : Text) :
    FilesOnly s (Sysconfig.unlink { s with created := created } filename) :=
  FilesOnly.unlink ⟨created, s.unlinked, rfl⟩ filename

theorem downloadToFile_spec (template : Text) (o : Outcomes) (uri : Text) (s : Sys) :
    FilesOnly s (downloadToFile template o uri s).2 ∧
      (downloadToFile template o uri s).1 ≠ .error .success := by
  unfold downloadToFile
  split
  · exact ⟨FilesOnly.refl s, by simp⟩
  · dsimp only
    split
    · exact ⟨FilesOnly.created_unlink _ _ _, by simp⟩
    · split
      · rename_i hdownload
        exact ⟨FilesOnly.created_unlink _ _ _, fun h => hdownload (Except.error.inj h)⟩
      · exact ⟨⟨_, _, rfl⟩, by simp⟩

theorem puppetInput_spec (o : Outcomes) (uri data : Option Text) (s : Sys) :
    FilesOnly s (puppetInput o uri data s).2 ∧
      (puppetInput o uri data s).1 ≠ .error .success := by
  unfold puppetInput
  cases uri with
  | some uri =>
    dsimp only
    obtain ⟨hfiles, hres⟩ := downloadToFile_spec "puppet_conf_".toList o uri s
    split
    · split
      · exact ⟨FilesOnly.refl s, by simp⟩
      · exact ⟨FilesOnly.refl s, by simp⟩
    · split
      · rename_i hdownload
        rw [hdownload] at hfiles hres
        exact ⟨hfiles, fun h => hres (congrArg _ (Except.error.inj h))⟩
      · rename_i hdownload
        rw [hdownload] at hfiles
        exact ⟨hfiles, by simp⟩
  | none =>
    cases data with
    | none => exact ⟨FilesOnly.refl s, by simp⟩
    | some text =>
      refine ⟨?_, by simp⟩
      dsimp only
      split
      · exact ⟨_, _, rfl⟩
      · exact FilesOnly.refl s

theorem augeasText_spec (o : Outcomes) (uri data : Option Text) (s : Sys) :
    FilesOnly s (augeasText o uri data s).2 ∧
      (augeasText o uri data s).1 ≠ .error .success := by
  unfold augeasText
  cases uri with
  | some uri =>
    dsimp only
    obtain ⟨hfiles, hres⟩ := downloadToFile_spec "augeas_conf_".toList o uri s
    split
    · rename_i hdownload
      rw [hdownload] at hfiles hres
      exact ⟨hfiles, fun h => hres (congrArg _ (Except.error.inj h))⟩
    · rename_i hdownload
      rw [hdownload] at hfiles
      split
      · exact ⟨hfiles.unlink _, by simp⟩
      · exact ⟨hfiles.unlink _, by simp⟩
  | none =>
    cases data with
    | none => exact ⟨FilesOnly.refl s, by simp⟩
    | some text => exact ⟨FilesOnly.refl s, by simp⟩

theorem puppetInput_domain {o : Outcomes} {uri data : Option Text} {s t : Sys} {domain : Text}
    (h : puppetInput o uri data s = (.ok ([], domain), t)) :
    ∃ u, uri = some u ∧ isPuppetUri u = true ∧ puppetDomain u = some domain ∧ t = s := by
  unfold puppetInput at h
  cases uri with
  | some uri =>
    dsimp only at h
    split at h
    · rename_i hpuppet
      split at h
      · cases h
      · rename_i hdomain
        cases h
        exact ⟨uri, rfl, hpuppet, hdomain, rfl⟩
    · split at h
      · cases h
      · rename_i filename t hdownload
        cases h
        unfold downloadToFile at hdownload
        split at hdownload
        · cases hdownload
        · dsimp only at hdownload
          split at hdownload
          · cases hdownload
          · split at hdownload <;> cases hdownload
  | none =>
    cases data with
    | none => cases h
    | some text => cases h

theorem renderArgs_overrun {o : Outcomes} {uri data : Option Text} {s t : Sys}
    {useApply oneoff : Bool} {filename domain : Text}
    (hinput : puppetInput o uri data s = (.ok (filename, domain), t))
    (h : renderArgs 0 (puppetArgs useApply oneoff filename domain) 0 = none) :
    oneoff = true ∧ ∃ u, uri = some u ∧ LongDomain u := by
  obtain ⟨rfl, honeoff, hlong⟩ := (renderArgs_puppetArgs _ _ _ _).mp h
  obtain ⟨u, rfl, hpuppet, hdomain, -⟩ := puppetInput_domain hinput
  rw [puppetDomain_eq hpuppet] at hdomain
  split at hdomain
  · cases hdomain
  · rename_i hok
    cases hdomain
    exact ⟨honeoff, u, rfl, hpuppet, fun hslash => hok (Or.inr hslash), hlong⟩

/-! ## The offsets of the loop -/

/-- The offset `written` at the start of each iteration: `snprintf` returns the length of
the whole text. -/
def renderOffsets : ℕ → List Text → ℕ → List ℕ
  | _, [], _ => []
  | i, arg :: args, written =>
    let text := (if i = 0 then [] else [' ']) ++ arg
    written :: renderOffsets (i + 1) args (written + text.length)

structure BufFits (args : List Text) : Prop where
  offsets : ∀ written ∈ renderOffsets 0 args 0, written < bufSize
  writes : (renderArgs 0 args 0).isSome = true

theorem renderOffsets_cons (i : ℕ) (arg : Text) (args : List Text) (written : ℕ) :
    renderOffsets i (arg :: args) written =
      written :: renderOffsets (i + 1) args (written + (if i = 0 then 0 else 1) + arg.length) := by
  rw [renderOffsets, List.length_append]
  split
  · simp
  · simp [Nat.add_assoc]

/-- Where every iteration starts inside the buffer, every write stays in it. -/
theorem renderArgs_isSome (args : List Text) (i written : ℕ)
    (h : ∀ w ∈ renderOffsets i args written, w < bufSize) :
    (renderArgs i args written).isSome = true := by
  induction args generalizing i written with
  | nil => rfl
  | cons arg args ih =>
    rw [renderOffsets_cons, List.forall_mem_cons] at h
    rw [renderArgs_cons, if_neg (by omega)]
    exact ih _ _ h.2

theorem bufFits_iff (args : List Text) :
    BufFits args ↔ ∀ written ∈ renderOffsets 0 args 0, written < bufSize :=
  ⟨fun h => h.offsets, fun h => ⟨h, renderArgs_isSome args 0 0 h⟩⟩

/-- The option after the server's name is the only text that can start outside. -/
theorem bufFits_puppetArgs (useApply oneoff : Bool) (filename domain : Text) :
    BufFits (puppetArgs useApply oneoff filename domain) ↔
      ¬ (filename = [] ∧ oneoff = true ∧ 113 ≤ domain.length) := by
  rw [bufFits_iff]
  unfold puppetArgs mhStrlenZero
  cases filename with
  | cons c cs =>
    rw [if_pos (by simp)]
    cases useApply
    · simp [renderOffsets, bufSize]
    · simp [renderOffsets, bufSize]
  | nil =>
    cases oneoff
    · simp [renderOffsets, bufSize]
    · simp [renderOffsets, bufSize]
      omega

/-- The server's name of an accepted puppet URI is what follows the scheme. -/
theorem puppetInput_server {o : Outcomes} {u : Text} {data : Option Text} {s t : Sys}
    {filename domain : Text} (hpuppet : isPuppetUri u = true)
    (h : puppetInput o (some u) data s = (.ok (filename, domain), t)) :
    filename = [] ∧ domain = u.drop 9 := by
  unfold puppetInput at h
  dsimp only at h
  rw [if_pos hpuppet, puppetDomain_eq hpuppet] at h
  split at h
  · cases h
  · rename_i found hfound
    split at hfound
    · cases hfound
    · cases hfound
      cases h
      exact ⟨rfl, rfl⟩

/-- The loop stays inside the buffer unless puppet is run once, as an agent of a server
whose name has 113 bytes or more. -/
theorem puppetArgs_fit_iff (o : Outcomes) (uri data : Option Text) (s t : Sys)
    (useApply oneoff : Bool) (filename domain : Text)
    (hinput : puppetInput o uri data s = (.ok (filename, domain), t)) :
    BufFits (puppetArgs useApply oneoff filename domain) ↔
      ¬ (oneoff = true ∧ ∃ u, uri = some u ∧ isPuppetUri u = true ∧ 113 ≤ (u.drop 9).length) := by
  rw [bufFits_puppetArgs]
  apply not_congr
  constructor
  · rintro ⟨rfl, honeoff, hlong⟩
    obtain ⟨u, rfl, hpuppet, -⟩ := puppetInput_domain hinput
    obtain ⟨-, rfl⟩ := puppetInput_server hpuppet hinput
    exact ⟨honeoff, u, rfl, hpuppet, hlong⟩
  · rintro ⟨honeoff, u, rfl, hpuppet, hlong⟩
    obtain ⟨rfl, rfl⟩ := puppetInput_server hpuppet hinput
    exact ⟨rfl, honeoff, hlong⟩

def goodOutcomes : Outcomes where
  puppetVersion := some "2.7.9".toList
  mkstemp := some "a1b2c3".toList
  fdopen := true
  curlInit := .success
  curlEasyInit := true
  curlUrl := true
  curlWritedata := true
  curlPerform := true
  responseCode := 200
  randomInt := 7
  dataWritten := true
  downloaded := some []
  resultMkstemp := some "d4e5f6".toList
  resultFdopen := true
  augInit := true
  augSrun := 0
  augOutput := some []
  fork := true
  keyWrite := .ok

theorem puppetArgs_fit_master :
    puppetInput goodOutcomes (some "puppet://master".toList) none (start testKeys) =
      (.ok ([], "master".toList), start testKeys) ∧
    (BufFits (puppetArgs true true [] "master".toList) ↔
      ¬ (true = true ∧ ∃ u, some "puppet://master".toList = some u ∧ isPuppetUri u = true ∧
        113 ≤ (u.drop 9).length)) :=
  ⟨rfl, puppetArgs_fit_iff goodOutcomes _ none (start testKeys) (start testKeys) true true _ _ rfl⟩

/-- With 113 letters the option starts at the end of the buffer, where `snprintf` is told
that there is no room; with one more it is told that there is plenty. -/
theorem puppetArgs_overflow :
    (puppetDomain ("puppet://".toList ++ List.replicate 113 'a') = some (List.replicate 113 'a') ∧
      ¬ BufFits (puppetArgs true true [] (List.replicate 113 'a'))) ∧
    puppetDomain ("puppet://".toList ++ List.replicate 114 'a') = some (List.replicate 114 'a') ∧
      renderArgs 0 (puppetArgs true true [] (List.replicate 114 'a')) 0 = none := by
  refine ⟨⟨by decide, ?_⟩, by decide, ?_⟩
  · rw [bufFits_puppetArgs, not_not]
    exact ⟨rfl, rfl, List.length_replicate.ge⟩
  · rw [renderArgs_puppetArgs]
    exact ⟨rfl, rfl, List.length_replicate.ge⟩

/-! ## When puppet can be run -/

def Source.uriArg : Source → Option Text
  | .uri u => some u
  | .string _ => none

def Source.dataArg : Source → Option Text
  | .uri _ => none
  | .string text => some text

def Source.oneoff : Source → Bool
  | .uri _ => true
  | .string _ => false

theorem Source.eq_uri {source : Source} {u : Text} (h : source.uriArg = some u) :
    source = .uri u := by
  cases source with
  | uri v => exact congrArg Source.uri (Option.some.inj h)
  | string text => cases h

theorem mhSysconfigRun_eq (haveAugeas : Bool) (o : Outcomes) (r : RunRequest) (cbData : ℕ)
    (s : Sys) : mhSysconfigRun haveAugeas o r cbData s =
      if checkKeySanity r.key = false then (some .invalidArgs, s)
      else sysconfigOsRun haveAugeas o r.source.uriArg r.source.dataArg r.source.oneoff r cbData
        s := by
  unfold mhSysconfigRun
  cases r.source <;> rfl

theorem not_answered_iff {k : Keys} {r : RunRequest} :
    ¬ ((mhSysconfigIsConfigured k r.key).isSome && !r.forced) = true ↔
      mhSysconfigIsConfigured k r.key = none ∨ r.forced = true := by
  cases mhSysconfigIsConfigured k r.key with
  | none => simp
  | some status => simp

def Source.Ready (o : Outcomes) : Source → Prop
  | .uri u =>
    if isPuppetUri u then (puppetDomain u).isSome = true ∧ ¬ LongDomain u
    else o.mkstemp.isSome = true ∧ o.fdopen = true ∧ sysconfigOsDownload o u = .success
  | .string _ => True

section
variable {o : Outcomes} {source : Source} {s t : Sys}

theorem ready_server {u : Text} (h : isPuppetUri u = true) :
    (Source.uri u).Ready o ↔ (puppetDomain u).isSome = true ∧ ¬ LongDomain u := by
  unfold Source.Ready
  dsimp only
  rw [if_pos h]

theorem ready_file {u : Text} (h : ¬ isPuppetUri u = true) :
    (Source.uri u).Ready o ↔
      o.mkstemp.isSome = true ∧ o.fdopen = true ∧ sysconfigOsDownload o u = .success := by
  unfold Source.Ready
  dsimp only
  rw [if_neg h]

theorem puppetInput_ready (h : source.Ready o) (useApply : Bool) (s : Sys) :
    ∃ filename domain t, puppetInput o source.uriArg source.dataArg s = (.ok (filename, domain), t) ∧
      renderArgs 0 (puppetArgs useApply source.oneoff filename domain) 0 ≠ none := by
  cases source with
  | uri u =>
    unfold puppetInput Source.uriArg
    dsimp only
    by_cases hpuppet : isPuppetUri u = true
    · rw [ready_server hpuppet] at h
      rw [if_pos hpuppet]
      obtain ⟨hsome, hshort⟩ := h
      obtain ⟨domain, hdomain⟩ := Option.isSome_iff_exists.mp hsome
      rw [hdomain]
      refine ⟨[], domain, s, rfl, ?_⟩
      rw [Ne, renderArgs_puppetArgs]
      rintro ⟨-, -, hlong⟩
      rw [puppetDomain_eq hpuppet] at hdomain
      split at hdomain
      · cases hdomain
      · rename_i hok
        cases hdomain
        exact hshort ⟨hpuppet, fun hslash => hok (Or.inr hslash), hlong⟩
    · rw [ready_file hpuppet] at h
      rw [if_neg hpuppet]
      obtain ⟨hmkstemp, hfdopen, hdownload⟩ := h
      obtain ⟨suffix, hsuffix⟩ := Option.isSome_iff_exists.mp hmkstemp
      unfold downloadToFile
      rw [hsuffix]
      dsimp only
      rw [if_neg (not_not.mpr hfdopen), if_neg (not_not.mpr hdownload)]
      refine ⟨_, _, _, rfl, ?_⟩
      rw [Ne, renderArgs_puppetArgs]
      rintro ⟨hempty, -⟩
      cases hempty
  | string text =>
    refine ⟨_, _, _, rfl, ?_⟩
    rw [Ne, renderArgs_puppetArgs]
    rintro ⟨hempty, -⟩
    cases hempty

theorem ready_of_puppetInput (useApply : Bool) {filename domain : Text}
    (hinput : puppetInput o source.uriArg source.dataArg s = (.ok (filename, domain), t))
    (hrender : renderArgs 0 (puppetArgs useApply source.oneoff filename domain) 0 ≠ none) :
    source.Ready o := by
  cases source with
  | string text => trivial
  | uri u =>
    by_cases hpuppet : isPuppetUri u = true
    · rw [ready_server hpuppet]
      obtain ⟨rfl, rfl⟩ := puppetInput_server hpuppet hinput
      obtain ⟨v, hv, -, hdomain, -⟩ := puppetInput_domain hinput
      cases hv
      refine ⟨by rw [hdomain]; rfl, fun hlong => hrender ?_⟩
      exact (renderArgs_puppetArgs _ _ _ _).mpr ⟨rfl, rfl, hlong.2.2⟩
    · rw [ready_file hpuppet]
      unfold puppetInput Source.uriArg at hinput
      dsimp only at hinput
      rw [if_neg hpuppet] at hinput
      unfold downloadToFile at hinput
      cases hmkstemp : o.mkstemp with
      | none =>
        rw [hmkstemp] at hinput
        cases hinput
      | some suffix =>
        rw [hmkstemp] at hinput
        dsimp only at hinput
        refine ⟨rfl, ?_⟩
        by_contra hfailed
        by_cases hfdopen : o.fdopen = true
        · rw [if_neg (not_not.mpr hfdopen), if_pos fun h => hfailed ⟨hfdopen, h⟩] at hinput
          cases hinput
        · rw [if_pos hfdopen] at hinput
          cases hinput

end

end Matahari.Sysconfig
