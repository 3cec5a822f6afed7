import Matahari.ServicesIdentity
import Matahari.SysconfigOverlap

set_option autoImplicit false

/-!
# The status of a run

The schema says what a status looks like: records on lines of their own, `OK` or `FAILED` first,
and after `FAILED` the return code. Every place that stores a status keeps to it but one, which
stores `ERROR` for a puppet that could not be started.
-/
namespace Matahari.Sysconfig
open Mainloop Utilities Services

def records (status : Text) : List Text := status.splitOn '\n'

structure Documented (succeeded : Prop) (returnCode : ℤ) (status : Text) : Prop where
  first : (records status).head? = some "OK".toList ∨ (records status).head? = some "FAILED".toList
  ok : (records status).head? = some "OK".toList ↔ succeeded
  code : (records status).head? = some "FAILED".toList →
    (records status)[1]? = some (decimal returnCode)

/-! ## What an event stores -/

def Sys.setStatus (s : Sys) (key : Text) (status : Option Text) : Sys :=
  { s with keys := { s.keys with
      files := Function.update s.keys.files (keyFile s.keys key) status } }

def Event.key (s : Sys) : Event → Option Text
  | .qmf args _ => args.key
  | .dbus _ r _ => some r.key
  | .exit _ => none
  | .complete a _ _ => (s.actions.entry a).map fun data => data.key

/-- The key holds the status after the event, whatever status it held before. -/
def StoresStatus (haveAugeas : Bool) (s : Sys) (e : Event) (key status : Text) : Prop :=
  ∀ old : Option Text, old.isSome = (mhSysconfigIsConfigured s.keys key).isSome →
    ∃ t, step haveAugeas (s.setStatus key old) e = some t ∧
      mhSysconfigIsConfigured t.keys key = some status

/-- A script is run by the handler of its request; puppet has not ended when the handler does. -/
def Event.Succeeded : Event → Prop
  | .qmf args o => ∃ r, args.request = some r ∧
    strcasecmp r.scheme "puppet".toList = false ∧ 0 ≤ o.augSrun
  | .dbus _ r o => strcasecmp r.scheme "puppet".toList = false ∧ 0 ≤ o.augSrun
  | .exit _ => False
  | .complete _ status _ => wifexited status = true ∧ wexitstatus status = 0

def Event.returnCode : Event → ℤ
  | .qmf _ o | .dbus _ _ o => o.augSrun
  | .exit _ => 0
  | .complete _ status _ => childRc status

def Event.Reported : Event → Prop
  | .qmf _ _ | .dbus _ _ _ | .exit _ => True
  | .complete _ status _ => wifexited status = true ∨ wifsignaled status = true

def PuppetFails (keys : Keys) (r : RunRequest) (o : Outcomes) : Prop :=
  checkKeySanity r.key = true ∧ (mhSysconfigIsConfigured keys r.key = none ∨ r.forced = true) ∧
    strcasecmp r.scheme "puppet".toList = true ∧ (checkPuppet o).isSome = true ∧
    r.source.Ready o ∧ o.fork = false ∧ o.keyWrite = .ok

def StartFails (s : Sys) : Event → Prop
  | .qmf args o => s.fault = false ∧ ∃ r, args.request = some r ∧ PuppetFails s.keys r o
  | .dbus none r o => s.fault = false ∧ PuppetFails s.keys r o
  | .dbus (some _) _ _ | .exit _ | .complete _ _ _ => False

theorem succeeded_qmf {args : RunArgs} {r : RunRequest} (h : args.request = some r)
    (o : Outcomes) : (Event.qmf args o).Succeeded ↔
      strcasecmp r.scheme "puppet".toList = false ∧ 0 ≤ o.augSrun := by
  constructor
  · rintro ⟨r', hargs, hrun⟩
    cases h.symm.trans hargs
    exact hrun
  · exact fun hrun => ⟨r, h, hrun⟩

/-! ## Statuses of the documented form -/

theorem records_line {line : Text} (h : '\n' ∉ line) (rest : Text) :
    records (line ++ '\n' :: rest) = line :: records rest :=
  List.splitOn_append_cons_self_of_not_mem h rest

theorem records_last {line : Text} (h : '\n' ∉ line) : records line = [line] :=
  List.splitOn_eq_singleton h

theorem records_failed (rest : Text) :
    records ("FAILED\n".toList ++ rest) = "FAILED".toList :: records rest := by
  have hline : "FAILED\n".toList = "FAILED".toList ++ ['\n'] := rfl
  rw [hline, List.append_assoc, List.singleton_append, records_line (by decide)]

section
variable {succeeded : Prop} {returnCode : ℤ} {status : Text}

theorem documented_ok (rest : List Text) (hrecords : records status = "OK".toList :: rest)
    (h : succeeded) : Documented succeeded returnCode status := by
  have hne : "OK".toList ≠ "FAILED".toList := by decide
  constructor
  · rw [hrecords]
    exact Or.inl rfl
  · rw [hrecords]
    exact ⟨fun _ => h, fun _ => rfl⟩
  · rw [hrecords]
    intro hhead
    exact absurd (Option.some.inj hhead) hne

theorem documented_failed (rest : List Text)
    (hrecords : records status = "FAILED".toList :: decimal returnCode :: rest) (h : ¬ succeeded) :
    Documented succeeded returnCode status := by
  have hne : "FAILED".toList ≠ "OK".toList := by decide
  constructor
  · rw [hrecords]
    exact Or.inr rfl
  · rw [hrecords]
    exact ⟨fun hhead => absurd (Option.some.inj hhead) hne, fun hyes => absurd hyes h⟩
  · intro _
    rw [hrecords]
    rfl

theorem documented_augeasStatus {result : ℤ} (h : succeeded ↔ 0 ≤ result) (value : Text) :
    Documented succeeded result (augeasStatus result value) := by
  unfold augeasStatus
  split
  · rename_i hnegative
    apply documented_failed (records value)
    · rw [List.append_assoc, records_failed,
        records_line (notMem_decimal (by decide) (by decide) result)]
    · rw [h]
      omega
  · rename_i hnonnegative
    apply documented_ok (records value)
    · have hline : "OK\n".toList = "OK".toList ++ ['\n'] := rfl
      rw [hline, List.append_assoc, List.singleton_append, records_line (by decide)]
    · rw [h]
      omega

end

theorem length_decimal_childRc (status : ℕ) : (decimal (childRc status)).length ≤ 3 := by
  have hbyte : childRc status = 194 ∨ ∃ c : ℕ, c < 256 ∧ childRc status = c := by
    unfold childRc
    dsimp only
    split
    · exact Or.inl rfl
    · refine Or.inr ⟨(deathCodes status).2, ?_, rfl⟩
      unfold deathCodes wexitstatus
      split_ifs
      · exact Nat.mod_lt _ (by decide)
      · exact Nat.zero_lt_succ _
      · exact Nat.zero_lt_succ _
  rcases hbyte with h | ⟨c, hc, h⟩
  · rw [h]
    decide
  · have hall : ∀ c : Fin 256, (decimal (c : ℕ)).length ≤ 3 := by decide +kernel
    rw [h]
    exact hall ⟨c, hc⟩

theorem childRc_eq_zero {status : ℕ} (h : wifexited status = true ∨ wifsignaled status = true) :
    childRc status = 0 ↔ wifexited status = true ∧ wexitstatus status = 0 := by
  unfold childRc deathCodes
  cases hexit : wifexited status with
  | true => simp
  | false =>
    have hsignaled : wifsignaled status = true := h.resolve_left (by simp [hexit])
    have hsigno : wtermsig status ≠ 0 := by
      unfold wifsignaled at hsignaled
      unfold wtermsig
      simp only [Bool.and_eq_true, decide_eq_true_eq] at hsignaled
      omega
    simp [hsignaled, hsigno, ocfSignal]

/-- The status that `action_cb` stores. -/
theorem documented_childRc {status : ℕ} (h : wifexited status = true ∨ wifsignaled status = true) :
    Documented (wifexited status = true ∧ wexitstatus status = 0) (childRc status)
      (if childRc status ≠ 0 then snprintf 32 ("FAILED\n".toList ++ decimal (childRc status))
        else "OK".toList) := by
  rw [← childRc_eq_zero h]
  split
  · rename_i hnonzero
    have hwhole : snprintf 32 ("FAILED\n".toList ++ decimal (childRc status)) =
        "FAILED\n".toList ++ decimal (childRc status) := by
      have hlength := length_decimal_childRc status
      have hseven : "FAILED\n".toList.length = 7 := rfl
      apply List.take_of_length_le
      rw [List.length_append]
      omega
    apply documented_failed []
    · rw [hwhole, records_failed, records_last (notMem_decimal (by decide) (by decide) _)]
    · exact hnonzero
  · rename_i hzero
    apply documented_ok []
    · exact records_last (by decide)
    · exact not_not.mp hzero

/-! ## What a request does to the keys -/

/-- The status is stored where puppet does not start, and only there. -/
theorem runPuppet_keys (o : Outcomes) (source : Source) (key : Text) (cbData : ℕ) (s : Sys) :
    ((checkPuppet o).isSome = true ∧ source.Ready o ∧ o.fork = false →
      (runPuppet o source.uriArg source.oneoff source.dataArg key cbData s).2.keys =
        (mhSysconfigSetConfigured s.keys o.keyWrite key "ERROR".toList).2) ∧
    (¬ ((checkPuppet o).isSome = true ∧ source.Ready o ∧ o.fork = false) →
      (runPuppet o source.uriArg source.oneoff source.dataArg key cbData s).2.keys = s.keys) := by
  have hkeys := (of_runs_eq (puppetInput_spec o source.uriArg source.dataArg s).1.runs).1
  unfold runPuppet
  cases hpuppet : checkPuppet o with
  | none =>
    refine ⟨fun h => ?_, fun _ => rfl⟩
    cases h.1
  | some useApply =>
    dsimp only
    constructor
    · rintro ⟨-, hready, hfork⟩
      obtain ⟨filename, domain, t, hinput, hrender⟩ := puppetInput_ready hready useApply s
      rw [hinput] at hkeys ⊢
      obtain ⟨written, hwritten⟩ := Option.ne_none_iff_exists'.mp hrender
      dsimp only
      rw [hwritten]
      dsimp only
      rw [if_neg (by simp [hfork]), (of_runs_eq (runs_unlink _ _)).1]
      unfold setConfigured
      rw [hkeys]
    · intro h
      split
      · rename_i hinput
        rw [hinput] at hkeys
        exact hkeys
      · rename_i filename domain t hinput
        rw [hinput] at hkeys
        split
        · exact hkeys
        · rename_i written hrender
          split
          · exact hkeys
          · rename_i hfork
            have hready : source.Ready o := by
              apply ready_of_puppetInput useApply hinput
              rw [hrender]
              exact Option.some_ne_none written
            exact absurd ⟨rfl, hready, Bool.eq_false_iff.mpr hfork⟩ h

theorem runAugeas_keys (haveAugeas : Bool) (o : Outcomes) (uri data : Option Text) (key : Text)
    (cbData : ℕ) (s : Sys) :
    (runAugeas haveAugeas o uri data key cbData s).2.keys = s.keys ∨
      ∃ value, (runAugeas haveAugeas o uri data key cbData s).2.keys =
        (mhSysconfigSetConfigured s.keys o.keyWrite key (augeasStatus o.augSrun value)).2 := by
  have hkeys := (of_runs_eq (augeasText_spec o uri data s).1.runs).1
  unfold runAugeas
  split
  · exact Or.inl rfl
  split
  · rename_i htext
    rw [htext] at hkeys
    exact Or.inl hkeys
  rename_i htext
  rw [htext] at hkeys
  split
  · exact Or.inl hkeys
  dsimp only
  split
  · exact Or.inl ((of_runs_eq (runs_unlink _ _)).1.trans hkeys)
  split
  · exact Or.inl ((of_runs_eq (runs_unlink _ _)).1.trans hkeys)
  split
  · exact Or.inl ((of_runs_eq (runs_unlink _ _)).1.trans hkeys)
  · rename_i value _
    right
    refine ⟨value, ?_⟩
    dsimp only
    rw [(of_runs_eq ((runs_unlink _ _).trans (runs_resultCb _ _ _))).1]
    unfold setConfigured
    rw [← hkeys]

theorem setConfigured_status (k : Keys) (outcome : WriteOutcome) (key contents : Text) :
    let k' := (mhSysconfigSetConfigured k outcome key contents).2
    mhSysconfigIsConfigured k' key = mhSysconfigIsConfigured k key ∨
      mhSysconfigIsConfigured k' key = some contents := by
  intro k'
  by_cases hsane : checkKeySanity key = true
  · cases outcome with
    | ok => exact Or.inr (isConfigured_setConfigured hsane contents)
    | mkdirFailed =>
      left
      have hsame : k' = k := congrArg Prod.snd (if_neg (by simp [hsane]))
      rw [hsame]
    | writeFailed =>
      left
      have hsame : k' = k := congrArg Prod.snd (if_neg (by simp [hsane]))
      rw [hsame]
  · left
    have hsame : k' = k := congrArg Prod.snd (if_pos (by simpa using hsane))
    rw [hsame]

theorem mhSysconfigRun_status (haveAugeas : Bool) {o : Outcomes} {r : RunRequest} (cbData : ℕ)
    {s : Sys} (h : ¬ PuppetFails s.keys r o) :
    let k := (mhSysconfigRun haveAugeas o r cbData s).2.keys
    mhSysconfigIsConfigured k r.key = mhSysconfigIsConfigured s.keys r.key ∨
      ∃ status, mhSysconfigIsConfigured k r.key = some status ∧
        Documented (strcasecmp r.scheme "puppet".toList = false ∧ 0 ≤ o.augSrun) o.augSrun status := by
  intro k
  have hk : k = (mhSysconfigRun haveAugeas o r cbData s).2.keys := rfl
  rw [mhSysconfigRun_eq] at hk
  split at hk
  · exact Or.inl (by rw [hk])
  rename_i hsane
  unfold sysconfigOsRun at hk
  split at hk
  · exact Or.inl (by rw [hk, (of_runs_eq (runs_resultCb _ _ _)).1])
  rename_i hguard
  split at hk
  · rename_i hpuppet
    left
    obtain ⟨hfailed, hkept⟩ := runPuppet_keys o r.source r.key cbData s
    by_cases hfails : (checkPuppet o).isSome = true ∧ r.source.Ready o ∧ o.fork = false
    · -- the status can only have been stored if writing it has failed
      have hwrite : o.keyWrite ≠ .ok := by
        intro hok
        exact h ⟨by simpa using hsane, not_answered_iff.mp hguard, hpuppet, hfails.1, hfails.2.1,
          hfails.2.2, hok⟩
      have hsame : (mhSysconfigSetConfigured s.keys o.keyWrite r.key "ERROR".toList).2 = s.keys := by
        unfold mhSysconfigSetConfigured setKey
        rw [if_neg hsane]
        cases hcase : o.keyWrite with
        | ok => exact absurd hcase hwrite
        | mkdirFailed => rfl
        | writeFailed => rfl
      rw [hk, hfailed hfails, hsame]
    · rw [hk, hkept hfails]
  rename_i hpuppet
  split at hk
  · rcases runAugeas_keys haveAugeas o r.source.uriArg r.source.dataArg r.key cbData s with
      hsame | ⟨value, hstored⟩
    · exact Or.inl (by rw [hk, hsame])
    · rw [hk, hstored]
      rcases setConfigured_status s.keys o.keyWrite r.key (augeasStatus o.augSrun value) with
        hsame | hnew
      · exact Or.inl hsame
      · refine Or.inr ⟨_, hnew, documented_augeasStatus ?_ value⟩
        exact and_iff_right (Bool.eq_false_iff.mpr hpuppet)
  · exact Or.inl (by rw [hk])

theorem mhSysconfigRun_error (haveAugeas : Bool) {o : Outcomes} {r : RunRequest} (cbData : ℕ)
    {s : Sys} (h : PuppetFails s.keys r o) :
    mhSysconfigIsConfigured (mhSysconfigRun haveAugeas o r cbData s).2.keys r.key =
      some "ERROR".toList := by
  obtain ⟨hsane, hguard, hscheme, hpuppet, hready, hfork, hwrite⟩ := h
  rw [mhSysconfigRun_eq, if_neg (by simp [hsane])]
  unfold sysconfigOsRun
  rw [if_neg (not_answered_iff.mpr hguard), if_pos hscheme,
    (runPuppet_keys o r.source r.key cbData s).1 ⟨hpuppet, hready, hfork⟩, hwrite]
  exact isConfigured_setConfigured hsane _

/-! ## What an event does to the keys -/

theorem keys_invoke (haveAugeas : Bool) (front : FrontEnd) (o : Outcomes) (r : RunRequest)
    (request : ℕ) (s : Sys) :
    (invoke haveAugeas front o r request s).keys = (mhSysconfigRun haveAugeas o r request
      { s with asyncCBs := Function.update s.asyncCBs request (some ⟨front, r.key⟩) }).2.keys :=
  (of_runs_eq (runs_endCall _ _)).1

theorem keys_actionCb (s : Sys) (data : ActionData) (rc : ℤ) (keyWrite : WriteOutcome) :
    (actionCb s data rc keyWrite).keys = (mhSysconfigSetConfigured s.keys keyWrite data.key
      (if rc ≠ 0 then snprintf 32 ("FAILED\n".toList ++ decimal rc) else "OK".toList)).2 := by
  unfold actionCb
  dsimp only
  split
  · exact (of_runs_eq ((runs_unlink _ _).trans (runs_resultCb _ _ _))).1
  · exact (of_runs_eq (runs_resultCb _ _ _)).1

theorem step_status (haveAugeas : Bool) {s t : Sys} {e : Event} {key : Text}
    (hreported : e.Reported) (hfails : ¬ StartFails s e) (hkey : e.key s = some key)
    (hstep : step haveAugeas s e = some t) :
    mhSysconfigIsConfigured t.keys key = mhSysconfigIsConfigured s.keys key ∨
      ∃ status, mhSysconfigIsConfigured t.keys key = some status ∧
        Documented e.Succeeded e.returnCode status := by
  obtain ⟨hok, hmove⟩ := step_move hstep
  cases hmove with
  | unconverted o asyncCBs hnone => exact Or.inl rfl
  | @qmf args r o hargs =>
    have hkey : args.key = some key := hkey
    cases hkey.symm.trans (RunArgs.key_of_request hargs)
    rw [keys_invoke, propext (succeeded_qmf hargs o)]
    exact mhSysconfigRun_status haveAugeas _ fun h => hfails ⟨hok, r, hargs, h⟩
  | denied message r o => exact Or.inl rfl
  | dbus r o =>
    cases hkey
    rw [keys_invoke]
    exact mhSysconfigRun_status haveAugeas _ fun h => hfails ⟨hok, h⟩
  | exit hentry => cases hkey
  | @complete a data status keyWrite hentry =>
    obtain ⟨data', hentry', rfl⟩ := Option.map_eq_some_iff.mp hkey
    cases hentry.symm.trans hentry'
    rw [keys_actionCb]
    rcases setConfigured_status s.keys keyWrite data.key (if childRc status ≠ 0 then
        snprintf 32 ("FAILED\n".toList ++ decimal (childRc status)) else "OK".toList) with
      hsame | hnew
    · exact Or.inl hsame
    · exact Or.inr ⟨_, hnew, documented_childRc hreported⟩

/-! ## The status that is there already -/

theorem isConfigured_setStatus (s : Sys) (key : Text) (status : Option Text) :
    mhSysconfigIsConfigured (s.setStatus key status).keys key =
      if checkKeySanity key = false then none else status := by
  unfold mhSysconfigIsConfigured getKey
  split
  · rfl
  · exact Function.update_self _ _ _

theorem isSome_setStatus {s : Sys} {key : Text} {status : Option Text}
    (h : status.isSome = (mhSysconfigIsConfigured s.keys key).isSome) :
    (mhSysconfigIsConfigured (s.setStatus key status).keys key).isSome =
      (mhSysconfigIsConfigured s.keys key).isSome := by
  rw [isConfigured_setStatus]
  split
  · rename_i hinsane
    have hnone : mhSysconfigIsConfigured s.keys key = none := if_pos hinsane
    rw [hnone]
  · exact h

theorem startFails_setStatus {s : Sys} {e : Event} {key : Text} {status : Option Text}
    (hkey : e.key s = some key)
    (h : status.isSome = (mhSysconfigIsConfigured s.keys key).isSome) :
    StartFails (s.setStatus key status) e ↔ StartFails s e := by
  have hsome := isSome_setStatus h
  have hrequest : ∀ r : RunRequest, r.key = key → ∀ o,
      (PuppetFails (s.setStatus key status).keys r o ↔ PuppetFails s.keys r o) := by
    rintro r rfl o
    unfold PuppetFails
    rw [← Option.not_isSome_iff_eq_none, ← Option.not_isSome_iff_eq_none, hsome]
  cases e with
  | qmf args o =>
    refine and_congr_right fun _ => exists_congr fun r => and_congr_right fun hargs => ?_
    have hkey : args.key = some key := hkey
    exact hrequest r (Option.some.inj ((RunArgs.key_of_request hargs).symm.trans hkey)) o
  | dbus denied r o =>
    cases denied with
    | none => exact and_congr_right fun _ => hrequest r (Option.some.inj hkey) o
    | some message => exact Iff.rfl
  | exit a => exact Iff.rfl
  | complete a status keyWrite => exact Iff.rfl

theorem startFails_stores (haveAugeas : Bool) {s : Sys} {e : Event} (h : StartFails s e) :
    ∃ key, e.key s = some key ∧ StoresStatus haveAugeas s e key "ERROR".toList := by
  have hrequest : ∀ front r o, s.fault = false ∧ PuppetFails s.keys r o →
      ∀ old : Option Text, old.isSome = (mhSysconfigIsConfigured s.keys r.key).isSome →
      mhSysconfigIsConfigured (invoke haveAugeas front o r s.requests
        { s.setStatus r.key old with requests := s.requests + 1 }).keys r.key =
          some "ERROR".toList := by
    intro front r o hfails old hold
    rw [keys_invoke]
    apply mhSysconfigRun_error
    exact ((startFails_setStatus (e := .dbus none r o) rfl hold).mpr hfails).2
  cases e with
  | qmf args o =>
    obtain ⟨hfault, r, hargs, hfails⟩ := h
    refine ⟨r.key, RunArgs.key_of_request hargs, fun old hold => ?_⟩
    refine ⟨_, if_neg (Bool.eq_false_iff.mp hfault), ?_⟩
    rw [configAgentInvoke_some hargs]
    exact hrequest .qmf r o ⟨hfault, hfails⟩ old hold
  | dbus denied r o =>
    cases denied with
    | none =>
      refine ⟨r.key, rfl, fun old hold => ?_⟩
      refine ⟨_, if_neg ?_, hrequest .dbus r o h old hold⟩
      exact Bool.eq_false_iff.mp h.1
    | some message => exact h.elim
  | exit a => exact h.elim
  | complete a status keyWrite => exact h.elim

theorem not_documented_error (succeeded : Prop) (returnCode : ℤ) :
    ¬ Documented succeeded returnCode "ERROR".toList := by
  rintro ⟨hfirst, -, -⟩
  rw [records_last (by decide)] at hfirst
  exact absurd hfirst (by decide)

/-- Whatever status an event stores has the documented form, unless the process that was to run
puppet could not be started. -/
theorem status_documented_iff (haveAugeas : Bool) (s : Sys) (e : Event) (hreported : e.Reported) :
    (∀ key status, e.key s = some key → StoresStatus haveAugeas s e key status →
        Documented e.Succeeded e.returnCode status) ↔
      ¬ StartFails s e := by
  constructor
  · intro hall hfails
    obtain ⟨key, hkey, hstores⟩ := startFails_stores haveAugeas hfails
    exact not_documented_error _ _ (hall key _ hkey hstores)
  · intro hfails key status hkey hstores
    -- a status that differs from the one that is stored
    have hold : ((mhSysconfigIsConfigured s.keys key).map fun _ => status ++ ['\n']).isSome =
        (mhSysconfigIsConfigured s.keys key).isSome := Option.isSome_map
    obtain ⟨t, hstep, hstatus⟩ := hstores _ hold
    have hkey' : e.key (s.setStatus key ((mhSysconfigIsConfigured s.keys key).map
        fun _ => status ++ ['\n'])) = some key := by
      cases e <;> exact hkey
    rcases step_status haveAugeas hreported
      ((startFails_setStatus hkey hold).not.mpr hfails) hkey' hstep with hsame | ⟨new, hnew, hdoc⟩
    · rw [hstatus, isConfigured_setStatus] at hsame
      split at hsame
      · cases hsame
      · obtain ⟨_, -, heq⟩ := Option.map_eq_some_iff.mp hsame.symm
        have hlength := congrArg List.length heq
        rw [List.length_append] at hlength
        exact absurd hlength (Nat.succ_ne_self _)
    · rw [hstatus] at hnew
      cases hnew
      exact hdoc

def puppetRunning : Sys :=
  { start testKeys with actions := FreshTable.empty.add ⟨"web".toList, none, 0⟩ }

theorem status_documented_iff_killed :
    (Event.complete 1 9 .ok).Reported ∧
    (Event.complete 1 9 .ok).key puppetRunning = some "web".toList ∧
    ((∀ key status, (Event.complete 1 9 .ok).key puppetRunning = some key →
        StoresStatus true puppetRunning (.complete 1 9 .ok) key status →
        Documented (Event.complete 1 9 .ok).Succeeded (Event.complete 1 9 .ok).returnCode status) ↔
      ¬ StartFails puppetRunning (.complete 1 9 .ok)) :=
  ⟨Or.inr (by decide), rfl, status_documented_iff true puppetRunning (.complete 1 9 .ok)
    (Or.inr (by decide))⟩

def forkFails : Outcomes := { goodOutcomes with fork := false }

/-- There is no process for puppet, and the status says neither `OK` nor `FAILED`. -/
theorem start_failure_undocumented :
    ¬ ∀ key status, (Event.qmf testRequest.args forkFails).key (start testKeys) = some key →
      StoresStatus true (start testKeys) (.qmf testRequest.args forkFails) key status →
      Documented (Event.qmf testRequest.args forkFails).Succeeded
        (Event.qmf testRequest.args forkFails).returnCode status := by
  intro hall
  have hfails : StartFails (start testKeys) (.qmf testRequest.args forkFails) := by
    refine ⟨rfl, testRequest, rfl, starts_testRequest.1, Or.inl (isConfigured_testKeys _), by decide,
      by decide, trivial, rfl, rfl⟩
  obtain ⟨key, hkey, hstores⟩ := startFails_stores true hfails
  exact not_documented_error _ _ (hall key _ hkey hstores)

end Matahari.Sysconfig
