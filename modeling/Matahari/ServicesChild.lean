import Matahari.Library.LastWrite
import Matahari.ServiceAgent
import Matahari.Utilities

set_option autoImplicit false

/-!
# The child of an action

What the forked child of `services_os_action_execute` does: the environment it makes for a
resource agent, the program it executes and how it exits when it cannot. The parameters of a
request come from a QMF map through a hash table, and the order in which the table is walked is
not known.
-/
namespace Matahari.Services
open Mainloop Utilities

/-! ## Tables of texts -/

def entry : List (Text × Text) → Text → Option Text
  | [], _ => none
  | kv :: entries, key => if kv.1 = key then some kv.2 else entry entries key

def replaceEntry : List (Text × Text) → Text → Text → List (Text × Text)
  | [], key, value => [(key, value)]
  | kv :: entries, key, value =>
    if kv.1 = key then (key, value) :: entries else kv :: replaceEntry entries key value

section
variable {entries : List (Text × Text)} {key : Text}

theorem entry_replaceEntry (entries : List (Text × Text)) (key value name : Text) :
    entry (replaceEntry entries key value) name =
      if key = name then some value else entry entries name := by
  induction entries with
  | nil => rfl
  | cons kv entries ih =>
    rw [replaceEntry]
    by_cases hkey : kv.1 = key
    · rw [if_pos hkey, entry, entry]
      by_cases hname : key = name
      · rw [if_pos hname, if_pos hname]
      · rw [if_neg hname, if_neg hname, if_neg (by rw [hkey]; exact hname)]
    · rw [if_neg hkey, entry, entry, ih]
      by_cases hname : kv.1 = name
      · rw [if_pos hname, if_neg (by rw [← hname]; exact Ne.symm hkey), if_pos hname]
      · rw [if_neg hname, if_neg hname]

theorem mem_of_entry {value : Text} (h : entry entries key = some value) :
    (key, value) ∈ entries := by
  induction entries with
  | nil => cases h
  | cons kv entries ih =>
    rw [entry] at h
    by_cases hkey : kv.1 = key
    · rw [if_pos hkey] at h
      have hvalue := Option.some.inj h
      rw [← hkey, ← hvalue]
      exact List.mem_cons_self
    · rw [if_neg hkey] at h
      exact List.mem_cons_of_mem kv (ih h)

theorem mem_keys_replaceEntry {value name : Text} :
    name ∈ (replaceEntry entries key value).map Prod.fst ↔
      name = key ∨ name ∈ entries.map Prod.fst := by
  induction entries with
  | nil => simp [replaceEntry]
  | cons kv entries ih =>
    rw [replaceEntry]
    by_cases hkey : kv.1 = key
    · rw [if_pos hkey, List.map_cons, List.map_cons, List.mem_cons, List.mem_cons, hkey]
      tauto
    · rw [if_neg hkey, List.map_cons, List.map_cons, List.mem_cons, List.mem_cons, ih]
      tauto

theorem nodup_replaceEntry {value : Text} (h : (entries.map Prod.fst).Nodup) :
    ((replaceEntry entries key value).map Prod.fst).Nodup := by
  induction entries with
  | nil => simp [replaceEntry]
  | cons kv entries ih =>
    rw [List.map_cons, List.nodup_cons] at h
    rw [replaceEntry]
    by_cases hkey : kv.1 = key
    · rw [if_pos hkey, List.map_cons, List.nodup_cons, ← hkey]
      exact h
    · rw [if_neg hkey, List.map_cons, List.nodup_cons, mem_keys_replaceEntry]
      refine ⟨?_, ih h.2⟩
      intro hmem
      cases hmem with
      | inl heq => exact hkey heq
      | inr hmem => exact h.1 hmem

end

/-! ## The parameters of a request -/

/-- `qmf_map_to_hash`. Keys and values are cut at a NUL, and a key that is there already gets the
new value. -/
def qmfMapToHash (parameters : List (Text × Text)) : List (Text × Text) :=
  parameters.foldl (fun hash kv => replaceEntry hash (cstring kv.1) (cstring kv.2)) []

theorem qmfMapToHash_nodup (parameters : List (Text × Text)) :
    ((qmfMapToHash parameters).map Prod.fst).Nodup := by
  have hfold : ∀ hash : List (Text × Text), (hash.map Prod.fst).Nodup →
      ((parameters.foldl (fun hash kv => replaceEntry hash (cstring kv.1) (cstring kv.2))
        hash).map Prod.fst).Nodup := by
    induction parameters with
    | nil => exact fun _ h => h
    | cons kv parameters ih =>
      intro hash h
      rw [List.foldl_cons]
      exact ih _ (nodup_replaceEntry h)
  exact hfold [] List.nodup_nil

def parameterWrites (kv : Text × Text) (key : Text) : Option Text :=
  if cstring kv.1 = key then some (cstring kv.2) else none

theorem entry_qmfMapToHash (parameters : List (Text × Text)) (key : Text) :
    entry (qmfMapToHash parameters) key = LastWrite.last parameterWrites parameters key := by
  have hstep : ∀ kv ∈ parameters, ∀ hash name,
      entry (replaceEntry hash (cstring kv.1) (cstring kv.2)) name =
        (parameterWrites kv name).or (entry hash name) := by
    intro kv _ hash name
    rw [entry_replaceEntry, parameterWrites]
    by_cases hname : cstring kv.1 = name
    · rw [if_pos hname, if_pos hname, Option.some_or]
    · rw [if_neg hname, if_neg hname, Option.none_or]
  have hread := LastWrite.foldl_eq parameterWrites hstep [] key
  rw [entry, Option.or_none] at hread
  exact hread

/-! ## The environment of a resource agent -/

def getenv (environ : List (Text × Text)) (name : Text) : Option Text := entry environ name

def settable (name : Text) : Bool := !name.isEmpty && !name.contains '='

def setenv (environ : List (Text × Text)) (name value : Text) : Option (List (Text × Text)) :=
  if settable name then some (replaceEntry environ name value) else none

def setOcfEnv (environ : List (Text × Text)) (key value : Text) : List (Text × Text) :=
  (setenv environ key value).getD environ

def reskey : Text := "OCF_RESKEY_".toList

/-- The 500 bytes of `set_ocf_env_with_prefix`. -/
def reskeyVariable (key : Text) : Text := snprintf 500 (reskey ++ key)

def setOcfEnvWithPrefix (environ : List (Text × Text)) (key value : Text) : List (Text × Text) :=
  setOcfEnv environ (reskeyVariable key) value

variable {C : Type}

def fixedVariables (op : SvcAction C) : List (Text × Text) :=
  [("OCF_RA_VERSION_MAJOR".toList, "1".toList), ("OCF_RA_VERSION_MINOR".toList, "0".toList),
    ("OCF_ROOT".toList, ocfRoot), ("OCF_RESOURCE_INSTANCE".toList, op.rsc),
    ("OCF_RESOURCE_TYPE".toList, op.agent)] ++
  match op.provider with
  | some provider => [("OCF_RESOURCE_PROVIDER".toList, provider)]
  | none => []

/-- `add_OCF_env_vars`; `walk` is the table of parameters in the order `g_hash_table_foreach` gives
its entries. -/
def addOCFEnvVars (op : SvcAction C) (walk environ : List (Text × Text)) : List (Text × Text) :=
  if strcasecmp "ocf".toList op.standard then
    (fixedVariables op).foldl (fun environ kv => setOcfEnv environ kv.1 kv.2)
      (walk.foldl (fun environ kv => setOcfEnvWithPrefix environ kv.1 kv.2) environ)
  else environ

def ocfWrite (kv : Text × Text) (name : Text) : Option Text :=
  if settable kv.1 = true ∧ kv.1 = name then some kv.2 else none

def reskeyWrite (kv : Text × Text) (name : Text) : Option Text :=
  ocfWrite (reskeyVariable kv.1, kv.2) name

theorem getenv_setOcfEnv (environ : List (Text × Text)) (kv : Text × Text) (name : Text) :
    getenv (setOcfEnv environ kv.1 kv.2) name = (ocfWrite kv name).or (getenv environ name) := by
  unfold setOcfEnv setenv ocfWrite
  cases hname : settable kv.1 with
  | false =>
    rw [if_neg Bool.false_ne_true, if_neg (fun h => Bool.false_ne_true h.1), Option.none_or]
    rfl
  | true =>
    rw [if_pos rfl, Option.getD_some]
    unfold getenv
    rw [entry_replaceEntry]
    by_cases hkey : kv.1 = name
    · rw [if_pos hkey, if_pos ⟨rfl, hkey⟩, Option.some_or]
    · rw [if_neg hkey, if_neg (fun h => hkey h.2), Option.none_or]

theorem getenv_setOcfEnvWithPrefix (environ : List (Text × Text)) (kv : Text × Text) (name : Text) :
    getenv (setOcfEnvWithPrefix environ kv.1 kv.2) name =
      (reskeyWrite kv name).or (getenv environ name) :=
  getenv_setOcfEnv environ (reskeyVariable kv.1, kv.2) name

/-- The fixed variables are written last. -/
theorem getenv_addOCFEnvVars {op : SvcAction C} (hocf : strcasecmp "ocf".toList op.standard = true)
    (walk environ : List (Text × Text)) (name : Text) :
    getenv (addOCFEnvVars op walk environ) name =
      (LastWrite.last ocfWrite (fixedVariables op) name).or
        ((LastWrite.last reskeyWrite walk name).or (getenv environ name)) := by
  unfold addOCFEnvVars
  rw [if_pos hocf,
    LastWrite.foldl_eq ocfWrite (fun kv _ environ name => getenv_setOcfEnv environ kv name),
    LastWrite.foldl_eq reskeyWrite
      (fun kv _ environ name => getenv_setOcfEnvWithPrefix environ kv name)]

/-- 488 characters of a key fit behind the prefix. -/
theorem reskeyVariable_eq (key : Text) : reskeyVariable key = reskey ++ key.take 488 := by
  unfold reskeyVariable snprintf
  rw [List.take_append]
  rfl

theorem settable_reskeyVariable {key : Text} (h : '=' ∉ key) :
    settable (reskeyVariable key) = true := by
  rw [reskeyVariable_eq]
  have hkey : (reskey ++ key.take 488).contains '=' = false := by
    apply Bool.eq_false_iff.mpr
    intro hmem
    have hsplit := List.mem_append.mp (List.contains_iff_mem.mp hmem)
    cases hsplit with
    | inl hprefix => revert hprefix; decide
    | inr hmem => exact h (List.mem_of_mem_take hmem)
  unfold settable
  rw [hkey]
  rfl

def fixedNames : List Text :=
  ["OCF_RA_VERSION_MAJOR".toList, "OCF_RA_VERSION_MINOR".toList, "OCF_ROOT".toList,
    "OCF_RESOURCE_INSTANCE".toList, "OCF_RESOURCE_TYPE".toList, "OCF_RESOURCE_PROVIDER".toList]

theorem fixedVariables_names (op : SvcAction C) :
    ((fixedVariables op).map Prod.fst).Sublist fixedNames := by
  unfold fixedVariables
  cases op.provider with
  | none => exact List.sublist_append_left (fixedNames.take 5) _
  | some provider => exact List.Sublist.refl fixedNames

theorem fixedNames_nodup : fixedNames.Nodup := by decide

theorem fixedNames_settable : ∀ name ∈ fixedNames, settable name = true := by decide

theorem fixedNames_take : ∀ name ∈ fixedNames, name.take 11 ≠ reskey := by decide

theorem fixedNames_ne_reskeyVariable {name : Text} (h : name ∈ fixedNames) (key : Text) :
    name ≠ reskeyVariable key := by
  intro heq
  apply fixedNames_take name h
  rw [heq, reskeyVariable_eq]
  exact List.take_left' rfl

theorem getenv_fixedVariable {op : SvcAction C}
    (hocf : strcasecmp "ocf".toList op.standard = true) (walk environ : List (Text × Text))
    {kv : Text × Text} (h : kv ∈ fixedVariables op) :
    getenv (addOCFEnvVars op walk environ) kv.1 = some kv.2 := by
  have hname : kv.1 ∈ fixedNames := (fixedVariables_names op).subset (List.mem_map_of_mem h)
  have hlast : LastWrite.last ocfWrite (fixedVariables op) kv.1 = some kv.2 := by
    apply LastWrite.last_eq_some h
    · unfold ocfWrite
      rw [if_pos ⟨fixedNames_settable kv.1 hname, rfl⟩]
    · intro kv' hkv' value hwrite
      unfold ocfWrite at hwrite
      split at hwrite
      · rename_i hsame
        have hnodup := fixedNames_nodup.sublist (fixedVariables_names op)
        have heq : kv' = kv := List.inj_on_of_nodup_map hnodup hkv' h hsame.2
        rw [← Option.some.inj hwrite, heq]
      · cases hwrite
  rw [getenv_addOCFEnvVars hocf, hlast, Option.some_or]

theorem getenv_of_not_fixed {op : SvcAction C}
    (hocf : strcasecmp "ocf".toList op.standard = true) (walk environ : List (Text × Text))
    {name : Text} (h : ∀ kv ∈ fixedVariables op, kv.1 ≠ name) :
    getenv (addOCFEnvVars op walk environ) name =
      (LastWrite.last reskeyWrite walk name).or (getenv environ name) := by
  have hlast : LastWrite.last ocfWrite (fixedVariables op) name = none := by
    apply LastWrite.last_eq_none
    intro kv hkv
    unfold ocfWrite
    rw [if_neg (fun hsame => h kv hkv hsame.2)]
  rw [getenv_addOCFEnvVars hocf, hlast, Option.none_or]

theorem reskeyVariable_not_fixed (op : SvcAction C) (key : Text) :
    ∀ kv ∈ fixedVariables op, kv.1 ≠ reskeyVariable key := fun _ h =>
  fixedNames_ne_reskeyVariable ((fixedVariables_names op).subset (List.mem_map_of_mem h)) key

theorem reskeyWrite_eq_some {kv : Text × Text} {name value : Text} :
    reskeyWrite kv name = some value ↔
      (settable (reskeyVariable kv.1) = true ∧ reskeyVariable kv.1 = name) ∧ kv.2 = value := by
  unfold reskeyWrite ocfWrite
  rw [Option.ite_none_right_eq_some, Option.some.injEq]

/-- Parameters with the same variable have the same value, where it is a name that can be set. -/
def VariablesAgree (params : List (Text × Text)) : Prop :=
  ∀ kv ∈ params, ∀ kv' ∈ params, settable (reskeyVariable kv.1) = true →
    reskeyVariable kv.1 = reskeyVariable kv'.1 → kv.2 = kv'.2

theorem variablesAgree_iff (params : List (Text × Text)) :
    VariablesAgree params ↔ ∀ name, ∀ kv ∈ params, ∀ kv' ∈ params, ∀ v v',
      reskeyWrite kv name = some v → reskeyWrite kv' name = some v' → v = v' := by
  constructor
  · intro h name kv hkv kv' hkv' v v' hv hv'
    have hwrite := reskeyWrite_eq_some.mp hv
    have hwrite' := reskeyWrite_eq_some.mp hv'
    rw [← hwrite.2, ← hwrite'.2]
    exact h kv hkv kv' hkv' hwrite.1.1 (hwrite.1.2.trans hwrite'.1.2.symm)
  · intro h kv hkv kv' hkv' hset heq
    exact h (reskeyVariable kv.1) kv hkv kv' hkv' kv.2 kv'.2
      (reskeyWrite_eq_some.mpr ⟨⟨hset, rfl⟩, rfl⟩)
      (reskeyWrite_eq_some.mpr ⟨⟨heq ▸ hset, heq.symm⟩, rfl⟩)

/-- The environment of an OCF action depends on the order in which the table of parameters is
walked exactly when two of them, cut off, have the same variable and different values. -/
theorem child_environment_order_iff (op : SvcAction C)
    (hocf : strcasecmp "ocf".toList op.standard = true) (environ : List (Text × Text)) :
    (∀ walk, walk.Perm op.params → ∀ name,
      getenv (addOCFEnvVars op walk environ) name =
        getenv (addOCFEnvVars op op.params environ) name) ↔ VariablesAgree op.params := by
  rw [variablesAgree_iff]
  constructor
  · intro h name
    apply LastWrite.last_perm_iff.mp
    intro walk hwalk
    cases hlast : LastWrite.last reskeyWrite op.params name with
    | none =>
      apply LastWrite.last_eq_none
      intro kv hkv
      exact LastWrite.last_eq_none_iff.mp hlast kv (hwalk.mem_iff.mp hkv)
    | some value =>
      have hevent := LastWrite.exists_of_last_eq hlast
      obtain ⟨kv, hkv, hwrite⟩ := hevent
      -- the name is the variable of a parameter, and so it is not fixed
      have hname := (reskeyWrite_eq_some.mp hwrite).1.2
      have hfixed := hname ▸ reskeyVariable_not_fixed op kv.1
      have hsame := h walk hwalk name
      rw [getenv_of_not_fixed hocf _ _ hfixed, getenv_of_not_fixed hocf _ _ hfixed, hlast,
        Option.some_or] at hsame
      cases hwalked : LastWrite.last reskeyWrite walk name with
      | none =>
        have hnone := LastWrite.last_eq_none_iff.mp hwalked kv (hwalk.mem_iff.mpr hkv)
        rw [hwrite] at hnone
        cases hnone
      | some value' =>
        rw [hwalked, Option.some_or] at hsame
        exact hsame
  · intro h walk hwalk name
    rw [getenv_addOCFEnvVars hocf, getenv_addOCFEnvVars hocf,
      LastWrite.last_perm_iff.mpr (h name) walk hwalk]

def startIp (parameters : List (Text × Text)) : ServiceAgent.Args :=
  { name := "ip".toList, action := "start".toList, agent := some "IPaddr2".toList,
    parameters := qmfMapToHash parameters }

def startIpRequest (parameters : List (Text × Text)) : ActionRequest :=
  ⟨"ip".toList, "ocf".toList, some "heartbeat".toList, "IPaddr2".toList, "start".toList, 0, 60000,
    qmfMapToHash parameters⟩

def longKeys : SvcAction Unit :=
  { newAction (startIpRequest []) 1 ([], []) with
    params := [(List.replicate 488 'a', "1".toList), (List.replicate 489 'a', "2".toList)] }

theorem child_environment_order_iff_long :
    ¬ ∀ walk, walk.Perm longKeys.params → ∀ name,
      getenv (addOCFEnvVars longKeys walk []) name =
        getenv (addOCFEnvVars longKeys longKeys.params []) name := by
  intro h
  have hagree := (child_environment_order_iff longKeys (by decide) []).mp h
  have hsame : reskeyVariable (List.replicate 488 'a') = reskeyVariable (List.replicate 489 'a') := by
    rw [reskeyVariable_eq, reskeyVariable_eq, List.take_replicate, List.take_replicate]
    rfl
  have hset : settable (reskeyVariable (List.replicate 488 'a')) = true := by
    apply settable_reskeyVariable
    rw [List.mem_replicate]
    decide
  have hvalue := hagree (List.replicate 488 'a', "1".toList) List.mem_cons_self
    (List.replicate 489 'a', "2".toList) (List.mem_cons_of_mem _ List.mem_cons_self) hset hsame
  revert hvalue
  decide

/-! ## The child -/

inductive ExecErrno where
  | enoent
  | eisdir
  | eacces
  | other
  deriving DecidableEq, Repr

def execRc : ExecErrno → ℤ
  | .enoent => ocfNotInstalled
  | .eisdir => ocfNotInstalled
  | .eacces => ocfInsufficientPriv
  | .other => 1

inductive Child where
  | executes (file : Text) (argv : List Text) (environ : List (Text × Text))
  | exits (rc : ℤ)

/-- The child in `services_os_action_execute`, after its descriptors are closed. `execvp` is
`none` where it does not return. -/
def actionChild (execvp : Text → List Text → Option ExecErrno) (op : SvcAction C)
    (walk environ : List (Text × Text)) : Child :=
  let environ := addOCFEnvVars op walk environ
  match execvp op.exec op.args with
  | none => .executes op.exec op.args environ
  | some errno => .exits (execRc errno)

theorem resourcesActionCreate_command {operations : ℕ} {r : ActionRequest} {op : SvcAction C}
    (h : (resourcesActionCreate operations r).1 = some op) :
    r.command = some (op.exec, op.args) := by
  unfold resourcesActionCreate at h
  split at h
  · cases hcommand : r.command with
    | none =>
      rw [hcommand] at h
      cases h
    | some command =>
      rw [hcommand] at h
      have hop := Option.some.inj h
      rw [← hop]
      rfl
  · cases h

/-- Short keys, cut off or not, have variables of their own. -/
theorem reskeyVariable_inj {key key' : Text} (hshort : key.length < 488)
    (h : reskeyVariable key = reskeyVariable key') : key = key' := by
  rw [reskeyVariable_eq, reskeyVariable_eq] at h
  have htake := List.append_cancel_left h
  rw [List.take_of_length_le (by omega)] at htake
  have hlength := congrArg List.length htake
  rw [List.length_take] at hlength
  rw [htake, List.take_of_length_le (by omega)]

theorem getenv_parameter {op : SvcAction C} (hocf : strcasecmp "ocf".toList op.standard = true)
    {before after : List (Text × Text)} {key value : Text}
    (hlast : ∀ kv ∈ after, cstring kv.1 ≠ cstring key)
    (hparams : op.params = qmfMapToHash (before ++ (key, value) :: after))
    (hshort : (cstring key).length < 488) (heq : '=' ∉ cstring key)
    {walk : List (Text × Text)} (hwalk : walk.Perm op.params) (environ : List (Text × Text)) :
    getenv (addOCFEnvVars op walk environ) (reskey ++ cstring key) = some (cstring value) := by
  have hvariable : reskey ++ cstring key = reskeyVariable (cstring key) := by
    rw [reskeyVariable_eq, List.take_of_length_le (by omega)]
  -- the entry of the table
  have hentry : entry op.params (cstring key) = some (cstring value) := by
    have hafter : LastWrite.last parameterWrites after (cstring key) = none := by
      apply LastWrite.last_eq_none
      intro kv hkv
      unfold parameterWrites
      rw [if_neg (hlast kv hkv)]
    rw [hparams, entry_qmfMapToHash, LastWrite.last_append, LastWrite.last_cons, hafter,
      Option.none_or]
    unfold parameterWrites
    rw [if_pos rfl, Option.some_or]
  have hmem : (cstring key, cstring value) ∈ walk := hwalk.mem_iff.mpr (mem_of_entry hentry)
  have hnodup : (walk.map Prod.fst).Nodup := by
    rw [(hwalk.map Prod.fst).nodup_iff, hparams]
    exact qmfMapToHash_nodup _
  have hwritten : LastWrite.last reskeyWrite walk (reskeyVariable (cstring key)) =
      some (cstring value) := by
    apply LastWrite.last_eq_some hmem
    · exact reskeyWrite_eq_some.mpr ⟨⟨settable_reskeyVariable heq, rfl⟩, rfl⟩
    · intro kv hkv other hwrite
      have hsame := reskeyWrite_eq_some.mp hwrite
      have hkey := reskeyVariable_inj hshort hsame.1.2.symm
      have hkv' := List.inj_on_of_nodup_map hnodup hkv hmem hkey.symm
      rw [← hsame.2, hkv']
  rw [hvariable, getenv_of_not_fixed hocf _ _ (reskeyVariable_not_fixed op _), hwritten,
    Option.some_or]

/-- What an action for a call of `invoke` takes from the arguments of the call. -/
theorem invokeResources_action {asInt32 : Option ℕ → Option ℤ} {method : Text}
    {args : ServiceAgent.Args} {env : ServiceAgent.Environment} {service : ServiceAgent.ServiceId}
    {request : ActionRequest} {rc : Option ℕ}
    (h : ServiceAgent.invokeResources asInt32 method args env = .action service request rc) :
    ∃ interval timeout, request =
      ⟨args.name, args.standard.getD "ocf".toList, some (args.provider.getD "heartbeat".toList),
        args.agent.getD args.name, args.action, interval, timeout, args.parameters⟩ := by
  unfold ServiceAgent.invokeResources at h
  dsimp only at h
  split_ifs at h
  · split at h <;> cases h
  · split at h
    · rename_i interval timeout _ _
      cases h
      exact ⟨interval, timeout, rfl⟩
    · cases h
  · split at h <;> cases h
  · split at h <;> cases h

/-- The environment of the agent that a call of `invoke` with these parameters executes. -/
structure AgentEnvironment (args : ServiceAgent.Args) (parameters inherited child : List (Text × Text)) :
    Prop where
  parameter : ∀ before key value after, parameters = before ++ (key, value) :: after →
    (∀ kv ∈ after, cstring kv.1 ≠ cstring key) → (cstring key).length < 488 →
    '=' ∉ cstring key → getenv child (reskey ++ cstring key) = some (cstring value)
  major : getenv child "OCF_RA_VERSION_MAJOR".toList = some "1".toList
  minor : getenv child "OCF_RA_VERSION_MINOR".toList = some "0".toList
  root : getenv child "OCF_ROOT".toList = some ocfRoot
  name : getenv child "OCF_RESOURCE_INSTANCE".toList = some args.name
  type : getenv child "OCF_RESOURCE_TYPE".toList = some (args.agent.getD args.name)
  provider : getenv child "OCF_RESOURCE_PROVIDER".toList =
    some (args.provider.getD "heartbeat".toList)
  other : ∀ name, ¬ reskey.isPrefixOf name → name ∉ fixedNames →
    getenv child name = getenv inherited name

structure CreatedFor (args : ServiceAgent.Args) (op : SvcAction C) : Prop where
  rsc : op.rsc = args.name
  agent : op.agent = args.agent.getD args.name
  provider : op.provider = some (args.provider.getD "heartbeat".toList)
  params : op.params = args.parameters
  exec : op.exec = ocfRoot ++ "/resource.d/".toList ++ args.provider.getD "heartbeat".toList ++
    '/' :: args.agent.getD args.name
  args : op.args = [op.exec, args.action]

theorem createdFor_invoke {asInt32 : Option ℕ → Option ℤ} {method : Text}
    {args : ServiceAgent.Args} {env : ServiceAgent.Environment} {request : ActionRequest}
    {rc : Option ℕ} {operations : ℕ} {op : SvcAction C}
    (hcall : ServiceAgent.demand asInt32 .resources method args env = .action .resources request rc)
    (hop : (resourcesActionCreate operations request).1 = some op)
    (hocf : strcasecmp "ocf".toList op.standard = true) : CreatedFor args op := by
  have hrequest := invokeResources_action hcall
  obtain ⟨interval, timeout, hrequest⟩ := hrequest
  have hcreated := resourcesActionCreate_some hop
  obtain ⟨-, command, hnew⟩ := hcreated
  have hstandard : strcasecmp request.standard "ocf".toList = true := by
    rw [hnew] at hocf
    unfold strcasecmp at hocf ⊢
    rw [beq_iff_eq] at hocf ⊢
    exact hocf.symm
  have hcommand := resourcesActionCreate_command hop
  unfold ActionRequest.command at hcommand
  rw [if_pos hstandard] at hcommand
  have hexec : _ = op.exec := congrArg Prod.fst (Option.some.inj hcommand)
  have hargs : _ = op.args := congrArg Prod.snd (Option.some.inj hcommand)
  have hprovider : op.provider = request.provider := by
    rw [hnew]
    exact if_pos hstandard
  have hparams : op.params = request.params := by
    rw [hnew]
    exact if_pos hstandard
  have hrsc : op.rsc = request.name := by rw [hnew]; rfl
  have hagent : op.agent = request.agent := by rw [hnew]; rfl
  refine ⟨?_, ?_, ?_, ?_, ?_, ?_⟩
  · rw [hrsc, hrequest]
  · rw [hagent, hrequest]
  · rw [hprovider, hrequest]
  · rw [hparams, hrequest]
  · rw [← hexec, hrequest]
    rfl
  · rw [← hargs, ← hexec, hrequest]

theorem agentEnvironment_child {args : ServiceAgent.Args} {op : SvcAction C}
    (h : CreatedFor args op) (hocf : strcasecmp "ocf".toList op.standard = true)
    {parameters : List (Text × Text)} (hparams : args.parameters = qmfMapToHash parameters)
    {walk : List (Text × Text)} (hwalk : walk.Perm op.params) (inherited : List (Text × Text)) :
    AgentEnvironment args parameters inherited (addOCFEnvVars op walk inherited) := by
  have hset : ∀ kv ∈ fixedVariables op,
      getenv (addOCFEnvVars op walk inherited) kv.1 = some kv.2 := fun _ hkv =>
    getenv_fixedVariable hocf walk inherited hkv
  have hfixed : fixedVariables op =
      [("OCF_RA_VERSION_MAJOR".toList, "1".toList), ("OCF_RA_VERSION_MINOR".toList, "0".toList),
        ("OCF_ROOT".toList, ocfRoot), ("OCF_RESOURCE_INSTANCE".toList, args.name),
        ("OCF_RESOURCE_TYPE".toList, args.agent.getD args.name),
        ("OCF_RESOURCE_PROVIDER".toList, args.provider.getD "heartbeat".toList)] := by
    unfold fixedVariables
    rw [h.rsc, h.agent, h.provider]
    rfl
  rw [hfixed] at hset
  simp only [List.forall_mem_cons] at hset
  obtain ⟨hmajor, hminor, hroot, hname, htype, hprovider, -⟩ := hset
  refine ⟨?_, hmajor, hminor, hroot, hname, htype, hprovider, ?_⟩
  · intro before key value after hsplit hlast hshort heq
    have hmap : op.params = qmfMapToHash (before ++ (key, value) :: after) := by
      rw [h.params, hparams, hsplit]
    exact getenv_parameter hocf hlast hmap hshort heq hwalk inherited
  · intro name hprefix hnot
    have hinherited : LastWrite.last reskeyWrite walk name = none := by
      apply LastWrite.last_eq_none
      intro kv _
      cases hwrite : reskeyWrite kv name with
      | none => rfl
      | some value =>
        have hvariable := (reskeyWrite_eq_some.mp hwrite).1.2
        rw [reskeyVariable_eq] at hvariable
        apply absurd _ hprefix
        rw [← hvariable, List.isPrefixOf_iff_prefix]
        exact List.prefix_append reskey _
    have hnotFixed : ∀ kv ∈ fixedVariables op, kv.1 ≠ name := by
      intro kv hkv heq
      apply hnot
      rw [← heq]
      exact (fixedVariables_names op).subset (List.mem_map_of_mem hkv)
    rw [getenv_of_not_fixed hocf _ _ hnotFixed, hinherited, Option.none_or]

/-- Whatever the order in which the table of its parameters is walked, an OCF action of a call of
`invoke` executes the agent that the call names with the environment that it describes, or exits
with the code for the error. -/
theorem invoked_agent_environment (asInt32 : Option ℕ → Option ℤ) (method : Text)
    (args : ServiceAgent.Args) (env : ServiceAgent.Environment) (request : ActionRequest)
    (rc : Option ℕ) (operations : ℕ) (op : SvcAction C) (parameters : List (Text × Text))
    (hcall : ServiceAgent.demand asInt32 .resources method args env = .action .resources request rc)
    (hop : (resourcesActionCreate operations request).1 = some op)
    (hocf : strcasecmp "ocf".toList op.standard = true)
    (hparams : args.parameters = qmfMapToHash parameters) :
    ∀ walk, walk.Perm op.params → ∀ inherited execvp, ∃ child,
      AgentEnvironment args parameters inherited child ∧
      let file := ocfRoot ++ "/resource.d/".toList ++ args.provider.getD "heartbeat".toList ++
        '/' :: args.agent.getD args.name
      actionChild execvp op walk inherited =
        match execvp file [file, args.action] with
        | none => .executes file [file, args.action] child
        | some errno => .exits (execRc errno) := by
  intro walk hwalk inherited execvp
  have hcreated := createdFor_invoke hcall hop hocf
  refine ⟨addOCFEnvVars op walk inherited,
    agentEnvironment_child hcreated hocf hparams hwalk inherited, ?_⟩
  unfold actionChild
  rw [hcreated.args, hcreated.exec]

theorem invoked_agent_environment_ip :
    ∃ op : SvcAction Unit,
      (resourcesActionCreate 0 (startIpRequest [("ip".toList, "10.0.0.1".toList)])).1 = some op ∧
      ∃ child, AgentEnvironment (startIp [("ip".toList, "10.0.0.1".toList)])
          [("ip".toList, "10.0.0.1".toList)] [] child ∧
        actionChild (fun _ _ => none) op op.params [] =
          .executes "/usr/lib/ocf/resource.d/heartbeat/IPaddr2".toList
            ["/usr/lib/ocf/resource.d/heartbeat/IPaddr2".toList, "start".toList] child := by
  refine ⟨_, rfl, ?_⟩
  exact invoked_agent_environment (fun value => value.map Int.ofNat) "invoke".toList
    (startIp [("ip".toList, "10.0.0.1".toList)]) ⟨false, [], none⟩ _ none 0 _ _ rfl rfl rfl rfl _
    (List.Perm.refl _) [] fun _ _ => none

end Matahari.Services
