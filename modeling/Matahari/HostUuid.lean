import Matahari.HostLinux
import Matahari.Utilities
import Matahari.ServicesAction

set_option autoImplicit false

/-!
# The UUIDs of a host

`mh_host_get_uuid` of `host.c` keeps what it has found in static variables, one for each
lifetime. The UUIDs come from files that the agents of a host share, from `dmidecode`, from EC2
or from `uuid_generate`.
-/
namespace Matahari.Host.Uuids
open Mainloop Utilities Services

/-! ## Files -/

/-- A file that exists may be one that cannot be read, for the reason given. -/
inductive FileState where
  | missing
  | unreadable (message : Text)
  | contents (text : Text)

def firstLine (buffer : Text) : Text := buffer.takeWhile fun c => c ≠ '\n' ∧ c ≠ nul

def mhFileFirstLine : FileState → Option Text
  | .missing => none
  | .unreadable message => some (firstLine message)
  | .contents text => some (firstLine text)

structure Files where
  machineId : FileState
  dbusMachineId : FileState
  customMachineId : FileState
  matahariRebootId : FileState

/-! ## `host_os_machine_uuid` -/

def isRegexSpace (c : Char) : Bool := c ∈ [' ', '\t', '\n', '\r', '\x0c']

def uuidLabel : Text := "UUID:".toList

/-- What starts with the group of `\s+UUID:\s+(.*)`. The space before the label is the last one
of those that match, and the spaces after it are as many as there are. -/
def matchUuid : Text → Option Text
  | [] => none
  | c :: line =>
    let rest := line.drop uuidLabel.length
    if isRegexSpace c ∧ uuidLabel.isPrefixOf line ∧ (rest.head?.any isRegexSpace) then
      some (rest.dropWhile isRegexSpace)
    else matchUuid line

/-- A line that has the label between spaces, and `value` after them. -/
def HasUuid (line value : Text) : Prop :=
  ∃ pre c w spaces, line = pre ++ c :: (uuidLabel ++ w :: (spaces ++ value)) ∧
    isRegexSpace c = true ∧ isRegexSpace w = true ∧ (∀ d ∈ spaces, isRegexSpace d = true) ∧
    value.head?.any isRegexSpace = false

theorem matchUuid_hasUuid {line value : Text} (h : matchUuid line = some value) :
    HasUuid line value := by
  induction line with
  | nil => cases h
  | cons c line ih =>
    unfold matchUuid at h
    dsimp only at h
    split at h
    · rename_i hmatch
      obtain ⟨hc, hlabel, hspace⟩ := hmatch
      obtain ⟨rest, rfl⟩ := List.isPrefixOf_iff_prefix.mp hlabel
      rw [List.drop_left] at h hspace
      obtain ⟨w, hw, hwspace⟩ := Option.any_eq_true _ _ |>.mp hspace
      obtain ⟨rest, rfl⟩ := List.head?_eq_some_iff.mp hw
      rw [List.dropWhile_cons, if_pos hwspace] at h
      cases h
      refine ⟨[], c, w, rest.takeWhile isRegexSpace, ?_, hc, hwspace, ?_, ?_⟩
      · rw [List.takeWhile_append_dropWhile]
        rfl
      · exact fun d hd => List.mem_takeWhile_imp hd
      · cases hdrop : rest.dropWhile isRegexSpace with
        | nil => rfl
        | cons d more =>
          have hhead := List.head_dropWhile_not (p := isRegexSpace) (l := rest) (by rw [hdrop]; simp)
          simpa [hdrop] using hhead
    · obtain ⟨pre, c', w, spaces, hline, hrest⟩ := ih h
      exact ⟨c :: pre, c', w, spaces, by rw [hline]; rfl, hrest⟩

theorem matchUuid_isSome {line value : Text} (h : HasUuid line value) :
    (matchUuid line).isSome = true := by
  obtain ⟨pre, c, w, spaces, rfl, hc, hw, -, -⟩ := h
  induction pre with
  | nil =>
    have hmatch : isRegexSpace c = true ∧
        uuidLabel.isPrefixOf (uuidLabel ++ w :: (spaces ++ value)) = true ∧
        ((uuidLabel ++ w :: (spaces ++ value)).drop uuidLabel.length).head?.any isRegexSpace =
          true := by
      rw [List.drop_left]
      exact ⟨hc, List.isPrefixOf_iff_prefix.mpr (List.prefix_append _ _), hw⟩
    rw [List.nil_append, matchUuid, if_pos hmatch]
    rfl
  | cons d pre ih =>
    rw [List.cons_append, matchUuid]
    split
    · rfl
    · exact ih

def gStrsplit (max : ℕ) (output : Text) : List Text :=
  let pieces := output.splitOn '\n'
  if output = [] then []
  else if pieces.length ≤ max then pieces
  else pieces.take (max - 1) ++ [List.intercalate ['\n'] (pieces.drop (max - 1))]

def hostOsMachineUuid (output : Option Text) : Option Text :=
  output.bind fun output => (gStrsplit 256 output).findSome? matchUuid

/-! ## `host.c` -/

/-- The static variables of a process: of `mh_host_get_uuid`, `mh_os_uuid` and
`host_os_agent_uuid`. -/
structure Statics where
  immutableUuid : Option Text
  hardwareUuid : Option Text
  rebootUuid : Option Text
  agentUuid : Option Text
  customUuid : Option Text
  osUuid : Option Text
  osAgentUuid : Text

def Statics.init : Statics := ⟨none, none, none, none, none, none, []⟩

structure Answers where
  dmidecode : Option Text
  ec2 : Ec2Outcomes
  generated : Text

def asText (bytes : List UInt8) : Text := bytes.map fun b => Char.ofNat b.toNat

def mhOsUuid (f : Files) (st : Statics) : Option Text :=
  (st.osUuid.or (mhFileFirstLine f.machineId)).or (mhFileFirstLine f.dbusMachineId)

def mhUuid (f : Files) (st : Statics) : Text := (mhOsUuid f st).getD []

inductive Lifetime where
  | filesystem
  | hardware
  | reboot
  | agent
  | custom
  | unknown
  deriving DecidableEq, Repr

def lifetimeOf (lifetime : Option Text) : Lifetime :=
  match lifetime with
  | none | some [] => .filesystem
  | some s =>
    if strcasecmp "filesystem".toList s then .filesystem
    else if strcasecmp "hardware".toList s then .hardware
    else if strcasecmp "reboot".toList s then .reboot
    else if strcasecmp "agent".toList s then .agent
    else if strcasecmp "custom".toList s then .custom
    else .unknown

def shown (uuid : Option Text) : Text :=
  if uuid.all mhStrlenZero then "not-available".toList else uuid.getD []

/-! The branches of `mh_host_get_uuid`: what `uuid` is after the branch, and the variables. -/

def filesystemUuid (f : Files) (st : Statics) : Option Text × Statics :=
  match st.immutableUuid with
  | some uuid => (some uuid, st)
  | none =>
    (some (mhUuid f st),
      { st with immutableUuid := some (mhUuid f st), osUuid := mhOsUuid f st })

def hardwareUuid (a : Answers) (st : Statics) : Option Text × Statics :=
  let uuid := (st.hardwareUuid.or (hostOsMachineUuid a.dmidecode)).or
    ((hostOsEc2InstanceId a.ec2).map asText)
  (uuid, { st with hardwareUuid := uuid })

def agentUuid (a : Answers) (st : Statics) : Option Text × Statics :=
  match st.agentUuid with
  | some uuid => (some uuid, st)
  | none =>
    let buffer := if mhStrlenZero st.osAgentUuid then a.generated else st.osAgentUuid
    (some buffer, { st with agentUuid := some buffer, osAgentUuid := buffer })

def customUuid (f : Files) (st : Statics) : Option Text × Statics :=
  let uuid := st.customUuid.or (mhFileFirstLine f.customMachineId)
  (uuid, { st with customUuid := uuid })

inductive Found where
  | answer (uuid : Text)
  | generated (uuid : Text)

/-- `mh_host_get_uuid`, up to the call of `g_file_set_contents` in `host_os_reboot_uuid`, if
it is reached. -/
def mhHostGetUuid (f : Files) (a : Answers) (lifetime : Option Text) (st : Statics) :
    Found × Statics :=
  match lifetimeOf lifetime with
  | .filesystem => (filesystemUuid f st).map (.answer ∘ shown) id
  | .hardware => (hardwareUuid a st).map (.answer ∘ shown) id
  | .reboot => match st.rebootUuid.or (mhFileFirstLine f.matahariRebootId) with
    | some uuid => (.answer (shown (some uuid)), { st with rebootUuid := some uuid })
    | none => (.generated a.generated, st)
  | .agent => (agentUuid a st).map (.answer ∘ shown) id
  | .custom => (customUuid f st).map (.answer ∘ shown) id
  | .unknown => (.answer "invalid-lifetime".toList, st)

abbrev WriteResult := Option (ℕ × Text)

def gFileSetContents (file : FileState) (text : Text) (result : WriteResult) : FileState :=
  if result.isNone then .contents text else file

def writeRebootUuid (f : Files) (uuid : Text) (result : WriteResult) (st : Statics) :
    Text × Files × Statics :=
  let uuid' := result.elim uuid Prod.snd
  (shown (some uuid'),
    { f with matahariRebootId := gFileSetContents f.matahariRebootId uuid result },
    { st with rebootUuid := some uuid' })

def isCustom : Option Text → Bool
  | none | some [] => false
  | some lifetime => strcasecmp "custom".toList lifetime

def G_FILE_ERROR_NOSYS : ℕ := 23

def hostOsSetCustomUuid (f : Files) (uuid : Option Text) (result : WriteResult) : ℕ × Files :=
  (result.elim 0 Prod.fst,
    { f with customMachineId := gFileSetContents f.customMachineId (uuid.getD []) result })

def rereadCustomUuid (f : Files) (st : Statics) : Statics :=
  { st with customUuid := mhFileFirstLine f.customMachineId }

/-! ## What the variables hold -/

def Statics.found (st : Statics) : Lifetime → Option Text
  | .filesystem => st.immutableUuid
  | .hardware => st.hardwareUuid
  | .reboot => st.rebootUuid
  | .agent => st.agentUuid
  | .custom => st.customUuid
  | .unknown => some "invalid-lifetime".toList

def notAvailable : Text := "not-available".toList

theorem isCustom_iff (lifetime : Option Text) :
    isCustom lifetime = true ↔ lifetimeOf lifetime = .custom := by
  unfold isCustom lifetimeOf
  split
  · simp
  · simp
  · rename_i s _
    have hexclusive : ∀ t, strcasecmp t s = true → strcasecmp "custom".toList s = true →
        t.map Char.toLower = "custom".toList.map Char.toLower := by
      intro t ht hs
      exact (eq_of_beq ht).trans (eq_of_beq hs).symm
    constructor
    · intro hs
      rw [if_neg fun ht => absurd (hexclusive _ ht hs) (by decide),
        if_neg fun ht => absurd (hexclusive _ ht hs) (by decide),
        if_neg fun ht => absurd (hexclusive _ ht hs) (by decide),
        if_neg fun ht => absurd (hexclusive _ ht hs) (by decide), if_pos hs]
    · intro h
      split_ifs at h
      assumption

theorem found_filesystem {f : Files} {st : Statics} {l : Lifetime} {uuid : Text}
    (h : st.found l = some uuid) : (filesystemUuid f st).2.found l = some uuid := by
  unfold filesystemUuid
  cases himmutable : st.immutableUuid with
  | some found => exact h
  | none =>
    cases l with
    | filesystem => exact absurd (himmutable.symm.trans h) (by simp)
    | _ => exact h

theorem found_hardware {a : Answers} {st : Statics} {l : Lifetime} {uuid : Text}
    (h : st.found l = some uuid) : (hardwareUuid a st).2.found l = some uuid := by
  cases l with
  | hardware =>
    change ((st.hardwareUuid.or _).or _) = _
    rw [show st.hardwareUuid = some uuid from h]
    rfl
  | _ => exact h

theorem found_agent {a : Answers} {st : Statics} {l : Lifetime} {uuid : Text}
    (h : st.found l = some uuid) : (agentUuid a st).2.found l = some uuid := by
  unfold agentUuid
  cases hagent : st.agentUuid with
  | some found => exact h
  | none =>
    cases l with
    | agent => exact absurd (hagent.symm.trans h) (by simp)
    | _ => exact h

theorem found_custom {f : Files} {st : Statics} {l : Lifetime} {uuid : Text}
    (h : st.found l = some uuid) : (customUuid f st).2.found l = some uuid := by
  cases l with
  | custom =>
    change st.customUuid.or _ = _
    rw [show st.customUuid = some uuid from h]
    rfl
  | _ => exact h

/-- What a process has found stays. -/
theorem found_of_get {f : Files} {a : Answers} {lifetime : Option Text} {st : Statics}
    {l : Lifetime} {uuid : Text} (h : st.found l = some uuid) :
    (mhHostGetUuid f a lifetime st).2.found l = some uuid := by
  unfold mhHostGetUuid
  split
  · exact found_filesystem h
  · exact found_hardware h
  · split
    · rename_i found hfound
      cases l with
      | reboot =>
        rw [show st.rebootUuid = some uuid from h] at hfound
        exact hfound.symm
      | _ => exact h
    · exact h
  · exact found_agent h
  · exact found_custom h
  · exact h

theorem filesystemUuid_fst (f : Files) (st : Statics) :
    (filesystemUuid f st).1 = (filesystemUuid f st).2.immutableUuid := by
  unfold filesystemUuid
  cases himmutable : st.immutableUuid with
  | some found => exact himmutable.symm
  | none => rfl

theorem agentUuid_fst (a : Answers) (st : Statics) :
    (agentUuid a st).1 = (agentUuid a st).2.agentUuid := by
  unfold agentUuid
  cases hagent : st.agentUuid with
  | some found => exact hagent.symm
  | none => rfl

@[simp] theorem filesystemUuid_rebootUuid (f : Files) (st : Statics) :
    (filesystemUuid f st).2.rebootUuid = st.rebootUuid := by
  unfold filesystemUuid
  cases st.immutableUuid <;> rfl

@[simp] theorem agentUuid_rebootUuid (a : Answers) (st : Statics) :
    (agentUuid a st).2.rebootUuid = st.rebootUuid := by
  unfold agentUuid
  cases st.agentUuid <;> rfl

/-- An answer is what has been found. -/
theorem get_answer {f : Files} {a : Answers} {lifetime : Option Text} {st : Statics} {uuid : Text}
    (h : (mhHostGetUuid f a lifetime st).1 = .answer uuid) :
    uuid = shown ((mhHostGetUuid f a lifetime st).2.found (lifetimeOf lifetime)) := by
  unfold mhHostGetUuid at h ⊢
  cases hl : lifetimeOf lifetime with
  | filesystem =>
    simp only [hl, Prod.map_fst, Function.comp_apply, Found.answer.injEq] at h
    exact h.symm.trans (congrArg shown (filesystemUuid_fst f st))
  | hardware =>
    simp only [hl, Prod.map_fst, Function.comp_apply, Found.answer.injEq] at h
    exact h.symm
  | reboot =>
    simp only [hl] at h ⊢
    split at h
    · cases h
      rfl
    · cases h
  | agent =>
    simp only [hl, Prod.map_fst, Function.comp_apply, Found.answer.injEq] at h
    exact h.symm.trans (congrArg shown (agentUuid_fst a st))
  | custom =>
    simp only [hl, Prod.map_fst, Function.comp_apply, Found.answer.injEq] at h
    exact h.symm
  | unknown =>
    simp only [hl, Found.answer.injEq] at h
    exact h.symm

@[simp] theorem filesystemUuid_customUuid (f : Files) (st : Statics) :
    (filesystemUuid f st).2.customUuid = st.customUuid := by
  unfold filesystemUuid
  cases st.immutableUuid <;> rfl

@[simp] theorem agentUuid_customUuid (a : Answers) (st : Statics) :
    (agentUuid a st).2.customUuid = st.customUuid := by
  unfold agentUuid
  cases st.agentUuid <;> rfl

theorem customUuid_of_get (f : Files) (a : Answers) (lifetime : Option Text) (st : Statics) :
    (mhHostGetUuid f a lifetime st).2.customUuid.or (mhFileFirstLine f.customMachineId) =
      st.customUuid.or (mhFileFirstLine f.customMachineId) := by
  unfold mhHostGetUuid
  cases hl : lifetimeOf lifetime with
  | filesystem => simp only [Prod.map_snd, id_eq, filesystemUuid_customUuid]
  | agent => simp only [Prod.map_snd, id_eq, agentUuid_customUuid]
  | reboot =>
    simp only
    cases st.rebootUuid.or (mhFileFirstLine f.matahariRebootId) <;> rfl
  | custom =>
    change (st.customUuid.or _).or _ = _
    rw [Option.or_assoc, Option.or_self]
  | hardware => rfl
  | unknown => rfl

theorem customUuid_of_answer {f : Files} {a : Answers} {lifetime : Option Text} {st : Statics}
    {uuid : Text} (hl : lifetimeOf lifetime = .custom)
    (h : (mhHostGetUuid f a lifetime st).1 = .answer uuid) :
    uuid = shown (st.customUuid.or (mhFileFirstLine f.customMachineId)) := by
  rw [get_answer h]
  unfold mhHostGetUuid
  simp only [hl]
  rfl

theorem rebootUuid_of_get {f : Files} {a : Answers} {lifetime : Option Text} {st : Statics}
    {uuid : Text} (h : (mhHostGetUuid f a lifetime st).2.rebootUuid = some uuid) :
    st.rebootUuid = some uuid ∨ mhFileFirstLine f.matahariRebootId = some uuid := by
  unfold mhHostGetUuid at h
  cases hl : lifetimeOf lifetime with
  | reboot =>
    simp only [hl] at h
    cases hfound : st.rebootUuid.or (mhFileFirstLine f.matahariRebootId) with
    | some found =>
      rw [hfound] at h
      cases h
      exact (Option.or_eq_some_iff.mp hfound).imp id And.right
    | none =>
      rw [hfound] at h
      exact .inl h
  | filesystem =>
    simp only [hl, Prod.map_snd, id_eq, filesystemUuid_rebootUuid] at h
    exact .inl h
  | agent =>
    simp only [hl, Prod.map_snd, id_eq, agentUuid_rebootUuid] at h
    exact .inl h
  | _ =>
    simp only [hl] at h
    exact .inl h

theorem rebootUuid_of_answer {f : Files} {a : Answers} {lifetime : Option Text} {st : Statics}
    {uuid : Text} (hl : lifetimeOf lifetime = .reboot)
    (h : (mhHostGetUuid f a lifetime st).1 = .answer uuid) :
    ∃ w, (mhHostGetUuid f a lifetime st).2.rebootUuid = some w := by
  unfold mhHostGetUuid at h ⊢
  simp only [hl] at h ⊢
  cases hfound : st.rebootUuid.or (mhFileFirstLine f.matahariRebootId) with
  | some found => exact ⟨found, rfl⟩
  | none =>
    rw [hfound] at h
    cases h

/-- Only for the lifetime until the next boot something is generated that has to be written. -/
theorem get_generated {f : Files} {a : Answers} {lifetime : Option Text} {st : Statics}
    {uuid : Text} (h : (mhHostGetUuid f a lifetime st).1 = .generated uuid) :
    lifetimeOf lifetime = .reboot ∧ st.rebootUuid = none ∧
      mhFileFirstLine f.matahariRebootId = none ∧ uuid = a.generated ∧
      (mhHostGetUuid f a lifetime st).2 = st := by
  unfold mhHostGetUuid at h ⊢
  cases hl : lifetimeOf lifetime with
  | reboot =>
    simp only [hl] at h ⊢
    cases hfound : st.rebootUuid.or (mhFileFirstLine f.matahariRebootId) with
    | some found =>
      rw [hfound] at h
      cases h
    | none =>
      rw [hfound] at h
      cases h
      obtain ⟨hnone, hmissing⟩ := Option.or_eq_none_iff.mp hfound
      exact ⟨trivial, hnone, hmissing, rfl, rfl⟩
  | _ =>
    simp only [hl] at h
    cases h

end Matahari.Host.Uuids
