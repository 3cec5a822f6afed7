import Matahari.Library.Lines
import Matahari.Utilities

set_option autoImplicit false

/-!
# Services of systemd

`resources_os_list_systemd_services` reads the names of the services from the output of
`systemctl list-units`. It goes from line break to line break and takes what stands before the
next `.service`, which may be on a later line.
-/
namespace Matahari.Services
open Mainloop Utilities Lines

def serviceSuffix : Text := ".service".toList

def systemdLoop (stdoutData : Text) : ℕ → ℕ → List Text → Option (List Text)
  | 0, _, _ => none
  | fuel + 1, ptr, list =>
    match strchr '\n' stdoutData ptr with
    | none => some list
    | some newline =>
      let ptr := newline + 1
      match strstr serviceSuffix stdoutData ptr with
      | none => some list
      | some stop =>
        let len := stop - ptr
        systemdLoop stdoutData fuel ptr (list ++ [copyToArray (len + 1) (stdoutData.drop ptr)])

/-- `stdout_data` is `NULL` until something was read. -/
def stdoutDataOf (output : CString) : Option Text :=
  if output.1 = [] then none else some output.1

/-- The two calls may fail. `strchr` of `NULL` is undefined. -/
def resourcesOsListSystemdServices (actionCreate actionSync : Bool) (output : CString) :
    Option (List Text) :=
  if !actionCreate then some []
  else if !actionSync then some []
  else (stdoutDataOf output).bind fun text => systemdLoop text (text.length + 1) 0 []

/-! ## What a line holds -/

def serviceName (line : Text) : Option Text := (infixIdx serviceSuffix line).map line.take

def unitLines (output : Text) : List Text := (output.splitOn '\n').tail

def serviceNames (output : Text) : List Text := (unitLines output).filterMap serviceName

/-- No line that holds a service comes after one that holds none. -/
def ServicesFirst (lines : List Text) : Prop :=
  lines.Pairwise fun a b => (serviceName b).isSome = true → (serviceName a).isSome = true

def found : List Text → List Text
  | [] => []
  | line :: lines =>
    match serviceName (line ++ following '\n' lines) with
    | none => []
    | some name => name :: found lines

section
variable {line : Text} {lines : List Text}

theorem serviceName_append (line rest : Text) :
    serviceName (line ++ '\n' :: rest) =
      (serviceName line).or ((serviceName rest).map fun name => line ++ '\n' :: name) := by
  unfold serviceName
  rw [infixIdx_append_cons (by decide) (by decide)]
  cases hline : infixIdx serviceSuffix line with
  | some k =>
    have hle := infixIdx_le hline
    simp only [Option.some_or, Option.map_some, List.take_append_of_le_length hle]
  | none =>
    simp only [Option.none_or, Option.map_none, Option.map_map]
    congr 1
    funext k
    simp only [Function.comp_apply, Nat.add_assoc, List.take_length_add_append, Nat.add_comm 1 k,
      List.take_succ_cons]

theorem serviceName_here {name : Text} (h : serviceName line = some name) (lines : List Text) :
    serviceName (line ++ following '\n' lines) = some name := by
  cases lines with
  | nil => rwa [following, List.flatMap_nil, List.append_nil]
  | cons l ls =>
    rw [following, List.flatMap_cons, List.cons_append, serviceName_append, h, Option.some_or]

theorem serviceName_none (h : serviceName line = none)
    (hlines : ∀ l ∈ lines, serviceName l = none) :
    serviceName (line ++ following '\n' lines) = none := by
  induction lines generalizing line with
  | nil => rwa [following, List.flatMap_nil, List.append_nil]
  | cons l ls ih =>
    rw [List.forall_mem_cons] at hlines
    have hrest := ih hlines.1 hlines.2
    rw [following] at hrest ⊢
    rw [List.flatMap_cons, List.cons_append, serviceName_append, h, hrest]
    rfl

/-- The name on a later line comes with all that stands between. -/
theorem serviceName_later (h : serviceName line = none)
    (hlines : ∃ l ∈ lines, (serviceName l).isSome = true) :
    ∃ rest, serviceName (line ++ following '\n' lines) = some (line ++ '\n' :: rest) := by
  induction lines generalizing line with
  | nil =>
    obtain ⟨l, hl, -⟩ := hlines
    cases hl
  | cons l ls ih =>
    have hsome : ∃ name, serviceName (l ++ following '\n' ls) = some name := by
      cases hl : serviceName l with
      | some name => exact ⟨name, serviceName_here hl ls⟩
      | none =>
        obtain ⟨m, hm, hservice⟩ := hlines
        rcases List.mem_cons.mp hm with rfl | hm
        · rw [hl] at hservice
          cases hservice
        · obtain ⟨rest, hrest⟩ := ih hl ⟨m, hm, hservice⟩
          exact ⟨_, hrest⟩
    obtain ⟨name, hname⟩ := hsome
    rw [following] at hname ⊢
    refine ⟨name, ?_⟩
    rw [List.flatMap_cons, List.cons_append, serviceName_append, h, hname]
    rfl

theorem newline_notMem_serviceName {name : Text} (hline : '\n' ∉ line)
    (h : serviceName line = some name) : '\n' ∉ name := by
  obtain ⟨k, -, rfl⟩ := Option.map_eq_some_iff.mp h
  exact fun hmem => hline (List.mem_of_mem_take hmem)

theorem found_iff (hlines : ∀ l ∈ lines, '\n' ∉ l) :
    found lines = lines.filterMap serviceName ↔ ServicesFirst lines := by
  induction lines with
  | nil => simp [found, ServicesFirst]
  | cons l ls ih =>
    rw [List.forall_mem_cons] at hlines
    have ih := ih hlines.2
    cases hl : serviceName l with
    | some name =>
      rw [found, serviceName_here hl, List.filterMap_cons_some hl, List.cons_inj_right, ih,
        ServicesFirst, ServicesFirst, List.pairwise_cons, and_iff_right]
      intro m _ _
      rw [hl]
      rfl
    | none =>
      rw [List.filterMap_cons_none hl]
      by_cases hlater : ∃ m ∈ ls, (serviceName m).isSome = true
      · -- the first name that is found is not of one line
        obtain ⟨rest, hrest⟩ := serviceName_later hl hlater
        rw [found, hrest]
        obtain ⟨m, hm, hservice⟩ := hlater
        constructor
        · intro heq
          have hmem : l ++ '\n' :: rest ∈ ls.filterMap serviceName := heq ▸ List.mem_cons_self
          obtain ⟨m', hm', hname⟩ := List.mem_filterMap.mp hmem
          exact absurd (by simp) (newline_notMem_serviceName (hlines.2 m' hm') hname)
        · intro hfirst
          have := (List.pairwise_cons.mp hfirst).1 m hm hservice
          rw [hl] at this
          cases this
      · have hnone : ∀ m ∈ ls, serviceName m = none := by
          intro m hm
          by_contra hsome
          exact hlater ⟨m, hm, Option.isSome_iff_ne_none.mpr hsome⟩
        rw [found, serviceName_none hl hnone, List.filterMap_eq_nil_iff.mpr hnone]
        simp only [true_iff]
        refine List.pairwise_cons.mpr ⟨?_, List.pairwise_of_forall_mem_list ?_⟩
        · intro m hm hservice
          rw [hnone m hm] at hservice
          cases hservice
        · intro a _ b hb hservice
          rw [hnone b hb] at hservice
          cases hservice

/-- The loop goes over the lines. -/
theorem systemdLoop_eq {text done : Text} (htext : text = done ++ (line ++ following '\n' lines))
    (hnul : nul ∉ text) (hline : ∀ l ∈ line :: lines, '\n' ∉ l) {fuel : ℕ}
    (hfuel : lines.length < fuel) (list : List Text) :
    systemdLoop text fuel done.length list = some (list ++ found lines) := by
  induction lines generalizing line done fuel list with
  | nil =>
    cases fuel with
    | zero => cases hfuel
    | succ fuel =>
      rw [following, List.flatMap_nil, List.append_nil] at htext
      have hstop : strchr '\n' text done.length = none := by
        rw [htext]
        exact strchr_eq_none (hline line List.mem_cons_self)
      simp only [systemdLoop, hstop, found, List.append_nil]
  | cons l ls ih =>
    cases fuel with
    | zero => cases hfuel
    | succ fuel =>
      have hbreak : strchr '\n' text done.length = some (done.length + line.length) := by
        rw [htext, following, List.flatMap_cons, List.cons_append]
        exact strchr_append (hline line List.mem_cons_self)
      have htext' : text = (done ++ line ++ ['\n']) ++ (l ++ following '\n' ls) := by
        rw [htext]
        simp [following]
      have hptr : done.length + line.length + 1 = (done ++ line ++ ['\n']).length := by
        simp only [List.length_append, List.length_singleton]
      have hfind : strstr serviceSuffix text (done ++ line ++ ['\n']).length =
          (infixIdx serviceSuffix (l ++ following '\n' ls)).map
            ((done ++ line ++ ['\n']).length + ·) := by
        rw [htext']
        exact strstr_append _ _ _
      simp only [systemdLoop, hbreak, hptr, hfind]
      cases hidx : infixIdx serviceSuffix (l ++ following '\n' ls) with
      | none =>
        have hname : serviceName (l ++ following '\n' ls) = none := by rw [serviceName, hidx]; rfl
        simp only [Option.map_none, found, hname, List.append_nil]
      | some k =>
        have hname : serviceName (l ++ following '\n' ls) =
            some ((l ++ following '\n' ls).take k) := by rw [serviceName, hidx]; rfl
        have hdrop : text.drop (done ++ line ++ ['\n']).length = l ++ following '\n' ls := by
          rw [htext', List.drop_left]
        have hcopy : copyToArray (k + 1) (l ++ following '\n' ls) =
            (l ++ following '\n' ls).take k := by
          apply copyToArray_eq (Nat.succ_pos k)
          exact fun hmem => hnul (htext' ▸ List.mem_append_right _ hmem)
        simp only [Option.map_some, Nat.add_sub_cancel_left, hdrop, hcopy]
        rw [ih htext' (fun m hm => hline m (List.mem_cons_of_mem _ hm))
          (by rw [List.length_cons] at hfuel; omega)]
        simp only [found, hname, List.append_assoc, List.singleton_append]

end

/-- The names are those of the lines after the first if there is output, and if no line
without a service comes before one with a service. -/
theorem systemd_services_iff (output : CString) :
    resourcesOsListSystemdServices true true output = some (serviceNames output.1) ↔
      output.1 ≠ [] ∧ ServicesFirst (unitLines output.1) := by
  unfold resourcesOsListSystemdServices stdoutDataOf
  by_cases hempty : output.1 = []
  · simp [hempty]
  · obtain ⟨l, ls, hsplit, htext, hno⟩ := splitOn_eq '\n' output.1
    have hfuel : ls.length < output.1.length + 1 := by
      have := length_following '\n' ls
      rw [htext, List.length_append]
      omega
    have hstart : output.1 = [] ++ (l ++ following '\n' ls) := htext
    have hloop := systemdLoop_eq hstart output.2 hno hfuel []
    have htail : unitLines output.1 = ls := by rw [unitLines, hsplit]; rfl
    rw [List.length_nil, List.nil_append] at hloop
    rw [if_neg hempty, Option.bind_some, serviceNames, htail]
    simp only [Bool.not_true, Bool.false_eq_true, if_false, hloop, Option.some_inj,
      found_iff (List.forall_mem_cons.mp hno).2]
    exact (and_iff_right hempty).symm

def mixedUnits : CString :=
  ⟨"UNIT\nboot.mount loaded\nsshd.service loaded\n".toList, by decide⟩

/-- The name of `sshd` is found twice, and the first time it begins with the line before. No
output at all is a null pointer. -/
theorem systemd_services_wrong :
    resourcesOsListSystemdServices true true mixedUnits =
        some ["boot.mount loaded\nsshd".toList, "sshd".toList] ∧
      serviceNames mixedUnits.1 = ["sshd".toList] ∧
      resourcesOsListSystemdServices true true ⟨[], List.not_mem_nil⟩ = none := by
  decide

end Matahari.Services
