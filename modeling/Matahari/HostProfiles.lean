import Matahari.Library.Lines
import Matahari.SysconfigKeys

set_option autoImplicit false

/-!
# Power profiles

`host_os_list_power_profiles` reads the names of the profiles from the output of
`tuned-adm list`, and `host_os_set_power_profile` asks `tuned-adm` for one of them.
-/
namespace Matahari.Host
open Mainloop Utilities Sysconfig Lines

def taOff : Text := "off".toList
def taSetprofile : Text := "profile".toList
def tunedadm : Text := "/usr/bin/tuned-adm".toList

/-- What `exec_command` comes to; the output is `NULL` if it cannot be read. -/
structure CommandOutcome where
  res : MhResult
  stdoutbuf : Option CString

structure ProfileScan where
  c1 : ℕ
  list : List Text
  more : Bool
  deriving DecidableEq, Repr

def charAt (text : Text) (i : ℕ) : Option Char := (text ++ [nul])[i]?

def between (text : Text) (c1 c2 : ℕ) : Text := (text.drop c1).take (c2 - c1)

def profilesTurn (stdoutbuf : Text) (s : ProfileScan) : Option ProfileScan := do
  let c ← charAt stdoutbuf s.c1
  let len := stdoutbuf.length
  let profile := c = '-' ∧ s.c1 + 2 < len
  let c1 := if profile then s.c1 + 2 else s.c1
  match strchr '\n' stdoutbuf c1 with
  | some c2 =>
    let list := if profile ∧ c1 < c2 then s.list ++ [between stdoutbuf c1 c2] else s.list
    pure ⟨c2 + 1, list, decide (c2 + 1 < len)⟩
  | none => pure ⟨c1, s.list, false⟩

def profilesLoop (stdoutbuf : Text) : ℕ → ProfileScan → Option ProfileScan
  | 0, _ => none
  | fuel + 1, s => do
    let s ← profilesTurn stdoutbuf s
    if s.more then profilesLoop stdoutbuf fuel s else pure s

def hostOsListPowerProfiles (listing : CommandOutcome) : Option (List Text) :=
  if listing.res = .success then
    match listing.stdoutbuf with
    | none => some []
    | some text =>
      (profilesLoop text.1 (text.1.length + 1) ⟨0, [], true⟩).map fun s =>
        if s.list.length = 0 then [taOff] else s.list
  else some []

def checkProfile (listing : CommandOutcome) (profile : Text) : Option Bool :=
  (hostOsListPowerProfiles listing).map fun list => list.any (profile == ·)

/-- The result is the arguments with which `tuned-adm` is run, or the refusal. -/
def hostOsSetPowerProfile (listing : CommandOutcome) :
    Option Text → Option (Except MhResult (List Text))
  | none => some (.error .invalidArgs)
  | some profile =>
    if profile = taOff then some (.ok [tunedadm, taOff, profile])
    else (checkProfile listing profile).map fun known =>
      if known then .ok [tunedadm, taSetprofile, profile] else .error .invalidArgs

/-! ## What the lines say -/

def profileName (line : Text) : Option Text :=
  if "- ".toList <+: line ∧ line.drop 2 ≠ [] then some (line.drop 2) else none

def profileNames (lines : List Text) : List Text := lines.filterMap profileName

/-- A line without a break in it, in which a dash at the beginning has a space after it. -/
def ProfileLine (line : Text) : Prop :=
  '\n' ∉ line ∧ (line.head? = some '-' → "- ".toList <+: line)

instance : DecidablePred ProfileLine := fun line =>
  inferInstanceAs (Decidable ('\n' ∉ line ∧ (line.head? = some '-' → "- ".toList <+: line)))

section
variable {text done line rest : Text}

theorem charAt_append (done : Text) (c : Char) (rest : Text) :
    charAt (done ++ c :: rest) done.length = some c := by
  rw [charAt, List.append_assoc, List.cons_append, List.getElem?_append_right (le_refl _),
    Nat.sub_self]
  rfl

theorem between_append (done line rest : Text) :
    between (done ++ (line ++ rest)) done.length (done.length + line.length) = line := by
  rw [between, List.drop_left, Nat.add_sub_cancel_left, List.take_left]

theorem profileNames_cons (line : Text) (lines : List Text) :
    profileNames (line :: lines) = (profileName line).toList ++ profileNames lines := by
  rw [profileNames, List.filterMap_cons]
  cases profileName line with
  | none => rfl
  | some name => rfl

/-- A turn at the start of a line comes to the start of the next. -/
theorem profilesTurn_line (hline : ProfileLine line)
    (htext : text = done ++ (line ++ '\n' :: rest)) (list : List Text) (more : Bool) :
    profilesTurn text ⟨done.length, list, more⟩ =
      some ⟨(done ++ (line ++ ['\n'])).length, list ++ (profileName line).toList,
        decide (rest ≠ [])⟩ := by
  have hmore : (done.length + line.length + 1 < text.length) = (rest ≠ []) := by
    rw [htext, List.length_append, List.length_append, List.length_cons, ← List.length_pos_iff]
    exact propext (by omega)
  have hnext : (done ++ (line ++ ['\n'])).length = done.length + line.length + 1 := by
    rw [List.length_append, List.length_append, List.length_singleton, Nat.add_assoc]
  by_cases hdash : line.head? = some '-'
  · -- The dash and the space are skipped, and the rest of the line is the name.
    obtain ⟨name, rfl⟩ := hline.2 hdash
    have hname : '\n' ∉ name := fun hmem => hline.1 (List.mem_append_right _ hmem)
    have hchar : charAt text done.length = some '-' := by
      rw [htext]
      exact charAt_append done '-' _
    have hlt : done.length + 2 < text.length := by
      rw [htext]
      simp only [List.length_append, List.length_cons]
      have : "- ".toList.length = 2 := rfl
      omega
    have hstart : text = (done ++ "- ".toList) ++ (name ++ '\n' :: rest) := by
      rw [htext, List.append_assoc, List.append_assoc]
    have hat : (done ++ "- ".toList).length = done.length + 2 := List.length_append
    have hfind : strchr '\n' text (done.length + 2) = some (done.length + 2 + name.length) := by
      rw [hstart, ← hat]
      exact strchr_append hname
    have hbetween : between text (done.length + 2) (done.length + 2 + name.length) = name := by
      rw [hstart, ← hat]
      exact between_append _ _ _
    have hlen : ("- ".toList ++ name).length = 2 + name.length := List.length_append
    rw [hlen, ← Nat.add_assoc] at hmore hnext
    simp only [profilesTurn, hchar, hlt, hfind, hbetween, Option.bind_eq_bind, Option.bind_some,
      and_self, if_true, true_and, hmore, hnext]
    have hprof : profileName ("- ".toList ++ name) = if name ≠ [] then some name else none := by
      rw [profileName]
      have hdrop : ("- ".toList ++ name).drop 2 = name := rfl
      have hpre : "- ".toList <+: "- ".toList ++ name := List.prefix_append _ _
      simp only [hdrop, hpre, true_and]
    rw [hprof]
    cases name with
    | nil => simp
    | cons => simp
  · have hchar : ∃ c, charAt text done.length = some c ∧ c ≠ '-' := by
      cases line with
      | nil => exact ⟨'\n', by rw [htext]; exact charAt_append done '\n' rest, by decide⟩
      | cons c line =>
        refine ⟨c, by rw [htext]; exact charAt_append done c _, ?_⟩
        intro heq
        exact hdash (congrArg some heq)
    obtain ⟨c, hchar, hc⟩ := hchar
    have hfind : strchr '\n' text done.length = some (done.length + line.length) := by
      rw [htext]
      exact strchr_append hline.1
    have hprof : profileName line = none := by
      rw [profileName, if_neg]
      intro hboth
      obtain ⟨name, rfl⟩ := hboth.1
      exact hdash rfl
    simp only [profilesTurn, hchar, hc, hfind, Option.bind_eq_bind, Option.bind_some, false_and,
      if_false, hmore, hnext, hprof, Option.toList_none, List.append_nil]
    rfl

theorem profilesLoop_eq {lines : List Text} (hlines : ∀ l ∈ lines, ProfileLine l)
    (hne : lines ≠ []) (htext : text = done ++ unlines '\n' lines) {fuel : ℕ}
    (hfuel : lines.length ≤ fuel) (list : List Text) (more : Bool) :
    profilesLoop text fuel ⟨done.length, list, more⟩ =
      some ⟨text.length, list ++ profileNames lines, false⟩ := by
  induction lines generalizing done fuel list more with
  | nil => exact absurd rfl hne
  | cons line lines ih =>
    obtain ⟨hline, hlines⟩ := List.forall_mem_cons.mp hlines
    have htext' : text = done ++ (line ++ '\n' :: unlines '\n' lines) := by
      rw [htext, unlines, List.flatMap_cons, List.append_assoc, List.singleton_append, ← unlines]
    cases fuel with
    | zero => exact absurd hfuel (Nat.not_succ_le_zero _)
    | succ fuel =>
      rw [profilesLoop, profilesTurn_line hline htext']
      cases lines with
      | nil =>
        have hend : text = done ++ (line ++ ['\n']) := htext'
        rw [profileNames_cons, hend]
        exact congrArg (fun names => some (ProfileScan.mk _ (list ++ names) false))
          (List.append_nil _).symm
      | cons next lines =>
        have hmore : unlines '\n' (next :: lines) ≠ [] := by
          rw [unlines, List.flatMap_cons, List.append_assoc]
          exact List.append_ne_nil_of_right_ne_nil _ (List.cons_ne_nil _ _)
        have htext'' : text = (done ++ (line ++ ['\n'])) ++ unlines '\n' (next :: lines) := by
          rw [htext', List.append_assoc, List.append_assoc, List.singleton_append]
        have hstep := ih hlines (List.cons_ne_nil _ _) htext'' (Nat.le_of_succ_le_succ hfuel)
          (list ++ (profileName line).toList) true
        simp only [Option.bind_eq_bind, Option.bind_some, hmore, ne_eq, not_false_eq_true,
          decide_true, if_true]
        rw [hstep, profileNames_cons line, List.append_assoc]

end

/-- The list has the names on the lines that are those of a profile, or else `off`, and the
function that sets a profile takes `off` and these names. -/
theorem power_profiles (out : CString) (lines : List Text) (hout : out.1 = unlines '\n' lines)
    (hlines : ∀ l ∈ lines, ProfileLine l) :
    hostOsListPowerProfiles ⟨.success, some out⟩ =
        some (if profileNames lines = [] then [taOff] else profileNames lines) ∧
      ∀ profile, (∃ args, hostOsSetPowerProfile ⟨.success, some out⟩ (some profile) =
          some (.ok args)) ↔ profile = taOff ∨ profile ∈ profileNames lines := by
  have hlist : hostOsListPowerProfiles ⟨.success, some out⟩ =
      some (if profileNames lines = [] then [taOff] else profileNames lines) := by
    rw [hostOsListPowerProfiles, if_pos rfl]
    change (profilesLoop out.1 (out.1.length + 1) ⟨0, [], true⟩).map _ = _
    cases lines with
    | nil => rw [hout]; rfl
    | cons line lines =>
      have hfuel : (line :: lines).length ≤ out.1.length + 1 := by
        rw [hout]
        exact (length_unlines _ _).trans (Nat.le_succ _)
      have htext : out.1 = [] ++ unlines '\n' (line :: lines) := hout
      have hloop := profilesLoop_eq hlines (List.cons_ne_nil _ _) htext hfuel [] true
      rw [List.length_nil] at hloop
      rw [hloop, Option.map_some, List.nil_append]
      simp only [List.length_eq_zero_iff]
  refine ⟨hlist, fun profile => ?_⟩
  by_cases hoff : profile = taOff
  · simp [hostOsSetPowerProfile, hoff]
  · have hmem : profile ∈ (if profileNames lines = [] then [taOff] else profileNames lines) ↔
        profile ∈ profileNames lines := by
      split
      · rename_i hnone
        simp [hnone, hoff]
      · exact Iff.rfl
    simp only [hostOsSetPowerProfile, checkProfile, hlist, Option.map_some, hoff, false_or]
    rw [← hmem]
    by_cases hknown : profile ∈ (if profileNames lines = [] then [taOff] else profileNames lines)
    · simp [hknown]
    · simp [hknown]

theorem power_profiles_two :
    hostOsListPowerProfiles ⟨.success, some ⟨"Available:\n- a\n- \n- b c\n".toList, by decide⟩⟩ =
      some ["a".toList, "b c".toList] := by
  have h := power_profiles ⟨"Available:\n- a\n- \n- b c\n".toList, by decide⟩
    ["Available:".toList, "- a".toList, "- ".toList, "- b c".toList] (by decide) (by decide)
  exact h.1

end Matahari.Host
