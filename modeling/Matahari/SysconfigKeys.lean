import Matahari.Library.CallSimulation
import Matahari.Utilities

set_option autoImplicit false

/-!
# The keys of configuration runs

`sysconfig.c` keeps the status of a configuration run in a file that is named after its
key. The check of a key looks at a copy that is cut to the size of a path, while the name
of the file is made from the whole key and cut separately.
-/
namespace Matahari.Sysconfig
open Mainloop Utilities CallSimulation

inductive MhResult where
  | success
  | notImplemented
  | invalidArgs
  | downloadError
  | backendError
  | authenticationError
  | otherError
  deriving DecidableEq, Repr

def pathMax : ℕ := 4096

def defaultKeysDir : Text := "/var/lib/matahari/sysconfig-keys/".toList

def validChars : Text :=
  "0123456789abcdefghijklmnopqrstuvwxyzABCDEFGHIJKLMNOPQRSTUVWXYZ_-.".toList

structure Keys where
  keysDir : Text
  files : Text → Option Text

def keysDirGet (k : Keys) : Text :=
  if k.keysDir.isEmpty then copyToArray pathMax defaultKeysDir else k.keysDir

def mhSysconfigKeysDirSet (k : Keys) (path : Text) : Keys :=
  { k with keysDir := copyToArray pathMax path }

def gStrcanon (s valid : Text) (substitutor : Char) : Text :=
  s.map fun c => if c ∈ valid then c else substitutor

def checkKeySanity (key : Text) : Bool :=
  if mhStrlenZero key then false
  else if ['.'].isPrefixOf key then false
  else '!' ∉ gStrcanon (copyToArray pathMax key) validChars '!'

def keyFile (k : Keys) (key : Text) : Text := snprintf pathMax (keysDirGet k ++ key)

inductive WriteOutcome where
  | ok
  | mkdirFailed
  | writeFailed
  deriving DecidableEq, Repr

def setKey (k : Keys) (outcome : WriteOutcome) (key contents : Text) : MhResult × Keys :=
  if checkKeySanity key = false then (.invalidArgs, k)
  else match outcome with
    | .mkdirFailed | .writeFailed => (.otherError, k)
    | .ok => (.success, { k with files := Function.update k.files (keyFile k key) (some contents) })

def getKey (k : Keys) (key : Text) : Option Text :=
  if checkKeySanity key = false then none else k.files (keyFile k key)

def mhSysconfigSetConfigured := setKey

def mhSysconfigIsConfigured := getKey

/-! ## The two truncations -/

section
variable {k : Keys} {key : Text}

theorem bang_not_valid : '!' ∉ validChars := by decide

theorem mem_gStrcanon (s : Text) :
    '!' ∉ gStrcanon s validChars '!' ↔ ∀ c ∈ s, c ∈ validChars := by
  unfold gStrcanon
  rw [List.mem_map, not_exists]
  constructor
  · intro h c hc
    by_contra hbad
    exact h c ⟨hc, if_neg hbad⟩
  · rintro h c ⟨hc, heq⟩
    rw [if_pos (h c hc)] at heq
    exact bang_not_valid (heq ▸ h c hc)

/-- What the check accepts: only the first `PATH_MAX - 1` characters are looked at. -/
theorem checkKeySanity_iff (h : nul ∉ key) :
    checkKeySanity key = true ↔
      key ≠ [] ∧ key.head? ≠ some '.' ∧ ∀ c ∈ key.take (pathMax - 1), c ∈ validChars := by
  unfold checkKeySanity mhStrlenZero
  rw [copyToArray_eq (by decide) h]
  cases key with
  | nil => simp
  | cons c cs =>
    have hdot : (['.'].isPrefixOf (c :: cs) = true) ↔ c = '.' := by
      rw [List.isPrefixOf_iff_prefix, List.cons_prefix_cons]
      exact ⟨fun h => h.1.symm, fun h => ⟨h.symm, List.nil_prefix⟩⟩
    rw [if_neg (by simp), List.head?_cons]
    by_cases hc : c = '.'
    · rw [if_pos (hdot.mpr hc)]
      constructor
      · intro h
        cases h
      · rintro ⟨-, hhead, -⟩
        exact absurd (congrArg some hc) hhead
    · rw [if_neg (fun h => hc (hdot.mp h)), decide_eq_true_eq, mem_gStrcanon]
      constructor
      · intro h
        exact ⟨List.cons_ne_nil c cs, fun hsome => hc (Option.some.inj hsome), h⟩
      · intro h
        exact h.2.2

/-- A path that fits is the directory in use. -/
theorem keysDirGet_set {path : Text} (hpath : nul ∉ path) (hslash : path ≠ [])
    (hfits : path.length < pathMax) : keysDirGet (mhSysconfigKeysDirSet k path) = path := by
  unfold keysDirGet mhSysconfigKeysDirSet
  rw [copyToArray_eq (by decide) hpath, List.take_of_length_le (by omega), if_neg]
  simpa using hslash

/-- Cut or not, the file of an accepted key lies in the directory under a name of valid
characters: what the check does not see is cut off. -/
theorem keyFile_confined {dir : Text} (hdir : keysDirGet k = dir)
    (hfits : dir.length < pathMax) (hkey : nul ∉ key) (h : checkKeySanity key = true) :
    keyFile k key = dir ++ key.take (pathMax - 1 - dir.length) ∧
      ∀ c ∈ key.take (pathMax - 1 - dir.length), c ∈ validChars := by
  obtain ⟨-, -, hvalid⟩ := (checkKeySanity_iff hkey).mp h
  constructor
  · rw [keyFile, snprintf, hdir, List.take_append, List.take_of_length_le (by omega)]
  · intro c hc
    exact hvalid c ((List.take_sublist_take_left (by omega)).subset hc)

theorem length_keyFile_le (k : Keys) (key : Text) : (keyFile k key).length ≤ pathMax - 1 :=
  List.length_take_le _ _

theorem keyFile_eq (hfits : (keysDirGet k).length + key.length < pathMax) :
    keyFile k key = keysDirGet k ++ key := by
  rw [keyFile, snprintf, List.take_of_length_le]
  rw [List.length_append]
  omega

end

/-! ## A map from keys to contents -/

def ValidKey (key : Text) : Prop :=
  key ≠ [] ∧ key.head? ≠ some '.' ∧ ∀ c ∈ key, c ∈ validChars

instance decidableValidKey (key : Text) : Decidable (ValidKey key) :=
  -- over the characters of the key, not over all characters
  decidable_of_iff (key ≠ [] ∧ key.head? ≠ some '.' ∧ key.all (· ∈ validChars)) (by simp [ValidKey])

/-- All that is wrong with the key comes after the part that is checked. -/
def WrongLate (key : Text) : Prop :=
  key ≠ [] ∧ key.head? ≠ some '.' ∧ (∀ c ∈ key.take (pathMax - 1), c ∈ validChars) ∧
    ∃ c ∈ key.drop (pathMax - 1), c ∉ validChars

theorem checkKeySanity_eq_validKey {key : Text} (hkey : nul ∉ key) :
    checkKeySanity key = true ↔ ValidKey key ∨ WrongLate key := by
  rw [checkKeySanity_iff hkey]
  have hsplit : (∀ c ∈ key, c ∈ validChars) ↔ (∀ c ∈ key.take (pathMax - 1), c ∈ validChars) ∧
      ∀ c ∈ key.drop (pathMax - 1), c ∈ validChars := by
    rw [← List.forall_mem_append, List.take_append_drop]
  unfold ValidKey WrongLate
  rw [hsplit]
  by_cases hlate : ∀ c ∈ key.drop (pathMax - 1), c ∈ validChars
  · have hno : ¬ ∃ c ∈ key.drop (pathMax - 1), c ∉ validChars := by
      rintro ⟨c, hc, hbad⟩
      exact hbad (hlate c hc)
    tauto
  · have hyes : ∃ c ∈ key.drop (pathMax - 1), c ∉ validChars := by
      by_contra hnone
      exact hlate fun c hc => by
        by_contra hbad
        exact hnone ⟨c, hc, hbad⟩
    tauto

inductive KeyCall where
  | setConfigured (key contents : CString)
  | isConfigured (key : CString)

inductive KeyAnswer where
  | result (res : MhResult)
  | contents (status : Option Text)
  deriving DecidableEq, Repr

def KeyCall.key : KeyCall → Text
  | .setConfigured key _ | .isConfigured key => key.1

def keyCall (k : Keys) : KeyCall → KeyAnswer × Keys
  | .setConfigured key contents =>
    let r := mhSysconfigSetConfigured k .ok key.1 contents.1
    (.result r.1, r.2)
  | .isConfigured key => (.contents (mhSysconfigIsConfigured k key.1), k)

/-- The same on a map from keys to contents, which refuses all other keys. -/
def mapCall (m : Text → Option Text) : KeyCall → KeyAnswer × (Text → Option Text)
  | .setConfigured key contents =>
    if ValidKey key.1 then (.result .success, Function.update m key.1 (some contents.1))
    else (.result .invalidArgs, m)
  | .isConfigured key => (.contents (if ValidKey key.1 then m key.1 else none), m)

/-- The call is within the statement: an acceptable key fits into a path, and what is wrong with
another key shows in the part that is checked. -/
def InScope (dir : Text) (c : KeyCall) : Prop :=
  (ValidKey c.key ∧ dir.length + c.key.length < pathMax) ∨ (¬ ValidKey c.key ∧ ¬ WrongLate c.key)

def Stores (dir : Text) (k : Keys) (m : Text → Option Text) : Prop :=
  (dir.length < pathMax → keysDirGet k = dir) ∧ ∀ key, ValidKey key → dir.length + key.length < pathMax →
    k.files (dir ++ key) = m key

theorem keyCall_eq_mapCall {dir : Text} {k : Keys} {m : Text → Option Text} {c : KeyCall}
    (hstores : Stores dir k m) (hscope : InScope dir c) :
    (keyCall k c).1 = (mapCall m c).1 ∧ Stores dir (keyCall k c).2 (mapCall m c).2 := by
  obtain ⟨hdir, hfiles⟩ := hstores
  have hsane : ∀ key : CString, c.key = key.1 →
      (checkKeySanity key.1 = true ↔ ValidKey key.1) := by
    intro key hkey
    rw [checkKeySanity_eq_validKey key.2, ← hkey]
    rcases hscope with ⟨hvalid, -⟩ | ⟨hinvalid, hearly⟩
    · exact ⟨fun _ => hvalid, Or.inl⟩
    · exact ⟨fun h => h.resolve_right hearly, fun h => absurd h hinvalid⟩
  have hplace : ∀ key : CString, c.key = key.1 → ValidKey key.1 →
      dir.length + key.1.length < pathMax ∧ keyFile k key.1 = dir ++ key.1 := by
    intro key hkey hvalid
    rcases hscope with ⟨-, hfits⟩ | ⟨hinvalid, -⟩
    · rw [hkey] at hfits
      have hget := hdir (by omega)
      exact ⟨hfits, hget ▸ keyFile_eq (by rwa [hget])⟩
    · exact absurd (hkey ▸ hvalid) hinvalid
  cases c with
  | setConfigured key contents =>
    simp only [keyCall, mapCall, mhSysconfigSetConfigured, setKey]
    by_cases hvalid : ValidKey key.1
    · obtain ⟨-, hfile⟩ := hplace key rfl hvalid
      rw [(hsane key rfl).mpr hvalid, if_neg (by simp), if_pos hvalid]
      refine ⟨rfl, hdir, fun other hother hroom => ?_⟩
      -- the directory is the same for both keys, so their files are the same only if they are
      dsimp only
      rw [hfile]
      by_cases heq : other = key.1
      · rw [heq, Function.update_self, Function.update_self]
      · rw [Function.update_of_ne (fun h => heq (List.append_cancel_left h)),
          Function.update_of_ne heq]
        exact hfiles other hother hroom
    · have hrefused : checkKeySanity key.1 = false := by
        rw [← Bool.not_eq_true, hsane key rfl]
        exact hvalid
      rw [if_pos hrefused, if_neg hvalid]
      exact ⟨rfl, hdir, hfiles⟩
  | isConfigured key =>
    refine ⟨?_, hdir, hfiles⟩
    simp only [keyCall, mapCall, mhSysconfigIsConfigured, getKey]
    by_cases hvalid : ValidKey key.1
    · obtain ⟨hroom, hfile⟩ := hplace key rfl hvalid
      rw [(hsane key rfl).mpr hvalid, if_neg (by simp), if_pos hvalid, hfile,
        hfiles key.1 hvalid hroom]
    · have hrefused : checkKeySanity key.1 = false := by
        rw [← Bool.not_eq_true, hsane key rfl]
        exact hvalid
      rw [if_pos hrefused, if_neg hvalid]

/-- Setting the key fails and changes nothing, and getting it finds nothing. -/
def Refused (k : Keys) (key : Text) : Prop :=
  (∀ outcome contents, mhSysconfigSetConfigured k outcome key contents = (.invalidArgs, k)) ∧
    mhSysconfigIsConfigured k key = none

theorem refused_iff (k : Keys) {key : Text} :
    Refused k key ↔ checkKeySanity key = false := by
  constructor
  · intro h
    have hset := h.1 .mkdirFailed []
    unfold mhSysconfigSetConfigured setKey at hset
    split at hset
    · assumption
    · cases hset
  · intro h
    constructor
    · intro outcome contents
      exact if_pos h
    · exact if_pos h

/-- The directory of the keys holds a map from keys to contents. A key that is to be refused is
refused if what is wrong with it lies in the part that is checked, and no accepted key leads out
of a directory whose path fits. -/
theorem keys_dir_stores_map (k : Keys) (path : CString) (hslash : path.1.getLast? = some '/') :
    let started := mhSysconfigKeysDirSet k path.1
    (∀ calls : List KeyCall, (∀ c ∈ calls, InScope path.1 c) →
      (answers keyCall started calls).1 =
        (answers mapCall (fun key => k.files (path.1 ++ key)) calls).1) ∧
    (∀ key : CString, ¬ ValidKey key.1 → (Refused started key.1 ↔ ¬ WrongLate key.1)) ∧
    ∀ key : CString, checkKeySanity key.1 = true →
      ((∃ name : Text, keyFile started key.1 = path.1 ++ name ∧ ∀ c ∈ name, c ∈ validChars) ↔
        path.1.length < pathMax) := by
  intro started
  have hne : path.1 ≠ [] := by
    intro hnil
    rw [hnil] at hslash
    cases hslash
  refine ⟨fun calls hscope => ?_, fun key hinvalid => ?_, fun key hsane => ?_⟩
  · have hstores : Stores path.1 started (fun key => k.files (path.1 ++ key)) :=
      ⟨keysDirGet_set path.2 hne, fun key _ _ => rfl⟩
    exact (answers_eq (fun _ _ _ => keyCall_eq_mapCall) hstores hscope).1
  · rw [refused_iff, ← Bool.not_eq_true, checkKeySanity_eq_validKey key.2]
    exact not_congr ⟨fun h => h.resolve_left hinvalid, Or.inr⟩
  · constructor
    · rintro ⟨name, hfile, -⟩
      have hlen := length_keyFile_le started key.1
      rw [hfile, List.length_append] at hlen
      have hmax : 0 < pathMax := by decide
      omega
    · intro hfits
      exact ⟨_, keyFile_confined (keysDirGet_set path.2 hne hfits) hfits key.2 hsane⟩

def testKeys : Keys := ⟨[], fun _ => none⟩

theorem keys_dir_stores_map_tmp :
    (answers keyCall (mhSysconfigKeysDirSet testKeys "/tmp/keys/".toList)
        [.setConfigured ⟨"a".toList, by decide⟩ ⟨"OK".toList, by decide⟩,
          .isConfigured ⟨"a".toList, by decide⟩, .isConfigured ⟨"b".toList, by decide⟩]).1 =
      [.result .success, .contents (some "OK".toList), .contents none] := by
  rw [(keys_dir_stores_map testKeys ⟨"/tmp/keys/".toList, by decide⟩ (by decide)).1]
  · decide
  · intro c hc
    simp only [List.mem_cons, List.not_mem_nil, or_false] at hc
    rcases hc with rfl | rfl | rfl <;> exact Or.inl ⟨by decide, by decide⟩

def longKey (n : ℕ) : Text := List.replicate n 'a' ++ ['/']

theorem longKey_wrongLate : WrongLate (longKey (pathMax - 1)) := by
  have hpos : 0 < pathMax - 1 := by decide
  unfold WrongLate longKey
  generalize pathMax - 1 = n at hpos
  have hlen : (List.replicate n 'a').length = n := List.length_replicate
  rw [List.take_left' hlen, List.drop_left' hlen]
  refine ⟨by simp, ?_, ?_, '/', List.mem_cons_self, by decide⟩
  · obtain ⟨m, rfl⟩ := Nat.exists_eq_succ_of_ne_zero hpos.ne'
    rw [List.replicate_succ, List.cons_append, List.head?_cons]
    decide
  · intro c hc
    rw [List.eq_of_mem_replicate hc]
    decide

/-- A key with a slash in it is accepted and stored if the slash comes late enough. -/
theorem longKey_not_refused :
    ¬ (∀ (k : Keys) (key : CString),
      (key.1 = [] ∨ key.1.head? = some '.' ∨ ∃ c ∈ key.1, c ∉ validChars) → Refused k key.1) := by
  intro h
  have hnul : nul ∉ longKey (pathMax - 1) := by
    intro hmem
    rcases List.mem_append.mp hmem with ha | hslash
    · exact absurd (List.eq_of_mem_replicate ha) (by decide)
    · exact absurd (List.mem_singleton.mp hslash) (by decide)
  obtain ⟨c, hc, hbad⟩ := longKey_wrongLate.2.2.2
  have hrefused := h testKeys ⟨longKey (pathMax - 1), hnul⟩
    (Or.inr (Or.inr ⟨c, List.mem_of_mem_drop hc, hbad⟩))
  rw [refused_iff, ← Bool.not_eq_true] at hrefused
  exact hrefused ((checkKeySanity_eq_validKey hnul).mpr (Or.inr longKey_wrongLate))

end Matahari.Sysconfig
