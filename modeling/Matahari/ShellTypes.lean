import Matahari.ShellCompletion

set_option autoImplicit false

/-!
# UUID arguments

`Uuid` of `types.py` converts a word by `uuid.UUID`, which ignores dashes, and completes a word
that `int` takes as a hexadecimal number.
-/
namespace Matahari.Shell
open Mainloop

/-! ## Numbers of base 16 -/

def digitValue (c : Char) : Option ℕ :=
  if '0' ≤ c ∧ c ≤ '9' then some (c.toNat - '0'.toNat)
  else if 'a' ≤ c ∧ c ≤ 'f' then some (c.toNat - 'a'.toNat + 10)
  else if 'A' ≤ c ∧ c ≤ 'F' then some (c.toNat - 'A'.toNat + 10)
  else none

def digitsValue (s : Text) : Option ℕ :=
  if s = [] then none else s.foldlM (fun n c => (digitValue c).map (16 * n + ·)) 0

def sign : Text → Bool × Text
  | '-' :: s => (true, s)
  | '+' :: s => (false, s)
  | s => (false, s)

def afterPrefix : Text → Text
  | '0' :: 'x' :: s => s
  | '0' :: 'X' :: s => s
  | s => s

def strip (p : Char → Bool) (s : Text) : Text := (s.dropWhile p).rdropWhile p

/-- `int(s, 16)`, with `none` for the `ValueError`. There may be spaces around the number and
after its sign. -/
def int16 (s : Text) : Option ℤ :=
  let (negative, s) := sign (strip isSpace s)
  (digitsValue (afterPrefix (s.dropWhile isSpace))).map fun (n : ℕ) =>
    if negative then -(n : ℤ) else n

def long16 (s : Text) : Option ℤ :=
  match (strip isSpace s).reverse with
  | [] => none
  | last :: front =>
    if last = 'L' ∨ last = 'l' then
      if (front.head?.bind digitValue).isSome then int16 front.reverse else none
    else int16 s

/-! ## `uuid.UUID` -/

def remove (old : Text) : ℕ → Text → Text
  | _, [] => []
  | skip + 1, _ :: s => remove old skip s
  | 0, c :: s =>
    if old.isPrefixOf (c :: s) then remove old (old.length - 1) s else c :: remove old 0 s

def isBrace (c : Char) : Bool := c = '{' ∨ c = '}'

def withoutDashes (s : Text) : Text := s.filter (· ≠ '-')

namespace Uuid

def LENGTH : ℕ := 32

def call (param : Text) : Conversion ℤ :=
  let hex := remove "uuid:".toList 0 (remove "urn:".toList 0 param)
  let hex := withoutDashes (strip isBrace hex)
  if hex.length ≠ 32 then .valueError "badly formed hexadecimal UUID string".toList
  else
    match long16 hex with
    | some n => .value (.object n)
    | none =>
      .valueError ("invalid literal for long() with base 16: '".toList ++ hex ++ "'".toList)

def complete (param : Text) : List Text :=
  let raw := withoutDashes param
  match int16 param with
  | none => []
  | some _ =>
    if raw.length ∈ [8, 12, 16, 20] then [param ++ ['-']]
    else if raw.length = LENGTH then [param ++ [' ']]
    else [[]]

end Uuid

def uuidParameter (name : Text) (default : Option (Value ℤ)) : Parameter ℤ :=
  ⟨name, some Uuid.call, default.elim .none .value, some Uuid.complete⟩

/-! ## Canonical texts -/

def IsHex (c : Char) : Prop := (digitValue c).isSome = true

instance : DecidablePred IsHex := fun c => inferInstanceAs (Decidable ((digitValue c).isSome = true))

/-- The five groups of digits between which there are dashes. -/
structure CanonicalUuid where
  groups : List Text
  lengths : groups.map List.length = [8, 4, 4, 4, 12]
  digits : ∀ group ∈ groups, ∀ c ∈ group, IsHex c

def CanonicalUuid.text (u : CanonicalUuid) : Text := List.intercalate ['-'] u.groups

/-! ## Texts of digits and dashes -/

section
variable {c : Char} {s p : Text}

theorem IsHex.ne {d : Char} (hc : IsHex c) (hd : ¬ IsHex d) : c ≠ d := by
  rintro rfl
  exact hd hc

theorem IsHex.not_space (hc : IsHex c) : isSpace c = false := by
  have hspaces : ∀ d ∈ [' ', '\t', '\n', '\r', '\x0b', '\x0c'], ¬ IsHex d := by
    simp [IsHex, digitValue]
  exact decide_eq_false fun hmem => hspaces c hmem hc

theorem strip_eq {q : Char → Bool} (h : ∀ c ∈ s, q c = false) : strip q s = s := by
  have hfront : ∀ l : Text, (∀ c ∈ l, q c = false) → l.dropWhile q = l := by
    intro l hl
    cases l with
    | nil => rfl
    | cons c l => rw [List.dropWhile_cons, if_neg (by simp [hl c List.mem_cons_self])]
  rw [strip, hfront s h, List.rdropWhile, hfront s.reverse, List.reverse_reverse]
  intro c hc
  exact h c (List.mem_reverse.mp hc)

theorem foldlM_isSome (s : Text) (n : ℕ) :
    (s.foldlM (fun n c => (digitValue c).map (16 * n + ·)) n).isSome = true ↔
      ∀ c ∈ s, IsHex c := by
  induction s generalizing n with
  | nil => simp
  | cons c s ih =>
    rw [List.foldlM_cons, List.forall_mem_cons, IsHex]
    cases digitValue c with
    | none => simp
    | some k =>
      rw [Option.map_some, Option.bind_eq_bind, Option.bind_some, ih]
      simp

theorem int16_isSome (hc : IsHex c) (hs : ∀ d ∈ s, IsHex d ∨ d = '-') :
    (int16 (c :: s)).isSome = true ↔ ∀ d ∈ s, IsHex d := by
  have hspace : ∀ d ∈ c :: s, isSpace d = false := by
    refine List.forall_mem_cons.mpr ⟨hc.not_space, fun d hd => ?_⟩
    rcases hs d hd with hhex | rfl
    · exact hhex.not_space
    · decide
  have hsign : sign (c :: s) = (false, c :: s) := by
    unfold sign
    split
    · rename_i heq
      cases heq
      exact absurd hc (by decide)
    · rename_i heq
      cases heq
      exact absurd hc (by decide)
    · rfl
  have hdrop : (c :: s).dropWhile isSpace = c :: s := by
    rw [List.dropWhile_cons, hc.not_space]
    rfl
  have hx : ∀ d ∈ s, d ≠ 'x' ∧ d ≠ 'X' := by
    intro d hd
    rcases hs d hd with hhex | rfl
    · exact ⟨hhex.ne (by decide), hhex.ne (by decide)⟩
    · decide
  have hprefix : afterPrefix (c :: s) = c :: s := by
    unfold afterPrefix
    split
    · rename_i heq
      cases heq
      exact absurd rfl (hx 'x' List.mem_cons_self).1
    · rename_i heq
      cases heq
      exact absurd rfl (hx 'X' List.mem_cons_self).2
    · rfl
  rw [int16, strip_eq hspace, hsign]
  dsimp only
  rw [hdrop, hprefix, Option.isSome_map, digitsValue, if_neg (List.cons_ne_nil _ _),
    foldlM_isSome, List.forall_mem_cons]
  simp [hc]

/-- An `L` is not a digit, so none is taken from the end. -/
theorem long16_isSome (hs : ∀ d ∈ s, IsHex d) (hne : s ≠ []) : (long16 s).isSome = true := by
  have hint : (int16 s).isSome = true := by
    obtain ⟨c, s, rfl⟩ := List.exists_cons_of_ne_nil hne
    obtain ⟨hc, hs⟩ := List.forall_mem_cons.mp hs
    exact (int16_isSome hc fun d hd => Or.inl (hs d hd)).mpr hs
  rw [long16, strip_eq fun d hd => (hs d hd).not_space]
  split
  · rename_i hnil
    exact absurd (List.reverse_eq_nil_iff.mp hnil) hne
  · rename_i last front heq
    have hlast : IsHex last := hs last (List.mem_reverse.mp (heq ▸ List.mem_cons_self))
    rw [if_neg (not_or.mpr ⟨hlast.ne (by decide), hlast.ne (by decide)⟩)]
    exact hint

theorem remove_eq_self {old : Text} (hold : old = c :: p) (hc : c ∉ s) : remove old 0 s = s := by
  induction s with
  | nil => rfl
  | cons d s ih =>
    obtain ⟨hd, hs⟩ := not_or.mp (List.mem_cons.not.mp hc)
    rw [remove, if_neg (by simp [hold, hd]), ih hs]

theorem withoutDashes_append (s t : Text) :
    withoutDashes (s ++ t) = withoutDashes s ++ withoutDashes t :=
  List.filter_append s t

theorem withoutDashes_dash (s : Text) : withoutDashes ('-' :: s) = withoutDashes s := rfl

theorem complete_ne_nil : Uuid.complete p ≠ [] ↔ (int16 p).isSome = true := by
  rw [Uuid.complete]
  cases int16 p with
  | none => simp
  | some n =>
    dsimp only
    split
    · simp
    split <;> simp

end

namespace CanonicalUuid
variable (u : CanonicalUuid)

theorem exists_groups : ∃ a b c d e, u.groups = [a, b, c, d, e] ∧ a.length = 8 ∧ b.length = 4 ∧
    c.length = 4 ∧ d.length = 4 ∧ e.length = 12 := by
  have hlengths := u.lengths
  match hgroups : u.groups with
  | [a, b, c, d, e] =>
    rw [hgroups] at hlengths
    simp only [List.map_cons, List.map_nil, List.cons.injEq, and_true] at hlengths
    exact ⟨a, b, c, d, e, rfl, hlengths⟩
  | [] | [_] | [_, _] | [_, _, _] | [_, _, _, _] | _ :: _ :: _ :: _ :: _ :: _ :: _ =>
    rw [hgroups] at hlengths
    simp at hlengths

theorem exists_first : ∃ a rest, u.text = a ++ '-' :: rest ∧ a.length = 8 ∧
    (∀ c ∈ a, IsHex c) ∧ ∀ c ∈ rest, IsHex c ∨ c = '-' := by
  obtain ⟨a, b, c, d, e, hgroups, ha, -⟩ := u.exists_groups
  have hdigits : ∀ group ∈ [a, b, c, d, e], ∀ c ∈ group, IsHex c := by
    rw [← hgroups]
    exact u.digits
  simp only [List.forall_mem_cons] at hdigits
  obtain ⟨hda, hdb, hdc, hdd, hde, -⟩ := hdigits
  refine ⟨a, b ++ '-' :: c ++ '-' :: d ++ '-' :: e, ?_, ha, hda, ?_⟩
  · simp [text, hgroups, List.intercalate]
  · intro x hx
    simp only [List.mem_append, List.mem_cons] at hx
    grind

theorem mem_text {x : Char} (hx : x ∈ u.text) : IsHex x ∨ x = '-' := by
  obtain ⟨a, rest, htext, -, ha, hrest⟩ := u.exists_first
  rw [htext, List.mem_append, List.mem_cons] at hx
  rcases hx with hx | rfl | hx
  · exact Or.inl (ha x hx)
  · exact Or.inr rfl
  · exact hrest x hx

theorem length_withoutDashes : (withoutDashes u.text).length = 32 := by
  obtain ⟨a, b, c, d, e, hgroups, ha, hb, hc, hd, he⟩ := u.exists_groups
  have hkept : ∀ group ∈ u.groups, withoutDashes group = group := by
    intro group hgroup
    apply List.filter_eq_self.mpr
    intro x hx
    exact decide_eq_true ((u.digits group hgroup x hx).ne (by decide))
  rw [hgroups] at hkept
  simp only [List.forall_mem_cons] at hkept
  obtain ⟨hka, hkb, hkc, hkd, hke, -⟩ := hkept
  have htext : u.text = a ++ '-' :: (b ++ '-' :: (c ++ '-' :: (d ++ '-' :: e))) := by
    simp [text, hgroups, List.intercalate]
  simp only [htext, withoutDashes_append, withoutDashes_dash, hka, hkb, hkc, hkd, hke,
    List.length_append]
  omega

theorem call_text : ∃ n, Uuid.call u.text = .value (.object n) := by
  have hnone : ∀ x : Char, ¬ IsHex x → x ≠ '-' → x ∉ u.text := by
    intro x hhex hdash hx
    exact (u.mem_text hx).elim hhex hdash
  have hbraces : ∀ x ∈ u.text, isBrace x = false := by
    intro x hx
    refine decide_eq_false ?_
    rintro (rfl | rfl)
    · exact hnone '{' (by decide) (by decide) hx
    · exact hnone '}' (by decide) (by decide) hx
  have hhex : ∀ x ∈ withoutDashes u.text, IsHex x := by
    intro x hx
    obtain ⟨hmem, hdash⟩ := List.mem_filter.mp hx
    exact (u.mem_text hmem).resolve_right (of_decide_eq_true hdash)
  have hu : 'u' ∉ u.text := hnone 'u' (by decide) (by decide)
  obtain ⟨n, hn⟩ := Option.isSome_iff_exists.mp (long16_isSome hhex
    (List.ne_nil_of_length_pos (u.length_withoutDashes ▸ by decide)))
  refine ⟨n, ?_⟩
  rw [Uuid.call, remove_eq_self (by decide : "urn:".toList = 'u' :: "rn:".toList) hu,
    remove_eq_self (by decide : "uuid:".toList = 'u' :: "uid:".toList) hu, strip_eq hbraces,
    if_neg (not_not.mpr u.length_withoutDashes), hn]

end CanonicalUuid

/-- Completion is not cut off at an argument of the type that has been given `p`: something is
offered there, and with more words on the line it is up to the arguments after it. -/
def NotCutOff (p : Text) : Prop :=
  Uuid.complete p ≠ [] ∧
    ∀ (name : Text) (default : Option (Value ℤ)) (arglist : List (Option (Leaf ℤ))) (v : Text)
      (values : List Text),
      completions (some (.parameter (uuidParameter name default)) :: arglist) (p :: v :: values) =
        completions arglist (v :: values)

theorem notCutOff_iff (p : Text) : NotCutOff p ↔ Uuid.complete p ≠ [] := by
  constructor
  · exact And.left
  · intro hne
    refine ⟨hne, ?_⟩
    intro name default arglist v values
    rw [completions]
    change (if Uuid.complete p = [] then Except.ok [] else _) = _
    rw [if_neg hne, if_neg (List.cons_ne_nil _ _)]

/-- `int` is given the text with its dashes, so this is as far as the first group. -/
theorem notCutOff_prefix_iff (u : CanonicalUuid) (p : Text) (hne : p ≠ []) (hp : p <+: u.text) :
    (∃ n, Uuid.call u.text = .value (.object n)) ∧ (NotCutOff p ↔ p.length ≤ 8) := by
  refine ⟨u.call_text, ?_⟩
  obtain ⟨a, rest, htext, hlength, ha, -⟩ := u.exists_first
  obtain ⟨c, s, rfl⟩ := List.exists_cons_of_ne_nil hne
  have hchars : ∀ d ∈ s, IsHex d ∨ d = '-' := by
    intro d hd
    exact u.mem_text (hp.subset (List.mem_cons_of_mem _ hd))
  rw [htext] at hp
  have hc : IsHex c := by
    obtain ⟨c', a, rfl⟩ := List.exists_cons_of_length_eq_add_one hlength
    rw [List.cons_append, List.cons_prefix_cons] at hp
    rw [hp.1]
    exact ha c' List.mem_cons_self
  rw [notCutOff_iff, complete_ne_nil, int16_isSome hc hchars]
  constructor
  · intro hall
    by_contra hlong
    -- the part goes on beyond the first group, so the dash is in it
    have hdash : a ++ ['-'] <+: c :: s := by
      refine List.prefix_of_prefix_length_le (List.prefix_append _ rest) ?_ ?_
      · rwa [List.append_assoc]
      · rw [List.length_append, List.length_singleton]
        omega
    have hmem : '-' ∈ c :: s := hdash.subset (by simp)
    have hhex : IsHex '-' := List.forall_mem_cons.mpr ⟨hc, hall⟩ '-' hmem
    exact absurd hhex (by decide)
  · intro hshort d hd
    have hfirst : c :: s <+: a :=
      List.prefix_of_prefix_length_le hp (List.prefix_append a _) (by omega)
    exact ha d (hfirst.subset (List.mem_cons_of_mem _ hd))

def countingUuid : CanonicalUuid where
  groups := ["01234567".toList, "89ab".toList, "cdef".toList, "0123".toList,
    "456789abcdef".toList]
  lengths := by decide
  digits := by simp [IsHex, digitValue]

theorem notCutOff_prefix_iff_counting :
    (∃ n, Uuid.call countingUuid.text = .value (.object n)) ∧
      (NotCutOff "0123".toList ↔ "0123".toList.length ≤ 8) :=
  notCutOff_prefix_iff countingUuid "0123".toList (by decide) (by decide)

/-- With the first dash typed. -/
theorem counting_cutOff : ¬ ∀ (u : CanonicalUuid) (p : Text), p ≠ [] → p <+: u.text →
    NotCutOff p := by
  intro h
  have hnone : Uuid.complete "01234567-".toList = [] := by decide
  exact (h countingUuid "01234567-".toList (by decide) (by decide)).1 hnone

end Matahari.Shell
