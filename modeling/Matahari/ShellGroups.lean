import Matahari.ShellWords

set_option autoImplicit false

/-!
# The lists of optional groups

The handler function gets a list for each group of optional arguments. A group that comes to the
end of the words ends there, and what it has taken is all that is in its list. The arguments after
the end of the words are not looked at, and the groups among them are not passed at all.
-/
namespace Matahari.Shell
open Mainloop

variable {V : Type}

def ArgList.Flat : ArgList V → Prop
  | .nil => True
  | .keyword _ rest | .parameter _ rest => rest.Flat
  | .optional _ _ | .repeated _ _ => False

mutual

def Yielded.groups : Yielded V → List (Yielded V)
  | .value _ _ => []
  | .group xs => .group xs :: groupsAll xs
  | .defaults ds => [.defaults ds]

def groupsAll : List (Yielded V) → List (Yielded V)
  | [] => []
  | x :: xs => x.groups ++ groupsAll xs

end

theorem groupsAll_append (xs ys : List (Yielded V)) :
    groupsAll (xs ++ ys) = groupsAll xs ++ groupsAll ys := by
  induction xs with
  | nil => rfl
  | cons x xs ih => rw [List.cons_append, groupsAll, groupsAll, ih, List.append_assoc]

/-- The groups, but for those in repeated lists, which may have no round. -/
def ArgList.groups : ArgList V → List (ArgList V)
  | .nil => []
  | .keyword _ rest | .parameter _ rest | .repeated _ rest => rest.groups
  | .optional group rest => group :: group.groups ++ rest.groups

/-- The match of arguments with words comes to the group `g` when the words `w` are left, and
passes the list `y` for it. There are no such words if the match ends before the group, and no list
if none is passed. -/
inductive Passes (fuel : ℕ) :
    ArgList V → List Text → ArgList V → Option (List Text) → Option (Yielded V) → Prop
  | keyword {kw : Text} {rest g : ArgList V} {values mid : List Text} {w : Option (List Text)}
      {x : Yielded V} {y : Option (Yielded V)} :
      matchKeyword kw values = .ok (some x, mid) → Passes fuel rest mid g w y →
      Passes fuel (.keyword kw rest) values g w y
  | keywordEnds {kw : Text} {rest g : ArgList V} {values mid : List Text} :
      matchKeyword (V := V) kw values = .ok (none, mid) → g ∈ rest.groups →
      Passes fuel (.keyword kw rest) values g none none
  | parameter {p : Parameter V} {rest g : ArgList V} {values mid : List Text}
      {w : Option (List Text)} {x : Matched V} {y : Option (Yielded V)} :
      p.match values = .ok (x, mid) → x ≠ .none → Passes fuel rest mid g w y →
      Passes fuel (.parameter p rest) values g w y
  | parameterEnds {p : Parameter V} {rest g : ArgList V} {values mid : List Text} :
      p.match values = .ok (.none, mid) → g ∈ rest.groups →
      Passes fuel (.parameter p rest) values g none none
  | here {group rest : ArgList V} {values mid : List Text} {y : Option (Yielded V)} :
      matchOptional (collate fuel group) group.defaults values = .ok (y, mid) →
      Passes fuel (.optional group rest) values group (some values) y
  | inside {group rest g : ArgList V} {values mid : List Text} {w : Option (List Text)}
      {xs : List (Yielded V)} {y : Option (Yielded V)} :
      matchOptional (collate fuel group) group.defaults values = .ok (some (.group xs), mid) →
      Passes fuel group values g w y → Passes fuel (.optional group rest) values g w y
  | after {group rest g : ArgList V} {values mid : List Text} {w : Option (List Text)}
      {x y : Option (Yielded V)} :
      matchOptional (collate fuel group) group.defaults values = .ok (x, mid) →
      Passes fuel rest mid g w y → Passes fuel (.optional group rest) values g w y
  | round {group rest g : ArgList V} {values v : List Text} {w : Option (List Text)}
      {y : Option (Yielded V)} :
      Rounds (collate fuel group) values v → Passes fuel group v g w y →
      Passes fuel (.repeated group rest) values g w y
  | past {group rest g : ArgList V} {values mid : List Text} {w : Option (List Text)}
      {xs : List (Yielded V)} {y : Option (Yielded V)} :
      matchRepeated (collate fuel group) fuel values = .ok (xs, mid) →
      Passes fuel rest mid g w y → Passes fuel (.repeated group rest) values g w y

/-! ## Every list is that of a group -/

section
variable {fuel : ℕ} {args g : ArgList V} {values rest : List Text} {w : Option (List Text)}
  {xs : List (Yielded V)} {y : Yielded V}

/-- What a group passes is its own list, and those inside it if it is matched. -/
theorem matchOptional_groups {collate : Collate V} {defaults : Except Raised (List (Passed V))}
    {x : Option (Yielded V)} (h : matchOptional collate defaults values = .ok (x, rest)) :
    y ∈ groupsAll x.toList ↔ x = some y ∨ ∃ xs, x = some (.group xs) ∧ y ∈ groupsAll xs := by
  obtain ⟨ds, xs, -, -, -, rfl⟩ | ⟨ds, -, -, rfl, -⟩ | ⟨-, rfl, -⟩ := matchOptional_cases h
  · simp [groupsAll, Yielded.groups, eq_comm]
  · simp [groupsAll, Yielded.groups, eq_comm]
  · simp [groupsAll]

theorem matchOptional_group {collate : Collate V} {defaults : Except Raised (List (Passed V))}
    (h : matchOptional collate defaults values = .ok (some (.group xs), rest)) :
    collate values = .ok (xs, rest) := by
  obtain ⟨ds, ys, -, -, hmembers, hx⟩ | ⟨ds, -, -, hx, -⟩ | ⟨-, hx, -⟩ := matchOptional_cases h
  · cases hx
    exact hmembers
  · cases hx
  · cases hx

/-- What a repeated list passes is passed in its rounds, and all of these come to an end. -/
theorem iterations_groups {collate : Collate V} {count : ℕ}
    (h : iterations collate count values = .ok (xs, rest)) :
    (∀ v, Rounds collate values v → ∃ xs mid, collate v = .ok (xs, mid)) ∧
    (y ∈ groupsAll xs ↔ ∃ v xs mid, Rounds collate values v ∧ collate v = .ok (xs, mid) ∧
      y ∈ groupsAll xs) := by
  refine (iterations_induction (P := fun values xs =>
    (∀ v, Rounds collate values v → ∃ xs mid, collate v = .ok (xs, mid)) ∧
    (y ∈ groupsAll xs ↔ ∃ v xs mid, Rounds collate values v ∧ collate v = .ok (xs, mid) ∧
      y ∈ groupsAll xs)) (by simp [not_rounds_nil, groupsAll]) ?_ h).2
  intro values mid ys zs hne hmembers ⟨hends, hlists⟩
  constructor
  · intro v hv
    obtain rfl | hv := (rounds_iff hne hmembers).mp hv
    · exact ⟨ys, mid, hmembers⟩
    · exact hends v hv
  · rw [groupsAll_append, List.mem_append, hlists]
    constructor
    · rintro (hy | ⟨v, xs, mid', hv, hxs, hy⟩)
      · exact ⟨_, ys, mid, .first hne, hmembers, hy⟩
      · exact ⟨v, xs, mid', .next hne hmembers hv, hxs, hy⟩
    · rintro ⟨v, xs, mid', hv, hxs, hy⟩
      obtain rfl | hv := (rounds_iff hne hmembers).mp hv
      · rw [hmembers] at hxs
        cases hxs
        exact .inl hy
      · exact .inr ⟨v, xs, mid', hv, hxs, hy⟩

theorem passes_keyword_iff {kw : Text} {x : Option (Yielded V)} {mid : List Text}
    (hmatch : matchKeyword kw values = .ok (x, mid)) :
    Passes fuel (.keyword kw args) values g w (some y) ↔
      x.isSome = true ∧ Passes fuel args mid g w (some y) := by
  constructor
  · intro hp
    cases hp with
    | keyword hx hp =>
      rw [hmatch] at hx
      cases hx
      exact ⟨rfl, hp⟩
  · rintro ⟨hx, hp⟩
    obtain ⟨x, rfl⟩ := Option.isSome_iff_exists.mp hx
    exact .keyword hmatch hp

theorem passes_parameter_iff {p : Parameter V} {x : Matched V} {mid : List Text}
    (hmatch : p.match values = .ok (x, mid)) :
    Passes fuel (.parameter p args) values g w (some y) ↔
      x ≠ .none ∧ Passes fuel args mid g w (some y) := by
  constructor
  · intro hp
    cases hp with
    | parameter hx hne hp =>
      rw [hmatch] at hx
      cases hx
      exact ⟨hne, hp⟩
  · rintro ⟨hx, hp⟩
    exact .parameter hmatch hx hp

theorem passes_optional_iff {group : ArgList V} {x : Option (Yielded V)} {mid : List Text}
    (hmatch : matchOptional (collate fuel group) group.defaults values = .ok (x, mid)) :
    Passes fuel (.optional group args) values g w (some y) ↔
      (g = group ∧ w = some values ∧ x = some y) ∨
      (∃ xs, x = some (.group xs) ∧ Passes fuel group values g w (some y)) ∨
      Passes fuel args mid g w (some y) := by
  constructor
  · intro hp
    cases hp with
    | here hx =>
      rw [hmatch] at hx
      cases hx
      exact .inl ⟨rfl, rfl, rfl⟩
    | inside hx hp =>
      rw [hmatch] at hx
      cases hx
      exact .inr (.inl ⟨_, rfl, hp⟩)
    | after hx hp =>
      rw [hmatch] at hx
      cases hx
      exact .inr (.inr hp)
  · rintro (⟨rfl, rfl, rfl⟩ | ⟨xs, rfl, hp⟩ | hp)
    · exact .here hmatch
    · exact .inside hmatch hp
    · exact .after hmatch hp

theorem passes_repeated_iff {group : ArgList V} {mid : List Text}
    (hmatch : matchRepeated (collate fuel group) fuel values = .ok (xs, mid)) :
    Passes fuel (.repeated group args) values g w (some y) ↔
      (∃ v, Rounds (collate fuel group) values v ∧ Passes fuel group v g w (some y)) ∨
      Passes fuel args mid g w (some y) := by
  constructor
  · intro hp
    cases hp with
    | round hv hp => exact .inl ⟨_, hv, hp⟩
    | past hx hp =>
      rw [hmatch] at hx
      cases hx
      exact .inr hp
  · rintro (⟨v, hv, hp⟩ | hp)
    · exact .round hv hp
    · exact .past hmatch hp

/-- The lists are those that are passed for the groups. -/
theorem mem_groupsAll (h : collate fuel args values = .ok (xs, rest)) :
    y ∈ groupsAll xs ↔ ∃ g w, Passes fuel args values g w (some y) := by
  induction args generalizing values rest xs with
  | nil =>
    cases h
    refine ⟨fun hy => absurd hy List.not_mem_nil, ?_⟩
    rintro ⟨g, w, hp⟩
    cases hp
  | keyword kw args ih =>
    obtain ⟨⟨x, mid⟩, hmatch, hmore⟩ := bind_eq_ok h
    simp only [passes_keyword_iff hmatch]
    cases x with
    | none =>
      cases hmore
      simp [groupsAll]
    | some x =>
      obtain ⟨⟨ys, mid'⟩, hrest, hdone⟩ := bind_eq_ok hmore
      cases hdone
      obtain ⟨-, rfl⟩ := matchKeyword_some hmatch
      rw [groupsAll, Yielded.groups, List.nil_append, ih hrest]
      simp
  | parameter p args ih =>
    obtain ⟨⟨x, mid⟩, hmatch, hmore⟩ := bind_eq_ok h
    simp only [passes_parameter_iff hmatch]
    cases x with
    | none =>
      cases hmore
      simp [groupsAll]
    | nothing =>
      rw [ih hmore]
      simp
    | value x =>
      obtain ⟨⟨ys, mid'⟩, hrest, hdone⟩ := bind_eq_ok hmore
      cases hdone
      obtain ⟨val, v, -, -, rfl⟩ := Parameter.match_value hmatch
      rw [groupsAll, Yielded.groups, List.nil_append, ih hrest]
      simp
  | optional group args ihgroup ih =>
    obtain ⟨x, mid, ys, hmatch, hrest, rfl⟩ := collate_optional_cases h
    rw [groupsAll_append, List.mem_append, matchOptional_groups hmatch, ih hrest]
    simp only [passes_optional_iff hmatch]
    constructor
    · rintro ((rfl | ⟨zs, rfl, hy⟩) | ⟨g, w, hp⟩)
      · exact ⟨group, some values, .inl ⟨rfl, rfl, rfl⟩⟩
      · obtain ⟨g, w, hp⟩ := (ihgroup (matchOptional_group hmatch)).mp hy
        exact ⟨g, w, .inr (.inl ⟨zs, rfl, hp⟩)⟩
      · exact ⟨g, w, .inr (.inr hp)⟩
    · rintro ⟨g, w, ⟨-, -, rfl⟩ | ⟨zs, rfl, hp⟩ | hp⟩
      · exact .inl (.inl rfl)
      · exact .inl (.inr ⟨zs, rfl, (ihgroup (matchOptional_group hmatch)).mpr ⟨g, w, hp⟩⟩)
      · exact .inr ⟨g, w, hp⟩
  | repeated group args ihgroup ih =>
    obtain ⟨zs, mid, ys, hmatch, hrest, rfl⟩ := collate_repeated_cases h
    obtain ⟨hends, hlists⟩ := @iterations_groups V values mid zs y _ _ (matchRepeated_ok hmatch).2
    rw [groupsAll_append, List.mem_append, hlists, ih hrest]
    simp only [passes_repeated_iff hmatch]
    constructor
    · rintro (⟨v, xs, mid'', hv, hxs, hy⟩ | ⟨g, w, hp⟩)
      · obtain ⟨g, w, hp⟩ := (ihgroup hxs).mp hy
        exact ⟨g, w, .inl ⟨v, hv, hp⟩⟩
      · exact ⟨g, w, .inr hp⟩
    · rintro ⟨g, w, ⟨v, hv, hp⟩ | hp⟩
      · obtain ⟨xs, mid'', hxs⟩ := hends v hv
        exact .inl ⟨v, xs, mid'', hv, hxs, (ihgroup hxs).mpr ⟨g, w, hp⟩⟩
      · exact .inr ⟨g, w, hp⟩

end

/-! ## Groups of keywords and parameters -/

/-- The members can be matched with the words: these fit them, until the words or the members end
or a function returns `None`. -/
def ArgList.Fits : ArgList V → List Text → Prop
  | .nil, _ => True
  | .keyword _ _, [] | .parameter _ _, [] => True
  | .keyword kw rest, w :: ws => kw = w ∧ rest.Fits ws
  | .parameter p rest, w :: ws =>
    p.call w = .ok none ∨ (p.call w = .error stopIteration ∧ rest.Fits ws) ∨
      ∃ v, p.call w = .ok (some v) ∧ rest.Fits ws
  | .optional _ _, _ | .repeated _ _, _ => False

/-- The words fit, but one member has none to take, or a function that returns `None` or raises
`StopIteration` for its word. -/
def ArgList.CutShort : ArgList V → List Text → Prop
  | .nil, _ => False
  | .keyword _ _, [] | .parameter _ _, [] => True
  | .keyword kw rest, w :: ws => kw = w ∧ rest.CutShort ws
  | .parameter p rest, w :: ws =>
    p.call w = .ok none ∨ (p.call w = .error stopIteration ∧ rest.Fits ws) ∨
      ∃ v, p.call w = .ok (some v) ∧ rest.CutShort ws
  | .optional _ _, _ | .repeated _ _, _ => False

/-- The match ends before the group, or it is begun with words that are cut short, or its defaults
cannot be had. -/
def ArgList.RunsShort (g : ArgList V) : Option (List Text) → Prop
  | none => True
  | some w => g.defaults = .error stopIteration ∨ (w ≠ [] ∧ g.CutShort w)

def valuesOf (ts : List (Leaf V × Value V)) : List (Yielded V) :=
  ts.map fun t => .value t.1 t.2

/-- The list for the group `g`, which was come to with the words `w`, has an element for each
member: what the first of these words are converted to, or the defaults. -/
def Whole (g : ArgList V) (w : Option (List Text)) : Option (Yielded V) → Prop
  | none | some (.value _ _) => False
  | some (.group ys) => ys.length = g.length ∧ ∃ ts, ys = valuesOf ts ∧ ts.map (·.1) = g.leaves ∧
      List.Forall₂ (fun t word => Converts t.1 t.2 word) ts ((w.getD []).take g.length)
  | some (.defaults ds) => ds.length = g.length ∧ g.defaults = .ok ds

section
variable {fuel : ℕ} {g : ArgList V} {values rest : List Text} {xs : List (Yielded V)}

theorem ArgList.Flat.length_leaves (h : g.Flat) : g.leaves.length = g.length := by
  induction g with
  | nil => rfl
  | keyword kw rest ih => exact congrArg (· + 1) (ih h)
  | parameter p rest ih => exact congrArg (· + 1) (ih h)
  | optional => exact h.elim
  | repeated => exact h.elim

theorem ArgList.length_defaults {args : ArgList V} {ds : List (Passed V)}
    (h : args.defaults = .ok ds) : ds.length = args.length := by
  induction args generalizing ds with
  | nil =>
    cases h
    rfl
  | keyword kw rest ih | repeated _ rest _ ih =>
    obtain ⟨es, hes, hdone⟩ := bind_eq_ok h
    cases hdone
    exact congrArg (· + 1) (ih hes)
  | parameter p rest ih =>
    obtain ⟨d, -, hmore⟩ := bind_eq_ok h
    obtain ⟨es, hes, hdone⟩ := bind_eq_ok hmore
    cases hdone
    exact congrArg (· + 1) (ih hes)
  | optional group rest _ ih =>
    obtain ⟨d, -, hmore⟩ := bind_eq_ok h
    obtain ⟨es, hes, hdone⟩ := bind_eq_ok hmore
    cases hdone
    exact congrArg (· + 1) (ih hes)

theorem ArgList.CutShort.fits (h : g.CutShort values) : g.Fits values := by
  induction g generalizing values with
  | nil => exact h.elim
  | keyword kw g ih =>
    cases values with
    | nil => trivial
    | cons val values => exact ⟨h.1, ih h.2⟩
  | parameter p g ih =>
    cases values with
    | nil => trivial
    | cons val values =>
      obtain hnone | hstops | ⟨v, hcall, hcut⟩ := h
      · exact .inl hnone
      · exact .inr (.inl hstops)
      · exact .inr (.inr ⟨v, hcall, ih hcut⟩)
  | optional => exact h.elim
  | repeated => exact h.elim

theorem collate_of_fits (h : g.Fits values) :
    ∃ xs rest, collate fuel g values = .ok (xs, rest) := by
  induction g generalizing values with
  | nil => exact ⟨[], values, rfl⟩
  | keyword kw g ih =>
    cases values with
    | nil => exact ⟨[], [], rfl⟩
    | cons val values =>
      obtain ⟨rfl, hfits⟩ := h
      obtain ⟨xs, rest, hrest⟩ := ih hfits
      refine ⟨.value (.keyword kw) (.str kw) :: xs, rest, ?_⟩
      rw [collate_keyword, hrest]
      rfl
  | parameter p g ih =>
    cases values with
    | nil => exact ⟨[], [], rfl⟩
    | cons val values =>
      obtain hnone | ⟨hstop, hfits⟩ | ⟨v, hcall, hfits⟩ := h
      · refine ⟨[], values, ?_⟩
        rw [collate, Parameter.match, hnone]
        rfl
      · obtain ⟨xs, rest, hrest⟩ := ih hfits
        refine ⟨xs, rest, ?_⟩
        rw [collate, Parameter.match_of_stops hstop]
        exact hrest
      · obtain ⟨xs, rest, hrest⟩ := ih hfits
        refine ⟨.value (.parameter p) v :: xs, rest, ?_⟩
        rw [collate_parameter_of_call hcall, hrest]
        rfl
  | optional => exact h.elim
  | repeated => exact h.elim

theorem fits_of_collate (hflat : g.Flat) (h : collate fuel g values = .ok (xs, rest)) :
    g.Fits values := by
  induction g generalizing values rest xs with
  | nil => trivial
  | keyword kw g ih =>
    obtain ⟨rfl, -, -⟩ | ⟨mid, ys, rfl, hrest, -⟩ := collate_keyword_cases h
    · trivial
    · exact ⟨rfl, ih hflat hrest⟩
  | parameter p g ih =>
    obtain ⟨-, ⟨rfl, -⟩ | ⟨val, rfl, hcall⟩⟩ | ⟨val, mid, rfl, hstop, hrest⟩ |
      ⟨val, v, mid, ys, rfl, hcall, hrest, -⟩ := collate_parameter_cases h
    · trivial
    · exact .inl hcall
    · exact .inr (.inl ⟨hstop, ih hflat hrest⟩)
    · exact .inr (.inr ⟨v, hcall, ih hflat hrest⟩)
  | optional => exact hflat.elim
  | repeated => exact hflat.elim

theorem collate_flat_length (hflat : g.Flat) (h : collate fuel g values = .ok (xs, rest)) :
    xs.length ≤ g.length := by
  induction g generalizing values rest xs with
  | nil =>
    cases h
    exact Nat.le_refl 0
  | keyword kw g ih =>
    obtain ⟨-, rfl, -⟩ | ⟨mid, ys, -, hrest, rfl⟩ := collate_keyword_cases h
    · exact Nat.zero_le _
    · exact Nat.succ_le_succ (ih hflat hrest)
  | parameter p g ih =>
    obtain ⟨rfl, -⟩ | ⟨val, mid, -, -, hrest⟩ | ⟨val, v, mid, ys, -, -, hrest, rfl⟩ :=
      collate_parameter_cases h
    · exact Nat.zero_le _
    · exact Nat.le_succ_of_le (ih hflat hrest)
    · exact Nat.succ_le_succ (ih hflat hrest)
  | optional => exact hflat.elim
  | repeated => exact hflat.elim

theorem length_lt_of_cutShort (hflat : g.Flat) (hcut : g.CutShort values)
    (h : collate fuel g values = .ok (xs, rest)) : xs.length < g.length := by
  induction g generalizing values rest xs with
  | nil => exact hcut.elim
  | keyword kw g ih =>
    obtain ⟨-, rfl, -⟩ | ⟨mid, ys, rfl, hrest, rfl⟩ := collate_keyword_cases h
    · exact Nat.succ_pos _
    · exact Nat.succ_lt_succ (ih hflat hcut.2 hrest)
  | parameter p g ih =>
    obtain ⟨rfl, -⟩ | ⟨val, mid, -, -, hrest⟩ | ⟨val, v, mid, ys, rfl, hcall, hrest, rfl⟩ :=
      collate_parameter_cases h
    · exact Nat.succ_pos _
    · exact Nat.lt_succ_of_le (collate_flat_length hflat hrest)
    · obtain hnone | ⟨hstop, -⟩ | ⟨-, -, hmembers⟩ := hcut
      · rw [hcall] at hnone
        cases hnone
      · rw [hcall] at hstop
        cases hstop
      · exact Nat.succ_lt_succ (ih hflat hmembers hrest)
  | optional => exact hflat.elim
  | repeated => exact hflat.elim

/-- The members take words one after another if none is passed over. -/
theorem collate_flat (hflat : g.Flat) (hcut : ¬ g.CutShort values)
    (h : collate fuel g values = .ok (xs, rest)) :
    ∃ ts, xs = valuesOf ts ∧ ts.map (·.1) = g.leaves ∧
      List.Forall₂ (fun t word => Converts t.1 t.2 word) ts (values.take g.length) := by
  induction g generalizing values rest xs with
  | nil =>
    cases h
    exact ⟨[], rfl, rfl, .nil⟩
  | keyword kw g ih =>
    obtain ⟨rfl, -, -⟩ | ⟨mid, ys, rfl, hrest, rfl⟩ := collate_keyword_cases h
    · exact absurd trivial hcut
    · obtain ⟨ts, rfl, htakers, hforall⟩ := ih hflat (fun hmembers => hcut ⟨rfl, hmembers⟩) hrest
      refine ⟨(.keyword kw, .str kw) :: ts, rfl, ?_, .cons ⟨rfl, rfl⟩ hforall⟩
      rw [List.map_cons, htakers, ArgList.leaves]
  | parameter p g ih =>
    obtain ⟨-, ⟨rfl, -⟩ | ⟨val, rfl, hnone⟩⟩ | ⟨val, mid, rfl, hstop, hrest⟩ |
      ⟨val, v, mid, ys, rfl, hcall, hrest, rfl⟩ := collate_parameter_cases h
    · exact absurd trivial hcut
    · exact absurd (.inl hnone) hcut
    · exact absurd (.inr (.inl ⟨hstop, fits_of_collate hflat hrest⟩)) hcut
    · obtain ⟨ts, rfl, htakers, hforall⟩ :=
        ih hflat (fun hmembers => hcut (.inr (.inr ⟨v, hcall, hmembers⟩))) hrest
      refine ⟨(.parameter p, v) :: ts, rfl, ?_, .cons hcall hforall⟩
      rw [List.map_cons, htakers, ArgList.leaves]
  | optional => exact hflat.elim
  | repeated => exact hflat.elim

/-- The list is whole unless the group runs short. -/
theorem whole_iff {y : Option (Yielded V)} (hflat : g.Flat)
    (h : matchOptional (collate fuel g) g.defaults values = .ok (y, rest)) :
    Whole g (some values) y ↔ ¬ g.RunsShort (some values) := by
  obtain ⟨ds, ys, hds, hvalues, hmembers, rfl⟩ | ⟨ds, hds, hdeclines, rfl, -⟩ | ⟨hstop, rfl, -⟩ :=
    matchOptional_cases h
  · constructor
    · rintro ⟨hlength, -⟩ (hstop | ⟨-, hcut⟩)
      · rw [hds] at hstop
        cases hstop
      · exact absurd hlength (length_lt_of_cutShort hflat hcut hmembers).ne
    · intro hshort
      obtain ⟨ts, rfl, htakers, hforall⟩ :=
        collate_flat hflat (fun hcut => hshort (.inr ⟨hvalues, hcut⟩)) hmembers
      refine ⟨?_, ts, rfl, htakers, hforall⟩
      rw [valuesOf, List.length_map, ← hflat.length_leaves, ← htakers, List.length_map]
  · refine iff_of_true ⟨ArgList.length_defaults hds, hds⟩ ?_
    rintro (hstop | ⟨hvalues, hcut⟩)
    · rw [hds] at hstop
      cases hstop
    · obtain hnil | ⟨message, hfails⟩ := hdeclines
      · exact hvalues hnil
      · obtain ⟨ys, mid, hok⟩ : ∃ ys mid, collate fuel g values = .ok (ys, mid) :=
          collate_of_fits hcut.fits
        rw [hfails] at hok
        cases hok
  · exact iff_of_false id fun hshort => hshort (.inl hstop)

theorem Passes.match {args : ArgList V} {w : Option (List Text)} {y : Option (Yielded V)}
    (h : Passes fuel args values g w y) :
    (w = none ∧ y = none) ∨
      ∃ v mid, w = some v ∧ matchOptional (collate fuel g) g.defaults v = .ok (y, mid) := by
  induction h with
  | keyword _ _ ih => exact ih
  | keywordEnds _ _ => exact .inl ⟨rfl, rfl⟩
  | parameter _ _ _ ih => exact ih
  | parameterEnds _ _ => exact .inl ⟨rfl, rfl⟩
  | here hmatch => exact .inr ⟨_, _, rfl, hmatch⟩
  | inside _ _ ih => exact ih
  | after _ _ ih => exact ih
  | round _ _ ih => exact ih
  | past _ _ ih => exact ih

theorem Passes.whole_iff {args : ArgList V} {w : Option (List Text)} {y : Option (Yielded V)}
    (h : Passes fuel args values g w y) (hflat : g.Flat) : Whole g w y ↔ ¬ g.RunsShort w := by
  obtain ⟨rfl, rfl⟩ | ⟨v, mid, rfl, hmatch⟩ := h.match
  · exact iff_of_false id fun hshort => hshort trivial
  · exact Shell.whole_iff hflat hmatch

end

/-- When the handler function is called, the lists in what it gets are those passed for the
groups, and those for the groups of keywords and parameters are whole if none of these runs
short. -/
theorem groups_whole_iff (fuel : ℕ) (h : CommandHandler V) (line : Text) (xs : List (Yielded V))
    (hcall : h.call fuel line = .ok xs) :
    (∀ y, y ∈ groupsAll xs ↔ ∃ g w, Passes fuel h.args (h.name :: split line) g w (some y)) ∧
    ((∀ g w y, Passes fuel h.args (h.name :: split line) g w y → g.Flat → Whole g w y) ↔
      ∀ g w y, Passes fuel h.args (h.name :: split line) g w y → g.Flat → ¬ g.RunsShort w) := by
  refine ⟨fun y => mem_groupsAll (CommandHandler.call_ok hcall), ?_⟩
  constructor
  · intro hwhole g w y hp hflat
    exact (hp.whole_iff hflat).mp (hwhole g w y hp hflat)
  · intro hshort g w y hp hflat
    exact (hp.whole_iff hflat).mpr (hshort g w y hp hflat)

theorem groups_whole_iff_test2 : ∃ xs, test2.call 9 "optional-keyword a b".toList = .ok xs ∧
    ((∀ g w y, Passes 9 test2.args (test2.name :: split "optional-keyword a b".toList) g w y →
      g.Flat → Whole g w y) ↔
    ∀ g w y, Passes 9 test2.args (test2.name :: split "optional-keyword a b".toList) g w y →
      g.Flat → ¬ g.RunsShort w) :=
  ⟨_, rfl, (groups_whole_iff 9 test2 "optional-keyword a b".toList _ rfl).2⟩

/-- A group with a keyword and a parameter, of which the line has the keyword. -/
def partialGroup : CommandHandler Unit :=
  command "foo".toList (.tuple (.string "bar".toList (.string "PARAM".toList .nil)) .nil)

theorem partialGroup_passed : ∃ xs, partialGroup.call 9 "bar".toList = .ok xs ∧
    ¬ ∀ g w y, Passes 9 partialGroup.args ("foo".toList :: split "bar".toList) g w y →
      g.Flat → Whole g w y := by
  refine ⟨_, rfl, fun h => ?_⟩
  have hwhole := h _ _ _ (.keyword rfl (.here rfl)) trivial
  exact absurd hwhole.1 (by decide)

end Matahari.Shell
