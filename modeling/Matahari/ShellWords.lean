import Matahari.ShellCommand

set_option autoImplicit false

/-!
# The words of a line

What the handler function is called with comes from the words of the line, one value from each. A
word is lost only by a function that raises `StopIteration`.
-/
namespace Matahari.Shell
open Mainloop

variable {V : Type}

/-! ## No word is lost -/

mutual

/-- The values that were supplied from the line, from left to right through all groups. -/
def Yielded.supplied : Yielded V → List (Leaf V × Value V)
  | .value taker v => [(taker, v)]
  | .group xs => suppliedAll xs
  | .defaults _ => []

def suppliedAll : List (Yielded V) → List (Leaf V × Value V)
  | [] => []
  | x :: xs => x.supplied ++ suppliedAll xs

end

def ArgList.leaves : ArgList V → List (Leaf V)
  | .nil => []
  | .keyword kw rest => .keyword kw :: rest.leaves
  | .parameter p rest => .parameter p :: rest.leaves
  | .optional args rest | .repeated args rest => args.leaves ++ rest.leaves

def ArgList.NeverNone : ArgList V → Prop
  | .nil => True
  | .keyword _ rest => rest.NeverNone
  | .parameter p rest => (∀ word, p.call word ≠ .ok none) ∧ rest.NeverNone
  | .optional args rest | .repeated args rest => args.NeverNone ∧ rest.NeverNone

def Converts : Leaf V → Value V → Text → Prop
  | .keyword kw, v, word => word = kw ∧ v = .str word
  | .parameter p, v, word => p.call word = .ok (some v)

def Took (takers : List (Leaf V)) (x : Leaf V × Value V) (word : Text) : Prop :=
  x.1 ∈ takers ∧ Converts x.1 x.2 word

@[simp] theorem suppliedAll_append (xs ys : List (Yielded V)) :
    suppliedAll (xs ++ ys) = suppliedAll xs ++ suppliedAll ys := by
  induction xs with
  | nil => rfl
  | cons x xs ih => rw [List.cons_append, suppliedAll, suppliedAll, ih, List.append_assoc]

/-- The words between `values` and `rest` supply what is yielded. -/
def Takes (takers : List (Leaf V)) (xs : List (Yielded V)) (values rest : List Text) : Prop :=
  ∃ used, values = used ++ rest ∧ List.Forall₂ (Took takers) (suppliedAll xs) used

section
variable {takers more : List (Leaf V)} {xs ys : List (Yielded V)} {values mid rest : List Text}

theorem Takes.refl (takers : List (Leaf V)) (values : List Text) : Takes takers [] values values :=
  ⟨[], rfl, .nil⟩

theorem Takes.value {taker : Leaf V} {v : Value V} {val : Text} (h : Converts taker v val)
    (takers : List (Leaf V)) (values : List Text) :
    Takes (taker :: takers) [.value taker v] (val :: values) values :=
  ⟨[val], rfl, .cons ⟨List.mem_cons_self, h⟩ .nil⟩

theorem Takes.mono (h : Takes takers xs values rest) (hsub : takers ⊆ more) :
    Takes more xs values rest := by
  obtain ⟨used, hvalues, hforall⟩ := h
  exact ⟨used, hvalues, hforall.imp fun _ _ htook => ⟨hsub htook.1, htook.2⟩⟩

theorem Takes.append (h : Takes takers xs values mid) (h' : Takes takers ys mid rest) :
    Takes takers (xs ++ ys) values rest := by
  obtain ⟨used, rfl, hforall⟩ := h
  obtain ⟨used', rfl, hforall'⟩ := h'
  refine ⟨used ++ used', (List.append_assoc _ _ _).symm, ?_⟩
  rw [suppliedAll_append]
  exact List.rel_append hforall hforall'

end

/-! ## Words that are lost -/

/-- The match comes to a word for which the function of a parameter raises `StopIteration`, and
does not go back behind it. -/
def ArgList.Loses (fuel : ℕ) : ArgList V → List Text → Prop
  | .nil, _ => False
  | .keyword kw rest, values =>
    ∃ x mid, (matchKeyword kw values : Except Raised (Option (Yielded V) × List Text)) =
      .ok (some x, mid) ∧ rest.Loses fuel mid
  | .parameter p rest, values =>
    (∃ val more, values = val :: more ∧ p.call val = .error stopIteration) ∨
      ∃ x mid, p.match values = .ok (.value x, mid) ∧ rest.Loses fuel mid
  | .optional group rest, values =>
    (∃ ds xs mid, group.defaults = .ok ds ∧ values ≠ [] ∧
      collate fuel group values = .ok (xs, mid) ∧ group.Loses fuel values) ∨
      ∃ x mid, matchOptional (collate fuel group) group.defaults values = .ok (x, mid) ∧
        rest.Loses fuel mid
  | .repeated group rest, values =>
    (∃ v, Rounds (collate fuel group) values v ∧ group.Loses fuel v) ∨
      ∃ xs mid, matchRepeated (collate fuel group) fuel values = .ok (xs, mid) ∧
        rest.Loses fuel mid

theorem iterations_takes {takers : List (Leaf V)} {collate : Collate V} {fuel : ℕ}
    {values rest : List Text} {xs : List (Yielded V)}
    (hcollate : ∀ v, Rounds collate values v → ∀ xs rest, collate v = .ok (xs, rest) →
      Takes takers xs v rest)
    (h : iterations collate fuel values = .ok (xs, rest)) : Takes takers xs values rest := by
  obtain ⟨rfl, htakes⟩ := iterations_induction (P := fun values xs =>
    (∀ v, Rounds collate values v → ∀ xs rest, collate v = .ok (xs, rest) →
      Takes takers xs v rest) → Takes takers xs values [])
    (fun _ => .refl _ _) (fun hne hys hlater hcollate => by
      have hfirst := hcollate _ (.first hne) _ _ hys
      exact hfirst.append (hlater fun v hv => hcollate v (.next hne hys hv))) h
  exact htakes hcollate

theorem collate_takes {fuel : ℕ} {args : ArgList V} (hnone : args.NeverNone)
    {values rest : List Text} {xs : List (Yielded V)} (hloses : ¬ args.Loses fuel values)
    (h : collate fuel args values = .ok (xs, rest)) : Takes args.leaves xs values rest := by
  induction args generalizing values rest xs with
  | nil =>
    cases h
    exact .refl _ _
  | keyword kw args ih =>
    obtain ⟨rfl, rfl, rfl⟩ | ⟨mid, ys, rfl, hrest, rfl⟩ := collate_keyword_cases h
    · exact .refl _ _
    · have hlater := ih hnone (fun hl => hloses ⟨_, mid, matchKeyword_self kw mid, hl⟩) hrest
      have hconverts : Converts (V := V) (.keyword kw) (.str kw) kw := ⟨rfl, rfl⟩
      exact (Takes.value hconverts _ _).append (hlater.mono (List.subset_cons_self _ _))
  | parameter p args ih =>
    obtain ⟨rfl, ⟨rfl, rfl⟩ | ⟨val, -, hcall⟩⟩ | ⟨val, mid, rfl, hstop, -⟩ |
      ⟨val, v, mid, ys, rfl, hcall, hrest, rfl⟩ := collate_parameter_cases h
    · exact .refl _ _
    · exact absurd hcall (hnone.1 val)
    · exact absurd (.inl ⟨val, mid, rfl, hstop⟩) hloses
    · have hlater := ih hnone.2 (fun hl => hloses (.inr ⟨_, mid, p.match_of_call hcall mid, hl⟩))
        hrest
      have hconverts : Converts (.parameter p) v val := hcall
      exact (Takes.value hconverts _ _).append (hlater.mono (List.subset_cons_self _ _))
  | optional group args ihgroup ih =>
    obtain ⟨x, mid, ys, hmatch, hrest, rfl⟩ := collate_optional_cases h
    have hfirst : Takes group.leaves x.toList values mid := by
      obtain ⟨ds, zs, hds, hvalues, hgroup, rfl⟩ | ⟨ds, -, -, rfl, rfl⟩ | ⟨-, rfl, rfl⟩ :=
        matchOptional_cases hmatch
      · obtain ⟨used, hused, hforall⟩ :=
          ihgroup hnone.1 (fun hl => hloses (.inl ⟨ds, zs, mid, hds, hvalues, hgroup, hl⟩)) hgroup
        refine ⟨used, hused, ?_⟩
        simpa [suppliedAll, Yielded.supplied] using hforall
      -- A group that fails takes nothing: it has worked on a copy.
      · exact ⟨[], rfl, .nil⟩
      · exact ⟨[], rfl, .nil⟩
    have hlater := ih hnone.2 (fun hl => hloses (.inr ⟨x, mid, hmatch, hl⟩)) hrest
    exact (hfirst.mono (List.subset_append_left _ _)).append
      (hlater.mono (List.subset_append_right _ _))
  | repeated group args ihgroup ih =>
    obtain ⟨zs, mid, ys, hmatch, hrest, rfl⟩ := collate_repeated_cases h
    have hlater := ih hnone.2 (fun hl => hloses (.inr ⟨zs, mid, hmatch, hl⟩)) hrest
    have hfirst := iterations_takes (fun v hv xs rest hmembers =>
      ihgroup hnone.1 (fun hl => hloses (.inl ⟨v, hv, hl⟩)) hmembers) (matchRepeated_ok hmatch).2
    exact (hfirst.mono (List.subset_append_left _ _)).append
      (hlater.mono (List.subset_append_right _ _))

def ArgList.AlwaysTakes : ArgList V → Prop
  | .nil => True
  | .keyword _ rest => rest.AlwaysTakes
  | .parameter p rest => (∀ word, ∃ v, p.call word = .ok (some v)) ∧ rest.AlwaysTakes
  | .optional args rest | .repeated args rest => args.AlwaysTakes ∧ rest.AlwaysTakes

theorem ArgList.AlwaysTakes.neverNone {args : ArgList V} (h : args.AlwaysTakes) :
    args.NeverNone := by
  induction args with
  | nil => trivial
  | keyword kw rest ih => exact ih h
  | parameter p rest ih =>
    refine ⟨fun word hnone => ?_, ih h.2⟩
    obtain ⟨v, hcall⟩ := h.1 word
    rw [hnone] at hcall
    cases hcall
  | optional args rest ihgroup ih => exact ⟨ihgroup h.1, ih h.2⟩
  | repeated args rest ihgroup ih => exact ⟨ihgroup h.1, ih h.2⟩

theorem ArgList.AlwaysTakes.not_loses {args : ArgList V} (h : args.AlwaysTakes) (fuel : ℕ)
    (values : List Text) : ¬ args.Loses fuel values := by
  induction args generalizing values with
  | nil => exact id
  | keyword kw rest ih =>
    rintro ⟨_, _, _, hl⟩
    exact ih h _ hl
  | parameter p rest ih =>
    rintro (⟨val, _, -, hstop⟩ | ⟨_, _, _, hl⟩)
    · obtain ⟨v, hcall⟩ := h.1 val
      rw [hstop] at hcall
      cases hcall
    · exact ih h.2 _ hl
  | optional args rest ihgroup ih =>
    rintro (⟨_, _, _, _, _, _, hl⟩ | ⟨_, _, _, hl⟩)
    · exact ihgroup h.1 _ hl
    · exact ih h.2 _ hl
  | repeated args rest ihgroup ih =>
    rintro (⟨_, _, hl⟩ | ⟨_, _, _, hl⟩)
    · exact ihgroup h.1 _ hl
    · exact ih h.2 _ hl

theorem ArgList.AlwaysTakes.takes {fuel : ℕ} {args : ArgList V} (hargs : args.AlwaysTakes)
    {values rest : List Text} {xs : List (Yielded V)}
    (h : collate fuel args values = .ok (xs, rest)) : Takes args.leaves xs values rest :=
  collate_takes hargs.neverNone (hargs.not_loses fuel values) h

/-- Not more is supplied than words are taken, and less if a word is lost. -/
structure Counts (lost : Prop) (xs : List (Yielded V)) (values rest : List Text) : Prop where
  le : (suppliedAll xs).length + rest.length ≤ values.length
  lt : lost → (suppliedAll xs).length + rest.length < values.length

section
variable {lost later : Prop} {xs ys : List (Yielded V)} {values mid rest : List Text}

theorem Counts.refl (hlost : ¬ lost) (values : List Text) :
    Counts (V := V) lost [] values values :=
  ⟨(Nat.zero_add _).le, fun h => absurd h hlost⟩

theorem Counts.of_lt (h : (suppliedAll xs).length + rest.length < values.length) :
    Counts lost xs values rest :=
  ⟨h.le, fun _ => h⟩

theorem Counts.value (taker : Leaf V) (v : Value V) (val : Text) (values : List Text) :
    Counts False [.value taker v] (val :: values) values :=
  ⟨(Nat.add_comm _ _).le, False.elim⟩

theorem Counts.imp {lost' : Prop} (h : Counts lost xs values rest) (himp : lost' → lost) :
    Counts lost' xs values rest :=
  ⟨h.le, fun hlost => h.lt (himp hlost)⟩

theorem Counts.append (h : Counts lost xs values mid) (h' : Counts later ys mid rest) :
    Counts (lost ∨ later) (xs ++ ys) values rest := by
  have hlength : (suppliedAll (xs ++ ys)).length =
      (suppliedAll xs).length + (suppliedAll ys).length := by
    rw [suppliedAll_append, List.length_append]
  have hle := h.le
  have hle' := h'.le
  refine ⟨by omega, ?_⟩
  rintro (hlost | hlater)
  · have hlt := h.lt hlost
    omega
  · have hlt := h'.lt hlater
    omega

end

theorem iterations_counts {collate : Collate V} {lost : List Text → Prop}
    (hcollate : ∀ v xs rest, collate v = .ok (xs, rest) → Counts (lost v) xs v rest)
    {fuel : ℕ} {values rest : List Text} {xs : List (Yielded V)}
    (h : iterations collate fuel values = .ok (xs, rest)) :
    Counts (∃ v, Rounds collate values v ∧ lost v) xs values rest := by
  have hnil : Counts (V := V) (∃ v, Rounds collate [] v ∧ lost v) [] [] [] := by
    refine .refl ?_ _
    rintro ⟨v, hv, -⟩
    exact not_rounds_nil hv
  obtain ⟨rfl, hcounts⟩ := iterations_induction (P := fun values xs =>
    Counts (∃ v, Rounds collate values v ∧ lost v) xs values [])
    hnil (fun hne hys hlater => by
      refine ((hcollate _ _ _ hys).append hlater).imp ?_
      rintro ⟨v, hv, hlost⟩
      obtain rfl | hv := (rounds_iff hne hys).mp hv
      · exact .inl hlost
      · exact .inr ⟨v, hv, hlost⟩) h
  exact hcounts

theorem matchOptional_counts {fuel : ℕ} {group : ArgList V} {values mid : List Text}
    {x : Option (Yielded V)}
    (hcollate : ∀ {xs : List (Yielded V)}, collate fuel group values = .ok (xs, mid) →
      Counts (group.Loses fuel values) xs values mid)
    (h : matchOptional (collate fuel group) group.defaults values = .ok (x, mid)) :
    Counts (∃ ds xs mid, group.defaults = .ok ds ∧ values ≠ [] ∧
      collate fuel group values = .ok (xs, mid) ∧ group.Loses fuel values) x.toList values mid := by
  obtain ⟨ds, zs, -, -, hgroup, rfl⟩ | ⟨ds, hds, hdeclines, rfl, rfl⟩ | ⟨hstop, rfl, rfl⟩ :=
    matchOptional_cases h
  · obtain ⟨hle, hlt⟩ := hcollate hgroup
    have hsupplied : suppliedAll (some (.group zs)).toList = suppliedAll zs := List.append_nil _
    refine ⟨hsupplied ▸ hle, ?_⟩
    rintro ⟨-, -, -, -, -, -, hl⟩
    exact hsupplied ▸ hlt hl
  · refine ⟨(Nat.zero_add _).le, ?_⟩
    rintro ⟨-, zs, mid', -, hvalues, hgroup, -⟩
    obtain hnil | ⟨message, herror⟩ := hdeclines
    · exact absurd hnil hvalues
    · rw [herror] at hgroup
      cases hgroup
  · refine .refl ?_ _
    rintro ⟨ds, -, -, hds, -⟩
    rw [hstop] at hds
    cases hds

theorem collate_counts {fuel : ℕ} {args : ArgList V} {values rest : List Text}
    {xs : List (Yielded V)} (h : collate fuel args values = .ok (xs, rest)) :
    Counts (args.Loses fuel values) xs values rest := by
  induction args generalizing values rest xs with
  | nil =>
    cases h
    exact .refl id _
  | keyword kw args ih =>
    obtain ⟨rfl, rfl, rfl⟩ | ⟨mid, ys, rfl, hrest, rfl⟩ := collate_keyword_cases h
    · refine .refl ?_ _
      rintro ⟨x, mid, hx, -⟩
      cases hx
    · refine ((Counts.value _ _ _ _).append (ih hrest)).imp ?_
      rintro ⟨x, mid', hx, hl⟩
      obtain ⟨hmid, -⟩ := matchKeyword_some hx
      cases hmid
      exact .inr hl
  | parameter p args ih =>
    obtain ⟨rfl, ⟨rfl, rfl⟩ | ⟨val, rfl, hcall⟩⟩ | ⟨val, mid, rfl, hstop, hrest⟩ |
      ⟨val, v, mid, ys, rfl, hcall, hrest, rfl⟩ := collate_parameter_cases h
    · refine .refl ?_ _
      rintro (⟨val, more, hval, -⟩ | ⟨x, mid, hx, -⟩)
      · cases hval
      · cases hx
    · exact .of_lt ((Nat.zero_add _).trans_lt (Nat.lt_succ_self _))
    · exact .of_lt ((ih hrest).le.trans_lt (Nat.lt_succ_self _))
    · refine ((Counts.value _ _ _ _).append (ih hrest)).imp ?_
      rintro (⟨word, more, hval, hstop⟩ | ⟨x, mid', hx, hl⟩)
      · cases hval
        rw [hcall] at hstop
        cases hstop
      · rw [p.match_of_call hcall] at hx
        cases hx
        exact .inr hl
  | optional group args ihgroup ih =>
    obtain ⟨x, mid, ys, hmatch, hrest, rfl⟩ := collate_optional_cases h
    refine ((matchOptional_counts ihgroup hmatch).append (ih hrest)).imp ?_
    rintro (hl | ⟨y, mid', hy, hl⟩)
    · exact .inl hl
    · rw [hmatch] at hy
      cases hy
      exact .inr hl
  | repeated group args ihgroup ih =>
    obtain ⟨zs, mid, ys, hmatch, hrest, rfl⟩ := collate_repeated_cases h
    have hfirst := iterations_counts (fun _ _ _ hmembers => ihgroup hmembers)
      (matchRepeated_ok hmatch).2
    refine (hfirst.append (ih hrest)).imp ?_
    rintro (hl | ⟨zs', mid', hzs, hl⟩)
    · exact .inl hl
    · rw [hmatch] at hzs
      cases hzs
      exact .inr hl

/-- When the handler function is called, what the line supplied is the name of the command and
the words of the line in their order, each as the argument that took it converts it, unless the
matching comes to a word for which a function raises `StopIteration`. -/
theorem takes_every_word_iff (fuel : ℕ) (h : CommandHandler V) (hnone : h.args.NeverNone)
    (line : Text) (xs : List (Yielded V)) (hcall : h.call fuel line = .ok xs) :
    List.Forall₂ (Took h.args.leaves) (suppliedAll xs) (h.name :: split line) ↔
      ¬ h.args.Loses fuel (h.name :: split line) := by
  have hcollate := CommandHandler.call_ok hcall
  constructor
  · intro hforall hloses
    have hlt := (collate_counts hcollate).lt hloses
    rw [hforall.length_eq] at hlt
    exact absurd hlt (lt_irrefl _)
  · intro hloses
    obtain ⟨used, hused, hforall⟩ := collate_takes hnone hloses hcollate
    rw [List.append_nil] at hused
    rwa [hused]

def test2 : CommandHandler Unit :=
  command "test2".toList (.tuple (.string "optional-keyword".toList (.string "PARAM".toList .nil))
    (.string "MANDATORY".toList .nil))

theorem takes_every_word_iff_test2 :
    ∃ xs, test2.call 9 "optional-keyword a b".toList = .ok xs ∧
      (List.Forall₂ (Took test2.args.leaves) (suppliedAll xs)
        (test2.name :: split "optional-keyword a b".toList) ↔
      ¬ test2.args.Loses 9 (test2.name :: split "optional-keyword a b".toList)) := by
  have hnone : test2.args.NeverNone := ⟨⟨by simp [Parameter.call, Parameter.plain], trivial⟩,
    by simp [Parameter.call, Parameter.plain], trivial⟩
  exact ⟨_, rfl, takes_every_word_iff 9 test2 hnone "optional-keyword a b".toList _ rfl⟩

def exhausted : Parameter Unit :=
  ⟨"nextitem".toList, some fun _ => .raises "StopIteration".toList, .none, none⟩

def exhaustedList : CommandHandler Unit :=
  command "foo".toList (.callable exhausted (.list (.string "PARAMS".toList .nil) .nil))

theorem exhausted_call (word : Text) : exhausted.call word = .error stopIteration := rfl

/-- The word `a` is lost, and the handler function is called with the others. -/
theorem exhaustedList_loses :
    exhaustedList.args.NeverNone ∧ ∃ xs, exhaustedList.call 9 "a b c".toList = .ok xs ∧
      ¬ List.Forall₂ (Took exhaustedList.args.leaves) (suppliedAll xs)
        (exhaustedList.name :: split "a b c".toList) := by
  refine ⟨⟨fun word h => ?_, ⟨by simp [Parameter.call, Parameter.plain], trivial⟩, trivial⟩,
    _, rfl, fun hforall => ?_⟩
  · rw [exhausted_call] at h
    cases h
  exact absurd hforall.length_eq (by decide)

end Matahari.Shell
