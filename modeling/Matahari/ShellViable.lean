import Matahari.ShellCompletionOffers

set_option autoImplicit false

/-!
# Completions that lead nowhere

Completion tests the words in front of the fragment as if they were fragments, too, and on every
path of the graph. The matcher has to take them as they are, and goes one way only.
-/
namespace Matahari.Shell
open Mainloop

variable {V : Type}

/-- Keywords that are words, parameters without functions, and optional groups of these. -/
def ArgList.Simple : ArgList V → Prop
  | .nil => True
  | .keyword kw rest => IsWord kw ∧ rest.Simple
  | .parameter p rest => p.IsPlain ∧ rest.Simple
  | .optional args rest => args.Simple ∧ rest.Simple
  | .repeated _ _ => False

/-- The command accepts a line that begins with these words, its own name among them. -/
def Viable (h : CommandHandler V) (ws : List Text) : Prop :=
  ∃ fuel line xs, ws <+: h.name :: split line ∧ h.call fuel line = .ok xs

def Admits : Leaf V → Text → Prop
  | .keyword kw, v => v <+: kw
  | .parameter _, _ => True

/-- The path begins with arguments that take words which begin with these. -/
def Abbreviates (path : List (Node V)) (vs : List Text) : Prop :=
  ∃ ls more, path = ls.map .leaf ++ more ∧ List.Forall₂ Admits ls vs

section
variable {fuel : ℕ} {args : ArgList V} {xs : List (Yielded V)}

/-! ## The matcher on the beginning of a line -/

theorem collate_parameter {p : Parameter V} (hp : p.IsPlain) (args : ArgList V) (val : Text)
    (values : List Text) : collate fuel (.parameter p args) (val :: values) =
      (collate fuel args values).map fun r => (.value (.parameter p) (.str val) :: r.1, r.2) :=
  collate_parameter_of_call (hp.call val) args values

theorem ArgList.Simple.defaults (hsimple : args.Simple) : ∃ ds, args.defaults = .ok ds := by
  induction args with
  | nil => exact ⟨_, rfl⟩
  | keyword kw rest ih =>
    obtain ⟨ds, hds⟩ := ih hsimple.2
    refine ⟨.none :: ds, ?_⟩
    rw [ArgList.defaults, hds]
    rfl
  | parameter p rest ih =>
    obtain ⟨ds, hds⟩ := ih hsimple.2
    refine ⟨.none :: ds, ?_⟩
    rw [ArgList.defaults, Parameter.defaultValue, hsimple.1.1, hds]
    rfl
  | optional group rest ihgroup ih =>
    obtain ⟨d, hd⟩ := ihgroup hsimple.1
    obtain ⟨ds, hds⟩ := ih hsimple.2
    refine ⟨.list d :: ds, ?_⟩
    rw [ArgList.defaults, hd, hds]
    rfl
  | repeated => exact hsimple.elim

theorem collate_nil (hsimple : args.Simple) : ∃ xs, collate fuel args [] = .ok (xs, []) := by
  induction args with
  | nil => exact ⟨_, rfl⟩
  | keyword => exact ⟨_, rfl⟩
  | parameter => exact ⟨_, rfl⟩
  | optional group rest _ ih =>
    obtain ⟨xs, hxs⟩ := ih hsimple.2
    obtain ⟨ds, hds⟩ := ArgList.Simple.defaults hsimple.1
    have hgroup : matchOptional (collate fuel group) group.defaults [] =
        .ok (some (.defaults ds), []) := by
      rw [hds]
      rfl
    refine ⟨.defaults ds :: xs, ?_⟩
    rw [collate_optional_of_eq hgroup, hxs]
    rfl
  | repeated => exact hsimple.elim

/-- What follows the words is not looked at as long as words are left: the match ends with all
words taken, or it is the same with more of them. -/
def Unaffected (fuel : ℕ) (args : ArgList V) (ws more : List Text) : Prop :=
  (∃ xs, collate fuel args ws = .ok (xs, [])) ∨
  (∃ message, collate fuel args ws = .error (.invalidArgument message) ∧
    collate fuel args (ws ++ more) = .error (.invalidArgument message)) ∨
  ∃ xs mid, mid ≠ [] ∧ collate fuel args ws = .ok (xs, mid) ∧
    collate fuel args (ws ++ more) = .ok (xs, mid ++ more)

theorem Unaffected.cons {rest : ArgList V} {ws ws' more : List Text} {x : Yielded V}
    (h : Unaffected fuel rest ws' more)
    (hws : collate fuel args ws = (collate fuel rest ws').map fun r => (x :: r.1, r.2))
    (hmore : collate fuel args (ws ++ more) =
      (collate fuel rest (ws' ++ more)).map fun r => (x :: r.1, r.2)) :
    Unaffected fuel args ws more := by
  obtain ⟨xs, hxs⟩ | ⟨message, herror, herror'⟩ | ⟨xs, mid, hmid, hxs, hxs'⟩ := h
  · exact .inl ⟨x :: xs, by rw [hws, hxs]; rfl⟩
  · exact .inr (.inl ⟨message, by rw [hws, herror]; rfl, by rw [hmore, herror']; rfl⟩)
  · exact .inr (.inr ⟨x :: xs, mid, hmid, by rw [hws, hxs]; rfl, by rw [hmore, hxs']; rfl⟩)

/-- A group either takes all words, or leaves the same with more of them. -/
theorem matchOptional_append {group : ArgList V} {ws more : List Text} (hsimple : group.Simple)
    (h : Unaffected fuel group ws more) (hws : ws ≠ []) :
    (∃ ys, matchOptional (collate fuel group) group.defaults ws = .ok (some (.group ys), []) ∧
      collate fuel group ws = .ok (ys, [])) ∨
    ∃ x mid, mid ≠ [] ∧ matchOptional (collate fuel group) group.defaults ws = .ok (some x, mid) ∧
      matchOptional (collate fuel group) group.defaults (ws ++ more) =
        .ok (some x, mid ++ more) := by
  have hmore : ws ++ more ≠ [] := List.append_ne_nil_of_left_ne_nil hws more
  obtain ⟨ds, hds⟩ := hsimple.defaults
  rw [hds, matchOptional, matchOptional, if_neg hws, if_neg hmore]
  obtain ⟨ys, hys⟩ | ⟨message, herror, herror'⟩ | ⟨ys, mid, hmid, hys, hys'⟩ := h
  · exact .inl ⟨ys, by rw [hys], hys⟩
  · exact .inr ⟨.defaults ds, ws, hws, by rw [herror], by rw [herror']⟩
  · exact .inr ⟨.group ys, mid, hmid, by rw [hys], by rw [hys']⟩

theorem collate_append (hsimple : args.Simple) (ws more : List Text) :
    Unaffected fuel args ws more := by
  induction args generalizing ws with
  | nil =>
    cases ws with
    | nil => exact .inl ⟨[], rfl⟩
    | cons w ws => exact .inr (.inr ⟨[], w :: ws, List.cons_ne_nil _ _, rfl, rfl⟩)
  | keyword kw rest ih =>
    cases ws with
    | nil => exact .inl ⟨[], rfl⟩
    | cons w ws =>
      by_cases hkw : kw = w
      · subst hkw
        exact (ih hsimple.2 ws).cons (collate_keyword kw rest ws)
          (collate_keyword kw rest (ws ++ more))
      · have hrefused : ∀ values, collate fuel (.keyword kw rest) (w :: values) =
            .error (.invalidArgument ("Invalid keyword '".toList ++ w ++ "'".toList)) := by
          intro values
          rw [collate, matchKeyword, if_pos hkw]
          rfl
        exact .inr (.inl ⟨_, hrefused ws, hrefused (ws ++ more)⟩)
  | parameter p rest ih =>
    cases ws with
    | nil => exact .inl ⟨[], rfl⟩
    | cons w ws =>
      exact (ih hsimple.2 ws).cons (collate_parameter hsimple.1 rest w ws)
        (collate_parameter hsimple.1 rest w (ws ++ more))
  | optional group rest ihgroup ih =>
    by_cases hws : ws = []
    · subst hws
      exact .inl (collate_nil hsimple)
    obtain ⟨ys, hgroup, _⟩ | ⟨x, mid, _, hgroup, hgroup'⟩ :=
      matchOptional_append hsimple.1 (ihgroup hsimple.1 ws) hws
    · -- The group has taken all words, and those after it get none.
      obtain ⟨xs, hxs⟩ := @collate_nil V fuel rest hsimple.2
      refine .inl ⟨.group ys :: xs, ?_⟩
      rw [collate_optional_of_eq hgroup, hxs]
      rfl
    · exact (ih hsimple.2 mid).cons (collate_optional_of_eq hgroup) (collate_optional_of_eq hgroup')
  | repeated => exact hsimple.elim

/-- With these words after them everything that the definition has is supplied. -/
def Fills (fuel : ℕ) (args : ArgList V) (ws more : List Text) : Prop :=
  (∀ w ∈ more, IsWord w) ∧ ∀ tail, ∃ ys,
    collate fuel args (ws ++ (more ++ tail)) = .ok (ys, tail) ∧ ys.length = args.length

theorem Fills.cons {rest : ArgList V} {ws ws' more : List Text} (h : Fills fuel rest ws' more)
    (hlength : args.length = rest.length + 1)
    (hmore : ∀ tail, ∃ x, collate fuel args (ws ++ tail) =
      (collate fuel rest (ws' ++ tail)).map fun r => (x :: r.1, r.2)) :
    Fills fuel args ws more := by
  refine ⟨h.1, fun tail => ?_⟩
  obtain ⟨ys, hys, hlen⟩ := h.2 tail
  obtain ⟨x, hx⟩ := hmore (more ++ tail)
  refine ⟨x :: ys, ?_, ?_⟩
  · rw [hx, hys]
    rfl
  · rw [hlength, List.length_cons, hlen]

theorem Fills.append {group rest : ArgList V} {ws more more' : List Text} (hsimple : group.Simple)
    (hgroup : Fills fuel group ws more) (hrest : Fills fuel rest [] more') :
    Fills fuel (.optional group rest) ws (more ++ more') := by
  refine ⟨List.forall_mem_append.mpr ⟨hgroup.1, hrest.1⟩, fun tail => ?_⟩
  obtain ⟨zs, hzs, _⟩ := hgroup.2 (more' ++ tail)
  obtain ⟨ys, hys, hlen⟩ := hrest.2 tail
  rw [List.append_assoc more]
  have hmatch : ∃ x, matchOptional (collate fuel group) group.defaults
      (ws ++ (more ++ (more' ++ tail))) = .ok (some x, more' ++ tail) := by
    obtain ⟨ds, hds⟩ := hsimple.defaults
    rw [hds, matchOptional]
    split
    · rename_i hnil
      refine ⟨_, congrArg (fun values => Except.ok (_, values)) ?_⟩
      rw [hnil]
      have hparts := List.append_eq_nil_iff.mp hnil
      exact (List.append_eq_nil_iff.mp hparts.2).2.symm
    · rw [hzs]
      exact ⟨_, rfl⟩
  obtain ⟨x, hx⟩ := hmatch
  refine ⟨x :: ys, ?_, ?_⟩
  · rw [collate_optional_of_eq hx]
    rw [List.nil_append] at hys
    rw [hys]
    rfl
  · rw [ArgList.length, List.length_cons, hlen]

theorem Fills.first {w : Text} {more : List Text} (h : Fills fuel args [w] more) (hw : IsWord w) :
    Fills fuel args [] (w :: more) :=
  ⟨List.forall_mem_cons.mpr ⟨hw, h.1⟩, h.2⟩

theorem isWord_x : IsWord ['x'] := ⟨List.cons_ne_nil _ _, by simp [isSpace]⟩

/-- What has been taken can be completed to everything that the definition has. -/
theorem exists_fill (hsimple : args.Simple) {ws : List Text}
    (h : collate fuel args ws = .ok (xs, [])) : ∃ more, Fills fuel args ws more := by
  induction args generalizing ws xs with
  | nil =>
    cases h
    exact ⟨[], fun _ hw => absurd hw List.not_mem_nil, fun tail => ⟨[], rfl, rfl⟩⟩
  | keyword kw rest ih =>
    have hcons : ∀ {ws more}, Fills fuel rest ws more →
        Fills fuel (.keyword kw rest) (kw :: ws) more := fun hfill =>
      hfill.cons rfl fun tail => ⟨_, collate_keyword kw rest _⟩
    cases ws with
    | nil =>
      obtain ⟨ys, hys⟩ := @collate_nil V fuel rest hsimple.2
      obtain ⟨more, hfill⟩ := ih hsimple.2 hys
      exact ⟨kw :: more, (hcons hfill).first hsimple.1⟩
    | cons w ws =>
      by_cases hkw : kw = w
      · subst hkw
        rw [collate_keyword] at h
        obtain ⟨⟨ys, rest'⟩, hys, heq⟩ := map_eq_ok h
        cases heq
        obtain ⟨more, hfill⟩ := ih hsimple.2 hys
        exact ⟨more, hcons hfill⟩
      · rw [collate, matchKeyword, if_pos hkw] at h
        cases h
  | parameter p rest ih =>
    have hcons : ∀ {w ws more}, Fills fuel rest ws more →
        Fills fuel (.parameter p rest) (w :: ws) more := fun hfill =>
      hfill.cons rfl fun tail => ⟨_, collate_parameter hsimple.1 rest _ _⟩
    cases ws with
    | nil =>
      obtain ⟨ys, hys⟩ := @collate_nil V fuel rest hsimple.2
      obtain ⟨more, hfill⟩ := ih hsimple.2 hys
      exact ⟨['x'] :: more, (hcons hfill).first isWord_x⟩
    | cons w ws =>
      rw [collate_parameter hsimple.1] at h
      obtain ⟨⟨ys, rest'⟩, hys, heq⟩ := map_eq_ok h
      cases heq
      obtain ⟨more, hfill⟩ := ih hsimple.2 hys
      exact ⟨more, hcons hfill⟩
  | optional group rest ihgroup ih =>
    obtain ⟨x, mid, ys, hmatch, hys, rfl⟩ := collate_optional_cases h
    by_cases hmid : mid = []
    · subst hmid
      have hused : ∃ zs, collate fuel group ws = .ok (zs, []) := by
        by_cases hws : ws = []
        · subst hws
          exact collate_nil hsimple.1
        obtain ⟨zs, _, hzs⟩ | ⟨x', mid', hne, hmatch', _⟩ :=
          matchOptional_append hsimple.1 (collate_append hsimple.1 ws []) hws
        · exact ⟨zs, hzs⟩
        · rw [hmatch] at hmatch'
          cases hmatch'
          exact absurd rfl hne
      obtain ⟨zs, hzs⟩ := hused
      obtain ⟨more, hgroup⟩ := ihgroup hsimple.1 hzs
      obtain ⟨more', hrest⟩ := ih hsimple.2 hys
      exact ⟨more ++ more', hgroup.append hsimple.1 hrest⟩
    · -- The group does not see what comes after the words, and the rest is filled.
      have hws : ws ≠ [] := by
        rintro rfl
        obtain ⟨ds, hds⟩ := hsimple.1.defaults
        rw [hds] at hmatch
        cases hmatch
        exact hmid rfl
      have hsame : ∀ tail, ∃ y, matchOptional (collate fuel group) group.defaults (ws ++ tail) =
          .ok (some y, mid ++ tail) := by
        intro tail
        obtain ⟨zs, hmatch', _⟩ | ⟨x', mid', _, hmatch', htail⟩ :=
          matchOptional_append hsimple.1 (collate_append hsimple.1 ws tail) hws
        · rw [hmatch] at hmatch'
          cases hmatch'
          exact absurd rfl hmid
        · rw [hmatch] at hmatch'
          cases hmatch'
          exact ⟨x', htail⟩
      obtain ⟨more, hfill⟩ := ih hsimple.2 hys
      refine ⟨more, hfill.cons rfl fun tail => ?_⟩
      obtain ⟨y, hy⟩ := hsame tail
      exact ⟨y, collate_optional_of_eq hy⟩
  | repeated => exact hsimple.elim

end

/-! ## What can be executed -/

section
variable {name : Text} {args : ArgList V} {ws : List Text}

/-- Words that give everything that the definition has make a line that is accepted. -/
theorem exists_call {fuel : ℕ} {words : List Text} {ys : List (Yielded V)}
    (hwords : ∀ w ∈ words, IsWord w)
    (hmatch : collate fuel (.keyword name args) words = .ok (ys, []))
    (hlength : ys.length = args.length + 1) :
    ∃ line, words = name :: split line ∧
      (⟨name, .keyword name args⟩ : CommandHandler V).call fuel line = .ok ys := by
  cases words with
  | nil =>
    cases hmatch
    exact absurd hlength (Nat.succ_ne_zero _).symm
  | cons w tail =>
    have hname : name = w := by
      by_contra hne
      rw [collate, matchKeyword, if_pos hne] at hmatch
      cases hmatch
    subst hname
    have hsplit : split (join (tail ++ [[]])) = tail := by
      rw [split_join (List.forall_mem_cons.mp hwords).2 (fun c hc => absurd hc List.not_mem_nil)]
      exact List.append_nil tail
    refine ⟨join (tail ++ [[]]), by rw [hsplit], ?_⟩
    rw [CommandHandler.call, hsplit, hmatch]
    have hall : ¬ ys.length < (ArgList.keyword name args).length :=
      Nat.not_lt.mpr (le_of_eq hlength.symm)
    change (if ys.length < (ArgList.keyword name args).length then _ else _) = _
    rw [if_neg hall, if_neg (not_not.mpr rfl)]
    rfl

/-- A line that goes on after the words is accepted if and only if the matcher takes them all. -/
theorem viable_iff (hname : IsWord name) (hsimple : args.Simple) (hws : ∀ w ∈ ws, IsWord w) :
    Viable (⟨name, .keyword name args⟩ : CommandHandler V) ws ↔
      ∃ fuel xs, collate fuel (.keyword name args) ws = .ok (xs, []) := by
  have hkeyword : (ArgList.keyword name args).Simple := ⟨hname, hsimple⟩
  constructor
  · intro ⟨fuel, line, xs, ⟨more, hline⟩, hcall⟩
    have hmatch := CommandHandler.call_ok hcall
    dsimp only at hmatch hline
    rw [← hline] at hmatch
    refine ⟨fuel, ?_⟩
    obtain hall | ⟨message, _, herror⟩ | ⟨ys, mid, _, hys, hmore⟩ :=
      @collate_append V fuel _ hkeyword ws more
    · exact hall
    · rw [hmatch] at herror
      cases herror
    · rw [hmatch] at hmore
      have hmid : mid ++ more = [] := congrArg Prod.snd (Except.ok.inj hmore).symm
      rw [(List.append_eq_nil_iff.mp hmid).1] at hys
      exact ⟨ys, hys⟩
  · intro ⟨fuel, xs, hxs⟩
    obtain ⟨more, hmore, hfill⟩ := exists_fill hkeyword hxs
    obtain ⟨ys, hys, hlength⟩ := hfill []
    rw [List.append_nil] at hys
    obtain ⟨line, hline, hcall⟩ :=
      exists_call (List.forall_mem_append.mpr ⟨hws, hmore⟩) hys hlength
    exact ⟨fuel, line, ys, ⟨more, hline⟩, hcall⟩

/-! ## What is offered -/

theorem Leaf.IsPlain.complete_admits {l : Leaf V} (h : l.IsPlain) (v : Text) :
    ∃ m, l.complete v = .ok m ∧ (m ≠ [] ↔ Admits l v) := by
  cases l with
  | keyword kw =>
    refine ⟨_, rfl, ?_⟩
    rw [Admits, ← List.isPrefixOf_iff_prefix]
    cases v.isPrefixOf kw <;> simp
  | parameter p =>
    have hcall := Parameter.IsPlain.call h v
    have hcomplete : p.complete = none := h.2
    unfold Leaf.complete
    dsimp only
    rw [hcomplete]
    dsimp only
    split
    · exact ⟨_, rfl, by simp [Admits]⟩
    · rw [hcall]
      exact ⟨_, rfl, by simp [Admits]⟩

theorem abbreviates_cons {l : Leaf V} {ls : List (Leaf V)} {v : Text} {vs : List Text} :
    Abbreviates ((l :: ls).map .leaf) (v :: vs) ↔ Admits l v ∧ Abbreviates (ls.map .leaf) vs := by
  constructor
  · rintro ⟨ls', more, hpath, hforall⟩
    cases hforall with
    | cons hadmits hrest =>
      rw [List.map_cons, List.map_cons, List.cons_append] at hpath
      obtain ⟨hl, hmore⟩ := List.cons.inj hpath
      cases hl
      exact ⟨hadmits, _, more, hmore, hrest⟩
  · rintro ⟨hadmits, ls', more, hpath, hforall⟩
    exact ⟨l :: ls', more, congrArg _ hpath, .cons hadmits hforall⟩

/-- Something is offered along a path that admits all of the words. -/
theorem completions_admits {ls : List (Leaf V)} (hls : ∀ l ∈ ls, l.IsPlain) (v : Text)
    (vs : List Text) :
    ∃ m, completions (chainTake (vs.length + 1) (ls.map .leaf)) (v :: vs) = .ok m ∧
      (m ≠ [] ↔ Abbreviates (ls.map .leaf) (v :: vs)) := by
  induction ls generalizing v vs with
  | nil =>
    refine ⟨[], ?_, iff_of_false (fun h => h rfl) ?_⟩
    · rw [List.map_nil, chainTake_nil]
      rfl
    · rintro ⟨ls', more, hpath, hforall⟩
      cases hforall
      cases hpath
  | cons l ls ih =>
    obtain ⟨hl, hls⟩ := List.forall_mem_cons.mp hls
    obtain ⟨m, hm, hadmits⟩ := hl.complete_admits v
    rw [List.map_cons, chainTake, completions, hm, ← List.map_cons, abbreviates_cons, ← hadmits]
    change ∃ m', (if m = [] then _ else _) = _ ∧ _
    by_cases hnone : m = []
    · rw [if_pos hnone]
      exact ⟨[], rfl, by simp [hnone]⟩
    rw [if_neg hnone]
    cases vs with
    | nil =>
      rw [if_pos rfl]
      exact ⟨m, rfl, iff_of_true hnone ⟨hnone, [], _, rfl, .nil⟩⟩
    | cons v' vs =>
      rw [if_neg (List.cons_ne_nil _ _)]
      obtain ⟨m', hm', hrest⟩ := ih hls v' vs
      refine ⟨m', hm', ?_⟩
      rw [hrest]
      simp [hnone]

theorem ArgList.Simple.nodes (h : args.Simple) :
    ∀ node ∈ args.nodes, ∃ l : Leaf V, node = .leaf l ∧ l.IsPlain := by
  induction args with
  | nil => exact fun node hnode => absurd hnode List.not_mem_nil
  | keyword kw rest ih => exact List.forall_mem_cons.mpr ⟨⟨_, rfl, trivial⟩, ih h.2⟩
  | parameter p rest ih => exact List.forall_mem_cons.mpr ⟨⟨_, rfl, h.1⟩, ih h.2⟩
  | optional group rest ihgroup ih =>
    exact List.forall_mem_append.mpr ⟨ihgroup h.1, ih h.2⟩
  | repeated => exact h.elim

theorem exists_map_leaf {path : List (Node V)}
    (h : ∀ node ∈ path, ∃ l : Leaf V, node = .leaf l ∧ l.IsPlain) :
    ∃ ls : List (Leaf V), path = ls.map .leaf ∧ ∀ l ∈ ls, l.IsPlain := by
  induction path with
  | nil => exact ⟨[], rfl, fun l hl => absurd hl List.not_mem_nil⟩
  | cons node path ih =>
    obtain ⟨⟨l, rfl, hl⟩, hpath⟩ := List.forall_mem_cons.mp h
    obtain ⟨ls, rfl, hls⟩ := ih hpath
    exact ⟨l :: ls, rfl, List.forall_mem_cons.mpr ⟨hl, hls⟩⟩

theorem exists_leaves (hsimple : args.Simple) {path : List (Node V)}
    (hpath : path ∈ argPaths (.keyword name args)) :
    ∃ ls : List (Leaf V), path = ls.map .leaf ∧ ∀ l ∈ ls, l.IsPlain := by
  rw [argPaths_eq] at hpath
  obtain ⟨ns, -, rfl⟩ := List.mem_map.mp hpath
  refine exists_map_leaf fun node hnode => ?_
  obtain ⟨n, -, hn⟩ := List.mem_filterMap.mp hnode
  rcases List.mem_cons.mp (List.mem_of_getElem? hn) with rfl | hmem
  · exact ⟨_, rfl, trivial⟩
  · exact hsimple.nodes node hmem

theorem mapM_mem {α β : Type} {f : α → Except Raised β} {xs : List α} {ys : List β}
    (h : xs.mapM f = .ok ys) {y : β} (hy : y ∈ ys) : ∃ x ∈ xs, f x = .ok y := by
  induction xs generalizing ys with
  | nil =>
    cases h
    cases hy
  | cons x xs ih =>
    rw [List.mapM_cons] at h
    obtain ⟨z, hz, hmore⟩ := bind_eq_ok h
    obtain ⟨zs, hzs, hdone⟩ := bind_eq_ok hmore
    cases hdone
    rcases List.mem_cons.mp hy with rfl | hmem
    · exact ⟨x, List.mem_cons_self, hz⟩
    · obtain ⟨x', hx', hy'⟩ := ih hzs hmem
      exact ⟨x', List.mem_cons_of_mem _ hx', hy'⟩

/-- Nothing is offered if and only if no path admits the words and the fragment. -/
theorem complete_nonempty_iff (hsimple : args.Simple) (hws : ∀ w ∈ ws, IsWord w) {p : Text}
    (hp : ∀ c ∈ p, isSpace c = false) (hne : ¬(ws = [] ∧ p = [])) :
    ∃ offers, CommandHandler.complete ⟨name, .keyword name args⟩ p (join (ws ++ [p])) =
        .ok offers ∧
      (offers ≠ ∅ ↔ ∃ path ∈ argPaths (.keyword name args), Abbreviates path (ws ++ [p])) := by
  have hpaths : ∀ path ∈ argPaths (.keyword name args), ∃ m,
      completions (chainTake (ws.length + 1) path) (ws ++ [p]) = .ok m ∧
        (m ≠ [] ↔ Abbreviates path (ws ++ [p])) := by
    intro path hpath
    obtain ⟨ls, rfl, hls⟩ := exists_leaves hsimple hpath
    cases ws with
    | nil => exact completions_admits hls p []
    | cons w ws =>
      have hm := completions_admits hls w (ws ++ [p])
      rw [List.length_append] at hm
      exact hm
  obtain ⟨candidates, hcandidates, hmem⟩ := mapM_ok fun path hpath =>
    (hpaths path hpath).imp fun m hm => hm.1
  refine ⟨candidates.flatten.toFinset, ?_, ?_⟩
  · rw [complete_eq hws hp hne, hcandidates]
    rfl
  rw [Ne, List.toFinset_eq_empty_iff, List.flatten_eq_nil_iff]
  constructor
  · intro hsome
    push Not at hsome
    obtain ⟨m, hm, hne⟩ := hsome
    obtain ⟨path, hpath, hcompletions⟩ := mapM_mem hcandidates hm
    obtain ⟨m', hm', habbreviates⟩ := hpaths path hpath
    rw [hcompletions] at hm'
    cases hm'
    exact ⟨path, hpath, habbreviates.mp hne⟩
  · intro ⟨path, hpath, habbreviates⟩ hnone
    obtain ⟨m, hm, hiff⟩ := hpaths path hpath
    exact hiff.mpr habbreviates (hnone m (hmem path hpath m hm))

end

/-- What `complete` offers can be executed after the words in front if and only if the matcher
takes these, or no path admits them and the fragment. -/
theorem offers_viable_iff (name : Text) (d : Definition V) (hname : IsWord name)
    (hsimple : d.args.Simple) (ws : List Text) (hws : ∀ w ∈ ws, IsWord w) (p : Text)
    (hp : ∀ c ∈ p, isSpace c = false) :
    (∀ offers, (command name d).complete p (join (ws ++ [p])) = .ok offers → offers ≠ ∅ →
      Viable (command name d) ws) ↔
    (∃ fuel xs, collate fuel (command name d).args ws = .ok (xs, [])) ∨
      ∀ path ∈ argPaths (command name d).args, ¬ Abbreviates path (ws ++ [p]) := by
  have hviable := @viable_iff V name d.args ws hname hsimple hws
  change Viable (command name d) ws ↔ _ at hviable
  by_cases hne : ws = [] ∧ p = []
  · obtain ⟨rfl, rfl⟩ := hne
    refine iff_of_true ?_ (.inl ⟨0, [], rfl⟩)
    exact fun _ _ _ => hviable.mpr ⟨0, [], rfl⟩
  obtain ⟨offers, hoffers, hnonempty⟩ :=
    @complete_nonempty_iff V name d.args ws hsimple hws p hp hne
  change (command name d).complete p _ = _ at hoffers
  constructor
  · intro h
    by_cases hsome : offers ≠ ∅
    · exact .inl (hviable.mp (h offers hoffers hsome))
    · refine .inr fun path hpath habbreviates => hsome ?_
      exact hnonempty.mpr ⟨path, hpath, habbreviates⟩
  · rintro (htakes | hnone) offers' hoffers' hsome
    · exact hviable.mpr htakes
    · rw [hoffers] at hoffers'
      cases hoffers'
      obtain ⟨path, hpath, habbreviates⟩ := hnonempty.mp hsome
      exact absurd habbreviates (hnone path hpath)

theorem offers_viable_iff_test2 :
    (∀ offers, test2.complete "a".toList (join (["test2".toList, "optional-keyword".toList] ++
      ["a".toList])) = .ok offers → offers ≠ ∅ →
      Viable test2 ["test2".toList, "optional-keyword".toList]) ↔
    (∃ fuel xs, collate fuel test2.args ["test2".toList, "optional-keyword".toList] =
      .ok (xs, [])) ∨
      ∀ path ∈ argPaths test2.args, ¬ Abbreviates path
        (["test2".toList, "optional-keyword".toList] ++ ["a".toList]) := by
  have hname : IsWord "test2".toList := ⟨by simp, by simp [isSpace]⟩
  have hkeyword : IsWord "optional-keyword".toList := ⟨by simp, by simp [isSpace]⟩
  have hws : ∀ w ∈ ["test2".toList, "optional-keyword".toList], IsWord w :=
    List.forall_mem_cons.mpr ⟨hname, List.forall_mem_singleton.mpr hkeyword⟩
  have hsimple : test2.args.Simple :=
    ⟨hname, ⟨hkeyword, ⟨rfl, rfl⟩, trivial⟩, ⟨rfl, rfl⟩, trivial⟩
  exact offers_viable_iff "test2".toList
    (.tuple (.string "optional-keyword".toList (.string "PARAM".toList .nil))
      (.string "MANDATORY".toList .nil)) hname hsimple.2 _ hws "a".toList (by simp [isSpace])

def twoKeywords : CommandHandler Unit :=
  command "foo".toList (.string "bar".toList (.string "baz".toList .nil))

/-- The beginning of a keyword is completed past, but is not executed. -/
theorem twoKeywords_offers :
    (∃ offers, twoKeywords.complete "ba".toList "foo b ba".toList = .ok offers ∧ offers ≠ ∅) ∧
      ¬ Viable twoKeywords ["foo".toList, "b".toList] := by
  refine ⟨⟨{"baz ".toList}, ?_, Finset.singleton_ne_empty _⟩, ?_⟩
  · decide +kernel
  · have hfoo : IsWord "foo".toList := ⟨by simp, by simp [isSpace]⟩
    have hbar : IsWord "bar".toList := ⟨by simp, by simp [isSpace]⟩
    have hbaz : IsWord "baz".toList := ⟨by simp, by simp [isSpace]⟩
    have hb : IsWord "b".toList := ⟨by simp, by simp [isSpace]⟩
    have hsimple : (ArgList.keyword "bar".toList (.keyword "baz".toList .nil) : ArgList Unit).Simple :=
      ⟨hbar, hbaz, trivial⟩
    intro h
    obtain ⟨fuel, xs, hmatch⟩ := (viable_iff hfoo hsimple
      (List.forall_mem_cons.mpr ⟨hfoo, List.forall_mem_singleton.mpr hb⟩)).mp h
    cases hmatch

end Matahari.Shell
