import Matahari.ShellCompletionPaths
import Matahari.ShellWords

set_option autoImplicit false

/-!
# What completion offers

The matcher follows a word over the arguments until the words of the line are used up. On a
path of the graph that goes on from it, the words of the line complete to themselves, and the
fragment at its end to what was matched there.
-/
namespace Matahari.Shell
open Mainloop

variable {V : Type}

/-! ## Chains of arguments -/

section
variable {α : Type} {xs : List α}

theorem length_cycleTake (hne : xs ≠ []) (n : ℕ) : (cycleTake xs n).length = n := by
  have hpos : 0 < xs.length := List.length_pos_iff.mpr hne
  induction n with
  | zero => rfl
  | succ n ih =>
    obtain ⟨x, hx⟩ : ∃ x, xs[n % xs.length]? = some x :=
      ⟨_, List.getElem?_eq_getElem (Nat.mod_lt n hpos)⟩
    unfold cycleTake at ih ⊢
    rw [List.range_succ, List.filterMap_append, List.length_append, ih]
    simp [hx]

theorem take_cycleTake (hne : xs ≠ []) {k n : ℕ} (h : k ≤ n) :
    (cycleTake xs n).take k = cycleTake xs k := by
  have hbegins : cycleTake xs k <+: cycleTake xs n := by
    unfold cycleTake
    rw [show n = k + (n - k) by omega, List.range_add, List.filterMap_append]
    exact List.prefix_append _ _
  have htake := List.prefix_iff_eq_take.mp hbegins
  rw [length_cycleTake hne] at htake
  exact htake.symm

theorem cycleTake_of_le {n : ℕ} (h : n ≤ xs.length) : cycleTake xs n = xs.take n := by
  induction n with
  | zero => rfl
  | succ n ih =>
    have hmod : n % xs.length = n := Nat.mod_eq_of_lt (by omega)
    have hprev := ih (by omega)
    unfold cycleTake at hprev ⊢
    rw [List.range_succ, List.filterMap_append, hprev, List.take_add_one]
    simp only [List.filterMap_cons, List.filterMap_nil, hmod]
    cases xs[n]? <;> rfl

theorem cycleTake_eq (xs : List α) (n : ℕ) :
    cycleTake xs n = xs.take n ++ cycleTake xs (n - xs.length) := by
  rcases Nat.le_total n xs.length with hle | hge
  · rw [cycleTake_of_le hle, Nat.sub_eq_zero_of_le hle]
    exact (List.append_nil _).symm
  · rw [List.take_of_length_le hge]
    have hfirst : (List.range xs.length).filterMap (fun i => xs[i % xs.length]?) = xs :=
      (cycleTake_of_le (le_refl xs.length)).trans (List.take_length)
    unfold cycleTake
    nth_rewrite 1 [show n = xs.length + (n - xs.length) by omega]
    rw [List.range_add, List.filterMap_append, hfirst, List.filterMap_map]
    refine congrArg (xs ++ ·) (List.filterMap_congr fun i _ => ?_)
    simp

end

section
variable {path more : List (Node V)} {n k : ℕ}

@[simp] theorem chainTake_zero (path : List (Node V)) : chainTake 0 path = [] := by
  cases path <;> rfl

@[simp] theorem chainTake_nil (n : ℕ) : chainTake n ([] : List (Node V)) = [] := by
  cases n <;> rfl

theorem chainTake_leaves (ls : List (Leaf V)) (n : ℕ) (path : List (Node V)) :
    chainTake (ls.length + n) (ls.map Node.leaf ++ path) = ls.map some ++ chainTake n path := by
  induction ls with
  | nil => simp
  | cons l ls ih =>
    rw [List.length_cons, Nat.add_right_comm, List.map_cons, List.cons_append, chainTake, ih]
    rfl

/-- A chain that is long enough does not change when the path goes on. -/
theorem chainTake_append (h : (chainTake n path).length = n) :
    chainTake n (path ++ more) = chainTake n path := by
  induction path generalizing n with
  | nil =>
    obtain rfl : 0 = n := by simpa using h
    simp
  | cons node path ih =>
    cases n with
    | zero => simp
    | succ n =>
      cases node with
      | leaf l =>
        rw [List.cons_append, chainTake, chainTake, ih (by simpa [chainTake] using h)]
      | repeated args =>
        rw [List.cons_append, chainTake, chainTake]
        rw [chainTake] at h
        split
        · rename_i hempty
          rw [if_pos hempty] at h
          exact ih h
        · rfl

theorem take_chainTake (h : k ≤ n) : (chainTake n path).take k = chainTake k path := by
  induction path generalizing n k with
  | nil => simp
  | cons node path ih =>
    cases k with
    | zero => simp
    | succ k =>
      obtain ⟨n, rfl⟩ : ∃ m, n = m + 1 := ⟨n - 1, by omega⟩
      cases node with
      | leaf l => rw [chainTake, chainTake, List.take_succ_cons, ih (by omega)]
      | repeated args =>
        rw [chainTake, chainTake]
        split
        · exact ih h
        · rename_i hne
          exact take_cycleTake hne h

end

/-! ## The definitions that completion is good for -/

def Parameter.IsPlain (p : Parameter V) : Prop := p.convert = none ∧ p.complete = none

def ArgList.Params : ArgList V → Prop
  | .nil => True
  | .parameter p rest => p.IsPlain ∧ rest.Params
  | .keyword _ _ | .optional _ _ | .repeated _ _ => False

def ArgList.isNil : ArgList V → Bool
  | .nil => true
  | .keyword _ _ | .parameter _ _ | .optional _ _ | .repeated _ _ => false

/-- Keywords, parameters without functions, optional groups, and at the end of it all possibly a
list of parameters that is repeated; `last` says that nothing comes after these arguments. -/
def ArgList.Plain : Bool → ArgList V → Prop
  | _, .nil => True
  | last, .keyword _ rest => rest.Plain last
  | last, .parameter p rest => p.IsPlain ∧ rest.Plain last
  | last, .optional args rest => args.Plain (last && rest.isNil) ∧ rest.Plain last
  | last, .repeated args rest => last = true ∧ rest.isNil = true ∧ args.Params

theorem Parameter.IsPlain.call {p : Parameter V} (h : p.IsPlain) (word : Text) :
    p.call word = .ok (some (.str word)) := by
  unfold Parameter.call
  rw [h.1]

theorem ArgList.Params.alwaysTakes {args : ArgList V} (h : args.Params) : args.AlwaysTakes := by
  induction args with
  | nil => trivial
  | parameter p rest ih => exact ⟨fun word => ⟨_, h.1.call word⟩, ih h.2⟩
  | keyword kw rest => cases h
  | optional args rest => cases h
  | repeated args rest => cases h

theorem ArgList.isNil_iff {args : ArgList V} : args.isNil = true ↔ args = .nil := by
  cases args <;> simp [ArgList.isNil]

theorem ArgList.Plain.alwaysTakes {args : ArgList V} {last : Bool} (h : args.Plain last) :
    args.AlwaysTakes := by
  induction args generalizing last with
  | nil => trivial
  | keyword kw rest ih =>
    have hrest : rest.Plain last := h
    exact ih hrest
  | parameter p rest ih => exact ⟨fun word => ⟨_, h.1.call word⟩, ih h.2⟩
  | optional args rest ihgroup ih => exact ⟨ihgroup h.1, ih h.2⟩
  | repeated args rest =>
    obtain ⟨-, hnil, hparams⟩ := h
    refine ⟨hparams.alwaysTakes, ?_⟩
    rw [ArgList.isNil_iff.mp hnil]
    trivial

/-! ## The matcher follows a word -/

def takersOf (xs : List (Yielded V)) : List (Leaf V) := (suppliedAll xs).map Prod.fst

@[simp] theorem takersOf_append (xs ys : List (Yielded V)) :
    takersOf (xs ++ ys) = takersOf xs ++ takersOf ys := by
  unfold takersOf
  rw [suppliedAll_append, List.map_append]

theorem length_takersOf {takers : List (Leaf V)} {xs : List (Yielded V)} {values rest : List Text}
    (h : Takes takers xs values rest) : (takersOf xs).length + rest.length = values.length := by
  obtain ⟨used, rfl, hforall⟩ := h
  unfold takersOf
  rw [List.length_map, List.length_append, hforall.length_eq]

/-- What has been matched is a word, or the beginning of one if no words are left. -/
def FollowsWord (i : ℕ) (args : ArgList V) (takers : List (Leaf V)) (rest : List Text) : Prop :=
  ∃ w, Word i args w ∧
    (w.map Prod.snd = takers.map Node.leaf ∨
      rest = [] ∧ chainTake takers.length (w.map Prod.snd) = takers.map some)

section
variable {i : ℕ} {args group : ArgList V} {takers takers' : List (Leaf V)} {mid rest : List Text}

theorem FollowsWord.stop (i : ℕ) (args : ArgList V) : FollowsWord i args [] [] :=
  ⟨_, Word.full args i, Or.inr ⟨rfl, chainTake_zero _⟩⟩

theorem FollowsWord.chainTake (h : FollowsWord i args takers rest) :
    ∃ w, Word i args w ∧ chainTake takers.length (w.map Prod.snd) = takers.map some := by
  obtain ⟨w, hw, hexact | ⟨-, hbegins⟩⟩ := h
  · refine ⟨w, hw, ?_⟩
    have hchain := chainTake_leaves takers 0 []
    rw [hexact]
    simpa using hchain
  · exact ⟨w, hw, hbegins⟩

theorem FollowsWord.keyword (kw : Text) (h : FollowsWord (i + 1) args takers rest) :
    FollowsWord i (.keyword kw args) (.keyword kw :: takers) rest := by
  obtain ⟨w, hw, hexact | ⟨hrest, hbegins⟩⟩ := h
  · exact ⟨_, .keyword hw, Or.inl (congrArg _ hexact)⟩
  · exact ⟨_, .keyword hw, Or.inr ⟨hrest, congrArg _ hbegins⟩⟩

theorem FollowsWord.parameter (p : Parameter V) (h : FollowsWord (i + 1) args takers rest) :
    FollowsWord i (.parameter p args) (.parameter p :: takers) rest := by
  obtain ⟨w, hw, hexact | ⟨hrest, hbegins⟩⟩ := h
  · exact ⟨_, .parameter hw, Or.inl (congrArg _ hexact)⟩
  · exact ⟨_, .parameter hw, Or.inr ⟨hrest, congrArg _ hbegins⟩⟩

theorem FollowsWord.skip (group : ArgList V) (h : FollowsWord (i + group.size) args takers rest) :
    FollowsWord i (.optional group args) takers rest := by
  obtain ⟨w, hw, hmatched⟩ := h
  exact ⟨w, .skip hw, hmatched⟩

theorem FollowsWord.take (h : FollowsWord i group takers mid)
    (h' : FollowsWord (i + group.size) args takers' rest)
    (hused : mid = [] → takers' = [] ∧ rest = []) :
    FollowsWord i (.optional group args) (takers ++ takers') rest := by
  obtain ⟨w, hw, hexact | ⟨hmid, hbegins⟩⟩ := h
  · obtain ⟨w', hw', hexact' | ⟨hrest, hbegins'⟩⟩ := h'
    · refine ⟨w ++ w', .take hw hw', Or.inl ?_⟩
      rw [List.map_append, List.map_append, hexact, hexact']
    · refine ⟨w ++ w', .take hw hw', Or.inr ⟨hrest, ?_⟩⟩
      rw [List.map_append, List.map_append, List.length_append, hexact, chainTake_leaves, hbegins']
  · obtain ⟨w', hw', -⟩ := h'
    obtain ⟨rfl, hrest⟩ := hused hmid
    refine ⟨w ++ w', .take hw hw', Or.inr ⟨hrest, ?_⟩⟩
    rw [List.append_nil, List.map_append, chainTake_append, hbegins]
    rw [hbegins, List.length_map]

theorem FollowsWord.repeated
    (h : takers.map some = cycleTake group.members takers.length) :
    FollowsWord i (.repeated group .nil) takers [] := by
  refine ⟨_, .repeated .nil, Or.inr ⟨rfl, ?_⟩⟩
  rw [h]
  cases hlen : takers.length with
  | zero => rfl
  | succ n =>
    rw [List.map_cons, List.map_nil, Shell.chainTake]
    split
    · rename_i hempty
      rw [hlen, hempty] at h
      have hnil : cycleTake ([] : List (Option (Leaf V))) (n + 1) = [] := by
        rw [cycleTake_eq]
        simp [cycleTake]
      rw [hnil, List.map_eq_nil_iff] at h
      rw [h] at hlen
      cases hlen
    · rfl

end

/-- A list of parameters takes as many words as it has members, if there are as many. -/
theorem collate_params {fuel : ℕ} {args : ArgList V} (hparams : args.Params)
    {values rest : List Text} {xs : List (Yielded V)}
    (h : collate fuel args values = .ok (xs, rest)) :
    (takersOf xs).map some = args.members.take values.length ∧
      rest = values.drop args.members.length := by
  induction args generalizing values rest xs with
  | nil =>
    cases h
    exact ⟨List.take_nil.symm, rfl⟩
  | keyword kw args => cases hparams
  | optional group args => cases hparams
  | repeated group args => cases hparams
  | parameter p args ih =>
    cases values with
    | nil =>
      cases h
      exact ⟨rfl, rfl⟩
    | cons val values =>
      rw [collate_parameter_of_call (hparams.1.call val)] at h
      obtain ⟨⟨ys, mid⟩, hrest, hdone⟩ := map_eq_ok h
      cases hdone
      obtain ⟨htakers, hleft⟩ := ih hparams.2 hrest
      exact ⟨congrArg (some (Leaf.parameter p) :: ·) htakers, hleft⟩

theorem iterations_params {fuel count : ℕ} {args : ArgList V} (hparams : args.Params)
    {values rest : List Text} {xs : List (Yielded V)}
    (h : iterations (collate fuel args) count values = .ok (xs, rest)) :
    rest = [] ∧ (takersOf xs).map some = cycleTake args.members values.length := by
  refine iterations_induction (P := fun values xs =>
    (takersOf xs).map some = cycleTake args.members values.length) rfl ?_ h
  intro values mid ys zs hne hmembers hlater
  obtain ⟨val, values, rfl⟩ := List.exists_cons_of_ne_nil hne
  obtain ⟨htakers, hmid⟩ := collate_params hparams hmembers
  rw [takersOf_append, List.map_append, htakers, hlater, hmid, List.length_drop, ← cycleTake_eq]

theorem FollowsWord.keyword_match {i fuel : ℕ} {kw : Text} {args : ArgList V}
    (ih : ∀ {values rest : List Text} {xs : List (Yielded V)},
      collate fuel args values = .ok (xs, rest) → FollowsWord (i + 1) args (takersOf xs) rest)
    {values rest : List Text} {xs : List (Yielded V)}
    (h : collate fuel (.keyword kw args) values = .ok (xs, rest)) :
    FollowsWord i (.keyword kw args) (takersOf xs) rest := by
  obtain ⟨rfl, rfl, rfl⟩ | ⟨mid, ys, rfl, hrest, rfl⟩ := collate_keyword_cases h
  · exact .stop i _
  · exact (ih hrest).keyword kw

theorem FollowsWord.parameter_match {i fuel : ℕ} {p : Parameter V} {args : ArgList V}
    (hplain : p.IsPlain)
    (ih : ∀ {values rest : List Text} {xs : List (Yielded V)},
      collate fuel args values = .ok (xs, rest) → FollowsWord (i + 1) args (takersOf xs) rest)
    {values rest : List Text} {xs : List (Yielded V)}
    (h : collate fuel (.parameter p args) values = .ok (xs, rest)) :
    FollowsWord i (.parameter p args) (takersOf xs) rest := by
  cases values with
  | nil =>
    cases h
    exact .stop i _
  | cons val values =>
    rw [collate_parameter_of_call (hplain.call val)] at h
    obtain ⟨⟨ys, mid⟩, hrest, hdone⟩ := map_eq_ok h
    cases hdone
    exact (ih hrest).parameter p

/-- The matcher goes along a word. -/
theorem collate_follows {fuel : ℕ} {args : ArgList V} {last : Bool} (hplain : args.Plain last)
    {i : ℕ} {values rest : List Text} {xs : List (Yielded V)}
    (h : collate fuel args values = .ok (xs, rest)) :
    FollowsWord i args (takersOf xs) rest := by
  induction args generalizing last i values rest xs with
  | nil =>
    cases h
    exact ⟨[], .nil, Or.inl rfl⟩
  | keyword kw args ih =>
    have hrest : args.Plain last := hplain
    exact FollowsWord.keyword_match (fun h => ih hrest h) h
  | parameter p args ih => exact FollowsWord.parameter_match hplain.1 (fun h => ih hplain.2 h) h
  | optional group args ihgroup ih =>
    obtain ⟨x, mid, ys, hmatch, hrest, rfl⟩ := collate_optional_cases h
    have hafter := ih (i := i + group.size) hplain.2 hrest
    obtain ⟨ds, ms, -, -, hmembers, rfl⟩ | ⟨ds, -, -, rfl, rfl⟩ | ⟨-, rfl, rfl⟩ :=
      matchOptional_cases hmatch
    · have htakers : takersOf ((some (Yielded.group ms)).toList ++ ys) =
          takersOf ms ++ takersOf ys := by
        rw [takersOf_append]
        exact congrArg (List.map Prod.fst · ++ takersOf ys) (List.append_nil (suppliedAll ms))
      rw [htakers]
      refine (ihgroup hplain.1 hmembers).take hafter fun hmid => ?_
      have hlen := length_takersOf (hplain.2.alwaysTakes.takes hrest)
      rw [hmid, List.length_nil] at hlen
      exact ⟨List.length_eq_zero_iff.mp (by omega), List.length_eq_zero_iff.mp (by omega)⟩
    · exact hafter.skip group
    · exact hafter.skip group
  | repeated group args =>
    obtain ⟨-, hnil, hparams⟩ := hplain
    rw [ArgList.isNil_iff] at hnil
    subst hnil
    obtain ⟨ms, mid, ys, hmatch, hrest, rfl⟩ := collate_repeated_cases h
    cases hrest
    obtain ⟨-, hrounds⟩ := matchRepeated_ok hmatch
    obtain ⟨rfl, htakers⟩ := iterations_params hparams hrounds
    have hlen := length_takersOf
      (iterations_takes (fun _ _ _ _ => hparams.alwaysTakes.takes) hrounds)
    rw [List.append_nil]
    apply FollowsWord.repeated
    rw [htakers]
    exact congrArg _ hlen.symm

/-! ## The words of a line -/

def IsWord (w : Text) : Prop := w ≠ [] ∧ ∀ c ∈ w, isSpace c = false

theorem isWord_of_mem_split {line w : Text} (h : w ∈ split line) : IsWord w := by
  obtain ⟨x, hx, rfl⟩ := List.mem_map.mp h
  exact Strtok.tokens_nonempty hx

/-- A line is split into the words it was put together from, with what stands at its end. -/
theorem split_join {ws : List Text} (hws : ∀ w ∈ ws, IsWord w) {p : Text}
    (hp : ∀ c ∈ p, isSpace c = false) :
    split (join (ws ++ [p])) = ws ++ [p].filter (· ≠ []) := by
  unfold split
  rw [Strtok.tokens_text]
  induction ws with
  | nil =>
    rw [List.nil_append, join, List.intercalate_singleton, List.splitOnP_eq_singleton hp]
    rfl
  | cons w ws ih =>
    rw [List.forall_mem_cons] at hws
    obtain ⟨⟨hne, hw⟩, hws⟩ := hws
    have hjoin : join (w :: (ws ++ [p])) = w ++ ' ' :: join (ws ++ [p]) := by
      unfold join
      rw [List.intercalate_cons_of_ne_nil (by simp), List.append_assoc]
      rfl
    rw [List.cons_append, hjoin, List.splitOnP_append_cons_of_forall_mem hw ' ' rfl,
      List.filter_cons_of_pos (by simpa using hne), ih hws]
    rfl

/-! ## Completing along the word -/

def Leaf.IsPlain : Leaf V → Prop
  | .keyword _ => True
  | .parameter p => p.IsPlain

def Leaf.offer : Leaf V → Text → Text
  | .keyword kw, _ => kw ++ [' ']
  | .parameter _, p => if p = [] then [] else p ++ [' ']

def Node.IsPlain : Node V → Prop
  | .leaf l => l.IsPlain
  | .repeated args => args.Params

theorem ArgList.Params.members {args : ArgList V} (h : args.Params) :
    ∀ a ∈ args.members, ∃ l : Leaf V, a = some l ∧ l.IsPlain := by
  induction args with
  | nil => simp [ArgList.members]
  | parameter p rest ih =>
    intro a ha
    rcases List.mem_cons.mp ha with rfl | hrest
    · exact ⟨_, rfl, h.1⟩
    · exact ih h.2 a hrest
  | keyword kw rest => cases h
  | optional args rest => cases h
  | repeated args rest => cases h

theorem ArgList.Plain.nodes {args : ArgList V} {last : Bool} (h : args.Plain last) :
    ∀ node ∈ args.nodes, node.IsPlain := by
  induction args generalizing last with
  | nil => simp [ArgList.nodes]
  | keyword kw rest ih =>
    have hrest : rest.Plain last := h
    exact List.forall_mem_cons.mpr ⟨trivial, ih hrest⟩
  | parameter p rest ih => exact List.forall_mem_cons.mpr ⟨h.1, ih h.2⟩
  | repeated args rest =>
    obtain ⟨-, hnil, hparams⟩ := h
    rw [ArgList.isNil_iff.mp hnil]
    exact List.forall_mem_cons.mpr ⟨hparams, by simp [ArgList.nodes]⟩
  | optional args rest ihgroup ih =>
    exact List.forall_mem_append.mpr ⟨ihgroup h.1, ih h.2⟩

theorem ArgList.Params.leaves {args : ArgList V} (h : args.Params) :
    ∀ l ∈ args.leaves, l.IsPlain := by
  induction args with
  | nil => simp [ArgList.leaves]
  | parameter p rest ih => exact List.forall_mem_cons.mpr ⟨h.1, ih h.2⟩
  | keyword kw rest => cases h
  | optional args rest => cases h
  | repeated args rest => cases h

theorem ArgList.Plain.leaves {args : ArgList V} {last : Bool} (h : args.Plain last) :
    ∀ l ∈ args.leaves, l.IsPlain := by
  induction args generalizing last with
  | nil => simp [ArgList.leaves]
  | keyword kw rest ih =>
    have hrest : rest.Plain last := h
    exact List.forall_mem_cons.mpr ⟨trivial, ih hrest⟩
  | parameter p rest ih => exact List.forall_mem_cons.mpr ⟨h.1, ih h.2⟩
  | repeated args rest =>
    obtain ⟨-, hnil, hparams⟩ := h
    rw [ArgList.isNil_iff.mp hnil]
    exact List.forall_mem_append.mpr ⟨hparams.leaves, by simp [ArgList.leaves]⟩
  | optional args rest ihgroup ih =>
    exact List.forall_mem_append.mpr ⟨ihgroup h.1, ih h.2⟩

theorem chainTake_plain {path : List (Node V)} (h : ∀ node ∈ path, node.IsPlain) (n : ℕ) :
    ∀ a ∈ chainTake n path, ∃ l : Leaf V, a = some l ∧ l.IsPlain := by
  induction path generalizing n with
  | nil => simp
  | cons node path ih =>
    obtain ⟨hnode, hpath⟩ := List.forall_mem_cons.mp h
    cases n with
    | zero => simp
    | succ n =>
      cases node with
      | leaf l =>
        rw [chainTake]
        exact List.forall_mem_cons.mpr ⟨⟨l, rfl, hnode⟩, ih hpath n⟩
      | repeated args =>
        rw [chainTake]
        split
        · exact ih hpath (n + 1)
        · intro a ha
          obtain ⟨i, -, hi⟩ := List.mem_filterMap.mp ha
          exact ArgList.Params.members hnode a (List.mem_of_getElem? hi)

theorem Leaf.IsPlain.complete {l : Leaf V} (h : l.IsPlain) (value : Text) :
    ∃ m, l.complete value = .ok m := by
  cases l with
  | keyword kw => exact ⟨_, rfl⟩
  | parameter p =>
    have hcall := Parameter.IsPlain.call h value
    have hcomplete : p.complete = none := h.2
    unfold Leaf.complete
    dsimp only
    rw [hcomplete]
    dsimp only
    split
    · exact ⟨_, rfl⟩
    · rw [hcall]
      exact ⟨_, rfl⟩

theorem Leaf.IsPlain.complete_beginning {l : Leaf V} (h : l.IsPlain) {v : Value V} {word p : Text}
    (htook : Converts l v word) (hp : p <+: word) : l.complete p = .ok [l.offer p] := by
  cases l with
  | keyword kw =>
    obtain ⟨rfl, -⟩ := htook
    unfold Leaf.complete Leaf.offer
    dsimp only
    rw [if_pos (List.isPrefixOf_iff_prefix.mpr hp)]
  | parameter param =>
    have hcall := Parameter.IsPlain.call h p
    have hcomplete : param.complete = none := h.2
    unfold Leaf.complete Leaf.offer
    dsimp only
    rw [hcomplete]
    dsimp only
    split
    · rfl
    · rw [hcall]

theorem completions_ok {arglist : List (Option (Leaf V))}
    (h : ∀ a ∈ arglist, ∃ l : Leaf V, a = some l ∧ l.IsPlain) (values : List Text) :
    ∃ m, completions arglist values = .ok m := by
  induction arglist generalizing values with
  | nil =>
    cases values with
    | nil => exact ⟨_, rfl⟩
    | cons v values => exact ⟨_, rfl⟩
  | cons a arglist ih =>
    obtain ⟨⟨l, rfl, hl⟩, hrest⟩ := List.forall_mem_cons.mp h
    cases values with
    | nil => exact ⟨_, rfl⟩
    | cons v values =>
      obtain ⟨m, hm⟩ := hl.complete v
      rw [completions, hm]
      change ∃ r, (if m = [] then _ else _) = _
      split
      · exact ⟨_, rfl⟩
      split
      · exact ⟨_, rfl⟩
      · exact ih hrest values

theorem completions_eq {ls : List (Leaf V)} {vs : List Text}
    (h : List.Forall₂ (fun l v => ∃ m, l.complete v = .ok m ∧ m ≠ []) ls vs) {l : Leaf V} {p : Text}
    {m : List Text} (hm : l.complete p = .ok m) (hne : m ≠ []) :
    completions ((ls ++ [l]).map some) (vs ++ [p]) = .ok m := by
  induction h with
  | nil =>
    rw [List.nil_append, List.nil_append, List.map_singleton, completions, hm]
    change (if m = [] then _ else _) = _
    rw [if_neg hne, if_pos rfl]
    rfl
  | cons hfirst _ ih =>
    obtain ⟨m', hm', hne'⟩ := hfirst
    rw [List.cons_append, List.cons_append, List.map_cons, completions, hm']
    change (if m' = [] then _ else _) = _
    rw [if_neg hne', if_neg (by simp)]
    exact ih

theorem mapM_ok {α β : Type} {f : α → Except Raised β} {xs : List α}
    (h : ∀ x ∈ xs, ∃ y, f x = .ok y) :
    ∃ ys, xs.mapM f = .ok ys ∧ ∀ x ∈ xs, ∀ y, f x = .ok y → y ∈ ys := by
  induction xs with
  | nil => exact ⟨[], rfl, by simp⟩
  | cons x xs ih =>
    obtain ⟨⟨y, hy⟩, hxs⟩ := List.forall_mem_cons.mp h
    obtain ⟨ys, hys, hmem⟩ := ih hxs
    refine ⟨y :: ys, ?_, List.forall_mem_cons.mpr ⟨fun y' hy' => ?_, fun x' hx' y' hy' => ?_⟩⟩
    · rw [List.mapM_cons, hy]
      change (xs.mapM f >>= _) = _
      rw [hys]
      rfl
    · rw [hy] at hy'
      cases hy'
      exact List.mem_cons_self
    · exact List.mem_cons_of_mem _ (hmem x' hx' y' hy')

/-! ## Completion and execution -/

section
variable {h : CommandHandler V} {ws : List Text} {p : Text}

/-- The fragment at the end of the line is the last value, also if it is empty. -/
theorem complete_eq (hws : ∀ w ∈ ws, IsWord w) (hp : ∀ c ∈ p, isSpace c = false)
    (hne : ¬(ws = [] ∧ p = [])) :
    h.complete p (join (ws ++ [p])) = (do
      let candidates ← (argPaths h.args).mapM fun path =>
        completions (chainTake (ws.length + 1) path) (ws ++ [p])
      return candidates.flatten.toFinset) := by
  unfold CommandHandler.complete
  dsimp only
  rw [split_join hws hp]
  by_cases hempty : p = []
  · subst hempty
    rcases List.eq_nil_or_concat ws with rfl | ⟨front, w, rfl⟩
    · exact absurd ⟨rfl, rfl⟩ hne
    have hw : w ≠ [] := (hws w (by simp)).1
    have hfilter : [([] : Text)].filter (· ≠ []) = [] := rfl
    rw [hfilter, List.append_nil, List.concat_eq_append, List.getLast?_concat]
    dsimp only
    rw [if_pos hw, List.length_append]
    rfl
  · have hfilter : [p].filter (· ≠ []) = [p] := List.filter_cons_of_pos (by simpa using hempty)
    rw [hfilter, List.getLast?_concat]
    dsimp only
    rw [if_neg (not_not.mpr rfl), List.length_append]
    rfl

theorem complete_empty (h : CommandHandler V) :
    h.complete [] [] = .error (.exception "IndexError".toList) := rfl

/-- All paths of a plain definition are tried without an exception. -/
theorem complete_ok (name : Text) {args : ArgList V} (hplain : args.Plain true)
    (hws : ∀ w ∈ ws, IsWord w) (hp : ∀ c ∈ p, isSpace c = false) (hne : ¬(ws = [] ∧ p = [])) :
    ∃ offers, CommandHandler.complete ⟨name, .keyword name args⟩ p (join (ws ++ [p])) =
        .ok offers ∧
      ∀ path ∈ argPaths (.keyword name args), ∀ m,
        completions (chainTake (ws.length + 1) path) (ws ++ [p]) = .ok m → ∀ t ∈ m, t ∈ offers := by
  have hpaths : ∀ path ∈ argPaths (.keyword name args), ∃ m,
      completions (chainTake (ws.length + 1) path) (ws ++ [p]) = .ok m := by
    intro path hpath
    refine completions_ok (chainTake_plain (fun node hnode => ?_) _) _
    rw [argPaths_eq] at hpath
    obtain ⟨ns, -, rfl⟩ := List.mem_map.mp hpath
    obtain ⟨n, -, hn⟩ := List.mem_filterMap.mp hnode
    have hkeyword : (ArgList.keyword name args).Plain true := hplain
    exact hkeyword.nodes node (List.mem_of_getElem? hn)
  obtain ⟨candidates, hcandidates, hmem⟩ := mapM_ok hpaths
  refine ⟨candidates.flatten.toFinset, ?_, fun path hpath m hm t ht => ?_⟩
  · rw [complete_eq hws hp hne, hcandidates]
    rfl
  · rw [List.mem_toFinset, List.mem_flatten]
    exact ⟨m, hmem path hpath m hm, ht⟩

end

section
variable {fuel : ℕ} {name : Text} {d : Definition V} {line : Text} {xs : List (Yielded V)}

/-- A path of the graph begins with the arguments that took the words. -/
theorem exists_path_of_call (hplain : d.args.Plain true) (hends : d.args.endsEmpty = false)
    (hcall : (command name d).call fuel line = .ok xs) {k : ℕ} (hk : k ≤ (takersOf xs).length) :
    ∃ path ∈ argPaths (.keyword name d.args), chainTake k path = ((takersOf xs).take k).map some := by
  have hkeyword : (ArgList.keyword name d.args).Plain true := hplain
  obtain ⟨w, hw, hchain⟩ :=
    (collate_follows (i := 0) hkeyword (CommandHandler.call_ok hcall)).chainTake
  obtain ⟨more, hmore⟩ := hw.extends hends
  refine ⟨_, hmore, ?_⟩
  have hlength : (chainTake (takersOf xs).length (w.map Prod.snd)).length =
      (takersOf xs).length := by
    rw [hchain, List.length_map]
  rw [← take_chainTake hk, chainTake_append hlength, hchain, List.map_take]

theorem call_completes (hplain : d.args.Plain true)
    (hcall : (command name d).call fuel line = .ok xs) :
    List.Forall₂ (fun l word => ∀ p, p <+: word → l.complete p = .ok [l.offer p])
      (takersOf xs) (name :: split line) := by
  have hkeyword : (ArgList.keyword name d.args).Plain true := hplain
  obtain ⟨used, hused, hforall⟩ := hkeyword.alwaysTakes.takes (CommandHandler.call_ok hcall)
  rw [List.append_nil] at hused
  change name :: split line = used at hused
  unfold takersOf
  rw [hused, List.forall₂_map_left_iff]
  refine hforall.imp fun x word htook p hp => ?_
  exact (hkeyword.leaves x.1 htook.1).complete_beginning htook.2 hp

theorem complete_offers (hplain : d.args.Plain true) (hends : d.args.endsEmpty = false)
    (hcall : (command name d).call fuel line = .ok xs) {k : ℕ} {word p : Text} {taker : Leaf V}
    (hws : ∀ w ∈ (name :: split line).take k, IsWord w)
    (hword : (name :: split line)[k]? = some word) (htaker : (takersOf xs)[k]? = some taker)
    (hfragment : ∀ c ∈ p, isSpace c = false) (hp : p <+: word)
    (hne : ¬((name :: split line).take k = [] ∧ p = [])) :
    ∃ offers, (command name d).complete p (join ((name :: split line).take k ++ [p])) =
      .ok offers ∧ taker.offer p ∈ offers := by
  obtain ⟨hk, htaker'⟩ := List.getElem?_eq_some_iff.mp htaker
  obtain ⟨hk', hword'⟩ := List.getElem?_eq_some_iff.mp hword
  have hcompletes := call_completes hplain hcall
  have hfront : List.Forall₂ (fun l v => ∃ m, Leaf.complete l v = .ok m ∧ m ≠ [])
      ((takersOf xs).take k) ((name :: split line).take k) :=
    (List.forall₂_take k hcompletes).imp fun l v h =>
      ⟨_, h v (List.prefix_refl v), List.cons_ne_nil _ _⟩
  have hlast : taker.complete p = .ok [taker.offer p] := by
    rw [← htaker']
    rw [← hword'] at hp
    exact (List.forall₂_iff_get.mp hcompletes).2 k hk hk' p hp
  have hcompletions := completions_eq hfront hlast (List.cons_ne_nil _ _)
  -- the path that the call was matched along is one of those that are tried
  obtain ⟨path, hpath, hchain⟩ := exists_path_of_call hplain hends hcall (Nat.succ_le_of_lt hk)
  rw [List.take_add_one, htaker, Option.toList_some] at hchain
  rw [← hchain] at hcompletions
  obtain ⟨offers, hoffers, hall⟩ := complete_ok name hplain hws hfragment hne
  refine ⟨offers, hoffers, hall path hpath _ ?_ _ (List.mem_singleton_self _)⟩
  have hlength : ((name :: split line).take k).length = k := by
    rw [List.length_take]
    omega
  rw [hlength]
  exact hcompletions

end

/-- A call that is accepted may be cut off at any place in its words. What the argument there
stands for is offered, unless nothing is left of the line, or the definition ends in a group
without arguments. -/
theorem complete_offers_iff (fuel : ℕ) (name : Text) (d : Definition V) (hname : IsWord name)
    (hplain : d.args.Plain true) (line : Text) (xs : List (Yielded V))
    (hcall : (command name d).call fuel line = .ok xs) (k : ℕ) (word : Text) (taker : Leaf V)
    (hword : (name :: split line)[k]? = some word) (htaker : (takersOf xs)[k]? = some taker)
    (p : Text) (hp : p <+: word) :
    (∃ offers, (command name d).complete p (join ((name :: split line).take k ++ [p])) =
        .ok offers ∧ taker.offer p ∈ offers) ↔
      d.args.endsEmpty = false ∧ ¬(k = 0 ∧ p = []) := by
  have hwords : ∀ w ∈ name :: split line, IsWord w :=
    List.forall_mem_cons.mpr ⟨hname, fun w hw => isWord_of_mem_split hw⟩
  have hws : ∀ w ∈ (name :: split line).take k, IsWord w := fun w hw =>
    hwords w (List.mem_of_mem_take hw)
  have hfragment : ∀ c ∈ p, isSpace c = false := fun c hc =>
    (hwords word (List.mem_of_getElem? hword)).2 c (hp.subset hc)
  by_cases hempty : k = 0 ∧ p = []
  · obtain ⟨rfl, rfl⟩ := hempty
    constructor
    · rintro ⟨offers, hoffers, -⟩
      rw [List.take_zero, List.nil_append, join, List.intercalate_singleton, complete_empty] at hoffers
      cases hoffers
    · rintro ⟨-, hno⟩
      exact absurd ⟨rfl, rfl⟩ hno
  have hne : ¬((name :: split line).take k = [] ∧ p = []) := by
    rintro ⟨htake, hnil⟩
    rcases List.take_eq_nil_iff.mp htake with hzero | hcons
    · exact hempty ⟨hzero, hnil⟩
    · cases hcons
  cases hends : d.args.endsEmpty with
  | true =>
    refine iff_of_false ?_ (by simp)
    rintro ⟨offers, hoffers, hmem⟩
    rw [complete_eq hws hfragment hne] at hoffers
    rw [show (command name d).args = .keyword name d.args from rfl, argPaths_eq_nil name hends]
      at hoffers
    cases hoffers
    simp at hmem
  | false =>
    exact iff_of_true (complete_offers hplain hends hcall hws hword htaker hfragment hp hne)
      ⟨rfl, hempty⟩

theorem complete_offers_iff_test2 :
    ∃ offers, test2.complete "opt".toList "test2 opt".toList = .ok offers ∧
      "optional-keyword ".toList ∈ offers := by
  have hname : IsWord "test2".toList := ⟨by simp, by simp [isSpace]⟩
  have hplain : test2.args.Plain true := ⟨⟨⟨rfl, rfl⟩, trivial⟩, ⟨rfl, rfl⟩, trivial⟩
  have hcall : test2.call 9 "optional-keyword a b".toList = .ok
      [.value (.keyword "test2".toList) (.str "test2".toList),
        .group [.value (.keyword "optional-keyword".toList) (.str "optional-keyword".toList),
          .value (.parameter (.plain "PARAM".toList)) (.str "a".toList)],
        .value (.parameter (.plain "MANDATORY".toList)) (.str "b".toList)] := rfl
  have hbegins : "opt".toList <+: "optional-keyword".toList := ⟨"ional-keyword".toList, rfl⟩
  exact (complete_offers_iff 9 "test2".toList
    (.tuple (.string "optional-keyword".toList (.string "PARAM".toList .nil))
      (.string "MANDATORY".toList .nil)) hname hplain "optional-keyword a b".toList _ hcall 1
    "optional-keyword".toList (.keyword "optional-keyword".toList) rfl rfl "opt".toList
    hbegins).mpr ⟨rfl, by simp⟩

def emptyGroup : CommandHandler Unit :=
  command "foo".toList (.string "A".toList (.tuple .nil .nil))

/-- The edges to the members of the empty group make an inner node of the parameter, and then no
path ends. -/
theorem emptyGroup_offers_nothing :
    emptyGroup.args.Plain true ∧
    (∃ xs, emptyGroup.call 9 "x".toList = .ok xs ∧
      (takersOf xs)[1]? = some (.parameter (.plain "A".toList))) ∧
    emptyGroup.complete "x".toList "foo x".toList = .ok ∅ := by
  refine ⟨⟨⟨rfl, rfl⟩, trivial, trivial⟩, ⟨_, rfl, rfl⟩, ?_⟩
  have hpaths : argPaths emptyGroup.args = [] := argPaths_eq_nil _ rfl
  unfold CommandHandler.complete
  rw [hpaths]
  rfl

end Matahari.Shell
