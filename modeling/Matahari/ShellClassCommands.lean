import Matahari.ShellProperties

set_option autoImplicit false

/-!
# What the commands of a class do

The commands of a class differ in one keyword, the name of a property or a method, so that at most
one of those that a line names can take it. What it passes on has been converted by the arguments.
-/
namespace Matahari.Shell.ClassCommands
open Mainloop Dispatch

variable {O σ : Type}

/-! ## Matching keywords and then parameters -/

def keywordArgs {V : Type} (args : ArgList V) : List Text → ArgList V
  | [] => args
  | kw :: kws => .keyword kw (keywordArgs args kws)

def parameterArgs {V : Type} : List (Parameter V) → ArgList V
  | [] => .nil
  | p :: ps => .parameter p (parameterArgs ps)

inductive Converted {V : Type} : List (Parameter V) → List Text → List (Value V) → Prop
  | nil : Converted [] [] []
  | cons {p : Parameter V} {ps : List (Parameter V)} {word : Text} {words : List Text} {v : Value V}
      {vs : List (Value V)} : p.call word = .ok (some v) → Converted ps words vs →
      Converted (p :: ps) (word :: words) (v :: vs)

def parameterYields {V : Type} (ps : List (Parameter V)) (vs : List (Value V)) : List (Yielded V) :=
  List.zipWith (fun p v => .value (.parameter p) v) ps vs

def keywordYields {V : Type} (kws : List Text) : List (Yielded V) :=
  kws.map fun kw => .value (.keyword kw) (.str kw)

section
variable {V : Type} {fuel : ℕ} {ps : List (Parameter V)} {words rest : List Text}
  {vs : List (Value V)} {xs : List (Yielded V)}

theorem collate_parameterArgs (fuel : ℕ) (h : Converted ps words vs) (rest : List Text) :
    collate fuel (parameterArgs ps) (words ++ rest) = .ok (parameterYields ps vs, rest) := by
  induction h with
  | nil => rfl
  | cons hcall _ ih =>
    rw [parameterArgs, List.cons_append, collate_parameter_of_call hcall, ih]
    rfl

theorem collate_parameterArgs_length (h : collate fuel (parameterArgs ps) words = .ok (xs, rest)) :
    xs.length ≤ ps.length := by
  induction ps generalizing words xs with
  | nil =>
    cases h
    exact Nat.le_refl 0
  | cons p ps ih =>
    obtain ⟨rfl, -⟩ | ⟨val, mid, -, -, hrest⟩ | ⟨val, v, mid, ys, -, -, hrest, rfl⟩ :=
      collate_parameter_cases h
    · exact Nat.zero_le _
    · exact Nat.le_succ_of_le (ih hrest)
    · exact Nat.succ_le_succ (ih hrest)

theorem converted_of_collate (h : collate fuel (parameterArgs ps) words = .ok (xs, rest))
    (hlength : ps.length ≤ xs.length) :
    ∃ used vs, words = used ++ rest ∧ Converted ps used vs ∧ xs = parameterYields ps vs := by
  induction ps generalizing words xs with
  | nil =>
    cases h
    exact ⟨[], [], rfl, .nil, rfl⟩
  | cons p ps ih =>
    obtain ⟨rfl, -⟩ | ⟨val, mid, rfl, -, hrest⟩ | ⟨word, v, mid, ys, rfl, hcall, hrest, rfl⟩ :=
      collate_parameter_cases h
    · exact absurd hlength (Nat.not_succ_le_zero _)
    · -- The function has raised `StopIteration`, and the other parameters yield too little.
      have hshort := collate_parameterArgs_length hrest
      exact absurd hlength (Nat.not_le_of_lt (Nat.lt_succ_of_le hshort))
    · obtain ⟨used, vs, hwords, hconverted, hys⟩ := ih hrest (Nat.le_of_succ_le_succ hlength)
      refine ⟨word :: used, v :: vs, ?_, .cons hcall hconverted, ?_⟩
      · rw [hwords, List.cons_append]
      · rw [hys]
        rfl

theorem collate_keywordArgs (kws : List Text) (args : ArgList V) (words : List Text) :
    collate fuel (keywordArgs args kws) (kws ++ words) =
      (collate fuel args words).map fun r => (keywordYields kws ++ r.1, r.2) := by
  induction kws with
  | nil =>
    rw [keywordArgs, List.nil_append]
    cases collate fuel args words <;> rfl
  | cons kw kws ih =>
    rw [keywordArgs, List.cons_append, collate_keyword, ih]
    cases collate fuel args words <;> rfl

theorem leadingKeywords_keywordArgs (kws : List Text) (ps : List (Parameter V)) :
    leadingKeywords (keywordArgs (parameterArgs ps) kws) = kws := by
  induction kws with
  | nil => cases ps <;> rfl
  | cons kw kws ih => rw [keywordArgs, leadingKeywords, ih]

theorem length_keywordArgs (kws : List Text) (ps : List (Parameter V)) :
    (keywordArgs (parameterArgs ps) kws).length = kws.length + ps.length := by
  induction kws with
  | nil =>
    rw [keywordArgs, List.length_nil, Nat.zero_add]
    induction ps with
    | nil => rfl
    | cons p ps ih => rw [parameterArgs, ArgList.length, ih, List.length_cons]
  | cons kw kws ih =>
    rw [keywordArgs, ArgList.length, ih, List.length_cons]
    omega

theorem length_parameterYields (h : Converted ps words vs) :
    (parameterYields ps vs).length = ps.length := by
  induction h with
  | nil => rfl
  | cons _ _ ih => exact congrArg (· + 1) ih

/-- A command whose arguments are keywords and then parameters is called with what the words after
the keywords are converted to. -/
theorem call_eq_ok_iff {h : CommandHandler V} {kws : List Text} {line : Text}
    (hargs : h.args = keywordArgs (parameterArgs ps) (h.name :: kws)) :
    h.call fuel line = .ok xs ↔ ∃ words vs, Shell.split line = kws ++ words ∧
      Converted ps words vs ∧ xs = keywordYields (h.name :: kws) ++ parameterYields ps vs := by
  have hlength : h.args.length = (kws.length + 1) + ps.length := by
    rw [hargs, length_keywordArgs, List.length_cons]
  constructor
  · intro hcall
    obtain ⟨⟨ys, rest⟩, hcollate, hdone⟩ := bind_eq_ok hcall
    have hlead : leadingKeywords h.args <+: h.name :: Shell.split line := by
      by_contra hnot
      cases @collate_of_not_leading _ fuel _ _ hnot with
      | inl herror =>
        obtain ⟨message, herror⟩ := herror
        rw [hcollate] at herror
        cases herror
      | inr hshort =>
        obtain ⟨zs, rest', hok, hlt⟩ := hshort
        rw [hcollate] at hok
        cases hok
        dsimp only at hdone
        rw [if_pos hlt] at hdone
        cases hdone
    rw [hargs, leadingKeywords_keywordArgs, List.cons_prefix_cons] at hlead
    obtain ⟨words, hwords⟩ := hlead.2
    rw [hargs, ← hwords, ← List.cons_append, collate_keywordArgs] at hcollate
    cases hmore : collate fuel (parameterArgs ps) words with
    | error e =>
      rw [hmore] at hcollate
      cases hcollate
    | ok r =>
      rw [hmore] at hcollate
      cases hcollate
      dsimp only at hdone
      split at hdone
      · cases hdone
      · rename_i hlong
        split at hdone
        · cases hdone
        · rename_i hall
          cases hdone
          have hrest : r.2 = [] := not_not.mp hall
          have hps : ps.length ≤ r.1.length := by
            rw [hlength, List.length_append, keywordYields, List.length_map,
              List.length_cons] at hlong
            omega
          have hconverted := @converted_of_collate _ fuel ps words r.2 r.1 hmore hps
          obtain ⟨used, vs, hused, hconverted, hys⟩ := hconverted
          rw [hrest, List.append_nil] at hused
          refine ⟨words, vs, hwords.symm, hused ▸ hconverted, ?_⟩
          rw [hys]
  · intro hwords
    obtain ⟨words, vs, hsplit, hconverted, hxs⟩ := hwords
    have hcollate := collate_parameterArgs fuel hconverted []
    rw [List.append_nil] at hcollate
    unfold CommandHandler.call
    rw [hsplit, hargs, ← List.cons_append, collate_keywordArgs, hcollate]
    change (if _ then _ else if _ then _ else _) = _
    rw [if_neg, if_neg (not_not.mpr rfl), hxs]
    · rfl
    · rw [length_keywordArgs, List.length_append, keywordYields, List.length_map,
        length_parameterYields hconverted]
      exact Nat.lt_irrefl _

end

/-! ## One command of a group -/

structure ComesTo (outcome : Except Raised Bool × σ) (result : Reply × σ) : Prop where
  state : result.2 = outcome.2
  returned : ∀ r, result.1 = .returned r ↔ outcome.1 = .ok r

structure Idle (s : σ) (result : Reply × σ) : Prop where
  state : result.2 = s
  returned : ∀ r, result.1 ≠ .returned r

theorem comesTo_returned (r : Bool) (t : σ) : ComesTo (.ok r, t) (.returned r, t) := by
  refine ⟨rfl, ?_⟩
  intro r'
  rw [Reply.returned.injEq, Except.ok.injEq]

theorem comesTo_failed (e : Raised) (e' : Failure) (t : σ) : ComesTo (.error e, t) (.failed e', t) := by
  refine ⟨rfl, ?_⟩
  intro r
  constructor
  · intro heq
    cases heq
  · intro heq
    cases heq

theorem ComesTo.idle {e : Raised} {s : σ} {result : Reply × σ} (h : ComesTo (.error e, s) result) :
    Idle s result := by
  refine ⟨h.state, ?_⟩
  intro r hr
  cases (h.returned r).mp hr

section
variable {V : Type} {fuel : ℕ} {n arg l : Text} {pre post cmds : List (Handler V σ)}
  {h : Handler V σ}

theorem callMembers_skip (hpre : ∀ g ∈ pre, g.Rejects fuel arg) (cmds : List (Handler V σ))
    (failures : List Candidate) (s : σ) :
    callMembers fuel n arg (pre ++ cmds) failures s =
      callMembers fuel n arg cmds (failures ++ pre.map (Handler.candidate fuel arg)) s := by
  rw [callMembers_eq, callMembers_eq, Alternatives.firstOf_append (declines_candidates hpre)]

theorem callMembers_rejected (hcmds : ∀ g ∈ cmds, g.Rejects fuel arg) (failures : List Candidate)
    (s : σ) :
    callMembers fuel n arg cmds failures s =
      (.error (.noCandidate (strip isSpace (join [n, arg]))
        (failures ++ cmds.map (Handler.candidate fuel arg))), s) := by
  have hskip := callMembers_skip (n := n) hcmds [] failures s
  rw [List.append_nil] at hskip
  exact hskip

theorem group_only (hpre : ∀ g ∈ pre, g.Rejects fuel arg) (hpost : ∀ g ∈ post, g.Rejects fuel arg)
    (s : σ) :
    ComesTo (h.call fuel arg s) (Entry.reply fuel (.group n (pre ++ h :: post)) arg s) := by
  unfold Entry.reply Entry.call
  dsimp only
  rw [callMembers_skip hpre, callMembers]
  cases h.call fuel arg s with
  | mk outcome t =>
    cases outcome with
    | ok r => exact comesTo_returned r t
    | error e =>
      cases e with
      | invalidArgument message =>
        dsimp only
        rw [callMembers_rejected hpost]
        exact comesTo_failed _ _ t
      | invalidCommand text message =>
        dsimp only
        rw [callMembers_rejected hpost]
        exact comesTo_failed _ _ t
      | exception name => exact comesTo_failed _ _ t
      | unfinished => exact comesTo_failed _ _ t

def replyOf (fuel : ℕ) (n arg l : Text) (cmds : List (Handler V σ)) (s : σ) : Reply × σ :=
  (entryOf n cmds).elim (.unknownSyntax l, s) fun c => c.reply fuel arg s

theorem handler_reply (h : Handler V σ) (s : σ) :
    ComesTo (h.call fuel arg s) (Entry.reply fuel (.handler h) arg s) := by
  unfold Entry.reply Entry.call
  dsimp only
  cases h.call fuel arg s with
  | mk outcome t =>
    cases outcome with
    | ok r => exact comesTo_returned r t
    | error e => exact comesTo_failed e _ t

theorem replyOf_only (hpre : ∀ g ∈ pre, g.Rejects fuel arg)
    (hpost : ∀ g ∈ post, g.Rejects fuel arg) (s : σ) :
    ComesTo (h.call fuel arg s) (replyOf fuel n arg l (pre ++ h :: post) s) := by
  unfold replyOf
  cases pre with
  | nil =>
    cases post with
    | nil => exact handler_reply h s
    | cons g post => exact group_only (List.forall_mem_nil _) hpost s
  | cons g pre =>
    have hentry : entryOf n (g :: pre ++ h :: post) =
        some (.group n (g :: pre ++ h :: post)) := by
      cases pre <;> rfl
    rw [hentry]
    exact group_only hpre hpost s

theorem replyOf_rejected (hcmds : ∀ g ∈ cmds, g.Rejects fuel arg) (s : σ) :
    Idle s (replyOf fuel n arg l cmds s) := by
  cases cmds with
  | nil =>
    refine ⟨rfl, ?_⟩
    intro r heq
    cases heq
  | cons h post =>
    have hpost : ∀ g ∈ post, g.Rejects fuel arg := fun g hg => hcmds g (List.mem_cons_of_mem h hg)
    have hcomes := replyOf_only (n := n) (l := l) (h := h) (List.forall_mem_nil _)
      hpost s
    have herror : ∃ e, h.call fuel arg s = (.error e, s) := by
      unfold Handler.call
      cases hcmds h List.mem_cons_self with
      | inl hrejects =>
        obtain ⟨message, hcall⟩ := hrejects
        rw [hcall]
        exact ⟨_, rfl⟩
      | inr hrejects =>
        obtain ⟨text, message, hcall⟩ := hrejects
        rw [hcall]
        exact ⟨_, rfl⟩
    obtain ⟨e, herror⟩ := herror
    rw [herror] at hcomes
    exact hcomes.idle

end

/-! ## A family of commands that differ in a keyword -/

section
variable {V ι : Type} {fuel : ℕ} {n arg l : Text} {others : List (Handler V σ)}
  {members : List ι} {key : ι → Text} {f : ι → Handler V σ} {ps : ι → List (Parameter V)}
  {lead : List Text}

/-- The commands have one name and the same keywords, after which each has its own. -/
structure Family (n : Text) (lead : List Text) (key : ι → Text) (f : ι → Handler V σ)
    (ps : ι → List (Parameter V)) (members : List ι) : Prop where
  name : ∀ i, (f i).spec.name = n
  args : ∀ i ∈ members,
    (f i).spec.args = keywordArgs (parameterArgs (ps i)) (n :: (lead ++ [key i]))
  nodup : (members.map key).Nodup

theorem Family.rejects (hfamily : Family n lead key f ps members) {i j : ι} (hj : j ∈ members)
    (hne : key j ≠ key i) {words : List Text} (hwords : Shell.split arg = lead ++ key i :: words) :
    (f j).Rejects fuel arg := by
  apply Handler.rejects_of_not_leading
  rw [hfamily.args j hj, leadingKeywords_keywordArgs, hfamily.name j, List.cons_prefix_cons, hwords,
    List.prefix_append_right_inj, List.cons_prefix_cons]
  intro hlead
  exact hne hlead.2.1

/-- The member that has the keyword of the line decides. -/
theorem Family.comesTo (hfamily : Family n lead key f ps members)
    (hothers : ∀ g ∈ others, g.Rejects fuel arg) {i : ι} (hi : i ∈ members) {words : List Text}
    (hwords : Shell.split arg = lead ++ key i :: words) (s : σ) :
    ComesTo ((f i).call fuel arg s) (replyOf fuel n arg l (others ++ members.map f) s) := by
  have hsplit := List.append_of_mem hi
  obtain ⟨before, after, hmembers⟩ := hsplit
  have hnodup := hfamily.nodup
  rw [hmembers, List.map_append, List.map_cons] at hnodup
  have hkeys := List.nodup_middle.mp hnodup
  rw [List.nodup_cons, List.mem_append, not_or] at hkeys
  have hbefore : ∀ j ∈ before, (f j).Rejects fuel arg := by
    intro j hj
    have hmem : j ∈ members := by
      rw [hmembers]
      exact List.mem_append_left _ hj
    apply hfamily.rejects hmem _ hwords
    intro heq
    exact hkeys.1.1 (heq ▸ List.mem_map_of_mem hj)
  have hafter : ∀ j ∈ after, (f j).Rejects fuel arg := by
    intro j hj
    have hmem : j ∈ members := by
      rw [hmembers]
      exact List.mem_append_right _ (List.mem_cons_of_mem i hj)
    apply hfamily.rejects hmem _ hwords
    intro heq
    exact hkeys.1.2 (heq ▸ List.mem_map_of_mem hj)
  rw [hmembers, List.map_append, List.map_cons, ← List.append_assoc]
  apply replyOf_only
  · intro g hg
    cases List.mem_append.mp hg with
    | inl hg => exact hothers g hg
    | inr hg =>
      obtain ⟨j, hj, hfj⟩ := List.mem_map.mp hg
      exact hfj ▸ hbefore j hj
  · intro g hg
    obtain ⟨j, hj, hfj⟩ := List.mem_map.mp hg
    exact hfj ▸ hafter j hj

theorem Family.runs (hfamily : Family n lead key f ps members)
    (hothers : ∀ g ∈ others, g.Rejects fuel arg) {i : ι} (hi : i ∈ members) {words : List Text}
    {vs : List (Value V)} (hwords : Shell.split arg = lead ++ key i :: words)
    (hconverted : Converted (ps i) words vs) (s : σ) :
    ComesTo ((f i).body (keywordYields (n :: (lead ++ [key i])) ++ parameterYields (ps i) vs) s)
      (replyOf fuel n arg l (others ++ members.map f) s) := by
  have hcomes := hfamily.comesTo (l := l) hothers hi hwords s
  have hargs := hfamily.args i hi
  rw [← hfamily.name i] at hargs
  have hcall : (f i).spec.call fuel arg =
      .ok (keywordYields (n :: (lead ++ [key i])) ++ parameterYields (ps i) vs) := by
    rw [call_eq_ok_iff hargs, hfamily.name i]
    refine ⟨words, vs, ?_, hconverted, rfl⟩
    rw [hwords, List.append_assoc]
    rfl
  rw [Handler.call_of_match hcall] at hcomes
  exact hcomes

theorem Family.idle (hfamily : Family n lead key f ps members)
    (hothers : ∀ g ∈ others, g.Rejects fuel arg)
    (hnone : ∀ i ∈ members, ∀ words vs, Shell.split arg = lead ++ key i :: words →
      ¬ Converted (ps i) words vs) (s : σ) :
    Idle s (replyOf fuel n arg l (others ++ members.map f) s) := by
  by_cases hkeyword : ∃ i ∈ members, ∃ words, Shell.split arg = lead ++ key i :: words
  · obtain ⟨i, hi, words, hwords⟩ := hkeyword
    have hcomes := hfamily.comesTo (l := l) hothers hi hwords s
    have hargs := hfamily.args i hi
    rw [← hfamily.name i] at hargs
    cases hcall : (f i).spec.call fuel arg with
    | ok xs =>
      obtain ⟨words', vs, hwords', hconverted, -⟩ := (call_eq_ok_iff hargs).mp hcall
      rw [List.append_assoc] at hwords'
      exact absurd hconverted (hnone i hi words' vs hwords')
    | error e =>
      have herror : (f i).call fuel arg s = (.error e, s) := by
        rw [Handler.call, hcall]
      rw [herror] at hcomes
      exact hcomes.idle
  · apply replyOf_rejected
    intro g hg
    cases List.mem_append.mp hg with
    | inl hg => exact hothers g hg
    | inr hg =>
      obtain ⟨j, hj, hfj⟩ := List.mem_map.mp hg
      rw [← hfj]
      apply Handler.rejects_of_not_leading
      rw [hfamily.args j hj, leadingKeywords_keywordArgs, hfamily.name j, List.cons_prefix_cons]
      intro hlead
      obtain ⟨words, hwords⟩ := hlead.2
      apply hkeyword
      refine ⟨j, hj, words, ?_⟩
      rw [← hwords, List.append_assoc]
      rfl

end

/-! ## What a line asks for -/

def propertyName (prop : SchemaProperty) : Text := prop.arg.name

def Schema.readable (schema : Schema) : List Text :=
  schema.properties.map propertyName ++ schema.statistics

/-- No name is there twice, and none is written in capitals, as the words for parameters are. -/
structure Schema.WellNamed (schema : Schema) : Prop where
  readable : schema.readable.Nodup
  methods : (schema.methods.map SchemaMethod.name).Nodup
  lower : ∀ name ∈ schema.readable ++ schema.methods.map SchemaMethod.name,
    name.map Char.toUpper ≠ name

inductive Asks (py : Python O) (schema : Schema) : Text → List Text → Action O → Prop
  | get {name : Text} : name ∈ schema.readable → Asks py schema "get".toList [name] (.get name)
  | set {prop : SchemaProperty} {word : Text} {value : Value (Object O)} :
      prop ∈ schema.properties → prop.access = readWrite →
      qmfCall py prop.arg word = .value value →
      Asks py schema "set".toList [propertyName prop, word] (.set (propertyName prop) value)
  | filter {prop : SchemaProperty} {word : Text} {value : Value (Object O)} :
      prop ∈ schema.properties → qmfCall py prop.arg word = .value value →
      Asks py schema "select".toList ["property".toList, propertyName prop, word]
        (.filter (propertyName prop) value)
  | call {method : SchemaMethod} {words : List Text} {values : List (Value (Object O))} :
      method ∈ schema.methods →
      Converted ((inputs method).map (qmfProperty py)) words values →
      Asks py schema "call".toList (method.name :: words) (.call method.name values)

/-- The action is one that the schema allows, with values of the types that it declares. -/
def Action.Typed (schema : Schema) : Action O → Prop
  | .get name => name ∈ schema.readable
  | .set name value => ∃ prop ∈ schema.properties,
      propertyName prop = name ∧ prop.access = readWrite ∧ Describes prop.arg value
  | .filter name value => ∃ prop ∈ schema.properties,
      propertyName prop = name ∧ Describes prop.arg value
  | .call name values => ∃ method ∈ schema.methods,
      method.name = name ∧ List.Forall₂ Describes (inputs method) values

theorem describes_converted {py : Python O} {args : List SchemaArg} {words : List Text}
    {values : List (Value (Object O))} (h : Converted (args.map (qmfProperty py)) words values) :
    List.Forall₂ Describes args values := by
  induction args generalizing words values with
  | nil =>
    cases h
    exact .nil
  | cons arg args ih =>
    cases h with
    | cons hcall hrest =>
      exact .cons (describes_of_qmfCall (qmfProperty_call.mp hcall)) (ih hrest)

theorem Asks.typed {py : Python O} {schema : Schema} {name : Text} {words : List Text}
    {a : Action O} (h : Asks py schema name words a) : a.Typed schema := by
  cases h with
  | get hname => exact hname
  | set hprop haccess hvalue => exact ⟨_, hprop, rfl, haccess, describes_of_qmfCall hvalue⟩
  | filter hprop hvalue => exact ⟨_, hprop, rfl, describes_of_qmfCall hvalue⟩
  | call hmethod hvalues => exact ⟨_, hmethod, rfl, describes_converted hvalues⟩

def OfClass (name : Text) (words : List Text) : Prop :=
  name = "get".toList ∨ name = "set".toList ∨ name = "call".toList ∨
    name = "select".toList ∧ words.head? = some "property".toList

/-- The commands of the other modes: they have other names, or another keyword after `select`. -/
structure Elsewhere {V : Type} (base : List (Handler V σ)) : Prop where
  get : ∀ h ∈ base, h.spec.name ≠ "get".toList
  set : ∀ h ∈ base, h.spec.name ≠ "set".toList
  call : ∀ h ∈ base, h.spec.name ≠ "call".toList
  select : ∀ h ∈ base, h.spec.name = "select".toList →
    ∃ kw kws, leadingKeywords h.spec.args = "select".toList :: kw :: kws ∧ kw ≠ "property".toList

/-! ## The table of the class -/

section
variable {V : Type} {n : Text} {cmds cmds' base : List (Handler V σ)}

theorem named_append : named n (cmds ++ cmds') = named n cmds ++ named n cmds' :=
  List.filter_append cmds cmds'

theorem named_all (h : ∀ g ∈ cmds, g.spec.name = n) : named n cmds = cmds := by
  unfold named
  rw [List.filter_eq_self]
  intro g hg
  exact decide_eq_true (h g hg)

theorem named_none (h : ∀ g ∈ cmds, g.spec.name ≠ n) : named n cmds = [] := by
  unfold named
  rw [List.filter_eq_nil_iff]
  intro g hg hname
  exact h g hg (of_decide_eq_true hname)

theorem Elsewhere.rejects (h : Elsewhere base) (fuel : ℕ) {arg : Text}
    (hwords : (Shell.split arg).head? = some "property".toList) :
    ∀ g ∈ named "select".toList base, g.Rejects fuel arg := by
  intro g hg
  have hmem := mem_named.mp hg
  obtain ⟨kw, kws, hlead, hkw⟩ := h.select g hmem.1 hmem.2
  apply Handler.rejects_of_not_leading
  rw [hlead, hmem.2, List.cons_prefix_cons]
  intro hprefix
  cases hsplit : Shell.split arg with
  | nil =>
    rw [hsplit] at hwords
    cases hwords
  | cons word words =>
    rw [hsplit] at hwords hprefix
    apply hkw
    rw [(List.cons_prefix_cons.mp hprefix.2).1]
    exact Option.some.inj hwords

end

section
variable (py : Python O) (perform : Action O → σ → Except Raised Bool × σ)

def propertyCommands (doc : Text → Text → Text) (prop : SchemaProperty) :
    List (Handler (Object O) σ) :=
  getProperty perform doc prop.arg.name ::
    ((if prop.access = readWrite then [setProperty py perform doc prop] else []) ++
      [filterProperty py perform doc prop])

variable {py perform} in
theorem named_properties {n : Text} {doc : Text → Text → Text}
    {g : SchemaProperty → List (Handler (Object O) σ)}
    (h : ∀ prop, named n (propertyCommands py perform doc prop) = g prop)
    (properties : List SchemaProperty) :
    named n (properties.flatMap (propertyCommands py perform doc)) = properties.flatMap g := by
  induction properties with
  | nil => rfl
  | cons prop properties ih => rw [List.flatMap_cons, List.flatMap_cons, named_append, h, ih]

theorem classCommands_eq (schema : Schema) :
    classCommands py perform schema =
      schema.properties.flatMap (propertyCommands py perform schema.doc) ++
        schema.statistics.map (getProperty perform schema.doc) ++
          schema.methods.map (callMethod py perform schema.doc) :=
  rfl

theorem named_map_none {ι V : Type} (f : ι → Handler V σ) (name : Text) {n : Text}
    (hname : ∀ i, (f i).spec.name = name) (hne : name ≠ n) (members : List ι) :
    named n (members.map f) = [] := by
  apply named_none
  intro g hg
  obtain ⟨i, -, hi⟩ := List.mem_map.mp hg
  rw [← hi, hname i]
  exact hne

theorem named_map_all {ι V : Type} (f : ι → Handler V σ) (n : Text)
    (hname : ∀ i, (f i).spec.name = n) (members : List ι) :
    named n (members.map f) = members.map f := by
  apply named_all
  intro g hg
  obtain ⟨i, -, hi⟩ := List.mem_map.mp hg
  rw [← hi, hname i]

theorem named_get (schema : Schema) :
    named "get".toList (classCommands py perform schema) =
      schema.readable.map (getProperty perform schema.doc) := by
  have hproperty : ∀ prop, named "get".toList (propertyCommands py perform schema.doc prop) =
      [getProperty perform schema.doc prop.arg.name] := by
    intro prop
    unfold propertyCommands
    split <;> rfl
  rw [classCommands_eq, named_append, named_append, named_properties hproperty,
    named_map_all (getProperty perform schema.doc) "get".toList fun _ => rfl,
    named_map_none (callMethod py perform schema.doc) "call".toList (fun _ => rfl) (by decide),
    List.append_nil, ← List.map_eq_flatMap, Schema.readable, List.map_append, List.map_map]
  rfl

theorem named_set (schema : Schema) :
    named "set".toList (classCommands py perform schema) =
      (schema.properties.filter fun prop => prop.access = readWrite).map
        (setProperty py perform schema.doc) := by
  have hproperty : ∀ prop, named "set".toList (propertyCommands py perform schema.doc prop) =
      if prop.access = readWrite then [setProperty py perform schema.doc prop] else [] := by
    intro prop
    unfold propertyCommands
    split <;> rfl
  rw [classCommands_eq, named_append, named_append, named_properties hproperty,
    named_map_none (getProperty perform schema.doc) "get".toList (fun _ => rfl) (by decide),
    named_map_none (callMethod py perform schema.doc) "call".toList (fun _ => rfl) (by decide),
    List.append_nil, List.append_nil]
  induction schema.properties with
  | nil => rfl
  | cons prop properties ih =>
    rw [List.flatMap_cons, ih]
    by_cases haccess : prop.access = readWrite
    · rw [if_pos haccess, List.filter_cons, if_pos (decide_eq_true haccess)]
      rfl
    · rw [if_neg haccess, List.filter_cons, if_neg (by rw [decide_eq_true_eq]; exact haccess)]
      rfl

theorem named_select (schema : Schema) :
    named "select".toList (classCommands py perform schema) =
      schema.properties.map (filterProperty py perform schema.doc) := by
  have hproperty : ∀ prop, named "select".toList (propertyCommands py perform schema.doc prop) =
      [filterProperty py perform schema.doc prop] := by
    intro prop
    unfold propertyCommands
    split <;> rfl
  rw [classCommands_eq, named_append, named_append, named_properties hproperty,
    named_map_none (getProperty perform schema.doc) "get".toList (fun _ => rfl) (by decide),
    named_map_none (callMethod py perform schema.doc) "call".toList (fun _ => rfl) (by decide),
    List.append_nil, List.append_nil,
    ← List.map_eq_flatMap]

theorem named_call (schema : Schema) :
    named "call".toList (classCommands py perform schema) =
      schema.methods.map (callMethod py perform schema.doc) := by
  have hproperty : ∀ prop, named "call".toList (propertyCommands py perform schema.doc prop) = [] := by
    intro prop
    unfold propertyCommands
    split <;> rfl
  rw [classCommands_eq, named_append, named_append, named_properties hproperty,
    named_map_none (getProperty perform schema.doc) "get".toList (fun _ => rfl) (by decide),
    named_map_all (callMethod py perform schema.doc) "call".toList fun _ => rfl,
    List.append_nil, List.flatMap_eq_nil_iff.mpr (fun _ _ => rfl), List.nil_append]

end

section
variable {py : Python O} {perform : Action O → σ → Except Raised Bool × σ} {schema : Schema}

theorem string_args {V : Type} {s : Text} (h : s.map Char.toUpper ≠ s) (rest : Definition V) :
    (Definition.string s rest).args = .keyword s rest.args := by
  rw [Definition.args, if_neg h]

theorem callables_args (ps : List (Parameter (Object O))) :
    (callables ps).args = parameterArgs ps := by
  induction ps with
  | nil => rfl
  | cons p ps ih => rw [callables, Definition.args, ih, parameterArgs]

theorem Schema.WellNamed.property (h : schema.WellNamed) {prop : SchemaProperty}
    (hprop : prop ∈ schema.properties) : prop.arg.name.map Char.toUpper ≠ prop.arg.name := by
  apply h.lower
  apply List.mem_append_left
  exact List.mem_append_left _ (List.mem_map_of_mem hprop)

theorem getFamily (perform : Action O → σ → Except Raised Bool × σ)
    (h : schema.WellNamed) :
    Family "get".toList [] id (getProperty (O := O) perform schema.doc) (fun _ => [])
      schema.readable where
  name _ := rfl
  args name hname := by
    unfold getProperty command
    dsimp only
    rw [string_args (h.lower name (List.mem_append_left _ hname))]
    rfl
  nodup := by
    rw [List.map_id]
    exact h.readable

theorem setFamily (py : Python O) (perform : Action O → σ → Except Raised Bool × σ)
    (h : schema.WellNamed) :
    Family "set".toList [] propertyName (setProperty py perform schema.doc)
      (fun prop => [qmfProperty py prop.arg])
      (schema.properties.filter fun prop => prop.access = readWrite) where
  name _ := rfl
  args prop hprop := by
    unfold setProperty command
    dsimp only
    rw [string_args (h.property (List.mem_of_mem_filter hprop))]
    rfl
  nodup := by
    have hnodup := (List.nodup_append.mp h.readable).1
    exact hnodup.sublist (List.filter_sublist.map propertyName)

theorem filterFamily (py : Python O) (perform : Action O → σ → Except Raised Bool × σ)
    (h : schema.WellNamed) :
    Family "select".toList ["property".toList] propertyName (filterProperty py perform schema.doc)
      (fun prop => [qmfProperty py prop.arg]) schema.properties where
  name _ := rfl
  args prop hprop := by
    unfold filterProperty command
    dsimp only
    rw [string_args (by decide), string_args (h.property hprop)]
    rfl
  nodup := (List.nodup_append.mp h.readable).1

theorem callFamily (py : Python O) (perform : Action O → σ → Except Raised Bool × σ)
    (h : schema.WellNamed) :
    Family "call".toList [] SchemaMethod.name (callMethod py perform schema.doc)
      (fun method => (inputs method).map (qmfProperty py)) schema.methods where
  name _ := rfl
  args method hmethod := by
    have hlower : method.name.map Char.toUpper ≠ method.name := by
      apply h.lower
      exact List.mem_append_right _ (List.mem_map_of_mem hmethod)
    unfold callMethod command
    dsimp only
    rw [string_args hlower, callables_args]
    rfl
  nodup := h.methods

end

/-! ## Every line of the class -/

section
variable {py : Python O} {perform : Action O → σ → Except Raised Bool × σ} {schema : Schema}
  {base : List (Handler (Object O) σ)} {fuel : ℕ} {arg l : Text}

def classReply (py : Python O) (perform : Action O → σ → Except Raised Bool × σ) (schema : Schema)
    (base : List (Handler (Object O) σ)) (fuel : ℕ) (n arg l : Text) (s : σ) : Reply × σ :=
  replyOf fuel n arg l (named n base ++ named n (classCommands py perform schema)) s

/-- The result is what the line asks for, or nothing. -/
structure Serves (py : Python O) (perform : Action O → σ → Except Raised Bool × σ) (schema : Schema)
    (n : Text) (words : List Text) (s : σ) (result : Reply × σ) : Prop where
  asked : ∀ a, Asks py schema n words a → ComesTo (perform a s) result
  idle : (¬ ∃ a, Asks py schema n words a) → Idle s result

/-- A family serves its command, if its bodies perform what is asked for and nothing is asked for
that no member takes. -/
theorem Family.serves {ι : Type} {n : Text} {lead : List Text} {key : ι → Text}
    {f : ι → Handler (Object O) σ} {ps : ι → List (Parameter (Object O))} {members : List ι}
    {others : List (Handler (Object O) σ)} (hfamily : Family n lead key f ps members)
    (hothers : ∀ g ∈ others, g.Rejects fuel arg)
    (hasked : ∀ a words, Asks py schema n words a → ∃ i ∈ members, ∃ rest vs,
      words = lead ++ key i :: rest ∧ Converted (ps i) rest vs ∧
      ∀ s, (f i).body (keywordYields (n :: (lead ++ [key i])) ++ parameterYields (ps i) vs) s =
        perform a s)
    (htaken : ∀ i ∈ members, ∀ rest vs, Converted (ps i) rest vs →
      ∃ a, Asks py schema n (lead ++ key i :: rest) a) (s : σ) :
    Serves py perform schema n (Shell.split arg) s
      (replyOf fuel n arg l (others ++ members.map f) s) := by
  constructor
  · intro a hasks
    obtain ⟨i, hi, rest, vs, hwords, hconverted, hbody⟩ := hasked a _ hasks
    rw [← hbody]
    exact hfamily.runs hothers hi hwords hconverted s
  · intro hnone
    apply hfamily.idle hothers
    intro i hi rest vs hwords hconverted
    apply hnone
    rw [hwords]
    exact htaken i hi rest vs hconverted

theorem get_reply (h : schema.WellNamed) (hbase : Elsewhere base) (s : σ) :
    Serves py perform schema "get".toList (Shell.split arg) s
      (classReply py perform schema base fuel "get".toList arg l s) := by
  unfold classReply
  rw [named_none hbase.get, named_get]
  apply (getFamily perform h).serves (List.forall_mem_nil _)
  · intro a words hasks
    cases hasks with
    | get hname => exact ⟨_, hname, [], [], rfl, .nil, fun _ => rfl⟩
  · intro name hname rest vs hconverted
    cases hconverted
    exact ⟨_, Asks.get hname⟩

theorem set_reply (h : schema.WellNamed) (hbase : Elsewhere base) (s : σ) :
    Serves py perform schema "set".toList (Shell.split arg) s
      (classReply py perform schema base fuel "set".toList arg l s) := by
  unfold classReply
  rw [named_none hbase.set, named_set]
  apply (setFamily py perform h).serves (List.forall_mem_nil _)
  · intro a words hasks
    cases hasks with
    | set hprop haccess hvalue =>
      have hmem : _ ∈ schema.properties.filter fun prop => prop.access = readWrite :=
        List.mem_filter.mpr ⟨hprop, decide_eq_true haccess⟩
      exact ⟨_, hmem, _, _, rfl, .cons (qmfProperty_call.mpr hvalue) .nil, fun _ => rfl⟩
  · intro prop hprop rest vs hconverted
    have hmem := List.mem_filter.mp hprop
    cases hconverted with
    | cons hcall hrest =>
      cases hrest
      exact ⟨_, Asks.set hmem.1 (of_decide_eq_true hmem.2) (qmfProperty_call.mp hcall)⟩

theorem filter_reply (h : schema.WellNamed) (hbase : Elsewhere base)
    (hproperty : (Shell.split arg).head? = some "property".toList) (s : σ) :
    Serves py perform schema "select".toList (Shell.split arg) s
      (classReply py perform schema base fuel "select".toList arg l s) := by
  unfold classReply
  rw [named_select]
  apply (filterFamily py perform h).serves (hbase.rejects fuel hproperty)
  · intro a words hasks
    cases hasks with
    | filter hprop hvalue =>
      exact ⟨_, hprop, _, _, rfl, .cons (qmfProperty_call.mpr hvalue) .nil, fun _ => rfl⟩
  · intro prop hprop rest vs hconverted
    cases hconverted with
    | cons hcall hrest =>
      cases hrest
      exact ⟨_, Asks.filter hprop (qmfProperty_call.mp hcall)⟩

theorem passed_parameterYields {ps : List (Parameter (Object O))} {words : List Text}
    {vs : List (Value (Object O))} (h : Converted ps words vs) :
    passed (parameterYields ps vs) = vs := by
  induction h with
  | nil => rfl
  | cons _ _ ih => exact congrArg (_ :: ·) ih

theorem callMethod_body (perform : Action O → σ → Except Raised Bool × σ) {method : SchemaMethod}
    {words : List Text} {vs : List (Value (Object O))}
    (h : Converted ((inputs method).map (qmfProperty py)) words vs) (s : σ) :
    (callMethod py perform schema.doc method).body
      (keywordYields ("call".toList :: ([] ++ [method.name])) ++
        parameterYields ((inputs method).map (qmfProperty py)) vs) s =
      perform (.call method.name vs) s := by
  change perform (.call method.name (passed (parameterYields _ vs))) s = _
  rw [passed_parameterYields h]

theorem call_reply (h : schema.WellNamed) (hbase : Elsewhere base) (s : σ) :
    Serves py perform schema "call".toList (Shell.split arg) s
      (classReply py perform schema base fuel "call".toList arg l s) := by
  unfold classReply
  rw [named_none hbase.call, named_call]
  apply (callFamily py perform h).serves (List.forall_mem_nil _)
  · intro a words hasks
    cases hasks with
    | call hmethod hconverted =>
      exact ⟨_, hmethod, _, _, rfl, hconverted, callMethod_body perform hconverted⟩
  · intro method hmethod rest vs hconverted
    exact ⟨_, Asks.call hmethod hconverted⟩

/-- In a mode for a class, a line with one of the commands of the class does with the selected
objects what it asks for, which the schema allows and with values of the types that it declares;
and a line that asks for nothing of the kind does nothing. -/
theorem class_commands_typed (py : Python O) (perform : Action O → σ → Except Raised Bool × σ)
    (fuel : ℕ) (schema : Schema) (hschema : schema.WellNamed) (base : List (Handler (Object O) σ))
    (hbase : Elsewhere base) (m : Mode (Object O) σ)
    (hm : modeOf (base ++ classCommands py perform schema) = .ok m) (line name arg rest : Text)
    (hparse : parseline (m "shell".toList).isSome line = (some (name, arg), rest))
    (hclass : OfClass name (Shell.split arg)) (s : σ) :
    Serves py perform schema name (Shell.split arg) s (onecmd fuel m line s) ∧
      ∀ a, Asks py schema name (Shell.split arg) a → a.Typed schema := by
  refine ⟨?_, fun a hasks => hasks.typed⟩
  rw [modeOf_eq] at hm
  cases hm
  have hreply : name ≠ [] → Dispatch.builtin name = none →
      onecmd fuel (table (base ++ classCommands py perform schema)) line s =
        classReply py perform schema base fuel name arg rest s := by
    intro hname hbuiltin
    rw [onecmd_named hparse hname hbuiltin, named_append]
    rfl
  rcases hclass with hname | hname | hname | ⟨hname, hproperty⟩
  · subst hname
    rw [hreply (by decide) (by decide)]
    exact get_reply hschema hbase s
  · subst hname
    rw [hreply (by decide) (by decide)]
    exact set_reply hschema hbase s
  · subst hname
    rw [hreply (by decide) (by decide)]
    exact call_reply hschema hbase s
  · subst hname
    rw [hreply (by decide) (by decide)]
    exact filter_reply hschema hbase hproperty s

end

def updateInterval : SchemaProperty :=
  ⟨⟨"update_interval".toList, .u16, none, none, none⟩, readWrite⟩

/-- Two of the properties of the host agent's class, and one each of the others, without help. -/
def hostSchema : Schema where
  properties := [updateInterval, ⟨⟨"uuid".toList, .sstr, none, none, none⟩, 3⟩]
  statistics := ["free_mem".toList]
  methods := [⟨"set_uuid".toList, [⟨⟨"lifetime".toList, .sstr, none, none, none⟩, "I".toList⟩]⟩]
  doc _ _ := []

def plainPython : Python Unit where
  eval _ := .error .nameError
  float param := .error ("could not convert string to float: ".toList ++ param)
  unicode _ := .ok []
  noInt param := "invalid literal for int() with base 10: '".toList ++ param ++ ['\'']

def record (a : Action Unit) (s : List (Action Unit)) : Except Raised Bool × List (Action Unit) :=
  (.ok false, s ++ [a])

theorem class_commands_typed_interval :
    (onecmd 9 (table (classCommands plainPython record hostSchema))
      "set update_interval 300".toList []).2 =
        [.set "update_interval".toList (.object (.int 300))] := by
  have hschema : hostSchema.WellNamed := ⟨by decide, by decide, by decide⟩
  have hbase : Elsewhere ([] : List (Handler (Object Unit) (List (Action Unit)))) :=
    ⟨List.forall_mem_nil _, List.forall_mem_nil _, List.forall_mem_nil _, List.forall_mem_nil _⟩
  have hwords : Shell.split "update_interval 300".toList =
      ["update_interval".toList, "300".toList] := by decide
  have hserves := (class_commands_typed plainPython record 9 hostSchema hschema [] hbase
    (table (classCommands plainPython record hostSchema)) (modeOf_eq _)
    "set update_interval 300".toList "set".toList "update_interval 300".toList
    "set update_interval 300".toList (by rfl) (.inr (.inl rfl)) []).1
  rw [hwords] at hserves
  have hasks : Asks plainPython hostSchema "set".toList [propertyName updateInterval, "300".toList]
      (.set (propertyName updateInterval) (.object (.int 300))) :=
    Asks.set List.mem_cons_self rfl rfl
  exact (hserves.asked _ hasks).state

end Matahari.Shell.ClassCommands
