import Matahari.Library.Fuel
import Matahari.ShellGroups

set_option autoImplicit false

/-!
# When the matching ends

A repeated list goes on as long as there are words. It does not end when its members take none of
them, which is so where all of them are optional and decline. What a function raises is passed on,
but for a `ValueError` of a conversion, and a `StopIteration`, which ends a generator only.
-/
namespace Matahari.Shell
open Mainloop Fuel

variable {V : Type}

/-- The handler function is reached, or one of the two exceptions of commands is raised. -/
def Decided {α : Type} : Except Raised α → Prop
  | .ok _ | .error (.invalidArgument _) | .error (.invalidCommand _ _) => True
  | .error (.exception _) | .error .unfinished => False

def Raised.Strays : Raised → Prop
  | .exception name => name ≠ "StopIteration".toList
  | .invalidArgument _ | .invalidCommand _ _ | .unfinished => False

/-- The match of arguments with words comes to a round of a repeated list that takes none of the
words, to a word for which the function of a parameter raises another exception, or to a group with
a default that does. -/
inductive Breaks : ArgList V → List Text → Prop
  | raises {p : Parameter V} {rest : ArgList V} {val : Text} {values : List Text} {e : Raised} :
      p.call val = .error e → e.Strays → Breaks (.parameter p rest) (val :: values)
  | defaults {group rest : ArgList V} {values : List Text} {e : Raised} :
      group.defaults = .error e → e.Strays → Breaks (.optional group rest) values
  | keyword {kw : Text} {rest : ArgList V} {values mid : List Text} {x : Yielded V} :
      matchKeyword kw values = .ok (some x, mid) → Breaks rest mid →
      Breaks (.keyword kw rest) values
  | parameter {p : Parameter V} {rest : ArgList V} {values mid : List Text} {x : Matched V} :
      p.match values = .ok (x, mid) → x ≠ .none → Breaks rest mid →
      Breaks (.parameter p rest) values
  | inside {group rest : ArgList V} {values : List Text} {ds : List (Passed V)} :
      group.defaults = .ok ds → values ≠ [] → Breaks group values →
      Breaks (.optional group rest) values
  | after {fuel : ℕ} {group rest : ArgList V} {values mid : List Text} {x : Option (Yielded V)} :
      matchOptional (collate fuel group) group.defaults values = .ok (x, mid) →
      Breaks rest mid → Breaks (.optional group rest) values
  | idle {fuel : ℕ} {group rest : ArgList V} {values v : List Text} {xs : List (Yielded V)} :
      Rounds (collate fuel group) values v → collate fuel group v = .ok (xs, v) →
      Breaks (.repeated group rest) values
  | round {fuel : ℕ} {group rest : ArgList V} {values v : List Text} :
      Rounds (collate fuel group) values v → Breaks group v → Breaks (.repeated group rest) values
  | past {fuel : ℕ} {group rest : ArgList V} {values mid : List Text} {xs : List (Yielded V)} :
      matchRepeated (collate fuel group) fuel values = .ok (xs, mid) → Breaks rest mid →
      Breaks (.repeated group rest) values

/-! ## More fuel -/

section
variable {fuel : ℕ} {args group : ArgList V} {values rest v : List Text} {xs : List (Yielded V)}

theorem extends_matchOptional {c c' : Collate V} (h : ∀ ws, Extends .unfinished (c ws) (c' ws))
    (ds : Except Raised (List (Passed V))) (values : List Text) :
    Extends .unfinished (matchOptional c ds values) (matchOptional c' ds values) := by
  unfold matchOptional
  split
  · exact .refl _ _
  split
  · exact .refl _ _
  · intro hend
    have hc : c values ≠ .error .unfinished := by
      intro heq
      rw [heq] at hend
      exact hend rfl
    rw [h values hc]

theorem extends_iterations {c c' : Collate V} (h : ∀ ws, Extends .unfinished (c ws) (c' ws))
    {n m : ℕ} (hle : n ≤ m) (values : List Text) :
    Extends .unfinished (iterations c n values) (iterations c' m values) := by
  induction n generalizing m values with
  | zero =>
    cases values with
    | nil =>
      rw [iterations, iterations]
      exact .refl _ _
    | cons val values => exact .unfinished _
  | succ n ih =>
    obtain ⟨k, rfl⟩ := Nat.exists_eq_add_of_le' hle
    cases values with
    | nil => exact .refl _ _
    | cons val values =>
      refine Extends.bind (h _) fun r => ?_
      exact Extends.bind (ih (Nat.le_add_left n k) _) fun _ => .refl _ _

theorem extends_matchRepeated {c c' : Collate V} (h : ∀ ws, Extends .unfinished (c ws) (c' ws))
    {n m : ℕ} (hle : n ≤ m) (values : List Text) :
    Extends .unfinished (matchRepeated c n values) (matchRepeated c' m values) := by
  unfold matchRepeated
  split
  · exact .refl _ _
  · exact extends_iterations h hle values

theorem extends_collate (args : ArgList V) {n m : ℕ} (hle : n ≤ m) (values : List Text) :
    Extends .unfinished (collate n args values) (collate m args values) := by
  induction args generalizing values with
  | nil => exact .refl _ _
  | keyword kw rest ih =>
    refine Extends.bind (.refl _ _) fun r => ?_
    obtain ⟨x, mid⟩ := r
    cases x with
    | none => exact .refl _ _
    | some x => exact Extends.bind (ih _) fun _ => .refl _ _
  | parameter p rest ih =>
    refine Extends.bind (.refl _ _) fun r => ?_
    obtain ⟨x, mid⟩ := r
    cases x with
    | none => exact .refl _ _
    | nothing => exact ih _
    | value x => exact Extends.bind (ih _) fun _ => .refl _ _
  | optional group rest ihgroup ih =>
    refine Extends.bind (extends_matchOptional (fun ws => ihgroup ws) _ _) fun r => ?_
    exact Extends.bind (ih _) fun _ => .refl _ _
  | repeated group rest ihgroup ih =>
    refine Extends.bind (extends_matchRepeated (fun ws => ihgroup ws) hle _) fun r => ?_
    exact Extends.bind (ih _) fun _ => .refl _ _

theorem collate_agree {n m : ℕ} (hn : collate n args values ≠ .error .unfinished)
    (hm : collate m args values ≠ .error .unfinished) :
    collate n args values = collate m args values :=
  @Fuel.agree _ _ _ (fun n => collate n args values)
    (fun _ _ hle => extends_collate args hle values) n m hn hm

theorem collate_ok_mono {n m : ℕ} (hle : n ≤ m) (h : collate n args values = .ok (xs, rest)) :
    collate m args values = .ok (xs, rest) := by
  rw [extends_collate args hle values (by rw [h]; exact nofun), h]

theorem rounds_mono {n m : ℕ} (hle : n ≤ m) (h : Rounds (collate n group) values v) :
    Rounds (collate m group) values v := by
  induction h with
  | first hne => exact .first hne
  | next hne hmembers _ ih => exact .next hne (collate_ok_mono hle hmembers) ih

theorem matchOptional_agree {ds : Except Raised (List (Passed V))} {n m : ℕ}
    (hn : matchOptional (collate n group) ds values ≠ .error .unfinished)
    (hm : matchOptional (collate m group) ds values ≠ .error .unfinished) :
    matchOptional (collate n group) ds values = matchOptional (collate m group) ds values :=
  @Fuel.agree _ _ _ (fun n => matchOptional (collate n group) ds values)
    (fun _ _ hle => extends_matchOptional (extends_collate group hle) ds values) n m hn hm

theorem matchRepeated_agree {n m : ℕ}
    (hn : matchRepeated (collate n group) n values ≠ .error .unfinished)
    (hm : matchRepeated (collate m group) m values ≠ .error .unfinished) :
    matchRepeated (collate n group) n values = matchRepeated (collate m group) m values :=
  @Fuel.agree _ _ _ (fun n => matchRepeated (collate n group) n values)
    (fun _ _ hle => extends_matchRepeated (extends_collate group hle) hle values) n m hn hm

/-! ## The words that are left -/

theorem matchOptional_suffix {c : Collate V}
    (hc : ∀ values xs rest, c values = .ok (xs, rest) → rest <:+ values)
    {ds : Except Raised (List (Passed V))} {x : Option (Yielded V)}
    (h : matchOptional c ds values = .ok (x, rest)) : rest <:+ values := by
  obtain ⟨-, xs, -, -, hmembers, -⟩ | ⟨-, -, -, -, rfl⟩ | ⟨-, -, rfl⟩ := matchOptional_cases h
  · exact hc _ _ _ hmembers
  · exact List.suffix_rfl
  · exact List.suffix_rfl

theorem matchRepeated_rest {c : Collate V} {n : ℕ}
    (h : matchRepeated c n values = .ok (xs, rest)) : rest = [] := by
  obtain ⟨-, hrounds⟩ := matchRepeated_ok h
  exact (iterations_induction (P := fun _ _ => True) trivial (fun _ _ _ => trivial) hrounds).1

theorem collate_suffix (h : collate fuel args values = .ok (xs, rest)) : rest <:+ values := by
  induction args generalizing values rest xs with
  | nil =>
    cases h
    exact List.suffix_rfl
  | keyword kw args ih =>
    obtain ⟨rfl, -, rfl⟩ | ⟨mid, ys, rfl, hrest, -⟩ := collate_keyword_cases h
    · exact List.suffix_rfl
    · exact (ih hrest).trans (List.suffix_cons _ _)
  | parameter p args ih =>
    obtain ⟨-, ⟨rfl, rfl⟩ | ⟨val, rfl, -⟩⟩ | ⟨val, mid, rfl, -, hrest⟩ |
      ⟨val, v, mid, ys, rfl, -, hrest, -⟩ := collate_parameter_cases h
    · exact List.suffix_rfl
    · exact List.suffix_cons _ _
    · exact (ih hrest).trans (List.suffix_cons _ _)
    · exact (ih hrest).trans (List.suffix_cons _ _)
  | optional group args ihgroup ih =>
    obtain ⟨x, mid, ys, hmatch, hrest, -⟩ := collate_optional_cases h
    exact (ih hrest).trans (matchOptional_suffix (fun _ _ _ => ihgroup) hmatch)
  | repeated group args _ ih =>
    obtain ⟨zs, mid, ys, hmatch, hrest, -⟩ := collate_repeated_cases h
    rw [matchRepeated_rest hmatch] at hrest
    exact (ih hrest).trans List.nil_suffix

/-! ## A match that ends does not break -/

theorem Decided.ne_unfinished {α : Type} {r : Except Raised α} (h : Decided r) :
    r ≠ .error .unfinished := by
  rintro rfl
  exact h

theorem decided_bind {α β : Type} {x : Except Raised α} {f : α → Except Raised β} :
    Decided (x >>= f) ↔ Decided x ∧ ∀ a, x = .ok a → Decided (f a) := by
  cases x with
  | error e =>
    refine ⟨fun h => ⟨?_, nofun⟩, fun h => ?_⟩
    · cases e <;> exact h
    · cases e <;> exact h.1
  | ok a =>
    refine ⟨fun h => ⟨trivial, fun b hb => ?_⟩, fun h => h.2 a rfl⟩
    cases hb
    exact h

theorem decided_matchOptional {c : Collate V} {ds : List (Passed V)} (hvalues : values ≠ []) :
    Decided (matchOptional c (.ok ds) values) ↔ Decided (c values) := by
  rw [matchOptional, if_neg hvalues]
  cases c values with
  | ok r => exact Iff.rfl
  | error e => cases e <;> exact Iff.rfl

section
variable {e : Raised}

theorem Raised.Strays.ne_stopIteration (h : e.Strays) : e ≠ stopIteration := by
  rintro rfl
  exact h rfl

theorem Raised.Strays.exception (h : e.Strays) : ∃ name, e = .exception name := by
  cases e with
  | exception name => exact ⟨name, rfl⟩
  | invalidArgument message => exact h.elim
  | invalidCommand line message => exact h.elim
  | unfinished => exact h.elim

theorem Raised.Strays.not_decided {α : Type} (h : e.Strays) :
    ¬ Decided (.error e : Except Raised α) := by
  obtain ⟨name, rfl⟩ := h.exception
  exact id

theorem Raised.decided_of_not_strays {α : Type} (h : ¬ e.Strays) (hstop : e ≠ stopIteration)
    (hend : e ≠ .unfinished) : Decided (.error e : Except Raised α) := by
  cases e with
  | invalidArgument message => trivial
  | invalidCommand line message => trivial
  | exception name => exact absurd (fun hname => hstop (congrArg _ hname)) h
  | unfinished => exact absurd rfl hend

end

/-- A round that takes no words is followed by itself. -/
theorem iterations_idle {c : Collate V} (hvalues : values ≠ []) (h : c values = .ok (xs, values))
    (n : ℕ) : iterations c n values = .error .unfinished := by
  obtain ⟨val, values, rfl⟩ := List.exists_cons_of_ne_nil hvalues
  induction n with
  | zero => rfl
  | succ n ih =>
    rw [iterations, h]
    change (iterations c n (val :: values) >>= _) = _
    rw [ih]
    rfl

theorem decided_rounds {n m : ℕ} (h : Decided (iterations (collate fuel group) n values))
    (hround : Rounds (collate m group) values v) :
    Decided (collate fuel group v) ∧ ∀ k xs, collate k group v ≠ .ok (xs, v) := by
  induction hround generalizing n with
  | @first values hvalues =>
    have hmembers : Decided (collate fuel group values) := by
      obtain ⟨val, values, rfl⟩ := List.exists_cons_of_ne_nil hvalues
      cases n with
      | zero => exact h.elim
      | succ n => exact (decided_bind.mp h).1
    refine ⟨hmembers, fun k xs hidle => ?_⟩
    have hsame : collate fuel group values = .ok (xs, values) := by
      rw [← hidle]
      exact collate_agree hmembers.ne_unfinished (by rw [hidle]; exact nofun)
    rw [iterations_idle hvalues hsame] at h
    exact h
  | @next values mid v xs hvalues hmembers _ ih =>
    obtain ⟨val, values, rfl⟩ := List.exists_cons_of_ne_nil hvalues
    cases n with
    | zero => exact h.elim
    | succ n =>
      obtain ⟨hfirst, hmore⟩ := decided_bind.mp h
      have hsame : collate fuel group (val :: values) = .ok (xs, mid) := by
        rw [← hmembers]
        exact collate_agree hfirst.ne_unfinished (by rw [hmembers]; exact nofun)
      exact ih (decided_bind.mp (hmore _ hsame)).1

theorem not_breaks (h : Decided (collate fuel args values)) : ¬ Breaks args values := by
  induction args generalizing values with
  | nil =>
    intro hb
    cases hb
  | keyword kw rest ih =>
    intro hb
    obtain ⟨_, hmore⟩ := decided_bind.mp h
    cases hb with
    | keyword hmatch hb => exact ih (decided_bind.mp (hmore _ hmatch)).1 hb
  | parameter p rest ih =>
    intro hb
    obtain ⟨hfirst, hmore⟩ := decided_bind.mp h
    cases hb with
    | raises hcall he =>
      rw [Parameter.match, hcall] at hfirst
      dsimp only at hfirst
      rw [if_neg he.ne_stopIteration] at hfirst
      exact he.not_decided hfirst
    | @parameter _ _ _ mid x hmatch hne hb =>
      have hrest := hmore _ hmatch
      cases x with
      | none => exact hne rfl
      | nothing => exact ih hrest hb
      | value x => exact ih (decided_bind.mp hrest).1 hb
  | optional group rest ihgroup ih =>
    intro hb
    obtain ⟨hfirst, hmore⟩ := decided_bind.mp h
    cases hb with
    | defaults hdefaults he =>
      rw [hdefaults, matchOptional, if_neg he.ne_stopIteration] at hfirst
      exact he.not_decided hfirst
    | inside hdefaults hvalues hb =>
      rw [hdefaults] at hfirst
      exact ihgroup ((decided_matchOptional hvalues).mp hfirst) hb
    | after hmatch hb =>
      have hsame := matchOptional_agree hfirst.ne_unfinished (by rw [hmatch]; simp)
      rw [hmatch] at hsame
      exact ih (decided_bind.mp (hmore _ hsame)).1 hb
  | repeated group rest ihgroup ih =>
    intro hb
    obtain ⟨hfirst, hmore⟩ := decided_bind.mp h
    have hrounds : ∀ {m v}, Rounds (collate m group) values v →
        Decided (collate fuel group v) ∧ ∀ k xs, collate k group v ≠ .ok (xs, v) := by
      intro m v hround
      have hvalues : values ≠ [] := by
        rintro rfl
        exact not_rounds_nil hround
      rw [matchRepeated, if_neg hvalues] at hfirst
      exact decided_rounds hfirst hround
    cases hb with
    | idle hround hidle => exact (hrounds hround).2 _ _ hidle
    | round hround hb => exact ihgroup (hrounds hround).1 hb
    | past hmatch hb =>
      have hsame := matchRepeated_agree hfirst.ne_unfinished (by rw [hmatch]; simp)
      rw [hmatch] at hsame
      exact ih (decided_bind.mp (hmore _ hsame)).1 hb

/-! ## A match that does not break ends -/

theorem decided_matchKeyword (kw : Text) (values : List Text) :
    Decided (matchKeyword kw values : Except Raised (Option (Yielded V) × List Text)) := by
  cases values with
  | nil => trivial
  | cons val values =>
    rw [matchKeyword]
    split <;> trivial

theorem Parameter.call_ne_unfinished (p : Parameter V) (val : Text) :
    p.call val ≠ .error .unfinished := by
  unfold Parameter.call
  split
  · simp
  · split <;> simp

theorem Parameter.defaultValue_ne_unfinished (p : Parameter V) :
    p.defaultValue ≠ .error .unfinished := by
  unfold Parameter.defaultValue
  split
  · simp
  · split <;> simp

/-- What cannot be worked out is the default of a parameter. -/
theorem ArgList.defaults_error {e : Raised} (h : args.defaults = .error e) :
    ∃ p, .parameter p ∈ args.leaves ∧ p.defaultValue = .error e := by
  induction args with
  | nil => cases h
  | keyword kw rest ih =>
    obtain hrest | ⟨ds, -, hdone⟩ := bind_eq_error h
    · obtain ⟨p, hp, herror⟩ := ih hrest
      exact ⟨p, List.mem_cons_of_mem _ hp, herror⟩
    · cases hdone
  | parameter p rest ih =>
    obtain hfirst | ⟨d, -, hmore⟩ := bind_eq_error h
    · exact ⟨p, List.mem_cons_self, hfirst⟩
    obtain hrest | ⟨ds, -, hdone⟩ := bind_eq_error hmore
    · obtain ⟨q, hq, herror⟩ := ih hrest
      exact ⟨q, List.mem_cons_of_mem _ hq, herror⟩
    · cases hdone
  | optional group rest ihgroup ih =>
    obtain hfirst | ⟨d, -, hmore⟩ := bind_eq_error h
    · obtain ⟨p, hp, herror⟩ := ihgroup hfirst
      exact ⟨p, List.mem_append_left _ hp, herror⟩
    obtain hrest | ⟨ds, -, hdone⟩ := bind_eq_error hmore
    · obtain ⟨p, hp, herror⟩ := ih hrest
      exact ⟨p, List.mem_append_right _ hp, herror⟩
    · cases hdone
  | repeated group rest _ ih =>
    obtain hrest | ⟨ds, -, hdone⟩ := bind_eq_error h
    · obtain ⟨p, hp, herror⟩ := ih hrest
      exact ⟨p, List.mem_append_right _ hp, herror⟩
    · cases hdone

theorem ArgList.defaults_ne_unfinished (args : ArgList V) : args.defaults ≠ .error .unfinished := by
  intro h
  obtain ⟨p, -, herror⟩ := ArgList.defaults_error h
  exact p.defaultValue_ne_unfinished herror

theorem Parameter.decided_match {p : Parameter V} {rest : ArgList V}
    (h : ¬ Breaks (.parameter p rest) values) : Decided (p.match values) := by
  cases values with
  | nil => trivial
  | cons val values =>
    rw [Parameter.match]
    split
    · trivial
    · trivial
    · rename_i e hcall
      split
      · trivial
      · rename_i hstop
        refine Raised.decided_of_not_strays (fun he => h (.raises hcall he)) hstop ?_
        rintro rfl
        exact p.call_ne_unfinished val hcall

theorem Rounds.ne_nil {c : Collate V} (h : Rounds c values v) : v ≠ [] := by
  induction h with
  | first hvalues => exact hvalues
  | next _ _ _ ih => exact ih

theorem Rounds.snoc {c : Collate V} {mid : List Text} (h : Rounds c values v)
    (hmembers : c v = .ok (xs, mid)) (hmid : mid ≠ []) : Rounds c values mid := by
  induction h with
  | first hvalues => exact .next hvalues hmembers (.first hmid)
  | next hvalues hfirst _ ih => exact .next hvalues hfirst (ih hmembers)

theorem Decided.mono {n m : ℕ} (h : Decided (collate n args values)) (hle : n ≤ m) :
    Decided (collate m args values) := by
  rw [extends_collate args hle values h.ne_unfinished]
  exact h

theorem exists_decided_bind {α β : Type} {x : ℕ → Except Raised α}
    {f : ℕ → α → Except Raised β} (hx : ∀ n m, n ≤ m → Extends .unfinished (x n) (x m))
    (hf : ∀ a n m, n ≤ m → Extends .unfinished (f n a) (f m a)) {n : ℕ} (hn : Decided (x n))
    (hnext : ∀ a, x n = .ok a → ∃ m, Decided (f m a)) : ∃ m, Decided (x m >>= f m) := by
  cases hr : x n with
  | error e =>
    refine ⟨n, decided_bind.mpr ⟨hn, fun a ha => ?_⟩⟩
    rw [hr] at ha
    cases ha
  | ok a =>
    obtain ⟨m, hm⟩ := hnext a hr
    have hfirst : x (max n m) = .ok a := by
      rw [hx n _ (Nat.le_max_left n m) hn.ne_unfinished, hr]
    refine ⟨max n m, decided_bind.mpr ⟨by rw [hfirst]; trivial, fun b hb => ?_⟩⟩
    rw [hfirst] at hb
    cases hb
    rw [hf a m _ (Nat.le_max_right n m) hm.ne_unfinished]
    exact hm

theorem exists_decided_rest {α : Type} {rest : ArgList V} {values : List Text}
    {f : List (Yielded V) × List Text → α} (h : ∃ n, Decided (collate n rest values)) :
    ∃ n, Decided (collate n rest values >>= fun r => (.ok (f r) : Except Raised α)) := by
  obtain ⟨n, hn⟩ := h
  exact ⟨n, decided_bind.mpr ⟨hn, fun _ _ => trivial⟩⟩

/-- The rounds end if the members end in each of them and none of them is idle. -/
theorem exists_decided_rounds {k : ℕ}
    (hmembers : ∀ {k v}, Rounds (collate k group) values v → ∃ n, Decided (collate n group v))
    (hidle : ∀ {k v xs}, Rounds (collate k group) values v → collate k group v ≠ .ok (xs, v))
    (hv : v = [] ∨ Rounds (collate k group) values v) :
    ∃ n, Decided (iterations (collate n group) n v) := by
  induction hlen : v.length using Nat.strong_induction_on generalizing v k with
  | _ len ih =>
    obtain rfl | hround := hv
    · exact ⟨0, by rw [iterations]; trivial⟩
    obtain ⟨n, hn⟩ := hmembers hround
    obtain ⟨val, v, rfl⟩ := List.exists_cons_of_ne_nil hround.ne_nil
    have hsum : ∃ m, Decided (collate (m + 1) group (val :: v) >>= fun r =>
        iterations (collate (m + 1) group) m r.2 >>= fun r' => .ok (r.1 ++ r'.1, r'.2)) := by
      refine exists_decided_bind (fun n m hle => extends_collate group (Nat.succ_le_succ hle) _)
        (fun r n m hle => ?_) (hn.mono (Nat.le_succ n)) fun r hr => ?_
      · exact Extends.bind (extends_iterations (extends_collate group (Nat.succ_le_succ hle)) hle _)
          fun _ => .refl _ _
      · obtain ⟨xs, mid⟩ := r
        -- The round takes words, since it is not idle, and leaves fewer of them.
        have hround' := rounds_mono (Nat.le_max_left k (n + 1)) hround
        have hmid := collate_ok_mono (Nat.le_max_right k (n + 1)) hr
        have hne : mid ≠ val :: v := fun heq => hidle hround' (heq ▸ hmid)
        have hsuffix := collate_suffix hr
        have hlt : mid.length < (val :: v).length :=
          lt_of_le_of_ne hsuffix.length_le fun heq => hne (hsuffix.eq_of_length heq)
        have hnext : mid = [] ∨ Rounds (collate (max k (n + 1)) group) values mid := by
          by_cases hnil : mid = []
          · exact .inl hnil
          · exact .inr (hround'.snoc hmid hnil)
        obtain ⟨m, hm⟩ := ih mid.length (hlen ▸ hlt) hnext rfl
        refine ⟨m, decided_bind.mpr ⟨?_, fun _ _ => trivial⟩⟩
        rw [extends_iterations (extends_collate group (Nat.le_succ m)) (Nat.le_refl m) mid
          hm.ne_unfinished]
        exact hm
    obtain ⟨m, hm⟩ := hsum
    exact ⟨m + 1, hm⟩

theorem exists_decided (h : ¬ Breaks args values) : ∃ n, Decided (collate n args values) := by
  induction args generalizing values with
  | nil => exact ⟨0, trivial⟩
  | keyword kw rest ih =>
    refine exists_decided_bind (n := 0) (fun _ _ _ => .refl _ _) (fun r n m hle => ?_)
      (decided_matchKeyword kw values) fun r hr => ?_
    · obtain ⟨x, mid⟩ := r
      cases x with
      | none => exact .refl _ _
      | some x => exact Extends.bind (extends_collate rest hle _) fun _ => .refl _ _
    · obtain ⟨x, mid⟩ := r
      cases x with
      | none => exact ⟨0, trivial⟩
      | some x => exact exists_decided_rest (ih fun hb => h (.keyword hr hb))
  | parameter p rest ih =>
    refine exists_decided_bind (n := 0) (fun _ _ _ => .refl _ _) (fun r n m hle => ?_)
      (Parameter.decided_match h) fun r hr => ?_
    · obtain ⟨x, mid⟩ := r
      cases x with
      | none => exact .refl _ _
      | nothing => exact extends_collate rest hle _
      | value x => exact Extends.bind (extends_collate rest hle _) fun _ => .refl _ _
    · obtain ⟨x, mid⟩ := r
      cases x with
      | none => exact ⟨0, trivial⟩
      | nothing => exact ih fun hb => h (.parameter hr (by simp) hb)
      | value x => exact exists_decided_rest (ih fun hb => h (.parameter hr (by simp) hb))
  | optional group rest ihgroup ih =>
    have hgroup : ∃ n, Decided (matchOptional (collate n group) group.defaults values) := by
      cases hdefaults : group.defaults with
      | error e =>
        refine ⟨0, ?_⟩
        rw [matchOptional]
        split
        · trivial
        · rename_i hstop
          refine Raised.decided_of_not_strays (fun he => h (.defaults hdefaults he)) hstop ?_
          rintro rfl
          exact group.defaults_ne_unfinished hdefaults
      | ok ds =>
        by_cases hvalues : values = []
        · exact ⟨0, by rw [matchOptional, if_pos hvalues]; trivial⟩
        · obtain ⟨n, hn⟩ := ihgroup fun hb => h (.inside hdefaults hvalues hb)
          exact ⟨n, (decided_matchOptional hvalues).mpr hn⟩
    obtain ⟨n, hn⟩ := hgroup
    refine exists_decided_bind
      (fun n m hle => extends_matchOptional (extends_collate group hle) _ _)
      (fun r n m hle => Extends.bind (extends_collate rest hle _) fun _ => .refl _ _) hn
      fun r hr => ?_
    exact exists_decided_rest (ih fun hb => h (.after hr hb))
  | repeated group rest ihgroup ih =>
    have hrounds : ∃ n, Decided (matchRepeated (collate n group) n values) := by
      by_cases hvalues : values = []
      · exact ⟨0, by rw [matchRepeated, if_pos hvalues]; trivial⟩
      · obtain ⟨n, hn⟩ := @exists_decided_rounds V group values values 0
          (fun hround => ihgroup fun hb => h (.round hround hb))
          (fun hround hsame => h (.idle hround hsame)) (.inr (.first hvalues))
        exact ⟨n, by rw [matchRepeated, if_neg hvalues]; exact hn⟩
    obtain ⟨n, hn⟩ := hrounds
    refine exists_decided_bind
      (fun n m hle => extends_matchRepeated (extends_collate group hle) hle _)
      (fun r n m hle => Extends.bind (extends_collate rest hle _) fun _ => .refl _ _) hn
      fun r hr => ?_
    exact exists_decided_rest (ih fun hb => h (.past hr hb))

theorem decided_call {h : CommandHandler V} {line : Text} :
    Decided (h.call fuel line) ↔ Decided (collate fuel h.args (h.name :: split line)) := by
  refine decided_bind.trans ⟨fun hboth => hboth.1, fun hmatch => ⟨hmatch, fun r _ => ?_⟩⟩
  dsimp only
  split
  · trivial
  split
  · trivial
  · trivial

/-! ## Lists with a member that is not optional -/

def ArgList.Firm : ArgList V → Prop
  | .nil => False
  | .keyword _ _ | .parameter _ _ | .repeated _ _ => True
  | .optional _ rest => rest.Firm

def ArgList.ListsFirm : ArgList V → Prop
  | .nil => True
  | .keyword _ rest | .parameter _ rest => rest.ListsFirm
  | .optional group rest => group.ListsFirm ∧ rest.ListsFirm
  | .repeated group rest => group.Firm ∧ group.ListsFirm ∧ rest.ListsFirm

/-- The functions of the parameters keep to what the documentation asks of them. -/
def ArgList.OnlyValueErrors : ArgList V → Prop
  | .nil => True
  | .keyword _ rest => rest.OnlyValueErrors
  | .parameter p rest =>
    (∀ val exception, p.call val ≠ .error (.exception exception)) ∧
      (∀ exception, p.defaultValue ≠ .error (.exception exception)) ∧ rest.OnlyValueErrors
  | .optional group rest | .repeated group rest => group.OnlyValueErrors ∧ rest.OnlyValueErrors

theorem ne_of_suffix {val : Text} {values : List Text} (h : rest <:+ values) :
    rest ≠ val :: values := by
  rintro rfl
  have hlength := h.length_le
  rw [List.length_cons] at hlength
  omega

theorem ArgList.Firm.takes (hfirm : args.Firm) (hvalues : values ≠ [])
    (h : collate fuel args values = .ok (xs, rest)) : rest ≠ values := by
  induction args generalizing values rest xs with
  | nil => exact hfirm.elim
  | keyword kw args _ =>
    obtain ⟨hnil, -, -⟩ | ⟨mid, ys, rfl, hrest, -⟩ := collate_keyword_cases h
    · exact absurd hnil hvalues
    · exact ne_of_suffix (collate_suffix hrest)
  | parameter p args _ =>
    obtain ⟨-, ⟨hnil, -⟩ | ⟨val, rfl, -⟩⟩ | ⟨val, mid, rfl, -, hrest⟩ |
      ⟨val, v, mid, ys, rfl, -, hrest, -⟩ := collate_parameter_cases h
    · exact absurd hnil hvalues
    · exact ne_of_suffix List.suffix_rfl
    · exact ne_of_suffix (collate_suffix hrest)
    · exact ne_of_suffix (collate_suffix hrest)
  | optional group args _ ih =>
    obtain ⟨x, mid, ys, hmatch, hrest, -⟩ := collate_optional_cases h
    have hmid := matchOptional_suffix (fun _ _ _ => collate_suffix) hmatch
    intro heq
    have hsame : mid = values :=
      hmid.eq_of_length_le (heq ▸ (collate_suffix hrest).length_le)
    rw [hsame] at hrest
    exact ih hfirm hvalues hrest heq
  | repeated group args _ _ =>
    obtain ⟨zs, mid, ys, hmatch, hrest, -⟩ := collate_repeated_cases h
    rw [matchRepeated_rest hmatch] at hrest
    intro heq
    have hnil := List.suffix_nil.mp (collate_suffix hrest)
    exact hvalues (heq ▸ hnil)

theorem ArgList.OnlyValueErrors.default {p : Parameter V} (h : args.OnlyValueErrors)
    (hp : .parameter p ∈ args.leaves) (name : Text) :
    p.defaultValue ≠ .error (.exception name) := by
  induction args with
  | nil => cases hp
  | keyword kw rest ih =>
    obtain hp | hp := List.mem_cons.mp hp
    · cases hp
    · exact ih h hp
  | parameter q rest ih =>
    obtain hp | hp := List.mem_cons.mp hp
    · cases hp
      exact h.2.1 name
    · exact ih h.2.2 hp
  | optional group rest ihgroup ih =>
    obtain hp | hp := List.mem_append.mp hp
    · exact ihgroup h.1 hp
    · exact ih h.2 hp
  | repeated group rest ihgroup ih =>
    obtain hp | hp := List.mem_append.mp hp
    · exact ihgroup h.1 hp
    · exact ih h.2 hp

/-- Nothing breaks if every repeated list has a member that is not optional. -/
theorem not_breaks_of_firm (hfirm : args.ListsFirm) (hcall : args.OnlyValueErrors) :
    ¬ Breaks args values := by
  intro h
  induction h with
  | raises hraise he =>
    obtain ⟨name, rfl⟩ := he.exception
    exact hcall.1 _ _ hraise
  | defaults hdefaults he =>
    obtain ⟨name, rfl⟩ := he.exception
    obtain ⟨p, hp, herror⟩ := ArgList.defaults_error hdefaults
    exact hcall.1.default hp name herror
  | keyword _ _ ih => exact ih hfirm hcall
  | parameter _ _ _ ih => exact ih hfirm hcall.2.2
  | inside _ _ _ ih => exact ih hfirm.1 hcall.1
  | after _ _ ih => exact ih hfirm.2 hcall.2
  | idle hround hidle => exact hfirm.1.takes hround.ne_nil hidle rfl
  | round _ _ ih => exact ih hfirm.2.1 hcall.1
  | past _ _ ih => exact ih hfirm.2.2 hcall.2

theorem call_terminates_of_firm {h : CommandHandler V} (hfirm : h.args.ListsFirm)
    (hcall : h.args.OnlyValueErrors) (line : Text) : ∃ fuel, Decided (h.call fuel line) := by
  obtain ⟨fuel, hmatch⟩ :=
    exists_decided (@not_breaks_of_firm V h.args (h.name :: split line) hfirm hcall)
  exact ⟨fuel, decided_call.mpr hmatch⟩

end

/-- The matching ends if and only if it comes to no round of a repeated list that takes none of
the words, and to no function of a parameter, or for a default, that raises another exception. -/
theorem call_terminates_iff (h : CommandHandler V) (line : Text) :
    (∃ fuel, Decided (h.call fuel line)) ↔ ¬ Breaks h.args (h.name :: split line) := by
  constructor
  · intro ⟨fuel, hcall⟩
    exact not_breaks (decided_call.mp hcall)
  · intro hbreaks
    obtain ⟨fuel, hmatch⟩ := exists_decided hbreaks
    exact ⟨fuel, decided_call.mpr hmatch⟩

def idleList : CommandHandler Unit :=
  command "foo".toList (.list (.tuple (.string "bar".toList .nil) .nil) .nil)

theorem idleList_goes_on : ¬ ∃ fuel, Decided (idleList.call fuel "x".toList) := by
  intro ⟨fuel, hcall⟩
  refine not_breaks (decided_call.mp hcall) (.keyword rfl ?_)
  exact @Breaks.idle Unit 0 _ _ _ _ _ (.first (List.cons_ne_nil _ _)) rfl

end Matahari.Shell
