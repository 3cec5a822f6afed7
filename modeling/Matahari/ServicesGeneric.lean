import Matahari.SysconfigLinux

set_option autoImplicit false

/-!
# Actions for arbitrary programs

`mh_services_action_create_generic` and the argument array that it fills. The array is
handed to `execvp`, which reads it up to the first `NULL`.
-/
namespace Matahari.Services
open Mainloop

def dimofArgs : ℕ := 7

structure ArgSlots where
  slots : List (Option Text)
  size : slots.length = dimofArgs

def ArgSlots.zeroed : ArgSlots := ⟨List.replicate dimofArgs none, List.length_replicate⟩

def ArgSlots.store (a : ArgSlots) (i : ℕ) (arg : Text) : Option ArgSlots :=
  if i < dimofArgs then some ⟨a.slots.set i (some arg), List.length_set.trans a.size⟩ else none

structure GenericAction where
  exec : Text
  args : ArgSlots

def storeArgs (slots : ArgSlots) (curArg : ℕ) : List Text → Option ArgSlots
  | [] => some slots
  | arg :: args =>
    (slots.store curArg arg).bind fun slots =>
      if curArg = dimofArgs - 1 then some slots else storeArgs slots (curArg + 1) args

/-- `args` may be `NULL`. The result is `none` where the code writes outside of the array. -/
def mhServicesActionCreateGeneric (exec : Text) (args : Option (List Text)) :
    Option GenericAction :=
  (ArgSlots.zeroed.store 0 exec).bind fun slots =>
    (storeArgs slots 1 (args.getD [])).map fun slots => ⟨exec, slots⟩

def argvStrings : List (Option Text) → Option (List Text)
  | [] => none
  | none :: _ => some []
  | some arg :: slots => (argvStrings slots).map (arg :: ·)

/-! ## What the loop leaves -/

def filled (args : List Text) : List (Option Text) :=
  (args.take dimofArgs).map some ++ List.replicate (dimofArgs - args.length) none

theorem filled_nil : filled [] = ArgSlots.zeroed.slots := rfl

theorem set_filled {args : List Text} (h : args.length < dimofArgs) (arg : Text) :
    (filled args).set args.length (some arg) = filled (args ++ [arg]) := by
  have hfits : (args ++ [arg]).length ≤ dimofArgs := by
    rw [List.length_append, List.length_singleton]
    omega
  have hfree : dimofArgs - args.length = dimofArgs - (args ++ [arg]).length + 1 := by
    rw [List.length_append, List.length_singleton]
    omega
  unfold filled
  rw [List.take_of_length_le (Nat.le_of_lt h), List.take_of_length_le hfits, hfree,
    List.replicate_succ, List.set_append_right _ _ (by simp), List.length_map, Nat.sub_self,
    List.set_cons_zero, List.map_append, List.append_assoc]
  rfl

theorem filled_append {args : List Text} (h : args.length = dimofArgs) (more : List Text) :
    filled (args ++ more) = filled args := by
  have hlong : dimofArgs - (args ++ more).length = dimofArgs - args.length := by
    rw [List.length_append]
    omega
  unfold filled
  rw [hlong, List.take_append_of_le_length h.ge]

theorem store_filled {slots : ArgSlots} {args : List Text} (h : slots.slots = filled args)
    (hlt : args.length < dimofArgs) (arg : Text) :
    ∃ next, slots.store args.length arg = some next ∧ next.slots = filled (args ++ [arg]) := by
  refine ⟨⟨slots.slots.set args.length (some arg), List.length_set.trans slots.size⟩, ?_, ?_⟩
  · exact if_pos hlt
  · dsimp only
    rw [h, set_filled hlt]

/-- Induction on the arguments that are still to be stored; `done` is what is in the array. -/
theorem storeArgs_filled (args : List Text) {slots : ArgSlots} {done : List Text}
    (h : slots.slots = filled done) (hlt : done.length < dimofArgs) :
    ∃ next, storeArgs slots done.length args = some next ∧ next.slots = filled (done ++ args) := by
  induction args generalizing slots done with
  | nil => exact ⟨slots, rfl, by rw [h, List.append_nil]⟩
  | cons arg args ih =>
    obtain ⟨stored, hstore, hslots⟩ := store_filled h hlt arg
    have hlength : (done ++ [arg]).length = done.length + 1 := by simp
    have hcons : done ++ arg :: args = done ++ [arg] ++ args := by simp
    rw [storeArgs, hstore, Option.bind_some, hcons]
    by_cases hlast : done.length = dimofArgs - 1
    · -- the test comes after the store, so the last slot is taken
      have hfull : (done ++ [arg]).length = dimofArgs := by omega
      rw [if_pos hlast]
      exact ⟨stored, rfl, hslots.trans (filled_append hfull args).symm⟩
    · rw [if_neg hlast, ← hlength]
      exact ih hslots (by omega)

theorem createGeneric_filled (exec : Text) (args : Option (List Text)) :
    ∃ op, mhServicesActionCreateGeneric exec args = some op ∧ op.exec = exec ∧
      op.args.slots = filled (exec :: args.getD []) := by
  obtain ⟨first, hfirst, hslots⟩ := store_filled filled_nil.symm (by decide) exec
  obtain ⟨next, hnext, hfilled⟩ := storeArgs_filled (args.getD []) hslots (by decide : 1 < dimofArgs)
  refine ⟨⟨exec, next⟩, ?_, rfl, hfilled⟩
  unfold mhServicesActionCreateGeneric
  rw [show (0 : ℕ) = ([] : List Text).length from rfl, hfirst, Option.bind_some,
    show (1 : ℕ) = ([] ++ [exec]).length from rfl, hnext]
  rfl

/-! ## What is executed -/

theorem argvStrings_append (args : List Text) (slots : List (Option Text)) :
    argvStrings (args.map some ++ slots) = (argvStrings slots).map (args ++ ·) := by
  induction args with
  | nil => simp
  | cons arg args ih =>
    rw [List.map_cons, List.cons_append, argvStrings, ih, Option.map_map]
    rfl

theorem argvStrings_filled (args : List Text) :
    argvStrings (filled args) = if args.length < dimofArgs then some args else none := by
  unfold filled
  rw [argvStrings_append]
  split
  · rename_i hlt
    obtain ⟨free, hfree⟩ := Nat.exists_eq_add_of_lt hlt
    rw [List.take_of_length_le (Nat.le_of_lt hlt),
      show dimofArgs - args.length = free + 1 by omega, List.replicate_succ]
    simp [argvStrings]
  · rw [show dimofArgs - args.length = 0 by omega]
    rfl

/-- The array holds the name and then a prefix of the arguments, all of them where they fit
before a terminator, and it is terminated. -/
def Terminated (exec : Text) (args : List Text) (slots : List (Option Text)) : Prop :=
  ∃ taken, taken <+: args ∧ (args.length + 2 ≤ dimofArgs → taken = args) ∧
    argvStrings slots = some (exec :: taken)

/-- The slot of the terminator is given away to the sixth argument. -/
theorem generic_args_terminated_iff (exec : Text) (args : Option (List Text)) :
    (∃ op, mhServicesActionCreateGeneric exec args = some op ∧
      Terminated exec (args.getD []) op.args.slots) ↔ (args.getD []).length ≤ 5 := by
  obtain ⟨op, hop, -, hslots⟩ := createGeneric_filled exec args
  have hargv := argvStrings_filled (exec :: args.getD [])
  rw [← hslots, List.length_cons] at hargv
  constructor
  · rintro ⟨op', hop', taken, -, -, htaken⟩
    rw [hop] at hop'
    cases hop'
    rw [hargv] at htaken
    by_contra hlong
    rw [if_neg (by unfold dimofArgs; omega)] at htaken
    cases htaken
  · intro hshort
    rw [if_pos (by unfold dimofArgs; omega)] at hargv
    exact ⟨op, hop, args.getD [], List.prefix_rfl, fun _ => rfl, hargv⟩

theorem six_arguments_not_terminated :
    ¬ ∃ op, mhServicesActionCreateGeneric "puppet".toList (some (List.replicate 6 "-v".toList)) =
      some op ∧ Terminated "puppet".toList (List.replicate 6 "-v".toList) op.args.slots := by
  rintro ⟨op, hop, taken, -, -, htaken⟩
  have hnone : (mhServicesActionCreateGeneric "puppet".toList
      (some (List.replicate 6 "-v".toList))).bind (fun op => argvStrings op.args.slots) = none := by
    decide
  rw [hop, Option.bind_some, htaken] at hnone
  cases hnone

/-- The arguments of puppet always fit. -/
theorem puppet_argv (useApply oneoff : Bool) (filename domain : Text) :
    ∃ op, mhServicesActionCreateGeneric "puppet".toList
        (some (Sysconfig.puppetArgs useApply oneoff filename domain)) = some op ∧
      argvStrings op.args.slots =
        some ("puppet".toList :: Sysconfig.puppetArgs useApply oneoff filename domain) := by
  have hfour : (Sysconfig.puppetArgs useApply oneoff filename domain).length ≤ 4 := by
    unfold Sysconfig.puppetArgs
    split_ifs <;> simp
  obtain ⟨op, hop, -, hslots⟩ := createGeneric_filled "puppet".toList
    (some (Sysconfig.puppetArgs useApply oneoff filename domain))
  refine ⟨op, hop, ?_⟩
  rw [hslots, argvStrings_filled, if_pos]
  · rfl
  · rw [List.length_cons, Option.getD_some]
    unfold dimofArgs
    omega

end Matahari.Services
