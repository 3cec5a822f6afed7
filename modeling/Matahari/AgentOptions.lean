import Mathlib.Data.List.GetD
import Matahari.Utilities

set_option autoImplicit false

/-!
# Command line options

The option table of `mh_agent.cpp`, and what `mh_parse_options` makes of it for
`getopt_long`: the string of the short options and the array of the long ones. `K` is the type
of the callbacks and `U` that of their user data.
-/
namespace Matahari.Agent
open Mainloop Utilities

variable {K U : Type}

def maxChar : ℕ := 123

def noArgument : ℤ := 0

def requiredArgument : ℤ := 1

structure MhOption (K U : Type) where
  code : ℤ
  hasArg : ℤ
  longName : Option Text
  description : Option Text
  userdata : Option U
  callback : Option K

def zeroOption : MhOption K U := ⟨0, 0, none, none, none, none⟩

structure OptionTable (K U : Type) where
  entries : List (MhOption K U)
  size : entries.length = maxChar

def OptionTable.zeroed : OptionTable K U := ⟨List.replicate maxChar zeroOption, List.length_replicate⟩

def mhAddOption (table : OptionTable K U) (option : MhOption K U) : ℤ × OptionTable K U :=
  if 0 < option.code ∧ option.code < maxChar then
    (0, ⟨table.entries.set option.code.toNat option, List.length_set.trans table.size⟩)
  else (-1, table)

def addOptions (table : OptionTable K U) (options : List (MhOption K U)) : OptionTable K U :=
  options.foldl (fun table option => (mhAddOption table option).2) table

/-- A `struct option`, whose `flag` is always null. -/
structure LongOpt where
  name : Option Text
  hasArg : ℤ
  val : ℤ
  deriving DecidableEq, Repr

def LongOpt.zero : LongOpt := ⟨none, 0, 0⟩

/-- The variables of the loop. `longOpts` has the size that was allocated last. -/
structure Translation where
  optString : List Char
  optStringLen : ℕ
  longOpts : List LongOpt
  numOptions : ℕ

def storeAt {α : Type} (xs : List α) (i : ℕ) (x : α) : Option (List α) :=
  if i < xs.length then some (xs.set i x) else none

/-- `junk` is what `realloc` leaves in the new elements. -/
def reallocTo (junk : LongOpt) (n : ℕ) (longOpts : List LongOpt) : List LongOpt :=
  longOpts.take n ++ List.replicate (n - longOpts.length) junk

def storeLongOpt (junk : LongOpt) (option : MhOption K U) (s : Translation) : Option Translation :=
  let longOpts := reallocTo junk (2 + s.numOptions) s.longOpts
  (storeAt longOpts s.numOptions ⟨option.longName, option.hasArg, option.code⟩).bind
    fun longOpts =>
      (storeAt longOpts (s.numOptions + 1) LongOpt.zero).map fun longOpts =>
        { s with longOpts := longOpts, numOptions := s.numOptions + 1 }

def storeChar (c : Char) (s : Translation) : Option Translation :=
  (storeAt s.optString s.optStringLen c).map fun optString =>
    { s with optString := optString, optStringLen := s.optStringLen + 1 }

def storeEnd (s : Translation) : Option Translation :=
  (storeAt s.optString s.optStringLen nul).map fun optString => { s with optString := optString }

def storeOptString (option : MhOption K U) (s : Translation) : Option Translation :=
  (storeChar (Char.ofNat option.code.toNat) s).bind fun s =>
    (if option.hasArg = requiredArgument then storeChar ':' s else some s).bind storeEnd

def translateOption (junk : LongOpt) (option : MhOption K U) (s : Translation) :
    Option Translation :=
  if option.code ≠ 0 then (storeLongOpt junk option s).bind (storeOptString option) else some s

def translateLoop (junk : LongOpt) : List (MhOption K U) → Translation → Option Translation
  | [], s => some s
  | option :: options, s =>
    (translateOption junk option s).bind (translateLoop junk options)

abbrev OptString := {bytes : List Char // bytes.length = 2 * maxChar}

def translate (stack : OptString) (junk : LongOpt) (table : OptionTable K U) :
    Option Translation :=
  (storeEnd ⟨stack.1, 0, [LongOpt.zero], 0⟩).bind (translateLoop junk table.entries)

def helpOption : MhOption K U := ⟨'h'.toNat, noArgument, some "help".toList, none, none, none⟩

def localOptions (mapOption connectionOption : K) (options amqpOptions : U) (ssl : Bool) :
    List (MhOption K U) :=
  let connection (c : Char) (name description : String) : MhOption K U :=
    ⟨c.toNat, requiredArgument, some name.toList, some description.toList, some amqpOptions,
      some connectionOption⟩
  [⟨'b'.toNat, requiredArgument, some "broker".toList, some "specify broker host name".toList,
      some options, some mapOption⟩,
    ⟨'D'.toNat, noArgument, some "dns-srv".toList,
      some "interpret the value of --broker as a domain name for DNS SRV lookups".toList,
      some options, some mapOption⟩,
    ⟨'p'.toNat, requiredArgument, some "port".toList, some "specify broker port".toList,
      some options, some mapOption⟩,
    ⟨'v'.toNat, noArgument, some "verbose".toList, some "Increase the log level".toList, none,
      some mapOption⟩,
    connection 'u' "username" "username to use for authentication to the broker",
    connection 'P' "password" "password to use for authentication to the broker",
    connection 's' "service" "service name to use for authentication to the broker",
    connection 'r' "reconnect" "attempt to reconnect if the broker connection is lost"] ++
  (if ssl then
    [connection 'n' "ssl-cert-name" "name of the certificate to use",
      ⟨'t'.toNat, noArgument, some "use-tls".toList, some "Use TLS/SSL encryption".toList,
        some options, some connectionOption⟩]
  else []) ++ [helpOption]

/-- What `mh_parse_options` does with a code that `getopt_long` returns. -/
inductive Selected (K U : Type) where
  | help
  | call (callback : K) (code : ℤ) (name : Option Text) (userdata : Option U)
  | usage

def selectOption (table : OptionTable K U) (arg : ℤ) : Selected K U :=
  if arg = 'h'.toNat then .help
  else if 0 < arg ∧ arg < maxChar then
    let option := table.entries.getD arg.toNat zeroOption
    match option.callback with
    | some callback => .call callback option.code option.longName option.userdata
    | none => .usage
  else .usage

/-! ## The table -/

section
variable {options : List (MhOption K U)}

def lastAdded (options : List (MhOption K U)) (code : ℤ) : Option (MhOption K U) :=
  options.reverse.find? fun option => option.code = code

theorem lastAdded_concat (options : List (MhOption K U)) (option : MhOption K U) (code : ℤ) :
    lastAdded (options ++ [option]) code =
      if option.code = code then some option else lastAdded options code := by
  unfold lastAdded
  rw [List.reverse_append, List.reverse_singleton, List.singleton_append, List.find?_cons]
  by_cases h : option.code = code
  · simp [h]
  · simp [h]

theorem code_of_lastAdded {code : ℤ} {option : MhOption K U}
    (h : lastAdded options code = some option) : option.code = code := by
  simpa using List.find?_some h

def entryFor (options : List (MhOption K U)) (i : ℕ) : MhOption K U :=
  if i = 0 then zeroOption else (lastAdded options i).getD zeroOption

theorem addOptions_entries (options : List (MhOption K U)) :
    (addOptions OptionTable.zeroed options).entries = (List.range maxChar).map (entryFor options) := by
  induction options using List.reverseRecOn with
  | nil =>
    have hzero : entryFor ([] : List (MhOption K U)) = fun _ => zeroOption := by
      funext i
      unfold entryFor
      split <;> rfl
    rw [hzero, List.map_const', List.length_range]
    rfl
  | append_singleton options option ih =>
    have hstep : (addOptions OptionTable.zeroed (options ++ [option])).entries =
        (mhAddOption (addOptions OptionTable.zeroed options) option).2.entries := by
      unfold addOptions
      rw [List.foldl_append]
      rfl
    rw [hstep]
    unfold mhAddOption
    split
    · rename_i hrange
      dsimp only
      rw [ih]
      apply List.ext_getElem?
      intro i
      rw [List.getElem?_set, List.getElem?_map, List.getElem?_map, List.length_map,
        List.length_range]
      by_cases hi : option.code.toNat = i
      · have hlt : i < maxChar := by omega
        have hcode : option.code = i := by omega
        rw [if_pos hi, if_pos (by omega), List.getElem?_range hlt, Option.map_some, entryFor,
          if_neg (by omega), lastAdded_concat, if_pos hcode, Option.getD_some]
      · have hcode : option.code ≠ i := by omega
        have hsame : entryFor (options ++ [option]) i = entryFor options i := by
          unfold entryFor
          rw [lastAdded_concat, if_neg hcode]
        rw [if_neg hi]
        by_cases hlt : i < maxChar
        · rw [List.getElem?_range hlt, Option.map_some, Option.map_some, hsame]
        · rw [List.getElem?_eq_none (by simpa using hlt)]
          rfl
    · rename_i hrange
      dsimp only
      rw [ih]
      apply List.map_congr_left
      intro i hi
      have hlt := List.mem_range.mp hi
      unfold entryFor
      by_cases hzero : i = 0
      · rw [if_pos hzero, if_pos hzero]
      · rw [if_neg hzero, if_neg hzero, lastAdded_concat, if_neg (by omega)]

def added (options : List (MhOption K U)) : List (MhOption K U) :=
  (List.range' 1 (maxChar - 1)).filterMap fun i : ℕ => lastAdded options i

theorem mem_added {option : MhOption K U} :
    option ∈ added options ↔
      0 < option.code ∧ option.code < maxChar ∧ lastAdded options option.code = some option := by
  unfold added
  rw [List.mem_filterMap]
  constructor
  · rintro ⟨i, hi, hlast⟩
    have hcode := code_of_lastAdded hlast
    rw [List.mem_range'_1] at hi
    rw [hcode]
    exact ⟨by omega, by omega, hlast⟩
  · rintro ⟨hpos, hlt, hlast⟩
    refine ⟨option.code.toNat, ?_, ?_⟩
    · rw [List.mem_range'_1]
      omega
    · rw [Int.toNat_of_nonneg (le_of_lt hpos)]
      exact hlast

theorem added_increasing (options : List (MhOption K U)) :
    (added options).Pairwise fun a b => a.code < b.code := by
  unfold added
  rw [List.pairwise_filterMap]
  refine (List.pairwise_lt_range' (s := 1)).imp fun hlt a ha b hb => ?_
  rw [code_of_lastAdded ha, code_of_lastAdded hb]
  exact_mod_cast hlt

theorem entries_filter (options : List (MhOption K U)) :
    (addOptions OptionTable.zeroed options).entries =
        zeroOption :: (List.range' 1 (maxChar - 1)).map (entryFor options) ∧
      ((List.range' 1 (maxChar - 1)).map (entryFor options)).filter (·.code ≠ 0) =
        added options := by
  constructor
  · rw [addOptions_entries, List.range_eq_range', show maxChar = maxChar - 1 + 1 from rfl,
      List.range'_succ]
    rfl
  · unfold added
    rw [List.filter_map, ← List.filterMap_eq_map, List.filterMap_filter]
    apply List.filterMap_congr
    intro i hi
    rw [List.mem_range'_1] at hi
    have hentry : entryFor options i = (lastAdded options i).getD zeroOption :=
      if_neg (by omega)
    simp only [Function.comp, hentry]
    cases hlast : lastAdded options i with
    | none => simp [zeroOption]
    | some option =>
      have hcode := code_of_lastAdded hlast
      rw [Option.getD_some, if_pos (by simp [hcode]; omega)]

/-! ## The string and the array -/

def longOptOf (option : MhOption K U) : LongOpt := ⟨option.longName, option.hasArg, option.code⟩

def optText (options : List (MhOption K U)) : Text :=
  options.flatMap fun option =>
    Char.ofNat option.code.toNat :: if option.hasArg = requiredArgument then [':'] else []

/-- The buffer starts with the text, up to the offset that is kept. -/
structure Holds (text : Text) (size : ℕ) (s : Translation) : Prop where
  starts : text <+: s.optString
  optStringLen : s.optStringLen = text.length
  size : s.optString.length = size

/-- What the loop has made of the options that it is done with. -/
structure Built (size : ℕ) (done : List (MhOption K U)) (s : Translation) : Prop where
  longOpts : s.longOpts = done.map longOptOf ++ [LongOpt.zero]
  numOptions : s.numOptions = done.length
  holds : Holds (optText done) size s
  terminated : s.optString[(optText done).length]? = some nul

theorem storeAt_append {α : Type} (done : List α) (x y : α) (rest : List α) :
    storeAt (done ++ x :: rest) done.length y = some (done ++ y :: rest) := by
  have hlt : done.length < (done ++ x :: rest).length := by simp
  unfold storeAt
  rw [if_pos hlt, List.set_append_right _ _ (Nat.le_refl _), Nat.sub_self, List.set_cons_zero]

theorem storeLongOpt_built {xs : List LongOpt} {s : Translation} (junk : LongOpt)
    (option : MhOption K U) (h : s.longOpts = xs ++ [LongOpt.zero]) (hnum : s.numOptions = xs.length) :
    storeLongOpt junk option s =
      some { s with
        longOpts := xs ++ [longOptOf option] ++ [LongOpt.zero]
        numOptions := xs.length + 1 } := by
  have hrealloc : reallocTo junk (2 + xs.length) (xs ++ [LongOpt.zero]) =
      xs ++ LongOpt.zero :: [junk] := by
    unfold reallocTo
    rw [List.take_of_length_le (by simp), List.length_append, List.length_singleton,
      show 2 + xs.length - (xs.length + 1) = 1 by omega, List.append_assoc]
    rfl
  have hlast : storeAt (xs ++ [longOptOf option] ++ [junk]) (xs.length + 1) LongOpt.zero =
      some (xs ++ [longOptOf option] ++ [LongOpt.zero]) := by
    have hstore := storeAt_append (xs ++ [longOptOf option]) junk LongOpt.zero []
    rw [List.length_append, List.length_singleton] at hstore
    exact hstore
  unfold storeLongOpt
  rw [h, hnum, hrealloc]
  dsimp only
  rw [storeAt_append, Option.bind_some, List.append_cons]
  change (storeAt (xs ++ [longOptOf option] ++ [junk]) (xs.length + 1) LongOpt.zero).map _ = _
  rw [hlast]
  rfl

section
variable {text : Text} {size : ℕ} {s : Translation}

theorem Holds.split (h : Holds text size s) (hlt : text.length < size) :
    ∃ x rest, s.optString = text ++ x :: rest := by
  obtain ⟨rest, hrest⟩ := h.starts
  cases rest with
  | nil =>
    have hsize := h.size
    rw [← hrest, List.append_nil] at hsize
    omega
  | cons x rest => exact ⟨x, rest, hrest.symm⟩

theorem storeChar_holds (h : Holds text size s) (hlt : text.length < size) (c : Char) :
    ∃ u, storeChar c s = some u ∧ Holds (text ++ [c]) size u ∧ u.longOpts = s.longOpts ∧
      u.numOptions = s.numOptions := by
  obtain ⟨x, rest, hsplit⟩ := h.split hlt
  have hsize := h.size
  rw [hsplit] at hsize
  unfold storeChar
  rw [hsplit, h.optStringLen, storeAt_append]
  refine ⟨_, rfl, ⟨?_, ?_, ?_⟩, rfl, rfl⟩
  · exact ⟨rest, by rw [List.append_assoc]; rfl⟩
  · rw [List.length_append]
    rfl
  · rw [← hsize, List.length_append, List.length_append]
    rfl

theorem storeEnd_holds (h : Holds text size s) (hlt : text.length < size) :
    ∃ u, storeEnd s = some u ∧ Holds text size u ∧ u.optString[text.length]? = some nul ∧
      u.longOpts = s.longOpts ∧ u.numOptions = s.numOptions := by
  obtain ⟨x, rest, hsplit⟩ := h.split hlt
  have hsize := h.size
  rw [hsplit] at hsize
  unfold storeEnd
  rw [hsplit, h.optStringLen, storeAt_append]
  refine ⟨_, rfl, ⟨List.prefix_append _ _, rfl, ?_⟩, ?_, rfl, rfl⟩
  · rw [← hsize, List.length_append, List.length_append]
    rfl
  · exact List.getElem?_append_right (Nat.le_refl _) |>.trans (by rw [Nat.sub_self]; rfl)

end

theorem optText_concat (done : List (MhOption K U)) (option : MhOption K U) :
    optText (done ++ [option]) = optText done ++ [Char.ofNat option.code.toNat] ++
      if option.hasArg = requiredArgument then [':'] else [] := by
  unfold optText
  rw [List.flatMap_append, List.flatMap_singleton, List.append_assoc]
  rfl

theorem translateOption_built {size : ℕ} {done : List (MhOption K U)} {s : Translation}
    (junk : LongOpt) (option : MhOption K U) (h : Built size done s) (hcode : option.code ≠ 0)
    (hlt : (optText done).length + 2 < size) :
    ∃ u, translateOption junk option s = some u ∧ Built size (done ++ [option]) u := by
  have hlong := storeLongOpt_built junk option h.longOpts (h.numOptions.trans (List.length_map _).symm)
  have hcount : (done ++ [option]).length = (done.map (longOptOf (K := K) (U := U))).length + 1 := by
    rw [List.length_append, List.length_map]
    rfl
  have hholds : Holds (optText done) size
      { s with
        longOpts := done.map longOptOf ++ [longOptOf option] ++ [LongOpt.zero]
        numOptions := (done.map (longOptOf (K := K) (U := U))).length + 1 } :=
    ⟨h.holds.starts, h.holds.optStringLen, h.holds.size⟩
  obtain ⟨t, hchar, ht, htlong, htnum⟩ :=
    storeChar_holds hholds (by omega) (Char.ofNat option.code.toNat)
  have htext := optText_concat done option
  have hlength : (optText done ++ [Char.ofNat option.code.toNat]).length =
      (optText done).length + 1 := by
    rw [List.length_append]
    rfl
  unfold translateOption storeOptString
  rw [if_pos hcode, hlong, Option.bind_some, hchar, Option.bind_some]
  by_cases harg : option.hasArg = requiredArgument
  · rw [if_pos harg] at htext ⊢
    obtain ⟨v, hcolon, hv, hvlong, hvnum⟩ := storeChar_holds ht (by omega) ':'
    have hvlen := congrArg List.length htext
    rw [List.length_append, hlength] at hvlen
    obtain ⟨u, hend, hu, hterm, hulong, hunum⟩ := storeEnd_holds hv (by
      rw [← htext, hvlen]
      exact hlt)
    rw [← htext] at hu hterm
    rw [hcolon, Option.bind_some]
    refine ⟨u, hend, ⟨?_, ?_, hu, hterm⟩⟩
    · rw [hulong, hvlong, htlong, List.map_append]
      rfl
    · rw [hunum, hvnum, htnum, hcount]
  · rw [if_neg harg, List.append_nil] at htext
    rw [if_neg harg, Option.bind_some]
    obtain ⟨u, hend, hu, hterm, hulong, hunum⟩ := storeEnd_holds ht (by omega)
    rw [← htext] at hu hterm
    refine ⟨u, hend, ⟨?_, ?_, hu, hterm⟩⟩
    · rw [hulong, htlong, List.map_append]
      rfl
    · rw [hunum, htnum, hcount]

theorem length_optText_concat_le (done : List (MhOption K U)) (option : MhOption K U) :
    (optText (done ++ [option])).length ≤ (optText done).length + 2 := by
  rw [optText_concat]
  split <;> simp

/-- Induction on the entries that are still to come; each takes two bytes at most. -/
theorem translateLoop_built (junk : LongOpt) (options : List (MhOption K U)) {size : ℕ}
    {done : List (MhOption K U)} {s : Translation} (h : Built size done s)
    (hlt : (optText done).length + 2 * options.length < size) :
    ∃ u, translateLoop junk options s = some u ∧
      Built size (done ++ options.filter (·.code ≠ 0)) u := by
  induction options generalizing done s with
  | nil => exact ⟨s, rfl, by rw [List.filter_nil, List.append_nil]; exact h⟩
  | cons option options ih =>
    rw [List.length_cons] at hlt
    rw [translateLoop]
    by_cases hcode : option.code = 0
    · have hskip : translateOption junk option s = some s := if_neg (by simpa using hcode)
      rw [hskip, Option.bind_some, List.filter_cons_of_neg (by simpa using hcode)]
      exact ih h (by omega)
    · obtain ⟨t, ht, hbuilt⟩ := translateOption_built junk option h hcode (by omega)
      have hlength := length_optText_concat_le done option
      rw [ht, Option.bind_some, List.filter_cons_of_pos (by simpa using hcode), List.append_cons]
      exact ih hbuilt (by omega)

theorem translate_built (stack : OptString) (junk : LongOpt) (options : List (MhOption K U)) :
    ∃ s, translate stack junk (addOptions OptionTable.zeroed options) = some s ∧
      Built (2 * maxChar) (added options) s := by
  have hstart : Holds [] (2 * maxChar) ⟨stack.1, 0, [LongOpt.zero], 0⟩ :=
    ⟨List.nil_prefix, rfl, stack.2⟩
  obtain ⟨t, ht, hholds, hterm, hlong, hnum⟩ := storeEnd_holds hstart (by decide)
  obtain ⟨hentries, hfilter⟩ := entries_filter options
  have hbuilt : Built (2 * maxChar) ([] : List (MhOption K U)) t :=
    ⟨hlong, hnum, hholds, hterm⟩
  obtain ⟨s, hs, hdone⟩ := translateLoop_built junk
    ((List.range' 1 (maxChar - 1)).map (entryFor options)) hbuilt (by
      rw [List.length_map, List.length_range']
      change 0 + 2 * (maxChar - 1) < 2 * maxChar
      decide)
  rw [List.nil_append, hfilter] at hdone
  refine ⟨s, ?_, hdone⟩
  have hzero : translateOption junk (zeroOption : MhOption K U) t = some t :=
    if_neg (by simp [zeroOption])
  unfold translate
  rw [ht, Option.bind_some, hentries, translateLoop, hzero, Option.bind_some, hs]

/-! ## The callbacks -/

theorem getD_entries {code : ℤ} {option : MhOption K U} (hpos : 0 < code) (hlt : code < maxChar)
    (h : lastAdded options code = some option) :
    (addOptions OptionTable.zeroed options).entries.getD code.toNat zeroOption = option := by
  have hcast : ((code.toNat : ℕ) : ℤ) = code := Int.toNat_of_nonneg (le_of_lt hpos)
  rw [addOptions_entries, List.getD_eq_getElem?_getD, List.getElem?_map,
    List.getElem?_range (by omega), Option.map_some, Option.getD_some, entryFor,
    if_neg (by omega), hcast, h, Option.getD_some]

theorem selectOption_lastAdded {code : ℤ} {option : MhOption K U} (hpos : 0 < code)
    (hlt : code < maxChar) (hhelp : code ≠ 'h'.toNat) (h : lastAdded options code = some option) :
    selectOption (addOptions OptionTable.zeroed options) code =
      match option.callback with
      | some callback => .call callback option.code option.longName option.userdata
      | none => .usage := by
  unfold selectOption
  rw [if_neg hhelp, if_pos ⟨hpos, hlt⟩, getD_entries hpos hlt h]

end

/-- Every code once, in order and as it was added last, with the stores inside of the arrays.
`-h` is the one option without a callback of its own that does something. -/
theorem options_translated (stack : OptString) (junk : LongOpt) (options : List (MhOption K U))
    (mapOption connectionOption : K) (userdata amqpOptions : U) (ssl : Bool) :
    (∃ s, translate stack junk (addOptions OptionTable.zeroed options) = some s ∧
      s.longOpts = (added options).map longOptOf ++ [LongOpt.zero] ∧
      s.optString.length = 2 * maxChar ∧
      s.optString.take ((optText (added options)).length + 1) = optText (added options) ++ [nul]) ∧
    ((added options).Pairwise fun a b => a.code < b.code) ∧
    (∀ option, option ∈ added options ↔
      0 < option.code ∧ option.code < maxChar ∧ lastAdded options option.code = some option) ∧
    (∀ option ∈ added options, option.code ≠ 'h'.toNat →
      selectOption (addOptions OptionTable.zeroed options) option.code =
        match option.callback with
        | some callback => .call callback option.code option.longName option.userdata
        | none => .usage) ∧
    (helpOption ∈ added (options ++ localOptions mapOption connectionOption userdata amqpOptions ssl) ∧
      selectOption (addOptions OptionTable.zeroed options) 'h'.toNat = .help) := by
  obtain ⟨s, hs, hbuilt⟩ := translate_built stack junk options
  refine ⟨⟨s, hs, hbuilt.longOpts, hbuilt.holds.size, ?_⟩, added_increasing options,
    fun option => mem_added, fun option hmem hhelp => ?_, ?_, rfl⟩
  · rw [List.take_add_one, List.prefix_iff_eq_take.mp hbuilt.holds.starts |>.symm,
      hbuilt.terminated]
    rfl
  · obtain ⟨hpos, hlt, hlast⟩ := mem_added.mp hmem
    exact selectOption_lastAdded hpos hlt hhelp hlast
  · have hrange : (0 : ℤ) < 'h'.toNat ∧ ('h'.toNat : ℤ) < maxChar := by decide
    refine mem_added.mpr ⟨hrange.1, hrange.2, ?_⟩
    unfold localOptions
    dsimp only
    rw [← List.append_assoc, lastAdded_concat, if_pos rfl]

end Matahari.Agent
