import Matahari.ShellTypes
import Matahari.Library.Alternatives

set_option autoImplicit false

/-!
# From a line to a command of the mode

Several commands of a mode may have one name. `mode.py` keeps them under the name as a
`CommandGroupHandler`, which tries its members in turn; `interpreter.py` looks the first
word of a line up among the names, on top of `cmd.Cmd` of the Python library.
-/
namespace Matahari.Shell.Dispatch
open Mainloop Alternatives

variable {V σ : Type}

/-- A command with its handler function, which may change the state `σ` of the shell; matching
does not. What the function returns is kept as its truth value, and its docstring as `_trimdoc`
makes it. -/
structure Handler (V σ : Type) where
  spec : CommandHandler V
  doc : Text
  body : List (Yielded V) → σ → Except Raised Bool × σ

def Handler.str (h : Handler V σ) : Text := join h.spec.args.strs

def Handler.help (h : Handler V σ) : Text :=
  List.intercalate ['\n'] ((" > ".toList ++ h.str ++ ['\n']) ::
    if h.doc = [] then [] else [h.doc ++ ['\n']])

def Handler.call (fuel : ℕ) (h : Handler V σ) (line : Text) (s : σ) : Except Raised Bool × σ :=
  match h.spec.call fuel line with
  | .ok args => h.body args s
  | .error e => (.error e, s)

abbrev Candidate := Text × Option Text

inductive Failure where
  | raised (e : Raised)
  | noCandidate (line : Text) (candidates : List Candidate)

/-! ## `CommandGroupHandler` -/

def callMembers (fuel : ℕ) (name line : Text) :
    List (Handler V σ) → List Candidate → σ → Except Failure Bool × σ
  | [], failures, s => (.error (.noCandidate (strip isSpace (join [name, line])) failures), s)
  | h :: cmds, failures, s =>
    match h.call fuel line s with
    | (.ok r, s) => (.ok r, s)
    | (.error (.invalidCommand _ _), s) =>
      callMembers fuel name line cmds (failures ++ [(h.str, none)]) s
    | (.error (.invalidArgument message), s) =>
      callMembers fuel name line cmds (failures ++ [(h.str, some message)]) s
    | (.error e, s) => (.error (.raised e), s)

inductive Entry (V σ : Type) where
  | handler (h : Handler V σ)
  | group (name : Text) (cmds : List (Handler V σ))

def Entry.name : Entry V σ → Text
  | .handler h => h.spec.name
  | .group name _ => name

def Entry.members : Entry V σ → List (Handler V σ)
  | .handler h => [h]
  | .group _ cmds => cmds

def Entry.call (fuel : ℕ) (c : Entry V σ) (line : Text) (s : σ) : Except Failure Bool × σ :=
  match c with
  | .handler h => match h.call fuel line s with
    | (.ok r, s) => (.ok r, s)
    | (.error e, s) => (.error (.raised e), s)
  | .group name cmds => callMembers fuel name line cmds [] s

/-- `__add__` of the two classes, for a command that is added; the error is the text of the
`ValueError`. -/
def Entry.add (c : Entry V σ) (other : Handler V σ) : Except Text (Entry V σ) :=
  if other.spec.name ≠ c.name then
    .error ("Command name \"".toList ++ other.spec.name ++ "\" does not match group \"".toList ++
      c.name ++ "\"".toList)
  else .ok (.group c.name (c.members ++ [other]))

/-! ## `Mode` -/

abbrev Mode (V σ : Type) := Text → Option (Entry V σ)

def addCommand (m : Mode V σ) (cmd : Handler V σ) : Except Text (Mode V σ) :=
  match m cmd.spec.name with
  | none => .ok (Function.update m cmd.spec.name (some (.handler cmd)))
  | some c => do
    let c ← c.add cmd
    return Function.update m cmd.spec.name (some c)

def modeOf (cmds : List (Handler V σ)) : Except Text (Mode V σ) :=
  cmds.foldlM addCommand fun _ => none

/-! ## `Interpreter` -/

def isIdent (c : Char) : Bool := c.isAlphanum || c == '_'

def splitCommand (line : Text) : Option (Text × Text) × Text :=
  (some (line.takeWhile isIdent, strip isSpace (line.dropWhile isIdent)), line)

/-- `parseline`; there is no command for an empty line, and for a shell command without a
command of that name. -/
def parseline (hasShell : Bool) (line : Text) : Option (Text × Text) × Text :=
  match strip isSpace line with
  | [] => (none, [])
  | '?' :: rest => splitCommand ("help ".toList ++ rest)
  | '!' :: rest =>
    if hasShell then splitCommand ("shell ".toList ++ rest) else (none, '!' :: rest)
  | line => splitCommand line

inductive Builtin where
  | help
  | eof
  deriving DecidableEq, Repr

def builtin (command : Text) : Option Builtin :=
  if command = "help".toList then some .help
  else if command = "EOF".toList then some .eof
  else none

/-- What `help` writes: the names of the commands in alphabetical order, the text of `help_help`,
or the docstring of a command, which joins those of the members of a group. -/
inductive Help where
  | topics
  | helpHelp
  | docs (docs : List Text)
  | nohelp (topic : Text)

def doHelp (m : Mode V σ) (arg : Text) : Help :=
  if arg = [] then .topics
  else match builtin arg with
    | some .help => .helpHelp
    | some .eof => .docs ["Type Ctrl-D to exit the shell".toList]
    | none => match m arg with
      | none => .nohelp arg
      | some c => .docs (c.members.map Handler.help)

inductive Reply where
  | emptyline
  | unknownSyntax (line : Text)
  | help (h : Help)
  | eof
  | returned (r : Bool)
  | failed (e : Failure)

/-- `onecmd` of both classes, with `__getattr__` for the lookup. -/
def onecmd (fuel : ℕ) (m : Mode V σ) (line : Text) (s : σ) : Reply × σ :=
  match parseline (m "shell".toList).isSome line with
  | (_, []) => (.emptyline, s)
  | (none, line) => (.unknownSyntax line, s)
  | (some ([], _), line) => (.unknownSyntax line, s)
  | (some (command, arg), line) => match Dispatch.builtin command with
    | some .help => (.help (doHelp m arg), s)
    | some .eof => (.eof, s)
    | none => match m command with
      | none => (.unknownSyntax line, s)
      | some c => match c.call fuel arg s with
        | (.ok r, s) => (.returned r, s)
        | (.error e, s) => (.failed e, s)

def Reply.stops : Reply → Bool
  | .eof => true
  | .returned r => r
  | _ => false

/-- `runscript`; whether a line asks to stop is not looked at. `mode` is the mode that the shell
has in a state, which a command can change. -/
def runscript (fuel : ℕ) (mode : σ → Mode V σ) : List Text → σ → σ
  | [], s => s
  | line :: script, s =>
    if (strip isSpace line).head? = some '#' then runscript fuel mode script s
    else runscript fuel mode script (onecmd fuel (mode s) line s).2

/-- `cmdloop` on the lines that are typed, with what they lead to; after the last one the input
ends, which is the line EOF. -/
def cmdloop (fuel : ℕ) (mode : σ → Mode V σ) : List Text → σ → List Reply × σ
  | [], s =>
    let (reply, s) := onecmd fuel (mode s) "EOF".toList s
    ([reply], s)
  | line :: lines, s =>
    let (reply, s) := onecmd fuel (mode s) line s
    if reply.stops then ([reply], s)
    else
      let (replies, s) := cmdloop fuel mode lines s
      (reply :: replies, s)

/-! ### What is written -/

def Failure.message : Failure → Text
  | .raised (.invalidArgument message) | .raised (.invalidCommand _ message) => message
  | .raised (.exception name) => name
  | .raised .unfinished => []
  | .noCandidate line candidates =>
    "Invalid Command: \"".toList ++ line ++ "\"".toList ++
      if candidates.isEmpty then []
      else "\nCandidates are:\n".toList ++
        List.intercalate ['\n'] (candidates.map fun c => "    ".toList ++ c.1)

def splitlines (s : Text) : List Text :=
  let lines := s.splitOn '\n'
  if lines.getLast? = some [] then lines.dropLast else lines

def Help.written (topics : Text) : Help → Text
  | .topics => topics
  | .helpHelp => "Type \"help <topic>\" for help on commands\n".toList
  | .docs texts => List.intercalate "\n\n".toList texts ++ ['\n']
  | .nohelp topic => "*** No help on ".toList ++ topic ++ ['\n']

def Reply.written (topics : Text) : Reply → Text
  | .emptyline | .returned _ => []
  | .unknownSyntax line => "*** Unknown syntax: ".toList ++ line ++ ['\n']
  | .help h => h.written topics
  | .eof => ['\n']
  | .failed e =>
    List.intercalate ['\n'] ((splitlines e.message).map fun l => "% ".toList ++ l) ++ "\n\n".toList

theorem splitlines_intercalate {lines : List Text} (hlines : ∀ l ∈ lines, '\n' ∉ l)
    (hne : lines ≠ []) (hlast : lines.getLast? ≠ some []) :
    splitlines (List.intercalate ['\n'] lines) = lines := by
  rw [splitlines, List.splitOn_intercalate '\n' hlines hne]
  exact if_neg hlast

theorem message_noCandidate (line : Text) {candidates : List Candidate} (hne : candidates ≠ []) :
    (Failure.noCandidate line candidates).message = List.intercalate ['\n']
      (("Invalid Command: \"".toList ++ line ++ "\"".toList) ::
        "Candidates are:".toList :: candidates.map fun c => "    ".toList ++ c.1) := by
  have hmap : (candidates.map fun c => "    ".toList ++ c.1) ≠ [] := by
    rwa [Ne, List.map_eq_nil_iff]
  have hempty : ¬ candidates.isEmpty = true := by rwa [List.isEmpty_iff]
  have hmiddle : "\nCandidates are:\n".toList = ['\n'] ++ "Candidates are:".toList ++ ['\n'] := by
    decide
  unfold Failure.message
  dsimp only
  rw [if_neg hempty, hmiddle, List.intercalate_cons_of_ne_nil (List.cons_ne_nil _ _),
    List.intercalate_cons_of_ne_nil hmap]
  simp only [List.append_assoc]

theorem written_noCandidate (topics : Text) {line : Text} {candidates : List Candidate}
    (hne : candidates ≠ []) (hline : '\n' ∉ line) (hcandidates : ∀ c ∈ candidates, '\n' ∉ c.1) :
    Reply.written topics (.failed (.noCandidate line candidates)) =
      List.intercalate ['\n'] ((("Invalid Command: \"".toList ++ line ++ "\"".toList) ::
        "Candidates are:".toList :: candidates.map fun c => "    ".toList ++ c.1).map
          ("% ".toList ++ ·)) ++ "\n\n".toList := by
  have hlast : (candidates.map fun c => "    ".toList ++ c.1).getLast? ≠ some [] := by
    rw [List.getLast?_map]
    cases candidates.getLast? with
    | none => simp
    | some c => simp
  have hlines : ∀ l ∈ ("Invalid Command: \"".toList ++ line ++ "\"".toList) ::
      "Candidates are:".toList :: candidates.map fun c => "    ".toList ++ c.1, '\n' ∉ l := by
    simp only [List.forall_mem_cons, List.mem_map, List.mem_append, not_or]
    refine ⟨⟨⟨by decide, hline⟩, by decide⟩, by decide, ?_⟩
    rintro l ⟨c, hc, rfl⟩
    rw [List.mem_append, not_or]
    exact ⟨by decide, hcandidates c hc⟩
  have hmap : (candidates.map fun c => "    ".toList ++ c.1) ≠ [] := by
    rwa [Ne, List.map_eq_nil_iff]
  unfold Reply.written
  dsimp only
  rw [message_noCandidate line hne, splitlines_intercalate hlines (List.cons_ne_nil _ _)]
  rwa [List.getLast?_cons_cons, List.getLast?_cons_of_ne_nil hmap]

/-! ## The table of a mode -/

def entryOf (name : Text) : List (Handler V σ) → Option (Entry V σ)
  | [] => none
  | [h] => some (.handler h)
  | h :: g :: cmds => some (.group name (h :: g :: cmds))

def named (name : Text) (cmds : List (Handler V σ)) : List (Handler V σ) :=
  cmds.filter fun h => h.spec.name = name

def table (cmds : List (Handler V σ)) : Mode V σ := fun name => entryOf name (named name cmds)

section

variable {name : Text} {cmds : List (Handler V σ)}

theorem mem_named {h : Handler V σ} : h ∈ named name cmds ↔ h ∈ cmds ∧ h.spec.name = name := by
  simp only [named, List.mem_filter, decide_eq_true_eq]

theorem entryOf_eq_some {c : Entry V σ} (hnames : ∀ h ∈ cmds, h.spec.name = name)
    (h : entryOf name cmds = some c) : c.members = cmds ∧ c.name = name := by
  cases cmds with
  | nil => cases h
  | cons g rest =>
    cases rest with
    | nil =>
      cases h
      exact ⟨rfl, hnames g List.mem_cons_self⟩
    | cons g' rest =>
      cases h
      exact ⟨rfl, rfl⟩

theorem entryOf_concat {c : Entry V σ} (h : entryOf name cmds = some c) (hc : c.members = cmds)
    (cmd : Handler V σ) : entryOf name (cmds ++ [cmd]) = some (.group name (c.members ++ [cmd])) := by
  rw [hc]
  cases cmds with
  | nil => cases h
  | cons g rest => cases rest <;> rfl

theorem addCommand_table (cmds : List (Handler V σ)) (cmd : Handler V σ) :
    addCommand (table cmds) cmd = .ok (table (cmds ++ [cmd])) := by
  have hother : ∀ n, n ≠ cmd.spec.name → named n (cmds ++ [cmd]) = named n cmds := by
    intro n hn
    simp only [named, List.filter_append, List.filter_cons, List.filter_nil]
    rw [if_neg (by simpa using Ne.symm hn), List.append_nil]
  have hself : named cmd.spec.name (cmds ++ [cmd]) = named cmd.spec.name cmds ++ [cmd] := by
    simp [named]
  have hupdate : ∀ c, entryOf cmd.spec.name (named cmd.spec.name cmds ++ [cmd]) = some c →
      Function.update (table cmds) cmd.spec.name (some c) = table (cmds ++ [cmd]) := by
    intro c hc
    funext n
    by_cases hn : n = cmd.spec.name
    · subst hn
      rw [Function.update_self, table, hself, hc]
    · rw [Function.update_of_ne hn, table, table, hother n hn]
  unfold addCommand
  cases hc : table cmds cmd.spec.name with
  | none =>
    have hnil : named cmd.spec.name cmds = [] := by
      cases hnamed : named cmd.spec.name cmds with
      | nil => rfl
      | cons g rest =>
        rw [table, hnamed] at hc
        cases rest <;> cases hc
    exact congrArg Except.ok (hupdate _ (by rw [hnil]; rfl))
  | some c =>
    obtain ⟨hmembers, hname⟩ := entryOf_eq_some (fun h hh => (mem_named.mp hh).2) hc
    have hadd : c.add cmd = .ok (.group cmd.spec.name (c.members ++ [cmd])) := by
      rw [Entry.add, if_neg (by rw [hname]; exact fun h => h rfl), hname]
    change (c.add cmd >>= fun c => pure (Function.update (table cmds) cmd.spec.name (some c))) = _
    rw [hadd]
    exact congrArg Except.ok (hupdate _ (entryOf_concat hc hmembers cmd))

/-- Adding commands never fails, and a mode has under each name the commands of that name in
the order in which they were added. -/
theorem modeOf_eq (cmds : List (Handler V σ)) : modeOf cmds = .ok (table cmds) := by
  suffices h : ∀ done, cmds.foldlM addCommand (table done) = Except.ok (table (done ++ cmds)) from
    h []
  induction cmds with
  | nil =>
    intro done
    rw [List.append_nil]
    rfl
  | cons cmd cmds ih =>
    intro done
    rw [List.foldlM_cons, addCommand_table]
    have hrest := ih (done ++ [cmd])
    rw [List.append_assoc] at hrest
    exact hrest

end

/-! ## The commands of a group as alternatives -/

/-- What a command does in a group: it answers, also with an exception that the group does not
catch, or it becomes a candidate. -/
def Handler.attempt (fuel : ℕ) (line : Text) (h : Handler V σ) (s : σ) :
    (Except Raised Bool ⊕ Candidate) × σ :=
  match h.call fuel line s with
  | (.ok r, s) => (.inl (.ok r), s)
  | (.error (.invalidCommand _ _), s) => (.inr (h.str, none), s)
  | (.error (.invalidArgument message), s) => (.inr (h.str, some message), s)
  | (.error e, s) => (.inl (.error e), s)

def groupOutcome (line : Text) : Except Raised Bool ⊕ List Candidate → Except Failure Bool
  | .inl (.ok r) => .ok r
  | .inl (.error e) => .error (.raised e)
  | .inr candidates => .error (.noCandidate line candidates)

theorem callMembers_eq (fuel : ℕ) (name line : Text) (cmds : List (Handler V σ))
    (failures : List Candidate) (s : σ) :
    callMembers fuel name line cmds failures s =
      (firstOf (Handler.attempt fuel line) cmds failures s).map
        (groupOutcome (strip isSpace (join [name, line]))) id := by
  induction cmds generalizing failures s with
  | nil => rfl
  | cons h cmds ih =>
    rw [callMembers, firstOf, Handler.attempt]
    cases h.call fuel line s with
    | mk outcome t =>
      cases outcome with
      | ok r => rfl
      | error e =>
        cases e with
        | invalidArgument message => exact ih _ t
        | invalidCommand _ _ => exact ih _ t
        | exception name => rfl
        | unfinished => rfl

def Handler.Rejects (fuel : ℕ) (line : Text) (h : Handler V σ) : Prop :=
  (∃ message, h.spec.call fuel line = .error (.invalidArgument message)) ∨
    ∃ text message, h.spec.call fuel line = .error (.invalidCommand text message)

def Handler.Apart (fuel : ℕ) (h g : Handler V σ) : Prop :=
  ∀ line, h.Rejects fuel line ∨ g.Rejects fuel line

def Handler.candidate (fuel : ℕ) (line : Text) (h : Handler V σ) : Candidate :=
  match h.spec.call fuel line with
  | .error (.invalidArgument message) => (h.str, some message)
  | _ => (h.str, none)

theorem Handler.Rejects.declines {fuel : ℕ} {line : Text} {h : Handler V σ}
    (hr : h.Rejects fuel line) : Declines (Handler.attempt fuel line) (h.candidate fuel line) h := by
  intro s
  rcases hr with ⟨message, hcall⟩ | ⟨text, message, hcall⟩
  · rw [Handler.attempt, Handler.call, Handler.candidate, hcall]
  · rw [Handler.attempt, Handler.call, Handler.candidate, hcall]

theorem declines_candidates {fuel : ℕ} {line : Text} {cmds : List (Handler V σ)}
    (h : ∀ g ∈ cmds, g.Rejects fuel line) :
    List.Forall₂ (Declines (Handler.attempt fuel line))
      (cmds.map (Handler.candidate fuel line)) cmds := by
  rw [List.forall₂_map_left_iff, List.forall₂_same]
  exact fun g hg => (h g hg).declines

theorem Handler.Apart.alternatives {fuel : ℕ} {h g : Handler V σ} (ha : h.Apart fuel g)
    (line : Text) : Alternatives.Apart (Handler.attempt fuel line) h g :=
  (ha line).imp (fun hr => ⟨_, hr.declines⟩) fun hr => ⟨_, hr.declines⟩

/-! ## Commands with keywords -/

def leadingKeywords : ArgList V → List Text
  | .keyword kw rest => kw :: leadingKeywords rest
  | _ => []

theorem collate_of_not_leading {fuel : ℕ} {args : ArgList V} {values : List Text}
    (h : ¬ leadingKeywords args <+: values) :
    (∃ message, collate fuel args values = .error (.invalidArgument message)) ∨
      ∃ xs rest, collate fuel args values = .ok (xs, rest) ∧ xs.length < args.length := by
  induction args generalizing values with
  | keyword kw args ih =>
    cases values with
    | nil => exact .inr ⟨[], [], rfl, Nat.succ_pos _⟩
    | cons val values =>
      by_cases hkw : kw = val
      · subst hkw
        have hrest : ¬ leadingKeywords args <+: values := by
          intro hfront
          exact h (List.cons_prefix_cons.mpr ⟨rfl, hfront⟩)
        rw [collate_keyword]
        rcases ih hrest with ⟨message, herror⟩ | ⟨xs, rest, hok, hlength⟩
        · exact .inl ⟨message, by rw [herror]; rfl⟩
        · refine .inr ⟨_ :: xs, rest, by rw [hok]; rfl, ?_⟩
          exact Nat.succ_lt_succ hlength
      · left
        rw [collate, matchKeyword, if_pos hkw]
        exact ⟨_, rfl⟩
  | nil => exact absurd List.nil_prefix h
  | parameter p args => exact absurd List.nil_prefix h
  | optional group args => exact absurd List.nil_prefix h
  | repeated group args => exact absurd List.nil_prefix h

theorem Handler.rejects_of_not_leading {fuel : ℕ} {line : Text} {h : Handler V σ}
    (hlead : ¬ leadingKeywords h.spec.args <+: h.spec.name :: split line) :
    h.Rejects fuel line := by
  rcases collate_of_not_leading hlead with ⟨message, herror⟩ | ⟨xs, rest, hok, hlen⟩
  · exact .inl ⟨message, by rw [CommandHandler.call, herror]; rfl⟩
  · right
    rw [CommandHandler.call, hok]
    exact ⟨line, _, if_pos hlen⟩

/-- Commands whose keywords differ somewhere match no line together. -/
theorem Handler.apart_of_leading {fuel : ℕ} {h g : Handler V σ} (hname : h.spec.name = g.spec.name)
    (hh : ¬ leadingKeywords h.spec.args <+: leadingKeywords g.spec.args)
    (hg : ¬ leadingKeywords g.spec.args <+: leadingKeywords h.spec.args) : h.Apart fuel g := by
  intro line
  by_cases hlead : leadingKeywords h.spec.args <+: h.spec.name :: split line
  · refine .inr (rejects_of_not_leading ?_)
    intro hlead'
    rw [← hname] at hlead'
    exact (List.prefix_or_prefix_of_prefix hlead hlead').elim hh hg
  · exact .inl (rejects_of_not_leading hlead)

/-! ## The command that runs -/

def Entry.reply (fuel : ℕ) (c : Entry V σ) (arg : Text) (s : σ) : Reply × σ :=
  match c.call fuel arg s with
  | (.ok r, s) => (.returned r, s)
  | (.error e, s) => (.failed e, s)

theorem Handler.call_of_match {fuel : ℕ} {h : Handler V σ} {line : Text} {args : List (Yielded V)}
    (hcall : h.spec.call fuel line = .ok args) (s : σ) : h.call fuel line s = h.body args s := by
  rw [Handler.call, hcall]

theorem parseline_ne_nil {hasShell : Bool} {line command arg line' : Text}
    (h : parseline hasShell line = (some (command, arg), line')) (hcommand : command ≠ []) :
    line' ≠ [] := by
  have hsplit : ∀ l : Text, splitCommand l = (some (command, arg), line') → line' ≠ [] := by
    rintro l hl rfl
    cases hl
    exact hcommand rfl
  unfold parseline at h
  split at h
  · cases h
  · exact hsplit _ h
  · split at h
    · exact hsplit _ h
    · cases h
  · exact hsplit _ h

theorem onecmd_entry {fuel : ℕ} {m : Mode V σ} {line command arg line' : Text} {s : σ}
    (h : parseline (m "shell".toList).isSome line = (some (command, arg), line')) :
    onecmd fuel m line s =
      if line' = [] then (.emptyline, s)
      else if command = [] then (.unknownSyntax line', s)
      else match Dispatch.builtin command with
        | some .help => (.help (doHelp m arg), s)
        | some .eof => (.eof, s)
        | none => match m command with
          | none => (.unknownSyntax line', s)
          | some c => c.reply fuel arg s := by
  rw [onecmd, h]
  cases line' with
  | nil => rfl
  | cons x line' =>
    rw [if_neg (List.cons_ne_nil _ _)]
    cases command with
    | nil => rfl
    | cons y command => rfl

theorem onecmd_named {fuel : ℕ} {cmds : List (Handler V σ)} {line command arg line' : Text}
    (hparse : parseline (table cmds "shell".toList).isSome line = (some (command, arg), line'))
    (hcommand : command ≠ []) (hbuiltin : Dispatch.builtin command = none) (s : σ) :
    onecmd fuel (table cmds) line s =
      (entryOf command (named command cmds)).elim (.unknownSyntax line', s) fun c =>
        c.reply fuel arg s := by
  rw [onecmd_entry hparse, if_neg (parseline_ne_nil hparse hcommand), if_neg hcommand, hbuiltin,
    table]
  dsimp only
  cases entryOf command (named command cmds) <;> rfl

/-- The commands before the first one that matches decline. -/
theorem reply_of_first {fuel : ℕ} (command : Text) {arg : Text} {pre : List (Handler V σ)}
    (post : List (Handler V σ)) {h : Handler V σ} {args : List (Yielded V)} {r : Bool} {s t : σ}
    (hpre : ∀ g ∈ pre, g.Rejects fuel arg) (hcall : h.spec.call fuel arg = .ok args)
    (hbody : h.body args s = (.ok r, t)) :
    ∃ c, entryOf command (pre ++ h :: post) = some c ∧ c.reply fuel arg s = (.returned r, t) := by
  have hattempt : h.attempt fuel arg s = (.inl (.ok r), t) := by
    rw [Handler.attempt, Handler.call_of_match hcall, hbody]
  cases pre with
  | nil =>
    cases post with
    | nil =>
      refine ⟨_, rfl, ?_⟩
      rw [Entry.reply, Entry.call, Handler.call_of_match hcall, hbody]
    | cons g post =>
      refine ⟨_, rfl, ?_⟩
      rw [Entry.reply, Entry.call, callMembers_eq, firstOf_cons_of_answers hattempt]
      rfl
  | cons g pre =>
    refine ⟨.group command (g :: pre ++ h :: post), by cases pre <;> rfl, ?_⟩
    rw [Entry.reply, Entry.call, callMembers_eq, firstOf_append (declines_candidates hpre),
      firstOf_cons_of_answers hattempt]
    rfl

theorem reply_of_rejects {fuel : ℕ} (command : Text) {arg : Text} {cmds : List (Handler V σ)} (s : σ)
    (hne : cmds ≠ []) (hall : ∀ g ∈ cmds, g.Rejects fuel arg) :
    ∃ c e, entryOf command cmds = some c ∧ c.reply fuel arg s = (.failed e, s) ∧
      (2 ≤ cmds.length → e = .noCandidate (strip isSpace (join [command, arg]))
        (cmds.map (Handler.candidate fuel arg))) := by
  obtain ⟨h, rest, rfl⟩ := List.exists_cons_of_ne_nil hne
  cases rest with
  | nil =>
    obtain ⟨e, hcall⟩ : ∃ e, h.spec.call fuel arg = .error e := by
      rcases hall h List.mem_cons_self with ⟨message, hcall⟩ | ⟨text, message, hcall⟩
      · exact ⟨_, hcall⟩
      · exact ⟨_, hcall⟩
    refine ⟨_, .raised e, rfl, ?_, fun hlength => absurd hlength (by simp)⟩
    rw [Entry.reply, Entry.call, Handler.call, hcall]
  | cons g rest =>
    have hfirst := firstOf_append (declines_candidates hall) [] [] s
    rw [List.append_nil, List.nil_append] at hfirst
    refine ⟨_, _, rfl, ?_, fun _ => rfl⟩
    rw [Entry.reply, Entry.call, callMembers_eq, hfirst]
    rfl

/-- On a line for which the mode has commands, the first of them that was added and that the
words match is run, whatever comes after it. If there is no match then nothing is run, and of
several commands each one is a candidate. -/
theorem first_match_runs (fuel : ℕ) (cmds : List (Handler V σ)) (m : Mode V σ)
    (hm : modeOf cmds = .ok m) (line command arg line' : Text)
    (hparse : parseline (m "shell".toList).isSome line = (some (command, arg), line'))
    (hcommand : command ≠ []) (hbuiltin : Dispatch.builtin command = none) (s : σ) :
    (∀ pre h post args r t, named command cmds = pre ++ h :: post →
      (∀ g ∈ pre, g.Rejects fuel arg) → h.spec.call fuel arg = .ok args →
      h.body args s = (.ok r, t) → onecmd fuel m line s = (.returned r, t)) ∧
    ((∀ g ∈ named command cmds, g.Rejects fuel arg) →
      (onecmd fuel m line s).2 = s ∧ (∀ r, (onecmd fuel m line s).1 ≠ .returned r) ∧
      (2 ≤ (named command cmds).length →
        (onecmd fuel m line s).1 = .failed (.noCandidate (strip isSpace (join [command, arg]))
          ((named command cmds).map (Handler.candidate fuel arg))))) := by
  rw [modeOf_eq] at hm
  cases hm
  rw [onecmd_named hparse hcommand hbuiltin]
  constructor
  · intro pre h post args r t hnamed hpre hcall hbody
    obtain ⟨c, hentry, hreply⟩ :=
      reply_of_first command post hpre hcall hbody
    rw [hnamed, hentry, Option.elim_some, hreply]
  · intro hall
    by_cases hnamed : named command cmds = []
    · rw [hnamed]
      exact ⟨rfl, fun r => Reply.noConfusion, fun h => absurd h (by simp)⟩
    · obtain ⟨c, e, hentry, hreply, hcandidates⟩ := reply_of_rejects command s hnamed hall
      rw [hentry, Option.elim_some, hreply]
      exact ⟨rfl, fun r => Reply.noConfusion, fun h => congrArg Reply.failed (hcandidates h)⟩

def listCommands : List (Handler Unit ℕ) :=
  [⟨command "list".toList (.string "hosts".toList .nil),
      "Show the list of connected hosts.".toList, fun _ s => (.ok false, s + 1)⟩,
    ⟨command "list".toList (.string "agents".toList .nil),
      "Show the list of connected agents.".toList, fun _ s => (.ok false, s + 2)⟩]

theorem first_match_runs_list :
    onecmd 9 (table listCommands) " list agents".toList 5 = (.returned false, 7) := by
  have hreject : ∀ g ∈ listCommands.take 1, g.Rejects 9 "agents".toList := by
    intro g hg
    obtain rfl := List.mem_singleton.mp hg
    exact Handler.rejects_of_not_leading (by decide)
  exact (first_match_runs 9 listCommands (table listCommands) (modeOf_eq _) " list agents".toList
    "list".toList "agents".toList "list agents".toList (by decide) (by decide) (by decide) 5).1
    (listCommands.take 1) _ [] _ false 7 rfl hreject rfl rfl

/-! ## The order of the commands -/

def Help.Similar : Help → Help → Prop
  | .docs texts, .docs texts' => texts.Perm texts'
  | h, h' => h = h'

def Failure.Similar : Failure → Failure → Prop
  | .raised e, .raised e' => e = e'
  | .noCandidate line cs, .noCandidate line' cs' => line = line' ∧ cs.Perm cs'
  | _, _ => False

def Reply.Similar : Reply → Reply → Prop
  | .help h, .help h' => h.Similar h'
  | .failed e, .failed e' => e.Similar e'
  | r, r' => r = r'

theorem Help.Similar.refl (h : Help) : h.Similar h := by
  cases h with
  | docs texts => exact List.Perm.refl _
  | _ => exact rfl

theorem Failure.Similar.refl (e : Failure) : e.Similar e := by
  cases e with
  | raised e => exact rfl
  | noCandidate line cs => exact ⟨rfl, .refl _⟩

theorem Reply.Similar.refl (r : Reply) : r.Similar r := by
  cases r with
  | help h => exact Help.Similar.refl h
  | failed e => exact Failure.Similar.refl e
  | _ => exact rfl

theorem Reply.Similar.stops {r r' : Reply} (h : r.Similar r') : r.stops = r'.stops := by
  cases r with
  | help text =>
    cases r' with
    | help text' => rfl
    | _ => cases h
  | failed e =>
    cases r' with
    | failed e' => rfl
    | _ => cases h
  | _ => exact congrArg Reply.stops h

theorem group_reply {fuel : ℕ} {name : Text} {cmds cmds' : List (Handler V σ)}
    (hperm : cmds.Perm cmds') (hapart : cmds.Pairwise (Handler.Apart fuel)) (arg : Text) (s : σ) :
    ((Entry.group name cmds).reply fuel arg s).1.Similar
        ((Entry.group name cmds').reply fuel arg s).1 ∧
      ((Entry.group name cmds).reply fuel arg s).2 =
        ((Entry.group name cmds').reply fuel arg s).2 := by
  obtain ⟨houtcome, hstate⟩ :=
    firstOf_perm hperm (hapart.imp fun ha => ha.alternatives arg) [] s
  rw [Entry.reply, Entry.reply, Entry.call, Entry.call, callMembers_eq, callMembers_eq]
  cases hx : firstOf (Handler.attempt fuel arg) cmds [] s with
  | mk x t =>
    cases hy : firstOf (Handler.attempt fuel arg) cmds' [] s with
    | mk y u =>
      rw [hx, hy] at houtcome hstate
      dsimp only at houtcome hstate
      subst hstate
      cases houtcome with
      | inl h =>
        subst h
        exact ⟨Reply.Similar.refl _, rfl⟩
      | inr h => exact ⟨⟨rfl, h⟩, rfl⟩

def SimilarModes (fuel : ℕ) (m m' : Mode V σ) : Prop :=
  ∀ name, m name = m' name ∨ ∃ cmds cmds', m name = some (.group name cmds) ∧
    m' name = some (.group name cmds') ∧ cmds.Perm cmds' ∧ cmds.Pairwise (Handler.Apart fuel)

theorem SimilarModes.isSome {fuel : ℕ} {m m' : Mode V σ} (h : SimilarModes fuel m m')
    (name : Text) : (m name).isSome = (m' name).isSome := by
  rcases h name with heq | ⟨cmds, cmds', hm, hm', -, -⟩
  · rw [heq]
  · rw [hm, hm']
    rfl

theorem SimilarModes.doHelp {fuel : ℕ} {m m' : Mode V σ} (h : SimilarModes fuel m m')
    (arg : Text) : (doHelp m arg).Similar (doHelp m' arg) := by
  unfold Dispatch.doHelp
  split
  · exact .refl _
  split
  · exact .refl _
  · exact .refl _
  · rcases h arg with heq | ⟨cmds, cmds', hm, hm', hperm, -⟩
    · rw [heq]
      exact .refl _
    · rw [hm, hm']
      exact hperm.map Handler.help

theorem similar_onecmd {fuel : ℕ} {m m' : Mode V σ} (h : SimilarModes fuel m m') (line : Text)
    (s : σ) : (onecmd fuel m line s).1.Similar (onecmd fuel m' line s).1 ∧
      (onecmd fuel m line s).2 = (onecmd fuel m' line s).2 := by
  cases hparse : parseline (m "shell".toList).isSome line with
  | mk parsed line' =>
    have hparse' := hparse
    rw [h.isSome] at hparse'
    cases parsed with
    | none =>
      rw [onecmd, onecmd, hparse, hparse']
      cases line' <;> exact ⟨rfl, rfl⟩
    | some parsed =>
      obtain ⟨command, arg⟩ := parsed
      rw [onecmd_entry hparse, onecmd_entry hparse']
      split
      · exact ⟨rfl, rfl⟩
      split
      · exact ⟨rfl, rfl⟩
      cases Dispatch.builtin command with
      | some b =>
        cases b with
        | help => exact ⟨h.doHelp arg, rfl⟩
        | eof => exact ⟨rfl, rfl⟩
      | none =>
        rcases h command with heq | ⟨cmds, cmds', hm, hm', hperm, hapart⟩
        · dsimp only
          rw [heq]
          exact ⟨Reply.Similar.refl _, rfl⟩
        · dsimp only
          rw [hm, hm']
          exact group_reply hperm hapart arg s

theorem similar_table {fuel : ℕ} {cmds cmds' : List (Handler V σ)} (hperm : cmds.Perm cmds')
    (hapart : cmds.Pairwise fun h g => h.spec.name = g.spec.name → h.Apart fuel g) :
    SimilarModes fuel (table cmds) (table cmds') := by
  intro name
  have hnamed : (named name cmds).Perm (named name cmds') := hperm.filter _
  have hpair : (named name cmds).Pairwise (Handler.Apart fuel) := by
    apply (hapart.filter _).imp_of_mem
    intro h g hh hg ha
    exact ha ((mem_named.mp hh).2.trans (mem_named.mp hg).2.symm)
  rw [table, table]
  cases hcmds : named name cmds with
  | nil =>
    rw [hcmds] at hnamed
    rw [hnamed.nil_eq]
    exact .inl rfl
  | cons g rest =>
    cases rest with
    | nil =>
      rw [hcmds] at hnamed
      rw [List.singleton_perm.mp hnamed]
      exact .inl rfl
    | cons g' rest =>
      rw [hcmds] at hnamed hpair
      cases hcmds' : named name cmds' with
      | nil =>
        rw [hcmds'] at hnamed
        cases hnamed.eq_nil
      | cons k rest' =>
        cases rest' with
        | nil =>
          rw [hcmds'] at hnamed
          cases List.perm_singleton.mp hnamed
        | cons k' rest' =>
          rw [hcmds'] at hnamed
          exact .inr ⟨_, _, rfl, rfl, hnamed, hpair⟩

section

variable {fuel : ℕ} {mode mode' : σ → Mode V σ}

theorem similar_runscript (h : ∀ s, SimilarModes fuel (mode s) (mode' s)) (script : List Text)
    (s : σ) : runscript fuel mode script s = runscript fuel mode' script s := by
  induction script generalizing s with
  | nil => rfl
  | cons line script ih =>
    unfold runscript
    split
    · exact ih s
    · rw [(similar_onecmd (h s) line s).2]
      exact ih _

theorem similar_cmdloop (h : ∀ s, SimilarModes fuel (mode s) (mode' s)) (lines : List Text)
    (s : σ) : List.Forall₂ Reply.Similar (cmdloop fuel mode lines s).1
      (cmdloop fuel mode' lines s).1 ∧
        (cmdloop fuel mode lines s).2 = (cmdloop fuel mode' lines s).2 := by
  induction lines generalizing s with
  | nil =>
    obtain ⟨hreply, hstate⟩ := similar_onecmd (h s) "EOF".toList s
    exact ⟨.cons hreply .nil, hstate⟩
  | cons line lines ih =>
    obtain ⟨hreply, hstate⟩ := similar_onecmd (h s) line s
    unfold cmdloop
    dsimp only
    rw [← hreply.stops, ← hstate]
    split
    · exact ⟨.cons hreply .nil, rfl⟩
    · obtain ⟨hreplies, hend⟩ := ih (onecmd fuel (mode s) line s).2
      exact ⟨.cons hreply hreplies, hend⟩

end

def ownNames : List Text := ["complete_help", "do_EOF", "do_help", "help_help"].map String.toList

/-- `get_names`, where `mode` is what `iter(self.mode)` gives. -/
def getNames (mode : List Text) : List Text :=
  ownNames.filter (· ≠ "do_EOF".toList) ++
    ["do".toList, "complete".toList, "help".toList].flatMap fun p => mode.map (p ++ '_' :: ·)

def completenames (mode : List Text) (text : Text) : List Text :=
  (((getNames mode).filter fun a => ("do_".toList ++ text).isPrefixOf a).map (List.drop 3)).map
    (· ++ [' '])

theorem mem_getNames {mode : List Text} {name : Text} :
    "do_".toList ++ name ∈ getNames mode ↔ name = "help".toList ∨ name ∈ mode := by
  have hown : "do_".toList ++ name ∈ ownNames.filter (· ≠ "do_EOF".toList) ↔
      name = "help".toList := by
    have hfilter : ownNames.filter (· ≠ "do_EOF".toList) =
        ["complete_help".toList, "do_".toList ++ "help".toList, "help_help".toList] := by decide
    have hother : ∀ (c : Char) (s : Text), c ≠ 'd' → "do_".toList ++ name ≠ c :: s := by
      intro c s hc heq
      exact hc (List.cons.inj heq).1.symm
    rw [hfilter, List.mem_cons, List.mem_cons, List.mem_singleton, List.append_cancel_left_eq]
    constructor
    · rintro (hcomplete | hhelp | hhelp)
      · exact absurd hcomplete (hother 'c' _ (by decide))
      · exact hhelp
      · exact absurd hhelp (hother 'h' _ (by decide))
    · exact fun h => .inr (.inl h)
  have hmode : "do_".toList ++ name ∈ (["do".toList, "complete".toList, "help".toList].flatMap
      fun p => mode.map (p ++ '_' :: ·)) ↔ name ∈ mode := by
    simp
  rw [getNames, List.mem_append, hown, hmode]

theorem mem_completenames {mode : List Text} {text offer : Text} :
    offer ∈ completenames mode text ↔
      ∃ name, offer = name ++ [' '] ∧ text <+: name ∧ (name = "help".toList ∨ name ∈ mode) := by
  rw [completenames, List.map_map, List.mem_map]
  constructor
  · rintro ⟨a, ha, rfl⟩
    obtain ⟨hmem, hfront⟩ := List.mem_filter.mp ha
    obtain ⟨more, rfl⟩ := List.isPrefixOf_iff_prefix.mp hfront
    rw [List.append_assoc] at hmem
    exact ⟨text ++ more, rfl, List.prefix_append _ _, mem_getNames.mp hmem⟩
  · rintro ⟨name, rfl, hfront, hname⟩
    refine ⟨"do_".toList ++ name, List.mem_filter.mpr ⟨mem_getNames.mpr hname, ?_⟩, rfl⟩
    exact List.isPrefixOf_iff_prefix.mpr ((List.prefix_append_right_inj _).mpr hfront)

theorem isIdent_not_space {c : Char} (h : isIdent c = true) : isSpace c = false := by
  have hspaces : ∀ d ∈ [' ', '\t', '\n', '\r', '\x0b', '\x0c'], isIdent d = false := by
    simp [isIdent, Char.isAlphanum, Char.isAlpha, Char.isUpper, Char.isLower, Char.isDigit]
  apply decide_eq_false
  intro hmem
  rw [hspaces c hmem] at h
  cases h

theorem strip_append_spaces (s : Text) {spaces : Text} (h : ∀ c ∈ spaces, isSpace c = true) :
    strip isSpace (s ++ spaces) = strip isSpace s := by
  have hback : ∀ l : Text, (l ++ spaces).rdropWhile isSpace = l.rdropWhile isSpace := by
    intro l
    rw [List.rdropWhile, List.reverse_append, List.dropWhile_append_of_pos, List.rdropWhile]
    exact fun c hc => h c (List.mem_reverse.mp hc)
  have hnil : spaces.dropWhile isSpace = [] := List.dropWhile_eq_nil_iff.mpr h
  rw [strip, strip, List.dropWhile_append]
  split
  · rename_i hempty
    rw [hnil, List.isEmpty_iff.mp hempty]
  · exact hback _

theorem parseline_name (hasShell : Bool) {name : Text} (hne : name ≠ [])
    (hident : ∀ c ∈ name, isIdent c = true) (rest : Text) :
    ∃ line', parseline hasShell (name ++ [' '] ++ rest) =
      (some (name, strip isSpace rest), line') := by
  obtain ⟨c, name, rfl⟩ := List.exists_cons_of_ne_nil hne
  have hc : isIdent c = true := hident c List.mem_cons_self
  -- what follows the name ends in a character that is no space, unless it is empty
  obtain ⟨t, spaces, htail, hspaces, hlast⟩ : ∃ t spaces, [' '] ++ rest = t ++ spaces ∧
      (∀ d ∈ spaces, isSpace d = true) ∧ ∀ ht : t ≠ [], ¬ isSpace (t.getLast ht) = true :=
    ⟨_, _, List.rdropWhile_append_rtakeWhile.symm, fun d hd => List.mem_rtakeWhile_imp hd,
      fun ht => List.rdropWhile_last_not _ _ ht⟩
  have hstrip : strip isSpace (c :: name ++ [' '] ++ rest) = c :: name ++ t := by
    rw [List.append_assoc, htail, ← List.append_assoc, strip_append_spaces _ hspaces, strip,
      List.cons_append, List.dropWhile_cons, if_neg (by simp [isIdent_not_space hc])]
    apply List.rdropWhile_eq_self_iff.mpr
    intro hl
    by_cases ht : t = []
    · subst ht
      simp only [List.append_nil]
      rw [isIdent_not_space (hident _ (List.getLast_mem _))]
      exact Bool.false_ne_true
    · change ¬ isSpace ((c :: name ++ t).getLast hl) = true
      rw [List.getLast_append_of_ne_nil _ ht]
      exact hlast ht
  have htake : (c :: name ++ t).takeWhile isIdent = c :: name ∧
      (c :: name ++ t).dropWhile isIdent = t := by
    rw [List.takeWhile_append_of_pos hident, List.dropWhile_append_of_pos hident]
    cases t with
    | nil => exact ⟨List.append_nil _, rfl⟩
    | cons d t =>
      obtain ⟨rfl, -⟩ := List.cons.inj htail
      exact ⟨List.append_nil _, rfl⟩
  have harg : strip isSpace t = strip isSpace rest := by
    rw [← strip_append_spaces t hspaces, ← htail]
    rfl
  have hsplit : splitCommand (c :: name ++ t) =
      (some (c :: name, strip isSpace rest), c :: name ++ t) := by
    rw [splitCommand, htake.1, htake.2, harg]
  refine ⟨c :: name ++ t, ?_⟩
  rw [parseline, hstrip, ← hsplit]
  split
  · rename_i hnil
    cases hnil
  · rename_i heq
    cases heq
    exact absurd hc (by decide)
  · rename_i heq
    cases heq
    exact absurd hc (by decide)
  · rfl

theorem table_isSome {cmds : List (Handler V σ)} {name : Text} :
    (table cmds name).isSome = true ↔ ∃ h ∈ cmds, h.spec.name = name := by
  rw [table]
  constructor
  · intro hsome
    cases hnamed : named name cmds with
    | nil =>
      rw [hnamed] at hsome
      cases hsome
    | cons h rest => exact ⟨h, mem_named.mp (hnamed ▸ List.mem_cons_self)⟩
  · rintro ⟨h, hh⟩
    cases hnamed : named name cmds with
    | nil =>
      have hmem : h ∈ named name cmds := mem_named.mpr hh
      rw [hnamed] at hmem
      cases hmem
    | cons g rest => cases rest <;> rfl

/-- Exactly the names that go on from what is typed are offered. A line that goes on from an offer
is given to the help or ends the shell if the name is one of the shell's own, and is given to the
commands of the name otherwise. -/
theorem offered_names_dispatch (fuel : ℕ) (cmds : List (Handler V σ)) (m : Mode V σ)
    (hm : modeOf cmds = .ok m) (mode : List Text) (hmode : ∀ n, n ∈ mode ↔ (m n).isSome = true)
    (hname : ∀ h ∈ cmds, h.spec.name ≠ [] ∧ ∀ c ∈ h.spec.name, isIdent c = true) (text : Text) :
    (∀ offer, offer ∈ completenames mode text ↔ ∃ name, offer = name ++ [' '] ∧ text <+: name ∧
      (name = "help".toList ∨ ∃ h ∈ cmds, h.spec.name = name)) ∧
    ∀ name, name ++ [' '] ∈ completenames mode text → ∀ rest s,
      (Dispatch.builtin name = some .help ∧
        onecmd fuel m (name ++ [' '] ++ rest) s = (.help (doHelp m (strip isSpace rest)), s)) ∨
      (Dispatch.builtin name = some .eof ∧ onecmd fuel m (name ++ [' '] ++ rest) s = (.eof, s)) ∨
      (Dispatch.builtin name = none ∧ ∃ c : Entry V σ, c.members ≠ [] ∧
        (∀ h, h ∈ c.members ↔ h ∈ cmds ∧ h.spec.name = name) ∧
        onecmd fuel m (name ++ [' '] ++ rest) s = c.reply fuel (strip isSpace rest) s) := by
  rw [modeOf_eq] at hm
  cases hm
  have hoffers : ∀ offer, offer ∈ completenames mode text ↔ ∃ name, offer = name ++ [' '] ∧
      text <+: name ∧ (name = "help".toList ∨ ∃ h ∈ cmds, h.spec.name = name) := by
    intro offer
    simp only [mem_completenames, hmode, table_isSome]
  refine ⟨hoffers, fun name hoffer rest s => ?_⟩
  obtain ⟨name', hsame, -, hkind⟩ := (hoffers _).mp hoffer
  obtain rfl : name = name' := List.append_cancel_right hsame
  have hwell : name ≠ [] ∧ ∀ c ∈ name, isIdent c = true := by
    rcases hkind with rfl | ⟨h, hh, rfl⟩
    · simp [isIdent, Char.isAlphanum, Char.isAlpha]
    · exact hname h hh
  obtain ⟨line', hparse⟩ := parseline_name (table cmds "shell".toList).isSome hwell.1 hwell.2 rest
  have hentry : onecmd fuel (table cmds) (name ++ [' '] ++ rest) s = _ :=
    onecmd_entry hparse
  rw [if_neg (parseline_ne_nil hparse hwell.1), if_neg hwell.1] at hentry
  cases hbuiltin : Dispatch.builtin name with
  | some b =>
    rw [hbuiltin] at hentry
    cases b with
    | help => exact .inl ⟨rfl, hentry⟩
    | eof => exact .inr (.inl ⟨rfl, hentry⟩)
  | none =>
    have hmem : ∃ h ∈ cmds, h.spec.name = name := by
      rcases hkind with rfl | hmem
      · cases hbuiltin
      · exact hmem
    obtain ⟨c, hc⟩ := Option.isSome_iff_exists.mp (table_isSome.mpr hmem)
    obtain ⟨hmembers, -⟩ := entryOf_eq_some (fun g hg => (mem_named.mp hg).2) hc
    rw [hbuiltin, hc] at hentry
    refine .inr (.inr ⟨rfl, c, ?_, fun g => ?_, hentry⟩)
    · obtain ⟨h, hh⟩ := hmem
      rw [hmembers]
      exact List.ne_nil_of_mem (mem_named.mpr hh)
    · rw [hmembers, mem_named]

theorem offered_names_dispatch_list :
    "list ".toList ∈ completenames ["list".toList] "l".toList ∧
      ∃ c : Entry Unit ℕ, (∀ h, h ∈ c.members ↔ h ∈ listCommands ∧ h.spec.name = "list".toList) ∧
        onecmd 9 (table listCommands) "list agents".toList 5 = c.reply 9 "agents".toList 5 := by
  have hnames : ∀ n, n ∈ ["list".toList] ↔ (table listCommands n).isSome = true := by
    intro n
    rw [table_isSome, List.mem_singleton]
    simp [listCommands, command, eq_comm]
  have hlist : "list".toList ≠ [] ∧ ∀ c ∈ "list".toList, isIdent c = true := by
    simp [isIdent, Char.isAlphanum, Char.isAlpha]
  have hname : ∀ h ∈ listCommands, h.spec.name ≠ [] ∧ ∀ c ∈ h.spec.name, isIdent c = true := by
    simp only [listCommands, List.forall_mem_cons, List.not_mem_nil]
    exact ⟨hlist, hlist, fun h hh => hh.elim⟩
  obtain ⟨hoffers, hdispatch⟩ := offered_names_dispatch 9 listCommands (table listCommands)
    (modeOf_eq _) ["list".toList] hnames hname "l".toList
  have hoffer : "list ".toList ∈ completenames ["list".toList] "l".toList :=
    (hoffers _).mpr ⟨"list".toList, by decide, by decide,
      .inr ⟨_, List.mem_cons_self, rfl⟩⟩
  refine ⟨hoffer, ?_⟩
  obtain ⟨hhelp, -⟩ | ⟨heof, -⟩ | ⟨-, c, -, hmembers, hreply⟩ :=
    hdispatch "list".toList hoffer "agents".toList 5
  · cases hhelp
  · cases heof
  · exact ⟨c, hmembers, hreply⟩

end Matahari.Shell.Dispatch
