import Matahari.Library.LastWrite
import Matahari.AgentConnect
import Matahari.AgentOptions
import Matahari.SysconfigLinux

set_option autoImplicit false

/-!
# The options of an agent

`mh_parse_options` of `mh_agent.cpp` from the environment and the results of `getopt_long` to the
maps that `mh_connect` reads. An option of the command line goes before a variable of the
environment, that before a default, and of two options of a kind the last one counts.
-/
namespace Matahari.Agent
open Mainloop Utilities Services Sysconfig

inductive OptionValue where
  | string (text : Text)
  | uint16 (n : ℕ)
  | int32 (n : ℤ)
  | bool (b : Bool)
  deriving DecidableEq, Repr

abbrev OptionsMap := Text → Option OptionValue

namespace OptionsMap

def empty : OptionsMap := fun _ => none

def set (options : OptionsMap) (name : Text) (value : OptionValue) : OptionsMap :=
  fun key => if key = name then some value else options key

def erase (options : OptionsMap) (name : Text) : OptionsMap :=
  fun key => if key = name then none else options key

def count (options : OptionsMap) (name : Text) : Bool := (options name).isSome

end OptionsMap

def isspace (c : Char) : Bool := c == ' ' || (9 ≤ c.toNat && c.toNat ≤ 13)

/-- `strtol` to the base of ten, on a machine whose `long` has 64 bits. -/
def strtol (s : Text) : ℤ :=
  let s := s.dropWhile isspace
  let negative := s.head? == some '-'
  let digits := (if negative || s.head? == some '+' then s.tail else s).takeWhile Char.isDigit
  let n := Nat.ofDigits 10 (digits.reverse.map fun c => c.toNat - '0'.toNat)
  if negative then max (-n) (-2 ^ 63) else min n (2 ^ 63 - 1)

def portNumber (arg : Text) : ℕ := (strtol arg % 2 ^ 16).toNat

inductive Userdata where
  | options
  | amqpOptions
  deriving DecidableEq, Repr

inductive Callback where
  | mapOption
  | connectionOption
  | mhShouldDaemonize
  deriving DecidableEq, Repr

structure Parse where
  options : OptionsMap
  amqpOptions : OptionsMap
  logLevel : ℤ
  stderrEnabled : Bool

/-- A null pointer where a string is needed is the crash. -/
inductive ParseEnding where
  | exited (status : ℕ)
  | crashed
  deriving DecidableEq, Repr

def Parse.write (s : Parse) (userdata : Option Userdata) (name : Text) (value : OptionValue) :
    Except ParseEnding Parse :=
  match userdata with
  | none => .error .crashed
  | some .options => .ok { s with options := s.options.set name value }
  | some .amqpOptions => .ok { s with amqpOptions := s.amqpOptions.set name value }

def notNull (arg : Option Text) : Except ParseEnding Text :=
  match arg with
  | none => .error .crashed
  | some arg => .ok arg

def mapOption (name : Text) (arg : Option Text) (userdata : Option Userdata) (s : Parse) :
    Except ParseEnding Parse :=
  if name = "verbose".toList then
    let s := { s with stderrEnabled := true }
    match arg.filter (!mhStrlenZero ·) with
    | none => .ok { s with logLevel := s.logLevel + 1 }
    | some arg => .ok { s with logLevel := s.logLevel + (scanUnsigned arg).getD 0 }
  else if name = "broker".toList then
    (notNull arg).bind fun arg => s.write userdata "servername".toList (.string arg)
  else if name = "port".toList then
    (notNull arg).bind fun arg => s.write userdata "serverport".toList (.uint16 (portNumber arg))
  else if name = "dns-srv".toList then s.write userdata "dns-srv".toList (.int32 1)
  else (notNull arg).bind fun arg => s.write userdata name (.string arg)

def reconnects (arg : Option Text) : Bool :=
  arg.all fun arg => !strcasecmp arg "no".toList && !strcasecmp arg "false".toList

def connectionOption (name : Text) (arg : Option Text) (userdata : Option Userdata) (s : Parse) :
    Except ParseEnding Parse :=
  if name = "service".toList then
    (notNull arg).bind fun arg =>
      (s.write userdata "sasl-service".toList (.string arg)).bind fun s =>
        s.write userdata "sasl-mechanism".toList (.string "GSSAPI".toList)
  else if name = "reconnect".toList then
    s.write userdata "reconnect".toList (.bool (reconnects arg))
  else match arg with
    | some arg => s.write userdata name (.string arg)
    | none => s.write userdata name (.bool true)

def mhShouldDaemonize (daemon : Bool) (s : Parse) : Except ParseEnding Parse :=
  if daemon then .ok { s with stderrEnabled := false } else .error (.exited 1)

/-- What `getopt_long` returns, with `optarg`. -/
structure Given where
  code : ℤ
  arg : Option Text
  daemon : Bool

def runCallback (callback : Callback) (name : Option Text) (userdata : Option Userdata) (g : Given)
    (s : Parse) : Except ParseEnding Parse :=
  match callback with
  | .mapOption => (notNull name).bind fun name => mapOption name g.arg userdata s
  | .connectionOption => (notNull name).bind fun name => connectionOption name g.arg userdata s
  | .mhShouldDaemonize => mhShouldDaemonize g.daemon s

def parseTurn (table : OptionTable Callback Userdata) (g : Given) (s : Parse) :
    Except ParseEnding Parse :=
  match selectOption table g.code with
  | .help => .error (.exited 0)
  | .call callback _ name userdata => runCallback callback name userdata g s
  | .usage => .error (.exited 1)

def parseLoop (table : OptionTable Callback Userdata) :
    List Given → Parse → Except ParseEnding Parse
  | [], s => .ok s
  | g :: given, s => (parseTurn table g s).bind (parseLoop table given)

structure Environment where
  getenv : Text → Option Text
  isDir : Text → Bool
  resolvable : Text → Bool

def Environment.data (env : Environment) (name : String) : Option Text :=
  (env.getenv name.toList).filter (!mhStrlenZero ·)

def OptionsMap.setData (options : OptionsMap) (name : String) (data : Option Text) : OptionsMap :=
  match data with
  | some data => options.set name.toList (.string data)
  | none => options

def readEnvironment (ssl : Bool) (env : Environment) (options : OptionsMap) :
    Except ParseEnding OptionsMap :=
  let options := options.setData "servername" (env.data "MATAHARI_BROKER")
  let options := options.setData "serverport" (env.data "MATAHARI_PORT")
  let options := options.set "krb5_keytab".toList
    (.string ((env.data "KRB5_KEYTAB").getD "/etc/krb5.keytab".toList))
  let options := options.set "krb5_interval".toList
    (.string ((env.data "KRB5_INTERVAL").getD "10".toList))
  if ssl then
    let options := options.setData "ssl-cert-db" (env.data "QPID_SSL_CERT_DB")
    if (env.data "QPID_SSL_CERT_DB").all env.isDir then
      let options := options.setData "ssl-cert-name" (env.data "QPID_SSL_CERT_NAME")
      .ok (options.setData "ssl-cert-password-file" (env.data "QPID_SSL_CERT_PASSWORD_FILE"))
    else .error (.exited 1)
  else .ok options

def OptionValue.asString : OptionValue → Text
  | .string text => text
  | .uint16 n => decimal n
  | .int32 n => decimal n
  | .bool b => if b then "True".toList else "False".toList

def verifyBrokerOption (env : Environment) (options : OptionsMap) : OptionsMap :=
  match options "servername".toList with
  | none => options
  | some broker =>
    if env.resolvable broker.asString then options else options.erase "servername".toList

def finishOptions (ssl : Bool) (env : Environment) (options : OptionsMap) : OptionsMap :=
  let options :=
    if options.count "dns-srv".toList then options else verifyBrokerOption env options
  if ssl && options.count "use-tls".toList then
    options.set "protocol".toList (.string "ssl".toList)
  else options

def mhParseOptions (ssl : Bool) (env : Environment) (table : OptionTable Callback Userdata)
    (given : List Given) (options : OptionsMap) (logLevel : ℤ) (stderrEnabled : Bool) :
    Except ParseEnding Parse :=
  let options := options.set "protocol".toList (.string "tcp".toList)
  let options := options.set "serverport".toList (.string "49000".toList)
  let amqpOptions := OptionsMap.empty.set "reconnect".toList (.bool true)
  let table := addOptions table
    (localOptions .mapOption .connectionOption .options .amqpOptions ssl)
  (readEnvironment ssl env options).bind fun options =>
    (parseLoop table given ⟨options, amqpOptions, logLevel, stderrEnabled⟩).map fun s =>
      { s with options := finishOptions ssl env s.options }

def daemonOption : MhOption Callback Userdata :=
  ⟨'d'.toNat, noArgument, some "daemon".toList, some "run as a daemon".toList, none,
    some .mhShouldDaemonize⟩

def initOptions (ssl : Bool) (env : Environment) (given : List Given) (logLevel : ℤ)
    (tty : Bool) : Except ParseEnding Parse :=
  mhParseOptions ssl env (mhAddOption OptionTable.zeroed daemonOption).2 given OptionsMap.empty
    logLevel tty

def OptionsMap.connect (options : OptionsMap) : MhOptions where
  protocol := ((options "protocol".toList).map (·.asString)).getD []
  servername := (options "servername".toList).map (·.asString)
  serverport := ((options "serverport".toList).map (·.asString)).getD []
  dnsSrv := options.count "dns-srv".toList

/-! ## The table -/

def agentOptions (ssl : Bool) : List (MhOption Callback Userdata) :=
  daemonOption :: localOptions .mapOption .connectionOption .options .amqpOptions ssl

def agentTable (ssl : Bool) : OptionTable Callback Userdata :=
  addOptions OptionTable.zeroed (agentOptions ssl)

section
variable {K U : Type} {options : List (MhOption K U)}

theorem lastAdded_of_mem {option : MhOption K U} (hcodes : (options.map (·.code)).Nodup)
    (hmem : option ∈ options) : lastAdded options option.code = some option := by
  induction options using List.reverseRecOn with
  | nil => exact absurd hmem List.not_mem_nil
  | append_singleton options last ih =>
    rw [List.map_append, List.nodup_append] at hcodes
    rw [lastAdded_concat]
    by_cases hlast : option = last
    · rw [if_pos (by rw [hlast]), hlast]
    · have hinit : option ∈ options := by
        simpa [hlast] using hmem
      have hne : last.code ≠ option.code := fun heq =>
        hcodes.2.2 _ (List.mem_map_of_mem hinit) _ (List.mem_map_of_mem List.mem_cons_self) heq.symm
      rw [if_neg hne]
      exact ih hcodes.1 hinit

theorem selectOption_unknown {code : ℤ} (hhelp : code ≠ 'h'.toNat)
    (h : ∀ option ∈ options, option.code ≠ code) :
    selectOption (addOptions OptionTable.zeroed options) code = .usage := by
  unfold selectOption
  rw [if_neg hhelp]
  split
  · rename_i hrange
    have hnone : lastAdded options code = none := by
      unfold lastAdded
      rw [List.find?_eq_none]
      intro option hmem
      simpa using h option (List.mem_reverse.mp hmem)
    have hentry : (addOptions OptionTable.zeroed options).entries.getD code.toNat zeroOption =
        zeroOption := by
      rw [addOptions_entries, List.getD_eq_getElem?_getD, List.getElem?_map,
        List.getElem?_range (by omega), Option.map_some, Option.getD_some, entryFor,
        if_neg (by omega), Int.toNat_of_nonneg (le_of_lt hrange.1), hnone]
      rfl
    dsimp only
    rw [hentry]
    rfl
  · rfl

end

theorem agentOptions_codes (ssl : Bool) : ((agentOptions ssl).map (·.code)).Nodup := by
  cases ssl <;> decide

theorem agentOptions_range {ssl : Bool} {option : MhOption Callback Userdata}
    (h : option ∈ agentOptions ssl) : 0 < option.code ∧ option.code < maxChar := by
  have hall : ∀ code ∈ (agentOptions ssl).map MhOption.code, (0 : ℤ) < code ∧ code < maxChar := by
    cases ssl <;> decide
  exact hall _ (List.mem_map_of_mem h)

theorem select_agentOption {ssl : Bool} {option : MhOption Callback Userdata}
    {callback : Callback} (h : option ∈ agentOptions ssl) (hhelp : option.code ≠ 'h'.toNat)
    (hcallback : option.callback = some callback) :
    selectOption (agentTable ssl) option.code =
      .call callback option.code option.longName option.userdata := by
  have hrange := agentOptions_range h
  have hlast := lastAdded_of_mem (agentOptions_codes ssl) h
  unfold agentTable
  rw [selectOption_lastAdded hrange.1 hrange.2 hhelp hlast, hcallback]

/-! ## What an option writes -/

structure WrittenKey where
  code : Char
  name : Text
  value : Option Text → OptionValue

def stringOf (arg : Option Text) : OptionValue := .string (arg.getD [])

def optionsKeys : List WrittenKey :=
  [⟨'b', "servername".toList, stringOf⟩,
    ⟨'D', "dns-srv".toList, fun _ => .int32 1⟩,
    ⟨'p', "serverport".toList, fun arg => .uint16 (portNumber (arg.getD []))⟩,
    ⟨'t', "use-tls".toList, fun _ => .bool true⟩]

def amqpKeys : List WrittenKey :=
  [⟨'u', "username".toList, stringOf⟩,
    ⟨'P', "password".toList, stringOf⟩,
    ⟨'s', "sasl-service".toList, stringOf⟩,
    ⟨'s', "sasl-mechanism".toList, fun _ => .string "GSSAPI".toList⟩,
    ⟨'r', "reconnect".toList, fun arg => .bool (reconnects arg)⟩,
    ⟨'n', "ssl-cert-name".toList, stringOf⟩]

def writes (keys : List WrittenKey) (g : Given) (key : Text) : Option OptionValue :=
  (keys.filter fun k => g.code = k.code.toNat).findSome? fun k =>
    if key = k.name then some (k.value g.arg) else none

def accept (s : Parse) (g : Given) : Parse where
  options := fun key => (writes optionsKeys g key).or (s.options key)
  amqpOptions := fun key => (writes amqpKeys g key).or (s.amqpOptions key)
  logLevel := if g.code = 'v'.toNat then s.logLevel + 1 else s.logLevel
  stderrEnabled :=
    if g.code = 'v'.toNat then true else if g.code = 'd'.toNat then false else s.stderrEnabled

def stops (ssl : Bool) (g : Given) : Option ℕ :=
  if g.code = 'h'.toNat then some 0
  else if (agentOptions ssl).any (·.code == g.code) then
    if g.code = 'd'.toNat ∧ g.daemon = false then some 1 else none
  else some 1

/-- `getopt_long` gives an argument exactly with the options that need one. -/
def HasItsArg (ssl : Bool) (g : Given) : Prop :=
  ∀ option ∈ agentOptions ssl, option.code = g.code →
    (g.arg.isSome ↔ option.hasArg = requiredArgument)

section
variable {keys : List WrittenKey} {g : Given} {k : WrittenKey}

theorem writes_none (h : (keys.filter fun k => g.code = k.code.toNat) = []) (m : OptionsMap) :
    (fun key => (writes keys g key).or (m key)) = m := by
  funext key
  unfold writes
  rw [h]
  rfl

theorem writes_one (h : (keys.filter fun k => g.code = k.code.toNat) = [k]) (m : OptionsMap) :
    (fun key => (writes keys g key).or (m key)) = m.set k.name (k.value g.arg) := by
  funext key
  unfold writes OptionsMap.set
  rw [h, List.findSome?_cons]
  by_cases hkey : key = k.name
  · rw [if_pos hkey, if_pos hkey]
    rfl
  · rw [if_neg hkey, if_neg hkey]
    rfl

theorem writes_two {l : WrittenKey} (hne : l.name ≠ k.name)
    (h : (keys.filter fun k => g.code = k.code.toNat) = [k, l]) (m : OptionsMap) :
    (fun key => (writes keys g key).or (m key)) =
      (m.set k.name (k.value g.arg)).set l.name (l.value g.arg) := by
  funext key
  unfold writes OptionsMap.set
  rw [h, List.findSome?_cons, List.findSome?_cons]
  by_cases hkey : key = k.name
  · have hl : key ≠ l.name := by
      rw [hkey]
      exact hne.symm
    rw [if_pos hkey, if_pos hkey, if_neg hl, if_neg hl]
    rfl
  · rw [if_neg hkey, if_neg hkey]
    by_cases hl : key = l.name
    · rw [if_pos hl, if_pos hl]
      rfl
    · rw [if_neg hl, if_neg hl]
      rfl

theorem accept_quiet {s : Parse} {options amqpOptions : OptionsMap} (c : Char)
    (hcode : g.code = c.toNat) (hquiet : (c.toNat : ℤ) ≠ 'v'.toNat ∧ (c.toNat : ℤ) ≠ 'd'.toNat)
    (hoptions : (fun key => (writes optionsKeys g key).or (s.options key)) = options)
    (hamqp : (fun key => (writes amqpKeys g key).or (s.amqpOptions key)) = amqpOptions) :
    accept s g = { s with options := options, amqpOptions := amqpOptions } := by
  unfold accept
  rw [hoptions, hamqp, hcode, if_neg hquiet.1, if_neg hquiet.1, if_neg hquiet.2]

end

section
variable {option : MhOption Callback Userdata} {callback : Callback} {name : Text} {g : Given}

theorem parseTurn_call (ssl : Bool) (i : ℕ) (hget : (agentOptions ssl)[i]? = some option)
    (hcode : g.code = option.code) (hhelp : option.code ≠ 'h'.toNat)
    (hcallback : option.callback = some callback) (hname : option.longName = some name)
    (s : Parse) :
    parseTurn (agentTable ssl) g s = runCallback callback (some name) option.userdata g s := by
  have hselect := select_agentOption (List.mem_of_getElem? hget) hhelp hcallback
  rw [← hcode, hname] at hselect
  unfold parseTurn
  rw [hselect]

variable {s : Parse} {k : WrittenKey}

theorem accept_options (c : Char) (hcode : g.code = c.toNat)
    (hquiet : (c.toNat : ℤ) ≠ 'v'.toNat ∧ (c.toNat : ℤ) ≠ 'd'.toNat)
    (hoptions : (optionsKeys.filter fun k => g.code = k.code.toNat) = [k])
    (hamqp : (amqpKeys.filter fun k => g.code = k.code.toNat) = []) :
    accept s g = { s with options := s.options.set k.name (k.value g.arg) } :=
  accept_quiet c hcode hquiet (writes_one hoptions s.options) (writes_none hamqp s.amqpOptions)

theorem accept_amqp (c : Char) (hcode : g.code = c.toNat)
    (hquiet : (c.toNat : ℤ) ≠ 'v'.toNat ∧ (c.toNat : ℤ) ≠ 'd'.toNat)
    (hoptions : (optionsKeys.filter fun k => g.code = k.code.toNat) = [])
    (hamqp : (amqpKeys.filter fun k => g.code = k.code.toNat) = [k]) :
    accept s g = { s with amqpOptions := s.amqpOptions.set k.name (k.value g.arg) } :=
  accept_quiet c hcode hquiet (writes_none hoptions s.options) (writes_one hamqp s.amqpOptions)

end

inductive Accepted (ssl : Bool) (g : Given) : Prop where
  | broker (arg : Text) (code : g.code = 'b'.toNat) (given : g.arg = some arg)
  | dnsSrv (code : g.code = 'D'.toNat)
  | port (arg : Text) (code : g.code = 'p'.toNat) (given : g.arg = some arg)
  | verbose (code : g.code = 'v'.toNat) (given : g.arg = none)
  | username (arg : Text) (code : g.code = 'u'.toNat) (given : g.arg = some arg)
  | password (arg : Text) (code : g.code = 'P'.toNat) (given : g.arg = some arg)
  | service (arg : Text) (code : g.code = 's'.toNat) (given : g.arg = some arg)
  | reconnect (code : g.code = 'r'.toNat)
  | certName (arg : Text) (code : g.code = 'n'.toNat) (given : g.arg = some arg) (tls : ssl = true)
  | useTls (code : g.code = 't'.toNat) (given : g.arg = none) (tls : ssl = true)
  | daemon (code : g.code = 'd'.toNat) (succeeds : g.daemon = true)

theorem parseTurn_accept {ssl : Bool} {g : Given} (h : Accepted ssl g) (s : Parse) :
    parseTurn (agentTable ssl) g s = .ok (accept s g) := by
  obtain ⟨code, arg, daemon⟩ := g
  cases h with
  | broker arg hcode hgiven =>
    cases hcode
    cases hgiven
    rw [parseTurn_call ssl 1 rfl rfl (by decide) rfl rfl s,
      accept_options 'b' rfl (by decide) rfl rfl]
    rfl
  | dnsSrv hcode =>
    cases hcode
    rw [parseTurn_call ssl 2 rfl rfl (by decide) rfl rfl s,
      accept_options 'D' rfl (by decide) rfl rfl]
    rfl
  | port arg hcode hgiven =>
    cases hcode
    cases hgiven
    rw [parseTurn_call ssl 3 rfl rfl (by decide) rfl rfl s,
      accept_options 'p' rfl (by decide) rfl rfl]
    rfl
  | verbose hcode hgiven =>
    cases hcode
    cases hgiven
    rw [parseTurn_call ssl 4 rfl rfl (by decide) rfl rfl s]
    unfold accept
    rw [writes_none rfl, writes_none rfl]
    rfl
  | username arg hcode hgiven =>
    cases hcode
    cases hgiven
    rw [parseTurn_call ssl 5 rfl rfl (by decide) rfl rfl s,
      accept_amqp 'u' rfl (by decide) rfl rfl]
    rfl
  | password arg hcode hgiven =>
    cases hcode
    cases hgiven
    rw [parseTurn_call ssl 6 rfl rfl (by decide) rfl rfl s,
      accept_amqp 'P' rfl (by decide) rfl rfl]
    rfl
  | service arg hcode hgiven =>
    cases hcode
    cases hgiven
    rw [parseTurn_call ssl 7 rfl rfl (by decide) rfl rfl s,
      accept_quiet 's' rfl (by decide) (writes_none rfl s.options)
        (writes_two (by decide) rfl s.amqpOptions)]
    rfl
  | reconnect hcode =>
    cases hcode
    rw [parseTurn_call ssl 8 rfl rfl (by decide) rfl rfl s,
      accept_amqp 'r' rfl (by decide) rfl rfl]
    rfl
  | certName arg hcode hgiven htls =>
    cases hcode
    cases hgiven
    cases htls
    rw [parseTurn_call true 9 rfl rfl (by decide) rfl rfl s,
      accept_amqp 'n' rfl (by decide) rfl rfl]
    rfl
  | useTls hcode hgiven htls =>
    cases hcode
    cases hgiven
    cases htls
    rw [parseTurn_call true 10 rfl rfl (by decide) rfl rfl s,
      accept_options 't' rfl (by decide) rfl rfl]
    rfl
  | daemon hcode hsucceeds =>
    cases hcode
    cases hsucceeds
    rw [parseTurn_call ssl 0 rfl rfl (by decide) rfl rfl s]
    unfold accept
    rw [writes_none rfl, writes_none rfl]
    rfl

theorem stops_cases (ssl : Bool) (g : Given) :
    (g.code = 'h'.toNat ∧ stops ssl g = some 0) ∨
    (g.code ≠ 'h'.toNat ∧ (∀ option ∈ agentOptions ssl, option.code ≠ g.code) ∧
      stops ssl g = some 1) ∨
    (g.code = 'd'.toNat ∧ g.daemon = false ∧ stops ssl g = some 1) ∨
    (g.code ≠ 'h'.toNat ∧ (g.code = 'd'.toNat → g.daemon = true) ∧
      (∃ option ∈ agentOptions ssl, g.code = option.code) ∧ stops ssl g = none) := by
  unfold stops
  by_cases hhelp : g.code = 'h'.toNat
  · exact .inl ⟨hhelp, if_pos hhelp⟩
  · rw [if_neg hhelp]
    by_cases hknown : (agentOptions ssl).any (·.code == g.code)
    · rw [if_pos hknown]
      obtain ⟨option, hmem, hcode⟩ := List.any_eq_true.mp hknown
      by_cases hdaemon : g.code = 'd'.toNat ∧ g.daemon = false
      · rw [if_pos hdaemon]
        exact .inr (.inr (.inl ⟨hdaemon.1, hdaemon.2, rfl⟩))
      · rw [if_neg hdaemon]
        refine .inr (.inr (.inr ⟨hhelp, fun hd => ?_, ⟨option, hmem, (beq_iff_eq.mp hcode).symm⟩, rfl⟩))
        simpa [hd] using hdaemon
    · rw [if_neg hknown]
      refine .inr (.inl ⟨hhelp, fun option hmem hcode => hknown ?_, rfl⟩)
      exact List.any_eq_true.mpr ⟨option, hmem, beq_iff_eq.mpr hcode⟩

theorem accepted_of_stops {ssl : Bool} {g : Given} {option : MhOption Callback Userdata}
    (hform : HasItsArg ssl g) (hhelp : g.code ≠ 'h'.toNat)
    (hdaemon : g.code = 'd'.toNat → g.daemon = true) (hmem : option ∈ agentOptions ssl)
    (hcode : g.code = option.code) : Accepted ssl g := by
  have harg := hform option hmem hcode.symm
  have hsome (h : option.hasArg = requiredArgument) : ∃ arg, g.arg = some arg :=
    Option.isSome_iff_exists.mp (harg.mpr h)
  have hnone (h : option.hasArg ≠ requiredArgument) : g.arg = none :=
    Option.not_isSome_iff_eq_none.mp fun hs => h (harg.mp hs)
  unfold agentOptions localOptions at hmem
  dsimp only at hmem
  rw [List.mem_cons, List.mem_append, List.mem_append, List.mem_singleton] at hmem
  rcases hmem with rfl | (hmem | hmem) | rfl
  · exact .daemon hcode (hdaemon hcode)
  · simp only [List.mem_cons, List.not_mem_nil, or_false] at hmem
    rcases hmem with rfl | rfl | rfl | rfl | rfl | rfl | rfl | rfl
    · obtain ⟨arg, hgiven⟩ := hsome rfl
      exact .broker arg hcode hgiven
    · exact .dnsSrv hcode
    · obtain ⟨arg, hgiven⟩ := hsome rfl
      exact .port arg hcode hgiven
    · exact .verbose hcode (hnone (by decide))
    · obtain ⟨arg, hgiven⟩ := hsome rfl
      exact .username arg hcode hgiven
    · obtain ⟨arg, hgiven⟩ := hsome rfl
      exact .password arg hcode hgiven
    · obtain ⟨arg, hgiven⟩ := hsome rfl
      exact .service arg hcode hgiven
    · exact .reconnect hcode
  · cases ssl with
    | false => exact absurd hmem List.not_mem_nil
    | true =>
      rw [if_pos rfl, List.mem_cons, List.mem_singleton] at hmem
      rcases hmem with rfl | rfl
      · obtain ⟨arg, hgiven⟩ := hsome rfl
        exact .certName arg hcode hgiven rfl
      · exact .useTls hcode (hnone (by decide)) rfl
  · exact absurd hcode hhelp

theorem parseTurn_eq {ssl : Bool} {g : Given} (hform : HasItsArg ssl g) (s : Parse) :
    parseTurn (agentTable ssl) g s =
      ((stops ssl g).map fun n => .error (.exited n)).getD (.ok (accept s g)) := by
  rcases stops_cases ssl g with ⟨hcode, hstop⟩ | ⟨hhelp, hunknown, hstop⟩ |
    ⟨hcode, hfails, hstop⟩ | ⟨hhelp, hdaemon, ⟨option, hmem, hcode⟩, hstop⟩
  · rw [hstop]
    unfold parseTurn selectOption
    rw [if_pos hcode]
    rfl
  · rw [hstop]
    unfold parseTurn agentTable
    rw [selectOption_unknown hhelp hunknown]
    rfl
  · rw [hstop, parseTurn_call ssl 0 rfl hcode (by decide) rfl rfl s]
    unfold runCallback mhShouldDaemonize
    rw [hfails]
    rfl
  · rw [hstop, parseTurn_accept (accepted_of_stops hform hhelp hdaemon hmem hcode)]
    rfl

/-- Induction on what `getopt_long` is still to return. -/
theorem parseLoop_eq {ssl : Bool} {given : List Given} (hform : ∀ g ∈ given, HasItsArg ssl g)
    (s : Parse) :
    parseLoop (agentTable ssl) given s =
      ((given.findSome? (stops ssl)).map fun n => .error (.exited n)).getD
        (.ok (given.foldl accept s)) := by
  induction given generalizing s with
  | nil => rfl
  | cons g given ih =>
    have hrest := ih (fun g' hg' => hform g' (List.mem_cons_of_mem g hg')) (accept s g)
    rw [parseLoop, parseTurn_eq (hform g List.mem_cons_self), List.findSome?_cons, List.foldl_cons]
    cases stops ssl g with
    | some n => rfl
    | none => exact hrest

/-! ## What counts -/

def lastArg (given : List Given) (c : Char) : Option Text :=
  LastWrite.last (fun (g : Given) (c : Char) => if g.code = (c.toNat : ℤ) then g.arg else none)
    given c

def isGiven (given : List Given) (c : Char) : Bool := given.any (·.code == (c.toNat : ℤ))

def stopStatus (ssl : Bool) (env : Environment) (given : List Given) : Option ℕ :=
  if ssl && !(env.data "QPID_SSL_CERT_DB").all env.isDir then some 1
  else given.findSome? (stops ssl)

def brokerAsked (env : Environment) (given : List Given) : Option Text :=
  (lastArg given 'b').or (env.data "MATAHARI_BROKER")

/-- What `mh_connect` is to find. A broker that does not resolve is left out, unless its name
is a domain. -/
def connectAsked (env : Environment) (given : List Given) : MhOptions where
  protocol := if isGiven given 't' then "ssl".toList else "tcp".toList
  servername :=
    if isGiven given 'D' then brokerAsked env given
    else (brokerAsked env given).filter env.resolvable
  serverport :=
    ((lastArg given 'p').map fun arg => decimal (portNumber arg)).getD
      ((env.data "MATAHARI_PORT").getD "49000".toList)
  dnsSrv := isGiven given 'D'

def amqpAsked (given : List Given) : OptionsMap := fun key =>
  if key = "username".toList then (lastArg given 'u').map .string
  else if key = "password".toList then (lastArg given 'P').map .string
  else if key = "sasl-service".toList then (lastArg given 's').map .string
  else if key = "sasl-mechanism".toList then
    if isGiven given 's' then some (.string "GSSAPI".toList) else none
  else if key = "reconnect".toList then some (.bool (reconnects (lastArg given 'r')))
  else if key = "ssl-cert-name".toList then (lastArg given 'n').map .string
  else none

section
variable {keys : List WrittenKey} {k : WrittenKey} {given : List Given}

theorem writes_name (hnames : (keys.map (·.name)).Nodup) (hmem : k ∈ keys) (g : Given) :
    writes keys g k.name = if g.code = k.code.toNat then some (k.value g.arg) else none := by
  unfold writes
  induction keys with
  | nil => exact absurd hmem List.not_mem_nil
  | cons l keys ih =>
    rw [List.map_cons, List.nodup_cons] at hnames
    have hothers : l = k → (keys.filter fun k => g.code = k.code.toNat).findSome?
        (fun l => if k.name = l.name then some (l.value g.arg) else none) = none := by
      intro hl
      rw [List.findSome?_eq_none_iff]
      intro m hm
      rw [if_neg]
      intro hname
      apply hnames.1
      rw [hl, hname]
      exact List.mem_map_of_mem (List.mem_of_mem_filter hm)
    by_cases hl : l = k
    · rw [List.filter_cons]
      split
      · rename_i hcode
        rw [List.findSome?_cons, hl, if_pos rfl, if_pos (by simpa [hl] using hcode)]
      · rename_i hcode
        rw [hothers hl, if_neg (by simpa [hl] using hcode)]
    · have hrest : k ∈ keys := by
        simpa [Ne.symm hl] using hmem
      have hne : k.name ≠ l.name := by
        intro hname
        apply hnames.1
        rw [← hname]
        exact List.mem_map_of_mem hrest
      rw [← ih hnames.2 hrest, List.filter_cons]
      split
      · rw [List.findSome?_cons, if_neg hne]
      · rfl

theorem last_writes_other {key : Text} (h : ∀ k ∈ keys, key ≠ k.name) :
    LastWrite.last (writes keys) given key = none := by
  apply LastWrite.last_eq_none
  intro g _
  unfold writes
  rw [List.findSome?_eq_none_iff]
  intro k hk
  rw [if_neg (h k (List.mem_of_mem_filter hk))]

theorem last_writes_arg (hnames : (keys.map (·.name)).Nodup) (hmem : k ∈ keys)
    (hargs : ∀ g ∈ given, g.code = k.code.toNat → g.arg.isSome) :
    LastWrite.last (writes keys) given k.name =
      (lastArg given k.code).map fun arg => k.value (some arg) := by
  apply LastWrite.last_map
  intro g hg
  rw [writes_name hnames hmem]
  by_cases hcode : g.code = k.code.toNat
  · obtain ⟨arg, harg⟩ := Option.isSome_iff_exists.mp (hargs g hg hcode)
    rw [if_pos hcode, if_pos hcode, harg]
    rfl
  · rw [if_neg hcode, if_neg hcode]
    rfl

theorem last_writes_flag {value : OptionValue} (hnames : (keys.map (·.name)).Nodup)
    (hmem : k ∈ keys) (hvalue : ∀ arg, k.value arg = value) :
    LastWrite.last (writes keys) given k.name =
      if isGiven given k.code then some value else none := by
  induction given with
  | nil => rfl
  | cons g given ih =>
    rw [LastWrite.last_cons, ih, writes_name hnames hmem, hvalue]
    unfold isGiven
    rw [List.any_cons]
    by_cases hcode : g.code = k.code.toNat
    · rw [if_pos hcode, beq_iff_eq.mpr hcode, Bool.true_or, if_pos rfl]
      split <;> rfl
    · rw [if_neg hcode, beq_eq_false_iff_ne.mpr hcode, Bool.false_or, Option.or_none]

end

/-! ## The maps -/

namespace OptionsMap

variable {options : OptionsMap} {name key : Text} {value : OptionValue}

theorem set_self : options.set name value name = some value := if_pos rfl

theorem set_ne (h : key ≠ name) : options.set name value key = options key := if_neg h

theorem setData_self {name : String} {data : Option Text} :
    options.setData name data name.toList = (data.map .string).or (options name.toList) := by
  cases data with
  | none => rfl
  | some data => exact set_self

theorem setData_ne {name : String} {data : Option Text} (h : key ≠ name.toList) :
    options.setData name data key = options key := by
  cases data with
  | none => rfl
  | some data => exact set_ne h

end OptionsMap

section
variable {ssl : Bool} {env : Environment} {options : OptionsMap}

theorem readEnvironment_error (h : ssl && !(env.data "QPID_SSL_CERT_DB").all env.isDir) :
    readEnvironment ssl env options = .error (.exited 1) := by
  rw [Bool.and_eq_true, Bool.not_eq_true'] at h
  unfold readEnvironment
  dsimp only
  rw [if_pos h.1, h.2]
  rfl

def environmentNames : List Text :=
  ["krb5_keytab".toList, "krb5_interval".toList, "ssl-cert-db".toList, "ssl-cert-name".toList,
    "ssl-cert-password-file".toList]

theorem readEnvironment_ok (h : ¬ (ssl && !(env.data "QPID_SSL_CERT_DB").all env.isDir)) :
    ∃ after, readEnvironment ssl env options = .ok after ∧ ∀ key ∉ environmentNames,
      after key = ((options.setData "servername" (env.data "MATAHARI_BROKER")).setData
        "serverport" (env.data "MATAHARI_PORT")) key := by
  unfold readEnvironment
  dsimp only
  cases ssl with
  | false =>
    rw [if_neg Bool.false_ne_true]
    refine ⟨_, rfl, fun key hkey => ?_⟩
    simp only [environmentNames, List.mem_cons, not_or] at hkey
    rw [OptionsMap.set_ne hkey.2.1, OptionsMap.set_ne hkey.1]
  | true =>
    have hdir : (env.data "QPID_SSL_CERT_DB").all env.isDir = true := by
      simpa using h
    rw [if_pos rfl, if_pos hdir]
    refine ⟨_, rfl, fun key hkey => ?_⟩
    simp only [environmentNames, List.mem_cons, not_or] at hkey
    rw [OptionsMap.setData_ne hkey.2.2.2.2.1, OptionsMap.setData_ne hkey.2.2.2.1,
      OptionsMap.setData_ne hkey.2.2.1, OptionsMap.set_ne hkey.2.1, OptionsMap.set_ne hkey.1]

end

structure Defaults (env : Environment) (options : OptionsMap) : Prop where
  protocol : options "protocol".toList = some (.string "tcp".toList)
  dnsSrv : options "dns-srv".toList = none
  useTls : options "use-tls".toList = none
  servername : options "servername".toList = (env.data "MATAHARI_BROKER").map .string
  serverport :
    options "serverport".toList =
      some (.string ((env.data "MATAHARI_PORT").getD "49000".toList))

theorem readEnvironment_defaults {ssl : Bool} {env : Environment}
    (h : ¬ (ssl && !(env.data "QPID_SSL_CERT_DB").all env.isDir)) :
    ∃ options, readEnvironment ssl env
        ((OptionsMap.empty.set "protocol".toList (.string "tcp".toList)).set "serverport".toList
          (.string "49000".toList)) = .ok options ∧ Defaults env options := by
  obtain ⟨options, hread, hkeys⟩ := readEnvironment_ok h
  refine ⟨options, hread, ⟨?_, ?_, ?_, ?_, ?_⟩⟩
  · rw [hkeys _ (by decide), OptionsMap.setData_ne (by decide), OptionsMap.setData_ne (by decide)]
    rfl
  · rw [hkeys _ (by decide), OptionsMap.setData_ne (by decide), OptionsMap.setData_ne (by decide)]
    rfl
  · rw [hkeys _ (by decide), OptionsMap.setData_ne (by decide), OptionsMap.setData_ne (by decide)]
    rfl
  · rw [hkeys _ (by decide), OptionsMap.setData_ne (by decide), OptionsMap.setData_self]
    exact Option.or_none
  · rw [hkeys _ (by decide), OptionsMap.setData_self, OptionsMap.setData_ne (by decide)]
    cases env.data "MATAHARI_PORT" <;> rfl

theorem foldl_accept_options (given : List Given) (s : Parse) (key : Text) :
    (given.foldl accept s).options key =
      (LastWrite.last (writes optionsKeys) given key).or (s.options key) :=
  @LastWrite.foldl_eq _ _ _ _ accept Parse.options _ given (fun _ _ _ _ => rfl) s key

theorem foldl_accept_amqpOptions (given : List Given) (s : Parse) (key : Text) :
    (given.foldl accept s).amqpOptions key =
      (LastWrite.last (writes amqpKeys) given key).or (s.amqpOptions key) :=
  @LastWrite.foldl_eq _ _ _ _ accept Parse.amqpOptions _ given (fun _ _ _ _ => rfl) s key

theorem foldl_accept_logLevel (given : List Given) (s : Parse) :
    (given.foldl accept s).logLevel =
      s.logLevel + (given.countP fun g => g.code = ('v'.toNat : ℤ)) := by
  induction given generalizing s with
  | nil => simp
  | cons g given ih =>
    rw [List.foldl_cons, ih, List.countP_cons]
    unfold accept
    dsimp only
    by_cases hcode : g.code = ('v'.toNat : ℤ)
    · rw [if_pos hcode, if_pos (by simpa using hcode)]
      omega
    · rw [if_neg hcode, if_neg (by simpa using hcode), add_zero]

section
variable {ssl : Bool} {env : Environment} {given : List Given} {s : Parse}

theorem arg_isSome {c : Char} (hgetopt : ∀ g ∈ given, HasItsArg ssl g)
    (h : ∃ option ∈ agentOptions ssl, option.code = c.toNat ∧ option.hasArg = requiredArgument) :
    ∀ g ∈ given, g.code = c.toNat → g.arg.isSome := by
  obtain ⟨option, hmem, hcode, harg⟩ := h
  intro g hg hgcode
  exact (hgetopt g hg option hmem (by rw [hcode, hgcode])).mpr harg

theorem ssl_of_given {c : Char} (hstop : given.findSome? (stops ssl) = none)
    (hunknown : (agentOptions false).any (·.code == (c.toNat : ℤ)) = false) {g : Given}
    (hg : g ∈ given) (hcode : g.code = c.toNat) : ssl = true := by
  have hnone := List.findSome?_eq_none_iff.mp hstop g hg
  cases ssl with
  | true => rfl
  | false =>
    unfold stops at hnone
    rw [hcode, hunknown, if_neg Bool.false_ne_true] at hnone
    split at hnone <;> cases hnone

theorem optionsKeys_names : (optionsKeys.map (·.name)).Nodup := by decide

theorem amqpKeys_names : (amqpKeys.map (·.name)).Nodup := by decide

structure Looped (env : Environment) (given : List Given) (options : OptionsMap) : Prop where
  protocol : options "protocol".toList = some (.string "tcp".toList)
  dnsSrv : options.count "dns-srv".toList = isGiven given 'D'
  useTls : options.count "use-tls".toList = isGiven given 't'
  servername : options "servername".toList = (brokerAsked env given).map .string
  serverport :
    (options "serverport".toList).map (·.asString) = some (connectAsked env given).serverport

theorem foldl_accept_looped (hgetopt : ∀ g ∈ given, HasItsArg ssl g)
    (hs : Defaults env s.options) : Looped env given (given.foldl accept s).options := by
  have hb : LastWrite.last (writes optionsKeys) given "servername".toList =
      (lastArg given 'b').map .string :=
    last_writes_arg optionsKeys_names (List.mem_of_getElem? (i := 0) rfl)
      (arg_isSome hgetopt ⟨_, List.mem_of_getElem? (i := 1) rfl, rfl, rfl⟩)
  have hD : LastWrite.last (writes optionsKeys) given "dns-srv".toList =
      if isGiven given 'D' then some (.int32 1) else none :=
    last_writes_flag optionsKeys_names (List.mem_of_getElem? (i := 1) rfl) fun _ => rfl
  have hp : LastWrite.last (writes optionsKeys) given "serverport".toList =
      (lastArg given 'p').map fun arg => .uint16 (portNumber arg) :=
    last_writes_arg optionsKeys_names (List.mem_of_getElem? (i := 2) rfl)
      (arg_isSome hgetopt ⟨_, List.mem_of_getElem? (i := 3) rfl, rfl, rfl⟩)
  have ht : LastWrite.last (writes optionsKeys) given "use-tls".toList =
      if isGiven given 't' then some (.bool true) else none :=
    last_writes_flag optionsKeys_names (List.mem_of_getElem? (i := 3) rfl) fun _ => rfl
  refine ⟨?_, ?_, ?_, ?_, ?_⟩
  · rw [foldl_accept_options, hs.protocol, last_writes_other (by decide)]
    rfl
  · unfold OptionsMap.count
    rw [foldl_accept_options, hs.dnsSrv, hD]
    cases isGiven given 'D' <;> rfl
  · unfold OptionsMap.count
    rw [foldl_accept_options, hs.useTls, ht]
    cases isGiven given 't' <;> rfl
  · unfold brokerAsked
    rw [foldl_accept_options, hs.servername, hb]
    cases lastArg given 'b' <;> rfl
  · unfold connectAsked
    rw [foldl_accept_options, hs.serverport, hp]
    cases lastArg given 'p' <;> rfl

theorem verifyBrokerOption_servername (env : Environment) (options : OptionsMap) :
    verifyBrokerOption env options "servername".toList =
      (options "servername".toList).filter fun broker => env.resolvable broker.asString := by
  unfold verifyBrokerOption
  cases hbroker : options "servername".toList with
  | none => exact hbroker
  | some broker =>
    dsimp only
    cases hresolves : env.resolvable broker.asString with
    | true => rw [if_pos rfl, hbroker, Option.filter_some, hresolves, if_pos rfl]
    | false =>
      rw [if_neg Bool.false_ne_true, Option.filter_some, hresolves, if_neg Bool.false_ne_true]
      exact if_pos rfl

theorem verifyBrokerOption_ne (env : Environment) (options : OptionsMap) {key : Text}
    (hkey : key ≠ "servername".toList) : verifyBrokerOption env options key = options key := by
  unfold verifyBrokerOption
  cases options "servername".toList with
  | none => rfl
  | some broker =>
    dsimp only
    split
    · rfl
    · exact if_neg hkey

def verified (env : Environment) (options : OptionsMap) : OptionsMap :=
  if options.count "dns-srv".toList then options else verifyBrokerOption env options

theorem verified_ne (env : Environment) (options : OptionsMap) {key : Text}
    (hkey : key ≠ "servername".toList) : verified env options key = options key := by
  unfold verified
  split
  · rfl
  · exact verifyBrokerOption_ne env options hkey

theorem verified_servername {options : OptionsMap} (h : Looped env given options) :
    verified env options "servername".toList =
      (connectAsked env given).servername.map .string := by
  unfold verified connectAsked
  rw [h.dnsSrv]
  dsimp only
  split
  · exact h.servername
  · rw [verifyBrokerOption_servername, h.servername]
    cases brokerAsked env given with
    | none => rfl
    | some broker =>
      rw [Option.map_some, Option.filter_some, Option.filter_some]
      by_cases hresolves : env.resolvable broker = true
      · rw [if_pos hresolves, if_pos (by exact hresolves)]
        rfl
      · rw [if_neg hresolves, if_neg (by exact hresolves)]
        rfl

theorem finishOptions_connect {options : OptionsMap} (h : Looped env given options)
    (hssl : isGiven given 't' = true → ssl = true) :
    (finishOptions ssl env options).connect = connectAsked env given := by
  have htls : (ssl && (verified env options).count "use-tls".toList) = isGiven given 't' := by
    have hcount : (verified env options).count "use-tls".toList = isGiven given 't' := by
      rw [← h.useTls]
      unfold OptionsMap.count
      rw [verified_ne env options (by decide)]
    rw [hcount]
    cases hgiven : isGiven given 't' with
    | true => rw [hssl hgiven]; rfl
    | false => rw [Bool.and_false]
  have hne (key : Text) (hkey : key ≠ "protocol".toList) :
      finishOptions ssl env options key = verified env options key := by
    unfold finishOptions
    change (if (ssl && (verified env options).count "use-tls".toList) = true then
      (verified env options).set "protocol".toList (.string "ssl".toList)
      else verified env options) key = _
    split
    · exact OptionsMap.set_ne hkey
    · rfl
  have hprotocol : finishOptions ssl env options "protocol".toList =
      some (.string (connectAsked env given).protocol) := by
    unfold finishOptions
    change (if (ssl && (verified env options).count "use-tls".toList) = true then
      (verified env options).set "protocol".toList (.string "ssl".toList)
      else verified env options) "protocol".toList = _
    rw [htls]
    unfold connectAsked
    dsimp only
    split
    · exact OptionsMap.set_self
    · rw [verified_ne env options (by decide), h.protocol]
  have hserver := (hne "servername".toList (by decide)).trans (verified_servername h)
  have hport := (hne "serverport".toList (by decide)).trans
    (verified_ne env options (by decide))
  have hsrv := (hne "dns-srv".toList (by decide)).trans (verified_ne env options (by decide))
  have hname : ((connectAsked env given).servername.map OptionValue.string).map (·.asString) =
      (connectAsked env given).servername := by
    cases (connectAsked env given).servername <;> rfl
  have hdns : (options "dns-srv".toList).isSome = isGiven given 'D' := h.dnsSrv
  unfold OptionsMap.connect OptionsMap.count
  rw [hprotocol, hserver, hport, hsrv, h.serverport, hname, hdns]
  rfl

theorem foldl_accept_amqp (hgetopt : ∀ g ∈ given, HasItsArg ssl g)
    (hstop : given.findSome? (stops ssl) = none)
    (hs : s.amqpOptions = OptionsMap.empty.set "reconnect".toList (.bool true)) :
    (given.foldl accept s).amqpOptions = amqpAsked given := by
  have hu : LastWrite.last (writes amqpKeys) given "username".toList =
      (lastArg given 'u').map .string :=
    last_writes_arg amqpKeys_names (List.mem_of_getElem? (i := 0) rfl)
      (arg_isSome hgetopt ⟨_, List.mem_of_getElem? (i := 5) rfl, rfl, rfl⟩)
  have hP : LastWrite.last (writes amqpKeys) given "password".toList =
      (lastArg given 'P').map .string :=
    last_writes_arg amqpKeys_names (List.mem_of_getElem? (i := 1) rfl)
      (arg_isSome hgetopt ⟨_, List.mem_of_getElem? (i := 6) rfl, rfl, rfl⟩)
  have hservice : LastWrite.last (writes amqpKeys) given "sasl-service".toList =
      (lastArg given 's').map .string :=
    last_writes_arg amqpKeys_names (List.mem_of_getElem? (i := 2) rfl)
      (arg_isSome hgetopt ⟨_, List.mem_of_getElem? (i := 7) rfl, rfl, rfl⟩)
  have hmechanism : LastWrite.last (writes amqpKeys) given "sasl-mechanism".toList =
      if isGiven given 's' then some (.string "GSSAPI".toList) else none :=
    last_writes_flag amqpKeys_names (List.mem_of_getElem? (i := 3) rfl) fun _ => rfl
  have hr : LastWrite.last (writes amqpKeys) given "reconnect".toList =
      (lastArg given 'r').map fun arg => .bool (reconnects (some arg)) :=
    last_writes_arg amqpKeys_names (List.mem_of_getElem? (i := 4) rfl)
      (arg_isSome hgetopt ⟨_, List.mem_of_getElem? (i := 8) rfl, rfl, rfl⟩)
  have hn : LastWrite.last (writes amqpKeys) given "ssl-cert-name".toList =
      (lastArg given 'n').map .string := by
    apply last_writes_arg amqpKeys_names (List.mem_of_getElem? (i := 5) rfl)
    intro g hg hcode
    cases ssl_of_given hstop (by decide) hg hcode
    exact arg_isSome hgetopt ⟨_, List.mem_of_getElem? (i := 9) rfl, rfl, rfl⟩ g hg hcode
  have hother (key : Text) (hkey : key ≠ "reconnect".toList) :
      (given.foldl accept s).amqpOptions key = LastWrite.last (writes amqpKeys) given key := by
    rw [foldl_accept_amqpOptions, hs, OptionsMap.set_ne hkey]
    exact Option.or_none
  funext key
  unfold amqpAsked
  by_cases hkey : key = "username".toList
  · rw [if_pos hkey, hkey, hother _ (by decide), hu]
  rw [if_neg hkey]
  by_cases hkey : key = "password".toList
  · rw [if_pos hkey, hkey, hother _ (by decide), hP]
  rw [if_neg hkey]
  by_cases hkey : key = "sasl-service".toList
  · rw [if_pos hkey, hkey, hother _ (by decide), hservice]
  rw [if_neg hkey]
  by_cases hkey : key = "sasl-mechanism".toList
  · rw [if_pos hkey, hkey, hother _ (by decide), hmechanism]
  rw [if_neg hkey]
  by_cases hkey : key = "reconnect".toList
  · rw [if_pos hkey, hkey, foldl_accept_amqpOptions, hs, hr, OptionsMap.set_self]
    cases lastArg given 'r' <;> rfl
  rw [if_neg hkey, hother key hkey]
  by_cases hkey : key = "ssl-cert-name".toList
  · rw [if_pos hkey, hkey, hn]
  rw [if_neg hkey]
  apply last_writes_other
  intro k hk
  simp only [amqpKeys, List.mem_cons, List.not_mem_nil, or_false] at hk
  rcases hk with rfl | rfl | rfl | rfl | rfl | rfl <;> assumption

end

/-- `init` in two steps: the environment, and then the command line. -/
theorem initOptions_eq (ssl : Bool) (env : Environment) (given : List Given) (logLevel : ℤ)
    (tty : Bool) :
    initOptions ssl env given logLevel tty =
      (readEnvironment ssl env
          ((OptionsMap.empty.set "protocol".toList (.string "tcp".toList)).set "serverport".toList
            (.string "49000".toList))).bind fun options =>
        (parseLoop (agentTable ssl) given
            ⟨options, OptionsMap.empty.set "reconnect".toList (.bool true), logLevel, tty⟩).map
          fun s => { s with options := finishOptions ssl env s.options } := rfl

/-- The program ends before it connects where an option or the environment says so. Otherwise
`mh_connect` finds what was asked last. -/
theorem options_settled (ssl : Bool) (env : Environment) (given : List Given) (logLevel : ℤ)
    (tty : Bool) (hgetopt : ∀ g ∈ given, HasItsArg ssl g) :
    (∀ ending, initOptions ssl env given logLevel tty = .error ending ↔
      ∃ status, ending = .exited status ∧ stopStatus ssl env given = some status) ∧
    ∀ s, initOptions ssl env given logLevel tty = .ok s →
      s.options.connect = connectAsked env given ∧ s.amqpOptions = amqpAsked given ∧
      s.logLevel = logLevel + given.countP fun g => g.code = ('v'.toNat : ℤ) := by
  rw [initOptions_eq]
  unfold stopStatus
  by_cases hdir : ssl && !(env.data "QPID_SSL_CERT_DB").all env.isDir
  · rw [readEnvironment_error hdir, if_pos hdir]
    constructor
    · intro ending
      constructor
      · intro h
        cases h
        exact ⟨1, rfl, rfl⟩
      · intro h
        obtain ⟨status, rfl, hstatus⟩ := h
        cases hstatus
        rfl
    · intro s h
      cases h
  · obtain ⟨options, hread, hdefaults⟩ := readEnvironment_defaults hdir
    rw [hread, if_neg hdir]
    dsimp only [Except.bind]
    rw [parseLoop_eq hgetopt]
    cases hstop : given.findSome? (stops ssl) with
    | some n =>
      constructor
      · intro ending
        constructor
        · intro h
          cases h
          exact ⟨n, rfl, rfl⟩
        · intro h
          obtain ⟨status, rfl, hstatus⟩ := h
          cases hstatus
          rfl
      · intro s h
        cases h
    | none =>
      constructor
      · intro ending
        constructor
        · intro h
          cases h
        · intro h
          obtain ⟨status, _, hstatus⟩ := h
          cases hstatus
      · intro s h
        cases h
        refine ⟨finishOptions_connect (foldl_accept_looped hgetopt hdefaults) ?_,
          foldl_accept_amqp hgetopt hstop rfl, foldl_accept_logLevel given _⟩
        intro ht
        obtain ⟨g, hg, hcode⟩ := List.any_eq_true.mp ht
        exact ssl_of_given hstop (by decide) hg (beq_iff_eq.mp hcode)

def namedEnvironment : Environment where
  getenv name :=
    if name = "MATAHARI_BROKER".toList then some "environment".toList else none
  isDir _ := true
  resolvable _ := true

def twoBrokers : List Given :=
  [⟨'b'.toNat, some "first".toList, true⟩, ⟨'p'.toNat, some "70000".toList, true⟩,
    ⟨'b'.toNat, some "second".toList, true⟩]

theorem options_settled_two_brokers :
    ∃ s, initOptions true namedEnvironment twoBrokers 5 false = .ok s ∧
      s.options.connect =
        ⟨"tcp".toList, some "second".toList, "4464".toList, false⟩ := by
  have hgetopt : ∀ g ∈ twoBrokers, HasItsArg true g := by
    unfold HasItsArg
    decide
  have hsettled := options_settled true namedEnvironment twoBrokers 5 false hgetopt
  have hrun : stopStatus true namedEnvironment twoBrokers = none := by decide
  cases hparsed : initOptions true namedEnvironment twoBrokers 5 false with
  | error ending =>
    obtain ⟨status, _, hstatus⟩ := (hsettled.1 ending).mp hparsed
    rw [hrun] at hstatus
    cases hstatus
  | ok s =>
    refine ⟨s, rfl, (hsettled.2 s hparsed).1.trans ?_⟩
    unfold connectAsked
    rw [MhOptions.mk.injEq]
    exact ⟨by decide, by decide, by decide, by decide⟩

end Matahari.Agent
