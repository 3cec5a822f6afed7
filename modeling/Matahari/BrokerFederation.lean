import Matahari.Library.Strtok
import Matahari.Utilities

set_option autoImplicit false

/-!
# Federating brokers

`broker_federation_configure` of `broker_federation.c`. Its loop hands `strtok` the
buffer again whenever the last look-up failed, and that buffer has been cut up. A call of
`broker_federate` is recorded with the offset of the token that it is made for; the routes
it adds are left out.
-/
namespace Matahari.BrokerFederation
open Mainloop Utilities Strtok

/-- The environment variables, the port of the local broker, and the outcome of each call of
`mh_dnssrv_lookup_single` in the order of the calls. -/
structure Env where
  proxyServiceDir : Bool
  proxyServicePort : Text
  brokers : Option Text
  port : UInt16
  lookup : ℕ → Text → Option (Text × UInt16)

structure Federate where
  token : Option ℕ
  localAddr : Text
  remote : Text
  routeType : Bool
  deriving DecidableEq, Repr

def dnsSrvPrefixTcp : Text := "_matahari._tcp.".toList

def dnsSrvPrefixTls : Text := "_matahari._tls.".toList

def isDnsSrv (addr : Text) : Bool :=
  dnsSrvPrefixTcp.isPrefixOf addr || dnsSrvPrefixTls.isPrefixOf addr

def isSeparator (c : Char) : Bool := c == ',' || c == ';' || c == ' '

def hostPort (host : Text) (port : UInt16) : Text := host ++ ':' :: Nat.toDigits 10 port.toNat

def brokerLookup (env : Env) (n : ℕ) (query : Text) : Option Text :=
  (env.lookup n query).map fun (host, port) => snprintf 1031 (hostPort (copyToArray 1024 host) port)

def localAddress (env : Env) : Text := snprintf 16 (hostPort "localhost".toList env.port)

/-- `peer` says whether the variable is not `NULL` when the condition of the loop is read. -/
structure FederationLoop where
  peers : List Char
  save : ℕ
  peer : Bool
  lookups : ℕ
  calls : List Federate

def federationTurn (env : Env) (s : FederationLoop) : Option FederationLoop :=
  let (peers, save, token) := strtok isSeparator nul s.peers (if s.peer then s.save else 0)
  match token with
  | none => none
  | some o =>
    let text := stringAt nul peers o
    let call remote : Federate := ⟨some o, localAddress env, remote, false⟩
    if isDnsSrv text then
      match brokerLookup env s.lookups text with
      | some remote => some ⟨peers, save, true, s.lookups + 1, s.calls ++ [call remote]⟩
      | none => some ⟨peers, save, false, s.lookups + 1, s.calls⟩
    else some ⟨peers, save, true, s.lookups, s.calls ++ [call text]⟩

def federationLoop (env : Env) : ℕ → FederationLoop → Option (List Federate)
  | 0, _ => none
  | fuel + 1, s => match federationTurn env s with
    | none => some s.calls
    | some s => federationLoop env fuel s

def federationStart (brokers : Text) : FederationLoop :=
  ⟨mhStringCopy (List.replicate 1024 nul) brokers 1024, 0, false, 0, []⟩

def brokerFederationConfigure (env : Env) (fuel : ℕ) : Option (List Federate) :=
  if env.proxyServiceDir then
    some [⟨none, localAddress env, snprintf 16 ("localhost:".toList ++ env.proxyServicePort), true⟩]
  else match env.brokers with
    | some brokers => federationLoop env fuel (federationStart brokers)
    | none => some []

/-! ## What is asked for -/

def resolve (env : Env) (n : ℕ) (text : Text) : Option Text × ℕ :=
  if isDnsSrv text then (brokerLookup env n text, n + 1) else (some text, n)

def callFor (env : Env) (n o : ℕ) (text : Text) : List Federate :=
  ((resolve env n text).1.map fun remote => ⟨some o, localAddress env, remote, false⟩).toList

/-- One call for each token, in order, and none where the look-up fails. -/
def expected (env : Env) : ℕ → List (ℕ × Text) → List Federate
  | _, [] => []
  | n, (o, text) :: rest =>
    callFor env n o text ++ expected env (resolve env n text).2 rest

def Resolves (env : Env) : ℕ → List (ℕ × Text) → Prop
  | _, [] => True
  | n, (_, text) :: rest =>
    (resolve env n text).1.isSome = true ∧ Resolves env (resolve env n text).2 rest

instance decidableResolves (env : Env) : ∀ n ts, Decidable (Resolves env n ts)
  | _, [] => inferInstanceAs (Decidable True)
  | n, (_, text) :: rest =>
    have := decidableResolves env (resolve env n text).2 rest
    inferInstanceAs (Decidable (_ ∧ _))

def afterToken (env : Env) (s : FederationLoop) (peers : List Char) (save o : ℕ) (text : Text) :
    FederationLoop :=
  ⟨peers, save, (resolve env s.lookups text).1.isSome, (resolve env s.lookups text).2,
    s.calls ++ callFor env s.lookups o text⟩

section
variable {env : Env} {s : FederationLoop}

theorem federationTurn_token (env : Env) {peers : List Char} {save o : ℕ} {text : Text}
    (h : strtok isSeparator nul s.peers (if s.peer then s.save else 0) = (peers, save, some o))
    (htext : stringAt nul peers o = text) :
    federationTurn env s = some (afterToken env s peers save o text) := by
  unfold federationTurn afterToken callFor resolve
  rw [h]
  simp only [htext]
  split
  · cases brokerLookup env s.lookups text <;> simp
  · simp

theorem federationTurn_end {peers : List Char} {save : ℕ}
    (h : strtok isSeparator nul s.peers (if s.peer then s.save else 0) = (peers, save, none)) :
    federationTurn env s = none := by
  unfold federationTurn
  rw [h]

theorem federationLoop_some {s' : FederationLoop} (h : federationTurn env s = some s') (fuel : ℕ) :
    federationLoop env (fuel + 1) s = federationLoop env fuel s' := by
  rw [federationLoop, h]

theorem federationLoop_none (h : federationTurn env s = none) (fuel : ℕ) :
    federationLoop env (fuel + 1) s = some s.calls := by
  rw [federationLoop, h]

/-- The buffer starts with separators and a token that a terminator ends. -/
def Cut (buffer : List Char) (o : ℕ) (text : Text) : Prop :=
  ∃ skip post, buffer = skip ++ text ++ nul :: post ∧ skip.length = o ∧
    (∀ c ∈ skip, isSeparator c = true) ∧ text ≠ [] ∧ (∀ c ∈ text, isSeparator c = false) ∧
    nul ∉ skip ++ text

theorem Cut.append {buffer : List Char} {o : ℕ} {text : Text} (h : Cut buffer o text)
    (more : List Char) : Cut (buffer ++ more) o text := by
  obtain ⟨skip, post, rfl, hrest⟩ := h
  exact ⟨skip, post ++ more, by simp, hrest⟩

theorem federationTurn_cases (env : Env) {pre r post : List Char}
    (hpeers : s.peers = pre ++ (r ++ nul :: post))
    (hstart : (if s.peer then s.save else 0) = pre.length) (hnul : nul ∉ r) :
    tokens isSeparator pre.length r = [] ∧ federationTurn env s = none ∨
    ∃ o text ts pre' r', tokens isSeparator pre.length r = (o, text) :: ts ∧
      federationTurn env s =
        some (afterToken env s (pre' ++ (r' ++ nul :: post)) pre'.length o text) ∧
      nul ∉ r' ∧ tokens isSeparator pre'.length r' = ts ∧ pre <+: pre' ∧ o < pre'.length ∧
      (pre = [] → Cut (pre' ++ (r' ++ nul :: post)) o text ∧ (ts ≠ [] → Cut pre' o text)) := by
  rcases tokens_cases isSeparator r with hsep | ⟨skip, word, hskip, hne, hword, rfl | ⟨d, more, hd, rfl⟩⟩
  · left
    have hnone := strtok_none pre post hsep hnul
    rw [← hpeers, ← hstart] at hnone
    refine ⟨?_, federationTurn_end hnone⟩
    simpa [tokens, tokensFrom] using tokens_skip (o := pre.length) hsep []
  · right
    have hlast := strtok_last pre post hskip hne hword hnul
    have htext := stringAt_append (pre ++ skip) post (s := word) (z := nul)
      (fun h => hnul (List.mem_append_right _ h))
    have hbuffer : pre ++ (skip ++ word ++ nul :: post) = pre ++ skip ++ (word ++ nul :: post) := by
      simp
    rw [List.length_append, ← hbuffer] at htext
    have hturn := federationTurn_token env (by rw [hpeers, hstart]; exact hlast) htext
    refine ⟨pre.length + skip.length, word, [], pre ++ skip ++ word, [], ?_, ?_, by simp, rfl, ?_, ?_, ?_⟩
    · have htokens := tokens_word (o := pre.length + skip.length) hne hword []
      rw [List.append_nil] at htokens
      rw [tokens_skip hskip, htokens]
      rfl
    · rw [hturn]
      simp [Nat.add_assoc]
    · exact ⟨skip ++ word, by simp⟩
    · have := List.length_pos_iff.mpr hne
      simp
      omega
    · rintro rfl
      refine ⟨⟨skip, post, by simp, by simp, hskip, hne, hword, hnul⟩, fun h => absurd rfl h⟩
  · right
    have hcut := strtok_cut pre post hskip hne hword hd hnul
    have hword' : nul ∉ skip ++ word := fun h => hnul (List.mem_append_left _ h)
    have htext := stringAt_append (pre ++ skip) (more ++ nul :: post) (s := word)
      (z := nul) (fun h => hword' (List.mem_append_right _ h))
    have hbuffer : pre ++ (skip ++ word ++ nul :: (more ++ nul :: post)) =
        pre ++ skip ++ (word ++ nul :: (more ++ nul :: post)) := by simp
    rw [List.length_append, ← hbuffer] at htext
    have hturn := federationTurn_token env (by rw [hpeers, hstart]; exact hcut) htext
    refine ⟨pre.length + skip.length, word, tokens isSeparator
      (pre.length + skip.length + word.length + 1) more, pre ++ skip ++ word ++ [nul], more,
      ?_, ?_, ?_, ?_, ?_, ?_, ?_⟩
    · rw [List.append_assoc, tokens_skip hskip, tokens_word hne hword, tokensFrom, hd]
      rfl
    · rw [hturn]
      simp [Nat.add_assoc]
    · exact fun h => hnul (List.mem_append_right _ (List.mem_cons_of_mem d h))
    · simp [Nat.add_assoc]
    · exact ⟨skip ++ word ++ [nul], by simp⟩
    · simp
    · rintro rfl
      exact ⟨⟨skip, more ++ nul :: post, by simp, by simp, hskip, hne, hword, hword'⟩,
        fun _ => ⟨skip, [], by simp, by simp, hskip, hne, hword, hword'⟩⟩

/-- On a buffer that has been cut up, `strtok` finds the first token once more and nothing
after it. -/
theorem federationTurn_restart (env : Env) {o : ℕ} {text : Text} (hcut : Cut s.peers o text)
    (hpeer : s.peer = false) :
    ∃ save, federationTurn env s = some (afterToken env s s.peers save o text) ∧
      strtok isSeparator nul s.peers save = (s.peers, save, none) := by
  obtain ⟨skip, post, hpeers, rfl, hskip, hne, hword, hnul⟩ := hcut
  have hlast := strtok_last [] post hskip hne hword hnul
  have htext := stringAt_append skip post (s := text) (z := nul)
    (fun hmem => hnul (List.mem_append_right _ hmem))
  have hnone := @strtok_none _ isSeparator _ nul (skip ++ text) post [] (by simp) (by simp)
  simp only [List.nil_append, List.length_nil, Nat.zero_add, ← hpeers] at hlast
  simp only [List.nil_append, List.length_nil, Nat.add_zero, ← hpeers, List.length_append] at hnone
  rw [← List.append_assoc, ← hpeers] at htext
  exact ⟨_, federationTurn_token env (by rw [hpeer]; exact hlast) htext, hnone⟩

theorem federationLoop_restart {fuel o : ℕ} {text : Text} {out : List Federate}
    (hcut : Cut s.peers o text) (hpeer : s.peer = false)
    (h : federationLoop env fuel s = some out) :
    ∃ call, out = s.calls ++ [call] ∧ call.token = some o := by
  induction fuel generalizing s with
  | zero => cases h
  | succ fuel ih =>
    obtain ⟨save, hturn, hnone⟩ := federationTurn_restart env hcut hpeer
    rw [federationLoop_some hturn] at h
    cases hres : (resolve env s.lookups text).1 with
    | none =>
      obtain ⟨call, hout, htoken⟩ := ih (s := afterToken env s s.peers save o text) hcut
        (by simp [afterToken, hres]) h
      exact ⟨call, by simpa [afterToken, callFor, hres] using hout, htoken⟩
    | some remote =>
      cases fuel with
      | zero => cases h
      | succ fuel =>
        have hend : federationTurn env (afterToken env s s.peers save o text) = none :=
          federationTurn_end (by simpa [afterToken, hres] using hnone)
        rw [federationLoop_none hend] at h
        refine ⟨⟨some o, localAddress env, remote, false⟩, ?_, rfl⟩
        simpa [afterToken, callFor, hres] using h.symm

/-- If the first token is never found, the loop looks it up for ever. -/
theorem federationLoop_diverges {o : ℕ} {text : Text} (hcut : Cut s.peers o text)
    (hpeer : s.peer = false) (hlookup : ∀ n, (resolve env n text).1 = none) (fuel : ℕ) :
    federationLoop env fuel s = none := by
  induction fuel generalizing s with
  | zero => rfl
  | succ fuel ih =>
    obtain ⟨save, hturn, _⟩ := federationTurn_restart env hcut hpeer
    rw [federationLoop_some hturn]
    exact ih hcut (by simp [afterToken, hlookup])

theorem federationLoop_resolves {pre r post : List Char}
    (hpeers : s.peers = pre ++ (r ++ nul :: post))
    (hstart : (if s.peer then s.save else 0) = pre.length) (hnul : nul ∉ r)
    (h : Resolves env s.lookups (tokens isSeparator pre.length r)) :
    ∃ fuel, federationLoop env fuel s =
      some (s.calls ++ expected env s.lookups (tokens isSeparator pre.length r)) := by
  generalize hts : tokens isSeparator pre.length r = ts at h
  induction ts generalizing s pre r with
  | nil =>
    rcases federationTurn_cases env hpeers hstart hnul with ⟨_, hturn⟩ | ⟨o, text, ts, _, _, heq, _⟩
    · exact ⟨1, by rw [federationLoop_none hturn]; simp [expected]⟩
    · rw [hts] at heq
      cases heq
  | cons tok ts ih =>
    rcases federationTurn_cases env hpeers hstart hnul with
      ⟨heq, _⟩ | ⟨o, text, ts', pre', r', heq, hturn, hnul', htokens, -, -, -⟩
    · rw [hts] at heq
      cases heq
    · rw [hts] at heq
      cases heq
      obtain ⟨hsome, hrest⟩ := h
      obtain ⟨fuel, hrun⟩ := ih (s := afterToken env s (pre' ++ (r' ++ nul :: post)) pre'.length o text)
        rfl (by simp [afterToken, hsome]) hnul' htokens hrest
      refine ⟨fuel + 1, ?_⟩
      rw [federationLoop_some hturn, hrun]
      simp [afterToken, expected]

theorem federationLoop_fails {pre r post : List Char} {fuel o : ℕ} {text : Text}
    {out : List Federate} (hcut : Cut pre o text) (hpeers : s.peers = pre ++ (r ++ nul :: post))
    (hstart : (if s.peer then s.save else 0) = pre.length) (hnul : nul ∉ r)
    (hfail : ¬ Resolves env s.lookups (tokens isSeparator pre.length r))
    (h : federationLoop env fuel s = some out) :
    ∃ more call, out = s.calls ++ more ++ [call] ∧ call.token = some o := by
  induction fuel generalizing s pre r with
  | zero => cases h
  | succ fuel ih =>
    rcases federationTurn_cases env hpeers hstart hnul with
      ⟨heq, _⟩ | ⟨o', text', ts, pre', r', heq, hturn, hnul', htokens, ⟨ext, rfl⟩, -, -⟩
    · rw [heq] at hfail
      exact absurd trivial hfail
    · rw [federationLoop_some hturn] at h
      have hcut' := hcut.append ext
      cases hres : (resolve env s.lookups text').1 with
      | none =>
        obtain ⟨call, hout, htoken⟩ := federationLoop_restart (hcut'.append _)
          (by simp [afterToken, hres]) h
        exact ⟨[], call, by simpa [afterToken, callFor, hres] using hout, htoken⟩
      | some remote =>
        have hrest : ¬ Resolves env (resolve env s.lookups text').2
            (tokens isSeparator (pre ++ ext).length r') := by
          rw [heq] at hfail
          rw [htokens]
          simpa [Resolves, hres] using hfail
        obtain ⟨more, call, hout, htoken⟩ := ih (s := afterToken env s _ _ o' text') hcut' rfl
          (by simp [afterToken, hres]) hnul' hrest h
        exact ⟨callFor env s.lookups o' text' ++ more, call, by simpa [afterToken] using hout, htoken⟩

theorem mem_expected {n : ℕ} {ts : List (ℕ × Text)} {call : Federate}
    (h : call ∈ expected env n ts) : ∃ t ∈ ts, call.token = some t.1 := by
  induction ts generalizing n with
  | nil => cases h
  | cons t ts ih =>
    obtain ⟨o, text⟩ := t
    rcases List.mem_append.mp h with hhead | htail
    · refine ⟨(o, text), by simp, ?_⟩
      simp only [callFor, Option.mem_toList, Option.map_eq_some_iff] at hhead
      obtain ⟨remote, _, rfl⟩ := hhead
      rfl
    · obtain ⟨t, ht, htoken⟩ := ih htail
      exact ⟨t, List.mem_cons_of_mem _ ht, htoken⟩

@[simp] theorem federationStart_lookups (brokers : Text) :
    (federationStart brokers).lookups = 0 := rfl

@[simp] theorem federationStart_calls (brokers : Text) : (federationStart brokers).calls = [] := rfl

theorem federationStart_peers (brokers : CString) (h : brokers.1.length < 1024) :
    ∃ post, (federationStart brokers.1).peers = [] ++ (brokers.1 ++ nul :: post) := by
  have hcopy : (federationStart brokers.1).peers = _ :=
    mhStringCopy_eq (n := 1024) (by omega) (by rw [List.length_replicate])
  rw [List.take_of_length_le (by omega)] at hcopy
  exact ⟨_, hcopy⟩

/-- If a look-up fails, the loop never ends or makes another call for the first token. -/
theorem federationLoop_ne_expected (brokers : CString) (hlen : brokers.1.length < 1024)
    (hfail : ¬ Resolves env 0 (tokens isSeparator 0 brokers.1)) (fuel : ℕ) :
    federationLoop env fuel (federationStart brokers.1) ≠
      some (expected env 0 (tokens isSeparator 0 brokers.1)) := by
  intro h
  obtain ⟨post, hpeers⟩ := federationStart_peers brokers hlen
  cases fuel with
  | zero => cases h
  | succ fuel =>
    rcases federationTurn_cases env hpeers rfl brokers.2 with
      ⟨heq, _⟩ | ⟨o, text, ts, pre, r, heq, hturn, hnul, htokens, -, hlt, hcut⟩
    · rw [List.length_nil] at heq
      rw [heq] at hfail
      exact absurd trivial hfail
    · rw [List.length_nil] at heq
      obtain ⟨hcut, hcut'⟩ := hcut rfl
      have hlater : ∀ n, ∀ call ∈ expected env n ts, call.token ≠ some o := by
        intro n call hcall htoken
        obtain ⟨⟨b, t⟩, hmem, hb⟩ := mem_expected hcall
        have hle := tokens_offset (htokens ▸ hmem)
        rw [hb] at htoken
        cases htoken
        omega
      rw [heq] at hfail h
      rw [federationLoop_some hturn, expected] at h
      cases hres : (resolve env 0 text).1 with
      | none =>
        obtain ⟨call, hout, htoken⟩ := federationLoop_restart hcut (by simp [afterToken, hres]) h
        simp only [afterToken, callFor, federationStart_lookups, federationStart_calls, hres,
          Option.map_none, Option.toList_none, List.nil_append] at hout
        exact hlater (resolve env 0 text).2 call (by simp [hout]) htoken
      | some remote =>
        have hrest : ¬ Resolves env (resolve env 0 text).2 ts := by
          simpa [Resolves, hres] using hfail
        have hne : ts ≠ [] := by
          rintro rfl
          exact hrest trivial
        obtain ⟨more, call, hout, htoken⟩ := federationLoop_fails (hcut' hne) rfl
          (by simp [afterToken, hres]) hnul (by rw [htokens]; exact hrest) h
        simp only [afterToken, federationStart_lookups, federationStart_calls, List.nil_append,
          List.append_assoc, List.append_cancel_left_eq] at hout
        exact hlater (resolve env 0 text).2 call (by simp [hout]) htoken

theorem federation_diverges (brokers : CString) (hlen : brokers.1.length < 1024) {o : ℕ}
    {text : Text} {ts : List (ℕ × Text)} (hts : tokens isSeparator 0 brokers.1 = (o, text) :: ts)
    (hlookup : ∀ n, (resolve env n text).1 = none) (fuel : ℕ) :
    federationLoop env fuel (federationStart brokers.1) = none := by
  obtain ⟨post, hpeers⟩ := federationStart_peers brokers hlen
  cases fuel with
  | zero => rfl
  | succ fuel =>
    rcases federationTurn_cases env hpeers rfl brokers.2 with
      ⟨heq, _⟩ | ⟨o', text', ts', pre, r, heq, hturn, -, -, -, -, hcut⟩
    · rw [List.length_nil, hts] at heq
      cases heq
    · rw [List.length_nil, hts] at heq
      cases heq
      rw [federationLoop_some hturn]
      exact federationLoop_diverges (hcut rfl).1 (by simp [afterToken, hlookup]) hlookup fuel

/-- The tokens are the pieces between separators that are not empty. Every one of them is federated
once, in order, and the loop ends: exactly if the environment does not name a proxy and every
look-up succeeds. -/
theorem federation_iff (env : Env) (brokers : CString) (hbrokers : env.brokers = some brokers.1)
    (hlen : brokers.1.length < 1024) :
    (tokens isSeparator 0 brokers.1).map Prod.snd =
      (brokers.1.splitOnP isSeparator).filter (· ≠ []) ∧
    ((∃ fuel, brokerFederationConfigure env fuel =
      some (expected env 0 (tokens isSeparator 0 brokers.1))) ↔
    env.proxyServiceDir = false ∧ Resolves env 0 (tokens isSeparator 0 brokers.1)) := by
  refine ⟨tokens_text 0 brokers.1, ?_⟩
  cases hdir : env.proxyServiceDir with
  | true =>
    simp only [brokerFederationConfigure, hdir, if_true, reduceCtorEq, false_and, iff_false,
      not_exists, Option.some.injEq]
    intro _ heq
    obtain ⟨t, _, htoken⟩ := mem_expected (heq ▸ List.mem_singleton_self _)
    cases htoken
  | false =>
    simp only [brokerFederationConfigure, hdir, hbrokers, Bool.false_eq_true, if_false, true_and]
    constructor
    · rintro ⟨fuel, hrun⟩
      by_contra hfail
      exact federationLoop_ne_expected brokers hlen hfail fuel hrun
    · intro hresolves
      obtain ⟨post, hpeers⟩ := federationStart_peers brokers hlen
      obtain ⟨fuel, hrun⟩ := federationLoop_resolves hpeers rfl brokers.2 hresolves
      exact ⟨fuel, hrun⟩

end

def unresolvedEnv (brokers : Text) : Env := ⟨false, [], some brokers, 49000, fun _ _ => none⟩

def resolvedEnv (brokers : Text) : Env :=
  ⟨false, [], some brokers, 49000, fun _ _ => some ("b.example.com".toList, 49000)⟩

theorem federation_iff_resolved :
    ∃ fuel, brokerFederationConfigure (resolvedEnv "a,_matahari._tcp.x".toList) fuel =
      some (expected (resolvedEnv "a,_matahari._tcp.x".toList) 0
        (tokens isSeparator 0 "a,_matahari._tcp.x".toList)) :=
  (federation_iff (resolvedEnv "a,_matahari._tcp.x".toList) ⟨"a,_matahari._tcp.x".toList, by decide⟩
    rfl (by decide)).2.mpr ⟨rfl, by decide⟩

/-- The second token is not found: the first is federated twice, and the third not at all. -/
theorem failed_lookup_repeats_first :
    (brokerFederationConfigure (unresolvedEnv "a,_matahari._tcp.x,b".toList) 4).map
      (·.map (·.remote)) = some ["a".toList, "a".toList] ∧
    (expected (unresolvedEnv "a,_matahari._tcp.x,b".toList) 0
      (tokens isSeparator 0 "a,_matahari._tcp.x,b".toList)).map (·.remote) =
        ["a".toList, "b".toList] ∧
    ¬ ∃ fuel, brokerFederationConfigure (unresolvedEnv "a,_matahari._tcp.x,b".toList) fuel =
      some (expected (unresolvedEnv "a,_matahari._tcp.x,b".toList) 0
        (tokens isSeparator 0 "a,_matahari._tcp.x,b".toList)) := by
  refine ⟨by decide +kernel, by decide +kernel, ?_⟩
  rintro ⟨fuel, hrun⟩
  exact federationLoop_ne_expected ⟨"a,_matahari._tcp.x,b".toList, by decide⟩
    (by decide) (by decide) fuel hrun

end Matahari.BrokerFederation
