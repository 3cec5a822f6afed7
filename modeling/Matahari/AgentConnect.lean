import Matahari.Library.Cursor
import Matahari.Dnssrv

set_option autoImplicit false

/-!
# Connecting to a broker

`mh_connect` of `mh_agent.cpp`, which tries the brokers of an SRV look-up in turn until one of
them takes the connection. What `open` comes to is given for each attempt.
-/
namespace Matahari.Agent
open Mainloop Dnssrv CyclicCursor

structure MhOptions where
  protocol : Text
  servername : Option Text
  serverport : Text
  dnsSrv : Bool

def srvQuery (o : MhOptions) (dnsdomainname : Text) : Text :=
  "_matahari.".toList ++ (if o.protocol = "ssl".toList then "_tls" else "_tcp").toList ++
    '.' :: o.servername.getD dnsdomainname

def srvRecords (lookup : Text → List Record) (o : MhOptions) (dnsdomainname : Text) :
    List Record :=
  if o.servername.isNone || o.dnsSrv then lookup (srvQuery o dnsdomainname) else []

def brokerUrl (o : MhOptions) (host port : Text) : Text :=
  "amqp:".toList ++ o.protocol ++ ':' :: (host ++ ':' :: port)

def intMax : ℕ := 2 ^ 31 - 1

structure ConnectLoop where
  retries : ℕ
  backoff : ℕ
  curSrvRecord : List Record

/-- An attempt: the record it is for, if there are any, its URL, and the seconds that the loop
sleeps when it has failed. -/
structure Attempt where
  record : Option Record
  url : Text
  pause : ℕ

inductive Ending where
  | connected
  | bailed
  | retrying
  deriving DecidableEq, Repr

def connectTurn (o : MhOptions) (srvRecords : List Record) (s : ConnectLoop) :
    Option (Attempt × ConnectLoop) :=
  let record := s.curSrvRecord.head?
  let url := match record with
    | some record => brokerUrl o record.host (Nat.toDigits 10 record.port.toNat)
    | none => brokerUrl o (o.servername.getD "localhost".toList) o.serverport
  if s.retries = intMax then none
  else
    let retries := s.retries + 1
    let backoff := if retries ≤ 5 then s.backoff else retries % 300
    some (⟨record, url, backoff⟩, ⟨retries, backoff, advance srvRecords s.curSrvRecord⟩)

def connectLoop (o : MhOptions) (srvRecords : List Record) (retry : Bool) :
    List Bool → ConnectLoop → Option (List Attempt × Ending)
  | [], _ => some ([], .retrying)
  | opened :: opens, s =>
    (connectTurn o srvRecords s).bind fun (attempt, s) =>
      if opened then some ([{ attempt with pause := 0 }], .connected)
      else if !retry then some ([{ attempt with pause := 0 }], .bailed)
      else (connectLoop o srvRecords retry opens s).map fun (attempts, ending) =>
        (attempt :: attempts, ending)

def mhConnect (o : MhOptions) (srvRecords : List Record) (retry : Bool) (opens : List Bool) :
    Option (List Attempt × Ending) :=
  connectLoop o srvRecords retry opens ⟨0, 0, srvRecords⟩

/-! ## The state after a number of failures -/

section
variable {o : MhOptions} {records : List Record}

def backoffAt (retries : ℕ) : ℕ := if retries ≤ 5 then 0 else retries % 300

def loopAt (records : List Record) (k : ℕ) : ConnectLoop :=
  ⟨k, backoffAt k, records.drop (k % records.length)⟩

def attemptAt (o : MhOptions) (records : List Record) (k : ℕ) : Attempt where
  record := records[k % records.length]?
  url := match records[k % records.length]? with
    | some record => brokerUrl o record.host (Nat.toDigits 10 record.port.toNat)
    | none => brokerUrl o (o.servername.getD "localhost".toList) o.serverport
  pause := backoffAt (k + 1)

theorem connectTurn_loopAt (hne : records ≠ []) {k : ℕ} (hk : k < intMax) :
    connectTurn o records (loopAt records k) =
      some (attemptAt o records k, loopAt records (k + 1)) := by
  have hbackoff : (if k + 1 ≤ 5 then backoffAt k else (k + 1) % 300) = backoffAt (k + 1) := by
    unfold backoffAt
    split_ifs <;> omega
  have hhead : (records.drop (k % records.length)).head? = records[k % records.length]? :=
    List.head?_drop
  unfold connectTurn loopAt
  dsimp only
  rw [if_neg (Nat.ne_of_lt hk), hbackoff, hhead, advance_drop_mod hne]
  rfl

theorem connectTurn_overflow : connectTurn o records (loopAt records intMax) = none := by
  unfold connectTurn loopAt
  dsimp only
  rw [if_pos rfl]

theorem connectLoop_failures (hne : records ≠ []) (failures : ℕ) {k : ℕ}
    (h : k + failures ≤ intMax) :
    connectLoop o records true (List.replicate failures false) (loopAt records k) =
      some ((List.range' k failures).map (attemptAt o records), .retrying) := by
  induction failures generalizing k with
  | zero => rfl
  | succ n ih =>
    rw [List.replicate_succ, connectLoop, connectTurn_loopAt hne (by omega), Option.bind_some]
    dsimp only
    rw [if_neg Bool.false_ne_true, if_neg (by decide), ih (by omega), List.range'_succ]
    rfl

theorem connectLoop_overflow (hne : records ≠ []) (failures : ℕ) {k : ℕ} (hk : k ≤ intMax)
    (h : intMax < k + failures) :
    connectLoop o records true (List.replicate failures false) (loopAt records k) = none := by
  induction failures generalizing k with
  | zero => omega
  | succ n ih =>
    rw [List.replicate_succ, connectLoop]
    rcases Nat.eq_or_lt_of_le hk with rfl | hlt
    · rw [connectTurn_overflow]
      rfl
    · rw [connectTurn_loopAt hne hlt, Option.bind_some]
      dsimp only
      rw [if_neg Bool.false_ne_true, if_neg (by decide), ih hlt (by omega)]
      rfl

theorem mhConnect_failures (hne : records ≠ []) {failures : ℕ} (h : failures ≤ intMax) :
    mhConnect o records true (List.replicate failures false) =
      some ((List.range failures).map (attemptAt o records), .retrying) := by
  have hloop := connectLoop_failures (o := o) hne failures (k := 0) (by omega)
  rw [List.range_eq_range', ← hloop]
  rfl

/-! ## The targets and the pauses -/

theorem attempts_follow (o : MhOptions) (hne : records ≠ []) (failures : ℕ) :
    Follows (records.map some) 0
      (((List.range failures).map (attemptAt o records)).map (·.record)) := by
  intro i hi
  have hlt : i < failures := by simpa using hi
  have hmod : i % records.length < records.length :=
    Nat.mod_lt _ (List.length_pos_iff.mpr hne)
  rw [List.map_map, List.getElem?_map, List.getElem?_range hlt, Nat.zero_add, List.length_map,
    List.getElem?_map, List.getElem?_eq_getElem hmod]
  exact congrArg some (List.getElem?_eq_getElem hmod)

/-- What is to hold of a number of failed attempts: they go round the list, and the loop
pauses after each but the first five. -/
structure KeepsTrying (records : List Record) (failures : ℕ) (attempts : List Attempt) : Prop where
  length : attempts.length = failures
  target : ∀ i, i < failures →
    attempts[i]?.map (·.record) = some records[i % records.length]?
  window : ∀ i, i + records.length ≤ failures →
    (((attempts.drop i).take records.length).map (·.record)).Perm (records.map some)
  pause : ∀ i attempt, 5 ≤ i → attempts[i]? = some attempt →
    1 ≤ attempt.pause ∧ attempt.pause ≤ 300

theorem attempts_window (o : MhOptions) (hne : records ≠ []) {failures i : ℕ}
    (hi : i + records.length ≤ failures) :
    (((((List.range failures).map (attemptAt o records)).drop i).take records.length).map
      (·.record)).Perm (records.map some) := by
  have hperm := (attempts_follow o hne failures).window_perm (i := i) (by simpa using hi)
  rw [List.length_map, ← List.map_drop, ← List.map_take] at hperm
  exact hperm

theorem backoffAt_iff {k : ℕ} (hk : 6 ≤ k) :
    (1 ≤ backoffAt k ∧ backoffAt k ≤ 300) ↔ ¬ 300 ∣ k := by
  have hlt := Nat.mod_lt k (show 300 > 0 by omega)
  unfold backoffAt
  rw [if_neg (by omega), Nat.dvd_iff_mod_eq_zero]
  omega

theorem pause_iff (o : MhOptions) (hne : records ≠ []) {failures : ℕ} (h : failures ≤ intMax) :
    ∃ attempts, mhConnect o records true (List.replicate failures false) =
        some (attempts, .retrying) ∧
      ∀ i attempt, 5 ≤ i → attempts[i]? = some attempt →
        ((1 ≤ attempt.pause ∧ attempt.pause ≤ 300) ↔ ¬ 300 ∣ i + 1) := by
  refine ⟨_, mhConnect_failures hne h, fun i attempt hi hattempt => ?_⟩
  rw [List.getElem?_map, Option.map_eq_some_iff] at hattempt
  obtain ⟨k, hk, rfl⟩ := hattempt
  obtain rfl : i = k := (List.getElem?_eq_some_iff.mp hk).2 ▸ (by simp)
  exact backoffAt_iff (by omega)

end

/-- The loop keeps to it as long as fewer than three hundred attempts have failed; after the
three hundredth there is no pause. -/
theorem connect_keeps_trying_iff (o : MhOptions) (record : Record) (records : List Record)
    (failures : ℕ) :
    (∃ attempts, mhConnect o (record :: records) true (List.replicate failures false) =
        some (attempts, .retrying) ∧ KeepsTrying (record :: records) failures attempts) ↔
      failures < 300 := by
  have hne : record :: records ≠ [] := List.cons_ne_nil record records
  constructor
  · rintro ⟨attempts, hrun, hkeeps⟩
    by_contra hlong
    by_cases hmax : failures ≤ intMax
    · rw [mhConnect_failures hne hmax] at hrun
      cases hrun
      have hget : ((List.range failures).map (attemptAt o (record :: records)))[299]? =
          some (attemptAt o (record :: records) 299) := by
        rw [List.getElem?_map, List.getElem?_range (by omega)]
        rfl
      exact (backoffAt_iff (k := 300) (by omega)).mp (hkeeps.pause 299 _ (by omega) hget) ⟨1, rfl⟩
    · have hnone := connectLoop_overflow (o := o) hne failures (Nat.zero_le _) (by omega)
      exact absurd (hnone.symm.trans hrun) (Option.some_ne_none _).symm
  · intro hshort
    have hmax : failures ≤ intMax := by
      unfold intMax
      omega
    refine ⟨_, mhConnect_failures hne hmax, by simp, fun i hi => ?_, fun i hi => ?_, ?_⟩
    · rw [List.getElem?_map, List.getElem?_range hi]
      rfl
    · exact attempts_window o hne hi
    · intro i attempt hi hattempt
      rw [List.getElem?_map, Option.map_eq_some_iff] at hattempt
      obtain ⟨k, hk, rfl⟩ := hattempt
      obtain ⟨hlt, hik⟩ := List.getElem?_eq_some_iff.mp hk
      rw [List.getElem_range] at hik
      rw [List.length_range] at hlt
      refine (backoffAt_iff (by omega)).mpr fun hdvd => ?_
      have := Nat.le_of_dvd (by omega) hdvd
      omega

def localhostRecord : Record := ⟨⟨49000, 0, 0, "localhost".toList⟩, 0⟩

def tcpOptions : MhOptions := ⟨"tcp".toList, none, "49000".toList, false⟩

/-- With one broker, the attempt after the three hundredth failure comes at once. -/
theorem three_hundred_failures :
    ¬ ∃ attempts, mhConnect tcpOptions [localhostRecord] true (List.replicate 300 false) =
      some (attempts, .retrying) ∧ KeepsTrying [localhostRecord] 300 attempts := by
  rintro ⟨attempts, hrun, hkeeps⟩
  have hpause : (mhConnect tcpOptions [localhostRecord] true (List.replicate 300 false)).map
      (fun run => run.1[299]?.map (·.pause)) = some (some 0) := by
    rw [mhConnect_failures (List.cons_ne_nil _ _) (by decide)]
    rfl
  rw [hrun, Option.map_some, Option.some_inj, Option.map_eq_some_iff] at hpause
  obtain ⟨attempt, hattempt, hzero⟩ := hpause
  have hone := (hkeeps.pause 299 attempt (by omega) hattempt).1
  omega

end Matahari.Agent
