import Matahari.Library.CString
import Matahari.SysconfigKeys

set_option autoImplicit false

/-!
# The instance id of an EC2 host

`host_os_ec2_instance_id` asks the metadata service for the id of the instance. `curl`
passes the body of the answer to `curl_write_cb` in pieces, and stops with an error
when a call does not take the whole piece.
-/
namespace Matahari.Host
open CString Sysconfig

def ec2BufSize : ℕ := 256

structure CurlWriteCbData where
  buf : List UInt8
  used : ℕ
  size : buf.length = ec2BufSize

def CurlWriteCbData.init : CurlWriteCbData :=
  ⟨List.replicate ec2BufSize 0, 0, List.length_replicate⟩

/-- The state after a call, and the number of bytes it takes. Nothing advances `used`. -/
def curlWriteCb (data : CurlWriteCbData) (ptr : List UInt8) : CurlWriteCbData × ℕ :=
  if h : ec2BufSize - data.used ≤ ptr.length then (data, 0)
  else
    (⟨copyInto data.buf data.used ptr, data.used,
      (copyInto_length (by have := data.size; omega)).trans data.size⟩, ptr.length)

/-- What the calls of `libcurl` come to: the pieces of the body it has received, and
whether the transfer fails after them. -/
structure Ec2Outcomes where
  curlInit : MhResult
  curlEasyInit : Bool
  curlUrl : Bool
  curlWritefunction : Bool
  curlWritedata : Bool
  curlTimeout : Bool
  chunks : List (List UInt8)
  broken : Bool
  response : ℤ

def deliver (data : CurlWriteCbData) : List (List UInt8) → CurlWriteCbData × Bool
  | [] => (data, true)
  | chunk :: chunks =>
    let call := curlWriteCb data chunk
    if call.2 = chunk.length then deliver call.1 chunks else (call.1, false)

def curlEasyPerform (o : Ec2Outcomes) (data : CurlWriteCbData) : CurlWriteCbData × Bool :=
  let received := deliver data o.chunks
  (received.1, received.2 && !o.broken)

def returnCleanup (data : CurlWriteCbData) : Option (List UInt8) :=
  if (cstring data.buf).isEmpty then none else some (cstring data.buf)

/-- A failed transfer jumps to the label, and a response code out of range is logged
before it is reached. -/
def hostOsEc2InstanceId (o : Ec2Outcomes) : Option (List UInt8) :=
  if o.curlInit ≠ .success then none
  else if ¬ o.curlEasyInit then none
  else if ¬ o.curlUrl then returnCleanup .init
  else if ¬ o.curlWritefunction then returnCleanup .init
  else if ¬ o.curlWritedata then returnCleanup .init
  else if ¬ o.curlTimeout then returnCleanup .init
  else
    let performed := curlEasyPerform o .init
    if ¬ performed.2 then returnCleanup performed.1
    else if o.response < 200 ∨ 299 < o.response then returnCleanup performed.1
    else returnCleanup performed.1

/-! ## The purpose of the function -/

def Ec2Outcomes.requested (o : Ec2Outcomes) : Bool :=
  o.curlInit = .success && o.curlEasyInit && o.curlUrl && o.curlWritefunction &&
    o.curlWritedata && o.curlTimeout

def Ec2Outcomes.body (o : Ec2Outcomes) : List UInt8 := o.chunks.flatten

def Ec2Outcomes.Good (o : Ec2Outcomes) : Prop :=
  o.requested = true ∧ o.broken = false ∧ 200 ≤ o.response ∧ o.response ≤ 299 ∧
    o.body ≠ [] ∧ o.body.length < ec2BufSize

instance (o : Ec2Outcomes) : Decidable o.Good :=
  inferInstanceAs (Decidable (_ ∧ _ ∧ _ ∧ _ ∧ _ ∧ _))

def instanceId (o : Ec2Outcomes) : Option (List UInt8) := if o.Good then some o.body else none

def Ec2Outcomes.stored (o : Ec2Outcomes) : List (List UInt8) :=
  if o.requested then o.chunks.takeWhile (·.length < ec2BufSize) else []

/-! ## What is in the buffer -/

def overwrite (buf : List UInt8) (chunks : List (List UInt8)) : List UInt8 :=
  chunks.foldl (fun buf chunk => chunk ++ buf.drop chunk.length) buf

theorem curlWriteCb_used {data : CurlWriteCbData} (h : data.used = 0) (ptr : List UInt8) :
    (curlWriteCb data ptr).1.used = 0 := by
  unfold curlWriteCb
  split
  · exact h
  · exact h

theorem curlWriteCb_short {data : CurlWriteCbData} (h : data.used = 0) {ptr : List UInt8}
    (hlen : ptr.length < ec2BufSize) :
    (curlWriteCb data ptr).1.buf = ptr ++ data.buf.drop ptr.length ∧
      (curlWriteCb data ptr).2 = ptr.length := by
  unfold curlWriteCb
  rw [dif_neg (by omega)]
  refine ⟨?_, rfl⟩
  change copyInto data.buf data.used ptr = _
  rw [h, copyInto_zero]

theorem curlWriteCb_long {data : CurlWriteCbData} {ptr : List UInt8}
    (hlen : ec2BufSize ≤ ptr.length) : curlWriteCb data ptr = (data, 0) := by
  unfold curlWriteCb
  rw [dif_pos (by omega)]

theorem deliver_buf {data : CurlWriteCbData} (h : data.used = 0) (chunks : List (List UInt8)) :
    (deliver data chunks).1.buf =
      overwrite data.buf (chunks.takeWhile (·.length < ec2BufSize)) := by
  induction chunks generalizing data with
  | nil => rfl
  | cons chunk chunks ih =>
    rw [deliver]
    by_cases hlen : chunk.length < ec2BufSize
    · obtain ⟨hbuf, htaken⟩ := curlWriteCb_short h hlen
      rw [if_pos htaken, ih (curlWriteCb_used h chunk), hbuf,
        List.takeWhile_cons_of_pos (by simpa using hlen)]
      rfl
    · have hlong := not_lt.mp hlen
      rw [curlWriteCb_long hlong, if_neg (by unfold ec2BufSize at hlong; omega),
        List.takeWhile_cons_of_neg (by simpa using hlen)]
      rfl

def found (buf : List UInt8) : Option (List UInt8) :=
  if (cstring buf).isEmpty then none else some (cstring buf)

def zeros : List UInt8 := List.replicate ec2BufSize 0

/-- After the request, neither its result nor the response code matters. -/
theorem hostOsEc2InstanceId_requested (o : Ec2Outcomes) :
    hostOsEc2InstanceId o =
      if o.requested then returnCleanup (deliver .init o.chunks).1 else none := by
  have hinit : returnCleanup .init = none := rfl
  simp only [hostOsEc2InstanceId, Ec2Outcomes.requested, curlEasyPerform, ite_self, hinit]
  split_ifs <;> simp_all

/-- The result depends on the pieces that were stored, and on nothing else. -/
theorem hostOsEc2InstanceId_eq (o : Ec2Outcomes) :
    hostOsEc2InstanceId o = found (overwrite zeros o.stored) := by
  rw [hostOsEc2InstanceId_requested, Ec2Outcomes.stored]
  split
  · rw [returnCleanup, deliver_buf rfl]
    rfl
  · rfl

theorem overwrite_append (buf : List UInt8) (cs ds : List (List UInt8)) :
    overwrite buf (cs ++ ds) = overwrite (overwrite buf cs) ds :=
  List.foldl_append

theorem overwrite_drop {m : ℕ} (buf : List UInt8) (cs : List (List UInt8))
    (h : ∀ c ∈ cs, c.length ≤ m) : (overwrite buf cs).drop m = buf.drop m := by
  induction cs generalizing buf with
  | nil => rfl
  | cons c cs ih =>
    rw [List.forall_mem_cons] at h
    calc
      (overwrite buf (c :: cs)).drop m = (c ++ buf.drop c.length).drop m := ih _ h.2
      _ = buf.drop m := by
        rw [List.drop_append, List.drop_of_length_le h.1, List.nil_append, List.drop_drop,
          Nat.add_sub_cancel' h.1]

theorem overwrite_empty (buf : List UInt8) (cs : List (List UInt8)) (h : cs.flatten = []) :
    overwrite buf cs = buf := by
  induction cs generalizing buf with
  | nil => rfl
  | cons c cs ih =>
    rw [List.flatten_cons, List.append_eq_nil_iff] at h
    obtain ⟨rfl, hcs⟩ := h
    exact ih buf hcs

theorem overwrite_head (buf : List UInt8) (cs : List (List UInt8)) :
    (overwrite buf cs).head? =
      ((cs.filter (· ≠ [])).getLast?.elim buf.head? fun c => c.head?) := by
  induction cs using List.reverseRecOn with
  | nil => rfl
  | append_singleton cs c ih =>
    rw [overwrite_append, List.filter_append]
    cases c with
    | nil =>
      change (overwrite buf cs).head? = _
      rw [ih]
      simp
    | cons b c =>
      change (b :: c ++ _).head? = _
      simp

theorem overwrite_ne_nil {buf : List UInt8} (h : buf ≠ []) (cs : List (List UInt8)) :
    overwrite buf cs ≠ [] := by
  induction cs generalizing buf with
  | nil => exact h
  | cons c cs ih =>
    apply ih
    cases c with
    | nil => exact h
    | cons b c => exact List.cons_ne_nil _ _

/-! ## When the id is right -/

theorem cstring_overwrite_le {m : ℕ} (hm : m < ec2BufSize) (cs : List (List UInt8))
    (h : ∀ c ∈ cs, c.length ≤ m) : (cstring (overwrite zeros cs)).length ≤ m := by
  have htail : (overwrite zeros cs).drop m = 0 :: List.replicate (ec2BufSize - m - 1) 0 := by
    rw [overwrite_drop zeros cs h, zeros, List.drop_replicate, ← List.replicate_succ]
    congr 1
    omega
  calc
    (cstring (overwrite zeros cs)).length =
        (cstring ((overwrite zeros cs).take m ++ (overwrite zeros cs).drop m)).length := by
      rw [List.take_append_drop]
    _ ≤ ((overwrite zeros cs).take m).length := by
      rw [htail]
      exact cstring_length_le _ _
    _ ≤ m := List.length_take_le _ _

theorem flatten_piece {cs ds : List (List UInt8)} {c : List UInt8}
    (h : (cs ++ c :: ds).flatten.length ≤ c.length) :
    cs.flatten = [] ∧ ds.flatten = [] := by
  simp only [List.flatten_append, List.flatten_cons, List.length_append] at h
  exact ⟨List.eq_nil_of_length_eq_zero (by omega), List.eq_nil_of_length_eq_zero (by omega)⟩

theorem piece_length_le {cs : List (List UInt8)} {c : List UInt8} (h : c ∈ cs) :
    c.length ≤ cs.flatten.length := by
  obtain ⟨p, q, rfl⟩ := List.append_of_mem h
  simp only [List.flatten_append, List.flatten_cons, List.length_append]
  omega

theorem found_some_iff {buf id : List UInt8} (hid : id ≠ []) :
    found buf = some id ↔ cstring buf = id := by
  unfold found
  split
  · rename_i hempty
    rw [List.isEmpty_iff.mp hempty]
    simp [hid.symm]
  · simp

theorem found_none_iff {buf : List UInt8} (h : buf ≠ []) :
    found buf = none ↔ buf.head? = some 0 := by
  rw [← cstring_eq_nil_iff h, found]
  split
  · rename_i hempty
    simp [List.isEmpty_iff.mp hempty]
  · rename_i hne
    simpa using hne

theorem cstring_overwrite_iff {cs : List (List UInt8)} (hne : cs.flatten ≠ [])
    (hlen : cs.flatten.length < ec2BufSize) :
    cstring (overwrite zeros cs) = cs.flatten ↔ cs.flatten ∈ cs ∧ 0 ∉ cs.flatten := by
  constructor
  · intro h
    refine ⟨?_, by rw [← h]; exact zero_notMem_cstring _⟩
    by_contra hmem
    have hpos := List.length_pos_iff.mpr hne
    have hshort : ∀ c ∈ cs, c.length ≤ cs.flatten.length - 1 := by
      intro c hc
      by_contra hlong
      obtain ⟨p, q, rfl⟩ := List.append_of_mem hc
      obtain ⟨hp, hq⟩ := flatten_piece (by omega : (p ++ c :: q).flatten.length ≤ c.length)
      apply hmem
      rw [List.flatten_append, List.flatten_cons, hp, hq, List.nil_append, List.append_nil]
      exact hc
    have hbound := cstring_overwrite_le (by omega) cs hshort
    rw [h] at hbound
    omega
  · rintro ⟨hmem, hzero⟩
    obtain ⟨p, q, hcs⟩ := List.append_of_mem hmem
    obtain ⟨hp, hq⟩ := flatten_piece (by rw [← hcs] : (p ++ cs.flatten :: q).flatten.length ≤ _)
    have hbuf : overwrite zeros cs = cs.flatten ++ zeros.drop cs.flatten.length := by
      conv_lhs => rw [hcs]
      rw [overwrite_append, overwrite_empty zeros p hp]
      exact overwrite_empty _ q hq
    have hrest : zeros.drop cs.flatten.length =
        0 :: List.replicate (ec2BufSize - cs.flatten.length - 1) 0 := by
      rw [zeros, List.drop_replicate, ← List.replicate_succ]
      congr 1
      omega
    rw [hbuf, hrest]
    exact cstring_append_zero hzero _

theorem Ec2Outcomes.Good.stored_eq {o : Ec2Outcomes} (h : o.Good) : o.stored = o.chunks := by
  obtain ⟨hr, -, -, -, -, hlen⟩ := h
  rw [Ec2Outcomes.stored, if_pos hr, List.takeWhile_eq_self_iff]
  intro c hc
  have hle := piece_length_le hc
  exact decide_eq_true (lt_of_le_of_lt hle hlen)

/-- The function returns the body of a good answer if the body came in one piece and is a
string, and refuses another answer if no piece of it has left a string in the buffer. -/
theorem hostOsEc2InstanceId_iff (o : Ec2Outcomes) :
    hostOsEc2InstanceId o = instanceId o ↔
      (o.Good → o.body ∈ o.chunks ∧ 0 ∉ o.body) ∧
      (¬ o.Good → ∀ chunk, (o.stored.filter (· ≠ [])).getLast? = some chunk →
        chunk.head? = some 0) := by
  rw [hostOsEc2InstanceId_eq, instanceId]
  by_cases hgood : o.Good
  · have hstored := hgood.stored_eq
    have ⟨_, _, _, _, hne, hlen⟩ := hgood
    rw [if_pos hgood, found_some_iff hne, hstored]
    simp only [hgood, true_implies, not_true_eq_false, false_implies, and_true]
    exact cstring_overwrite_iff hne hlen
  · rw [if_neg hgood, found_none_iff (overwrite_ne_nil (by decide) _), overwrite_head]
    simp only [hgood, false_implies, not_false_eq_true, true_implies, true_and]
    cases (o.stored.filter (· ≠ [])).getLast? with
    | none => simp [zeros, ec2BufSize]
    | some chunk => simp

def ec2Answer (chunks : List (List UInt8)) (response : ℤ) : Ec2Outcomes :=
  ⟨.success, true, true, true, true, true, chunks, false, response⟩

/-- The id `i-1f2` in two pieces loses the first, and the page of an error is taken for
an id. -/
theorem instanceId_wrong :
    hostOsEc2InstanceId (ec2Answer [[105, 45], [49, 102, 50]] 200) = some [49, 102, 50] ∧
    instanceId (ec2Answer [[105, 45], [49, 102, 50]] 200) = some [105, 45, 49, 102, 50] ∧
    hostOsEc2InstanceId (ec2Answer [[78, 111]] 404) = some [78, 111] ∧
    instanceId (ec2Answer [[78, 111]] 404) = none := by
  decide

end Matahari.Host
