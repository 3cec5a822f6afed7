import Matahari.ServicesEngine

set_option autoImplicit false

/-!
# The registries of the engine

An abstract view of the engine: who is referred to from the process table, the
event sources and `recurring_actions`, and the fields of the actions through
which they point back. Here is what each bookkeeping operation on these
registries preserves, whatever the order of events.
-/
namespace Matahari.Services
open Mainloop

@[ext] structure Registry where
  child : ℤ → Option (MainloopChild ℕ)
  source : ℕ → Option (Source ℕ)
  next : ℕ
  recurring : Text → Option ℕ
  freed : ℕ → ℕ
  executed : List ℕ
  interval : ℕ → Option ℤ
  id : ℕ → Option Text
  name : ℕ → Option (Text × Text)
  pid : ℕ → Option ℤ
  repeatTimer : ℕ → Option ℕ
  gsource : Stream → ℕ → Option ℕ

namespace Registry

def Running (v : Registry) (op : ℕ) : Prop :=
  ∃ pid p, v.child pid = some p ∧ p.privatedata = some op

def Waiting (v : Registry) (op : ℕ) : Prop :=
  ∃ id, v.source id = some (.recurringAction op)

def Watched (v : Registry) (op : ℕ) : Prop :=
  ∃ id stream, v.source id = some (.fd stream op)

/-- The id was given to this source, which may be gone by now. -/
def GivenTo (v : Registry) (id : ℕ) (x : Source ℕ) : Prop :=
  id < v.next ∧ ∀ y, v.source id = some y → y = x

/-- Structural facts that no order of events can break, cancellation included. -/
structure Inv (v : Registry) : Prop where
  fresh : ∀ id x, v.source id = some x → id < v.next
  /-- The assertion of `operation_finished`: an entry and its action name the same pid. -/
  child : ∀ pid p, v.child pid = some p → p.pid = pid ∧
    ∃ op, p.privatedata = some op ∧ v.pid op = some pid
  childTimer : ∀ pid p, v.child pid = some p → p.timerid ≠ 0 →
    v.GivenTo p.timerid (.childTimeout pid)
  waiting : ∀ id op, v.source id = some (.recurringAction op) →
    ¬ v.Running op ∧ v.repeatTimer op = some id ∧ ∃ i, v.interval op = some i ∧ i ≠ 0
  repeatTimer : ∀ op id, v.repeatTimer op = some id → v.GivenTo id (.recurringAction op)
  recurring : ∀ id op, v.recurring id = some op → v.id op = some id ∧
    ∃ i, v.interval op = some i ∧ 0 < i
  watch : ∀ id stream op, v.source id = some (.fd stream op) →
    ∃ i, v.interval op = some i ∧ (i = 0 → v.gsource stream op = some id)
  gsource : ∀ op stream id, v.gsource stream op = some id → v.source id = some (.fd stream op)
  ident : ∀ op i, v.interval op = some i → ∃ name action, v.name op = some (name, action) ∧
    v.id op = some (actionId name action i)
  /-- A one-shot action is freed once, when nothing refers to it any more. -/
  oneShot : ∀ op, v.interval op = some 0 → v.freed op ≤ 1 ∧
    (v.freed op ≠ 0 → ¬ v.Running op ∧ ¬ v.Watched op)
  unused : ∀ op, v.interval op = none → v.freed op = 0 ∧ v.id op = none ∧ v.pid op = none ∧
    v.repeatTimer op = none ∧ ∀ stream, v.gsource stream op = none
  positive : 0 < v.next
  zero : v.source 0 = none

/-! ## Bookkeeping operations -/

def addSource (v : Registry) (x : Source ℕ) : Registry :=
  { v with source := Function.update v.source v.next (some x), next := v.next + 1 }

def removeSource (v : Registry) (id : ℕ) : Registry :=
  { v with source := Function.update v.source id none }

def setChild (v : Registry) (pid : ℤ) (p : Option (MainloopChild ℕ)) : Registry :=
  { v with child := Function.update v.child pid p }

def setPid (v : Registry) (op : ℕ) (pid : ℤ) : Registry :=
  { v with pid := Function.update v.pid op (some pid) }

def setRepeatTimer (v : Registry) (op id : ℕ) : Registry :=
  { v with repeatTimer := Function.update v.repeatTimer op (some id) }

def setGsource (v : Registry) (stream : Stream) (op : ℕ) (id : Option ℕ) : Registry :=
  { v with gsource := fun t k => if k = op ∧ t = stream then id else v.gsource t k }

def register (v : Registry) (id : Text) (op : ℕ) : Registry :=
  { v with recurring := Function.update v.recurring id (some op) }

def free (v : Registry) (op : ℕ) : Registry :=
  { v with freed := Function.update v.freed op (v.freed op + 1) }

def alloc (v : Registry) (op : ℕ) (interval : ℤ) (id : Text) (name : Text × Text) : Registry :=
  { v with
    interval := Function.update v.interval op (some interval)
    id := Function.update v.id op (some id)
    name := Function.update v.name op (some name)
    pid := Function.update v.pid op (some 0)
    repeatTimer := Function.update v.repeatTimer op (some 0)
    gsource := fun t k => if k = op then none else v.gsource t k }

/-! ## What they preserve -/

variable {v : Registry}

def unwatch (v : Registry) (id : ℕ) (stream : Stream) (op : ℕ) : Registry :=
  (v.removeSource id).setGsource stream op none

def watch (v : Registry) (stream : Stream) (op : ℕ) : Registry :=
  (v.addSource (.fd stream op)).setGsource stream op (some v.next)

theorem ne_of_interval {o op : ℕ} {i : ℤ} (hi : v.interval op = some i)
    (ho : v.interval o = none) : o ≠ op := by
  rintro rfl
  rw [hi] at ho
  cases ho

theorem of_addSource {x y : Source ℕ} {id : ℕ} (h : (v.addSource x).source id = some y) :
    (id = v.next ∧ y = x) ∨ v.source id = some y := by
  change Function.update v.source v.next (some x) id = some y at h
  by_cases hid : id = v.next
  · rw [hid, Function.update_self] at h
    exact .inl ⟨hid, (Option.some.inj h).symm⟩
  · rw [Function.update_of_ne hid] at h
    exact .inr h

theorem of_removeSource {y : Source ℕ} {id k : ℕ} (h : (v.removeSource id).source k = some y) :
    k ≠ id ∧ v.source k = some y := by
  change Function.update v.source id none k = some y at h
  by_cases hk : k = id
  · rw [hk, Function.update_self] at h
    cases h
  · rw [Function.update_of_ne hk] at h
    exact ⟨hk, h⟩

theorem GivenTo.addSource {id : ℕ} {x : Source ℕ} (h : v.GivenTo id x) (y : Source ℕ) :
    (v.addSource y).GivenTo id x := by
  refine ⟨Nat.lt_succ_of_lt h.1, fun z hz => ?_⟩
  rcases of_addSource hz with ⟨heq, -⟩ | hold
  · exact absurd heq (Nat.ne_of_lt h.1)
  · exact h.2 z hold

theorem GivenTo.removeSource {id : ℕ} {x : Source ℕ} (h : v.GivenTo id x) (k : ℕ) :
    (v.removeSource k).GivenTo id x :=
  ⟨h.1, fun y hy => h.2 y (of_removeSource hy).2⟩

theorem givenTo_next (v : Registry) (x : Source ℕ) : (v.addSource x).GivenTo v.next x := by
  refine ⟨Nat.lt_succ_self _, fun y hy => ?_⟩
  change Function.update v.source v.next (some x) v.next = some y at hy
  rw [Function.update_self] at hy
  exact (Option.some.inj hy).symm

/-! The fields that hold after any source is added, or removed. -/

theorem Inv.fresh_addSource (h : Inv v) (x : Source ℕ) (id : ℕ) (y : Source ℕ)
    (hid : (v.addSource x).source id = some y) : id < v.next + 1 := by
  rcases of_addSource hid with ⟨heq, -⟩ | hold
  · omega
  · exact Nat.lt_succ_of_lt (h.fresh id y hold)

theorem Inv.source_addSource (h : Inv v) (x : Source ℕ) {id : ℕ} {y : Source ℕ}
    (hid : v.source id = some y) : (v.addSource x).source id = some y :=
  (Function.update_of_ne (Nat.ne_of_lt (h.fresh id y hid)) _ _).trans hid

theorem Inv.zero_addSource (h : Inv v) (x : Source ℕ) : (v.addSource x).source 0 = none :=
  (Function.update_of_ne (Nat.ne_of_lt h.positive) _ _).trans h.zero

theorem Inv.zero_removeSource (h : Inv v) (id : ℕ) : (v.removeSource id).source 0 = none := by
  change Function.update v.source id none 0 = none
  by_cases hid : 0 = id
  · rw [← hid, Function.update_self]
  · rw [Function.update_of_ne hid]
    exact h.zero

theorem inv_unwatch (h : Inv v) {id op : ℕ} {stream : Stream}
    (hid : v.source id = some (.fd stream op)) : Inv (v.unwatch id stream op) := by
  have hold : ∀ {k y}, (v.unwatch id stream op).source k = some y → k ≠ id ∧ v.source k = some y :=
    fun hk => of_removeSource hk
  refine {
    h with
    fresh := fun k y hk => h.fresh k y (hold hk).2
    childTimer := fun pid p hp hne => (h.childTimer pid p hp hne).removeSource id
    waiting := fun k o hk => h.waiting k o (hold hk).2
    repeatTimer := fun o k hk => (h.repeatTimer o k hk).removeSource id
    watch := fun k t o hk => ?_
    gsource := fun o t k hk => ?_
    oneShot := fun o ho => ?_
    unused := fun o ho => ?_
    zero := h.zero_removeSource id }
  · obtain ⟨hne, hsource⟩ := hold hk
    obtain ⟨i, hi, hpoint⟩ := h.watch k t o hsource
    refine ⟨i, hi, fun hz => ?_⟩
    -- a one-shot action has one watch on each stream, the one it points to
    have hother : ¬(o = op ∧ t = stream) := by
      rintro ⟨rfl, rfl⟩
      obtain ⟨j, hj, hpoint'⟩ := h.watch id t o hid
      rw [hi] at hj
      cases hj
      have heq := (hpoint hz).symm.trans (hpoint' hz)
      exact hne (Option.some.inj heq)
    exact (if_neg hother).trans (hpoint hz)
  · change (if o = op ∧ t = stream then none else v.gsource t o) = some k at hk
    split at hk
    · cases hk
    · rename_i hother
      have hsource := h.gsource o t k hk
      have hne : k ≠ id := by
        rintro rfl
        rw [hsource] at hid
        cases hid
        exact hother ⟨rfl, rfl⟩
      exact (Function.update_of_ne hne _ _).trans hsource
  · obtain ⟨hle, hlast⟩ := h.oneShot o ho
    refine ⟨hle, fun hfreed => ⟨(hlast hfreed).1, ?_⟩⟩
    rintro ⟨k, t, hk⟩
    exact (hlast hfreed).2 ⟨k, t, (hold hk).2⟩
  · obtain ⟨hfreed, hident, hpid, hrep, hgs⟩ := h.unused o ho
    refine ⟨hfreed, hident, hpid, hrep, fun t => ?_⟩
    change (if o = op ∧ t = stream then none else v.gsource t o) = none
    split
    · rfl
    · exact hgs t

theorem inv_watch (h : Inv v) {op : ℕ} (stream : Stream) {i : ℤ} (hi : v.interval op = some i)
    (hnew : i = 0 → v.gsource stream op = none ∧ v.freed op = 0) :
    Inv (v.watch stream op) := by
  have hold : ∀ {k y}, (v.watch stream op).source k = some y →
      (k = v.next ∧ y = .fd stream op) ∨ v.source k = some y := fun hk => of_addSource hk
  refine {
    h with
    fresh := h.fresh_addSource _
    childTimer := fun pid p hp hne => (h.childTimer pid p hp hne).addSource _
    waiting := fun k o hk => ?_
    repeatTimer := fun o k hk => (h.repeatTimer o k hk).addSource _
    watch := fun k t o hk => ?_
    gsource := fun o t k hk => ?_
    oneShot := fun o ho => ?_
    unused := fun o ho => ?_
    positive := Nat.succ_pos _
    zero := h.zero_addSource _ }
  · rcases hold hk with ⟨-, heq⟩ | hsource
    · cases heq
    · exact h.waiting k o hsource
  · rcases hold hk with ⟨rfl, heq⟩ | hsource
    · cases heq
      exact ⟨i, hi, fun _ => if_pos ⟨rfl, rfl⟩⟩
    · obtain ⟨j, hj, hpoint⟩ := h.watch k t o hsource
      refine ⟨j, hj, fun hz => ?_⟩
      have hother : ¬(o = op ∧ t = stream) := by
        rintro ⟨rfl, rfl⟩
        rw [hi] at hj
        cases hj
        have hnone := (hnew hz).1
        rw [hpoint hz] at hnone
        cases hnone
      exact (if_neg hother).trans (hpoint hz)
  · change (if o = op ∧ t = stream then some v.next else v.gsource t o) = some k at hk
    split at hk
    · rename_i heq
      obtain ⟨rfl, rfl⟩ := heq
      cases hk
      exact Function.update_self _ _ _
    · exact h.source_addSource _ (h.gsource o t k hk)
  · obtain ⟨hle, hlast⟩ := h.oneShot o ho
    refine ⟨hle, fun hfreed => ⟨(hlast hfreed).1, ?_⟩⟩
    rintro ⟨k, t, hk⟩
    rcases hold hk with ⟨-, heq⟩ | hsource
    · cases heq
      have hz : i = 0 := Option.some.inj (hi.symm.trans ho)
      exact hfreed (hnew hz).2
    · exact (hlast hfreed).2 ⟨k, t, hsource⟩
  · obtain ⟨hfreed, hident, hpid, hrep, hgs⟩ := h.unused o ho
    have hne : o ≠ op := ne_of_interval hi ho
    exact ⟨hfreed, hident, hpid, hrep, fun t => (if_neg fun heq => hne heq.1).trans (hgs t)⟩

def arm (v : Registry) (op : ℕ) : Registry :=
  (v.addSource (.recurringAction op)).setRepeatTimer op v.next

theorem inv_arm (h : Inv v) {op : ℕ} {i : ℤ} (hi : v.interval op = some i) (hne : i ≠ 0)
    (hrun : ¬ v.Running op) (hwaits : ¬ v.Waiting op) : Inv (v.arm op) := by
  have hold : ∀ {k y}, (v.arm op).source k = some y →
      (k = v.next ∧ y = .recurringAction op) ∨ v.source k = some y := fun hk => of_addSource hk
  have hother : ∀ {o}, o ≠ op → (v.arm op).repeatTimer o = v.repeatTimer o := fun ho =>
    Function.update_of_ne ho _ _
  refine {
    h with
    fresh := h.fresh_addSource _
    childTimer := fun pid p hp hne => (h.childTimer pid p hp hne).addSource _
    waiting := fun k o hk => ?_
    repeatTimer := fun o k hk => ?_
    watch := fun k t o hk => ?_
    gsource := fun o t k hk => h.source_addSource _ (h.gsource o t k hk)
    oneShot := fun o ho => ?_
    unused := fun o ho => ?_
    positive := Nat.succ_pos _
    zero := h.zero_addSource _ }
  · rcases hold hk with ⟨rfl, heq⟩ | hsource
    · cases heq
      exact ⟨hrun, Function.update_self _ _ _, i, hi, hne⟩
    · obtain ⟨hidle, htimer, hinterval⟩ := h.waiting k o hsource
      have ho : o ≠ op := by
        rintro rfl
        exact hwaits ⟨k, hsource⟩
      exact ⟨hidle, (hother ho).trans htimer, hinterval⟩
  · by_cases ho : o = op
    · subst ho
      change Function.update v.repeatTimer o (some v.next) o = some k at hk
      rw [Function.update_self] at hk
      cases hk
      exact givenTo_next v _
    · rw [hother ho] at hk
      exact (h.repeatTimer o k hk).addSource _
  · rcases hold hk with ⟨-, heq⟩ | hsource
    · cases heq
    · exact h.watch k t o hsource
  · obtain ⟨hle, hlast⟩ := h.oneShot o ho
    refine ⟨hle, fun hfreed => ⟨(hlast hfreed).1, ?_⟩⟩
    rintro ⟨k, t, hk⟩
    rcases hold hk with ⟨-, heq⟩ | hsource
    · cases heq
    · exact (hlast hfreed).2 ⟨k, t, hsource⟩
  · obtain ⟨hfreed, hident, hpid, hrep, hgs⟩ := h.unused o ho
    have hne : o ≠ op := ne_of_interval hi ho
    exact ⟨hfreed, hident, hpid, (hother hne).trans hrep, hgs⟩

theorem inv_removeSource (h : Inv v) {id : ℕ}
    (hid : ∀ stream op, v.source id ≠ some (.fd stream op)) : Inv (v.removeSource id) := by
  refine {
    h with
    fresh := fun k y hk => h.fresh k y (of_removeSource hk).2
    childTimer := fun pid p hp hne => (h.childTimer pid p hp hne).removeSource id
    waiting := fun k o hk => h.waiting k o (of_removeSource hk).2
    repeatTimer := fun o k hk => (h.repeatTimer o k hk).removeSource id
    watch := fun k t o hk => h.watch k t o (of_removeSource hk).2
    gsource := fun o t k hk => ?_
    oneShot := fun o ho => ?_
    zero := h.zero_removeSource id }
  · have hsource := h.gsource o t k hk
    have hne : k ≠ id := by
      rintro rfl
      exact hid t o hsource
    exact (Function.update_of_ne hne _ _).trans hsource
  · obtain ⟨hle, hlast⟩ := h.oneShot o ho
    refine ⟨hle, fun hfreed => ⟨(hlast hfreed).1, ?_⟩⟩
    rintro ⟨k, t, hk⟩
    exact (hlast hfreed).2 ⟨k, t, (of_removeSource hk).2⟩

theorem removeSource_zero (h : Inv v) : v.removeSource 0 = v := by
  refine Registry.ext rfl ?_ rfl rfl rfl rfl rfl rfl rfl rfl rfl rfl
  exact Function.update_eq_self_iff.mpr h.zero.symm

theorem childTimer_ne (h : Inv v) {pid : ℤ} {p : MainloopChild ℕ} (hp : v.child pid = some p)
    (stream : Stream) (op : ℕ) : v.source p.timerid ≠ some (.fd stream op) := by
  intro hs
  by_cases hz : p.timerid = 0
  · simp [hz, h.zero] at hs
  · cases (h.childTimer pid p hp hz).2 _ hs

theorem repeatTimer_ne (h : Inv v) {op timer : ℕ} (ht : v.repeatTimer op = some timer)
    (stream : Stream) (k : ℕ) : v.source timer ≠ some (.fd stream k) := by
  intro hs
  cases (h.repeatTimer op timer ht).2 _ hs

theorem inv_addChildTimeout (h : Inv v) (pid : ℤ) : Inv (v.addSource (.childTimeout pid)) := by
  refine {
    h with
    fresh := h.fresh_addSource _
    childTimer := fun qid p hp hne => (h.childTimer qid p hp hne).addSource _
    waiting := fun k o hk => ?_
    repeatTimer := fun o k hk => (h.repeatTimer o k hk).addSource _
    watch := fun k t o hk => ?_
    gsource := fun o t k hk => h.source_addSource _ (h.gsource o t k hk)
    oneShot := fun o ho => ?_
    positive := Nat.succ_pos _
    zero := h.zero_addSource _ }
  · rcases of_addSource hk with ⟨-, heq⟩ | hsource
    · cases heq
    · exact h.waiting k o hsource
  · rcases of_addSource hk with ⟨-, heq⟩ | hsource
    · cases heq
    · exact h.watch k t o hsource
  · obtain ⟨hle, hlast⟩ := h.oneShot o ho
    refine ⟨hle, fun hfreed => ⟨(hlast hfreed).1, ?_⟩⟩
    rintro ⟨k, t, hk⟩
    rcases of_addSource hk with ⟨-, heq⟩ | hsource
    · cases heq
    · exact (hlast hfreed).2 ⟨k, t, hsource⟩

theorem inv_setPid (h : Inv v) {op : ℕ} {i : ℤ} (hi : v.interval op = some i)
    (hrun : ¬ v.Running op) (pid : ℤ) : Inv (v.setPid op pid) := by
  refine { h with child := fun qid p hp => ?_, unused := fun o ho => ?_ }
  · obtain ⟨hpid, o, ho, hopid⟩ := h.child qid p hp
    have hne : o ≠ op := by
      rintro rfl
      exact hrun ⟨qid, p, hp, ho⟩
    exact ⟨hpid, o, ho, (Function.update_of_ne hne _ _).trans hopid⟩
  · obtain ⟨hfreed, hident, hpid, hrest⟩ := h.unused o ho
    have hne : o ≠ op := ne_of_interval hi ho
    exact ⟨hfreed, hident, (Function.update_of_ne hne _ _).trans hpid, hrest⟩

theorem of_setChild {pid qid : ℤ} {q : Option (MainloopChild ℕ)} {p : MainloopChild ℕ}
    (h : (v.setChild pid q).child qid = some p) :
    (qid = pid ∧ q = some p) ∨ v.child qid = some p := by
  change Function.update v.child pid q qid = some p at h
  by_cases heq : qid = pid
  · rw [heq, Function.update_self] at h
    exact .inl ⟨heq, h⟩
  · rw [Function.update_of_ne heq] at h
    exact .inr h

/-- An entry may change if it names its own pid, an action with that pid that may run, and a timer
that was made for it. -/
theorem inv_setChild (h : Inv v) {pid : ℤ} {q : Option (MainloopChild ℕ)}
    (hchild : ∀ p, q = some p → p.pid = pid ∧
      ∃ op, p.privatedata = some op ∧ v.pid op = some pid)
    (htimer : ∀ p, q = some p → p.timerid ≠ 0 → v.GivenTo p.timerid (.childTimeout pid))
    (hidle : ∀ p op, q = some p → p.privatedata = some op → ¬ v.Waiting op ∧
      (v.interval op = some 0 → v.freed op = 0)) : Inv (v.setChild pid q) := by
  have hrunning : ∀ {o}, (v.setChild pid q).Running o →
      (¬ v.Waiting o ∧ (v.interval o = some 0 → v.freed o = 0)) ∨ v.Running o := by
    rintro o ⟨qid, p, hp, hpo⟩
    rcases of_setChild hp with ⟨-, heq⟩ | hold
    · exact .inl (hidle p o heq hpo)
    · exact .inr ⟨qid, p, hold, hpo⟩
  refine {
    h with
    child := fun qid p hp => ?_
    childTimer := fun qid p hp hne => ?_
    waiting := fun k o hk => ?_
    oneShot := fun o ho => ?_ }
  · rcases of_setChild hp with ⟨rfl, heq⟩ | hold
    · exact hchild p heq
    · exact h.child qid p hold
  · rcases of_setChild hp with ⟨rfl, heq⟩ | hold
    · exact htimer p heq hne
    · exact h.childTimer qid p hold hne
  · obtain ⟨hnot, hrest⟩ := h.waiting k o hk
    refine ⟨fun hrun => ?_, hrest⟩
    rcases hrunning hrun with ⟨hwaits, -⟩ | hold
    · exact hwaits ⟨k, hk⟩
    · exact hnot hold
  · obtain ⟨hle, hlast⟩ := h.oneShot o ho
    refine ⟨hle, fun hfreed => ⟨fun hrun => ?_, (hlast hfreed).2⟩⟩
    rcases hrunning hrun with ⟨-, hlive⟩ | hold
    · exact hfreed (hlive ho)
    · exact (hlast hfreed).1 hold

theorem inv_newChild (h : Inv v) {op : ℕ} {pid : ℤ} {p : MainloopChild ℕ}
    (hp : p.pid = pid) (hop : p.privatedata = some op) (hpid : v.pid op = some pid)
    (hwaits : ¬ v.Waiting op) (hlive : v.interval op = some 0 → v.freed op = 0)
    (ht : p.timerid ≠ 0 → v.GivenTo p.timerid (.childTimeout pid)) :
    Inv (v.setChild pid (some p)) := by
  refine inv_setChild h (fun q hq => ?_) (fun q hq => ?_) (fun q o hq ho => ?_)
  all_goals cases hq
  · exact ⟨hp, op, hop, hpid⟩
  · exact ht
  · rw [hop] at ho
    cases ho
    exact ⟨hwaits, hlive⟩

theorem inv_editChild (h : Inv v) {pid : ℤ} {p q : MainloopChild ℕ} (hp : v.child pid = some p)
    (hpid : q.pid = p.pid) (hop : q.privatedata = p.privatedata)
    (ht : q.timerid ≠ 0 → v.GivenTo q.timerid (.childTimeout pid)) :
    Inv (v.setChild pid (some q)) := by
  refine inv_setChild h (fun r hr => ?_) (fun r hr => ?_) (fun r o hr ho => ?_)
  all_goals cases hr
  · obtain ⟨hself, hdata⟩ := h.child pid p hp
    rw [hpid, hop]
    exact ⟨hself, hdata⟩
  · exact ht
  · rw [hop] at ho
    have hrun : v.Running o := ⟨pid, p, hp, ho⟩
    refine ⟨?_, fun hz => ?_⟩
    · rintro ⟨k, hk⟩
      exact (h.waiting k o hk).1 hrun
    · by_contra hfreed
      exact ((h.oneShot o hz).2 hfreed).1 hrun

theorem inv_removeChild (h : Inv v) (pid : ℤ) : Inv (v.setChild pid none) := by
  apply inv_setChild h
  · intro p hp
    cases hp
  · intro p hp
    cases hp
  · intro p op hp
    cases hp

theorem inv_register (h : Inv v) {op : ℕ} {i : ℤ} {id : Text} (hi : v.interval op = some i)
    (hpos : 0 < i) (hid : v.id op = some id) : Inv (v.register id op) := by
  refine { h with recurring := fun key o ho => ?_ }
  change Function.update v.recurring id (some op) key = some o at ho
  by_cases hkey : key = id
  · rw [hkey, Function.update_self] at ho
    cases ho
    rw [hkey]
    exact ⟨hid, i, hi, hpos⟩
  · rw [Function.update_of_ne hkey] at ho
    exact h.recurring key o ho

theorem inv_free (h : Inv v) {op : ℕ} {i : ℤ} (hi : v.interval op = some i)
    (hlast : i = 0 → v.freed op = 0 ∧ ¬ v.Running op ∧ ¬ v.Watched op) : Inv (v.free op) := by
  have hother : ∀ {o}, o ≠ op → (v.free op).freed o = v.freed o := fun ho =>
    Function.update_of_ne ho _ _
  refine { h with oneShot := fun o ho => ?_, unused := fun o ho => ?_ }
  · by_cases heq : o = op
    · subst heq
      change v.interval o = some 0 at ho
      rw [hi] at ho
      cases ho
      obtain ⟨hzero, hidle⟩ := hlast rfl
      have hone : (v.free o).freed o = 1 := by
        change Function.update v.freed o (v.freed o + 1) o = 1
        rw [Function.update_self, hzero]
      exact ⟨le_of_eq hone, fun _ => hidle⟩
    · rw [hother heq]
      exact h.oneShot o ho
  · rw [hother (ne_of_interval hi ho)]
    exact h.unused o ho

theorem inv_alloc (h : Inv v) {op : ℕ} (hop : v.interval op = none) (interval : ℤ)
    (name action : Text) :
    Inv (v.alloc op interval (actionId name action interval) (name, action)) := by
  obtain ⟨hfreed, -, hpid, -, -⟩ := h.unused op hop
  have hother : ∀ {o i}, v.interval o = some i → o ≠ op := fun hi => (ne_of_interval hi hop).symm
  refine {
    h with
    child := fun pid p hp => ?_
    waiting := fun k o hk => ?_
    repeatTimer := fun o k hk => ?_
    recurring := fun key o ho => ?_
    watch := fun k t o hk => ?_
    gsource := fun o t k hk => ?_
    ident := fun o i hi => ?_
    oneShot := fun o ho => ?_
    unused := fun o ho => ?_ }
  · obtain ⟨hself, o, ho, hopid⟩ := h.child pid p hp
    have hne : o ≠ op := by
      rintro rfl
      rw [hpid] at hopid
      cases hopid
    exact ⟨hself, o, ho, (Function.update_of_ne hne _ _).trans hopid⟩
  · obtain ⟨hidle, htimer, i, hi, hne⟩ := h.waiting k o hk
    exact ⟨hidle, (Function.update_of_ne (hother hi) _ _).trans htimer, i,
      (Function.update_of_ne (hother hi) _ _).trans hi, hne⟩
  · change Function.update v.repeatTimer op (some 0) o = some k at hk
    by_cases heq : o = op
    · rw [heq, Function.update_self] at hk
      cases hk
      refine ⟨h.positive, fun y hy => ?_⟩
      change v.source 0 = some y at hy
      rw [h.zero] at hy
      cases hy
    · rw [Function.update_of_ne heq] at hk
      exact h.repeatTimer o k hk
  · obtain ⟨hkey, i, hi, hpos⟩ := h.recurring key o ho
    exact ⟨(Function.update_of_ne (hother hi) _ _).trans hkey, i,
      (Function.update_of_ne (hother hi) _ _).trans hi, hpos⟩
  · obtain ⟨i, hi, hpoint⟩ := h.watch k t o hk
    exact ⟨i, (Function.update_of_ne (hother hi) _ _).trans hi,
      fun hz => (if_neg (hother hi)).trans (hpoint hz)⟩
  · change (if o = op then none else v.gsource t o) = some k at hk
    split at hk
    · cases hk
    · exact h.gsource o t k hk
  · change Function.update v.interval op (some interval) o = some i at hi
    by_cases heq : o = op
    · rw [heq, Function.update_self] at hi
      cases hi
      rw [heq]
      exact ⟨name, action, Function.update_self _ _ _, Function.update_self _ _ _⟩
    · rw [Function.update_of_ne heq] at hi
      obtain ⟨n, a, hname, hident⟩ := h.ident o i hi
      exact ⟨n, a, (Function.update_of_ne heq _ _).trans hname,
        (Function.update_of_ne heq _ _).trans hident⟩
  · change Function.update v.interval op (some interval) o = some 0 at ho
    by_cases heq : o = op
    · subst heq
      exact ⟨le_of_eq_of_le hfreed (Nat.zero_le 1), fun hne => absurd hfreed hne⟩
    · rw [Function.update_of_ne heq] at ho
      exact h.oneShot o ho
  · change Function.update v.interval op (some interval) o = none at ho
    by_cases heq : o = op
    · rw [heq, Function.update_self] at ho
      cases ho
    · rw [Function.update_of_ne heq] at ho
      obtain ⟨hfreed, hident, hpid, hrep, hgs⟩ := h.unused o ho
      exact ⟨hfreed, (Function.update_of_ne heq _ _).trans hident,
        (Function.update_of_ne heq _ _).trans hpid, (Function.update_of_ne heq _ _).trans hrep,
        fun t => (if_neg heq).trans (hgs t)⟩

/-! ## The operations of the engine -/

def dropWatch (v : Registry) (stream : Stream) (op : ℕ) : Registry :=
  match v.gsource stream op with
  | some id => v.unwatch id stream op
  | none => v

def release (v : Registry) (op : ℕ) : Registry :=
  ((v.dropWatch .stderr op).dropWatch .stdout op).free op

def spawn (v : Registry) (op : ℕ) (pid timeout : ℤ) (desc : Text) : Registry :=
  let timerid := if timeout ≠ 0 then v.next else 0
  let v := v.setPid op pid
  let v := if timeout ≠ 0 then v.addSource (.childTimeout pid) else v
  ((v.setChild pid (some ⟨pid, desc, timerid, false, some op⟩)).watch .stdout op).watch .stderr op

def log (v : Registry) (op : ℕ) : Registry :=
  { v with executed := op :: v.executed }

def launch (v : Registry) (op : ℕ) (timeout : ℤ) (desc : Text) : Option ℕ → Registry
  | some pid => (v.log op).spawn op pid timeout desc
  | none => (v.log op).setPid op (-1)

def start (v : Registry) (op : ℕ) (interval timeout : ℤ) (id : Text) (fork : Option ℕ) :
    Registry :=
  (if 0 < interval then v.register id op else v).launch op timeout id fork

def complete (v : Registry) (op : ℕ) (interval : ℤ) : Registry :=
  if interval ≠ 0 then (v.arm op).setPid op 0 else (v.setPid op 0).release op

def expire (v : Registry) (pid : ℤ) (kill : KillResult) : Registry :=
  match v.child pid with
  | none => v
  | some p =>
    if p.timeout then v.setChild pid (some { p with timerid := 0 })
    else if kill = .esrch then v.setChild pid (some { p with timerid := 0, timeout := true })
    else (v.addSource (.childTimeout pid)).setChild pid
      (some { p with timerid := v.next, timeout := true })

theorem dropWatch_eq (v : Registry) (stream : Stream) (op : ℕ) :
    v.dropWatch stream op = v ∨ ∃ id, v.gsource stream op = some id ∧
      v.dropWatch stream op = v.unwatch id stream op := by
  unfold dropWatch
  split
  · exact .inr ⟨_, ‹_›, rfl⟩
  · exact .inl rfl

theorem inv_dropWatch (h : Inv v) (stream : Stream) (op : ℕ) : Inv (v.dropWatch stream op) := by
  obtain he | ⟨id, hid, he⟩ := v.dropWatch_eq stream op
  · rwa [he]
  · rw [he]
    exact inv_unwatch h (h.gsource op stream id hid)

def Pointed (v : Registry) (op : ℕ) : Prop :=
  ∀ stream id, v.gsource stream op = some id → v.source id = some (.fd stream op)

theorem pointed_dropWatch {op : ℕ} (h : v.Pointed op) (stream : Stream) :
    (v.dropWatch stream op).Pointed op := by
  obtain he | ⟨id, hid, he⟩ := v.dropWatch_eq stream op
  · rwa [he]
  · rw [he]
    intro t k hk
    change (if op = op ∧ t = stream then none else v.gsource t op) = some k at hk
    split at hk
    · cases hk
    · rename_i hother
      have hne : k ≠ id := by
        rintro rfl
        have heq := (h t k hk).symm.trans (h stream k hid)
        cases heq
        exact hother ⟨rfl, rfl⟩
      exact (Function.update_of_ne hne _ _).trans (h t k hk)

theorem dropWatch_setChild (v : Registry) (stream : Stream) (op : ℕ) (pid : ℤ)
    (p : Option (MainloopChild ℕ)) :
    (v.setChild pid p).dropWatch stream op = (v.dropWatch stream op).setChild pid p := by
  unfold dropWatch
  change (match v.gsource stream op with | some id => _ | none => _) = _
  cases v.gsource stream op <;> rfl

theorem release_setChild (v : Registry) (op : ℕ) (pid : ℤ) (p : Option (MainloopChild ℕ)) :
    (v.setChild pid p).release op = (v.release op).setChild pid p := by
  unfold release
  rw [dropWatch_setChild, dropWatch_setChild]
  rfl

theorem complete_setChild (v : Registry) (op : ℕ) (interval pid : ℤ)
    (p : Option (MainloopChild ℕ)) :
    (v.setChild pid p).complete op interval = (v.complete op interval).setChild pid p := by
  unfold complete
  split
  · rfl
  · exact release_setChild (v.setPid op 0) op pid p

/-- Dropping a watch keeps whatever ending a watch keeps. -/
theorem dropWatch_keeps {β : Type} (g : Registry → β) {stream : Stream} {op : ℕ}
    (hg : ∀ w id, g (unwatch w id stream op) = g w) (v : Registry) :
    g (v.dropWatch stream op) = g v := by
  obtain he | ⟨id, -, he⟩ := v.dropWatch_eq stream op
  · rw [he]
  · rw [he, hg]

theorem release_keeps {β : Type} (g : Registry → β) {op : ℕ}
    (hg : ∀ w id stream, g (unwatch w id stream op) = g w) (hf : ∀ w, g (free w op) = g w)
    (v : Registry) : g (v.release op) = g v := by
  unfold release
  rw [hf, dropWatch_keeps g fun w id => hg w id .stdout, dropWatch_keeps g fun w id => hg w id .stderr]

theorem dropWatch_source {stream : Stream} {op k : ℕ} {x : Source ℕ}
    (h : (v.dropWatch stream op).source k = some x) : v.source k = some x := by
  obtain he | ⟨id, -, he⟩ := v.dropWatch_eq stream op
  · rwa [he] at h
  · rw [he] at h
    have hold : (v.removeSource id).source k = some x := h
    exact (of_removeSource hold).2

theorem release_source {op k : ℕ} {x : Source ℕ} (h : (v.release op).source k = some x) :
    v.source k = some x :=
  dropWatch_source (dropWatch_source h)

theorem dropWatch_freed (v : Registry) (stream : Stream) (op : ℕ) :
    (v.dropWatch stream op).freed = v.freed :=
  dropWatch_keeps Registry.freed (fun _ _ => rfl) v

theorem release_freed (v : Registry) (op : ℕ) :
    (v.release op).freed = Function.update v.freed op (v.freed op + 1) := by
  simp only [release, free, dropWatch_freed]

theorem release_interval (v : Registry) (op : ℕ) : (v.release op).interval = v.interval :=
  release_keeps Registry.interval (fun _ _ _ => rfl) (fun _ => rfl) v

theorem complete_frame (v : Registry) (op : ℕ) (i : ℤ) :
    (v.complete op i).child = v.child ∧ (v.complete op i).interval = v.interval ∧
    (v.complete op i).name = v.name ∧ (v.complete op i).recurring = v.recurring ∧
    (v.complete op i).executed = v.executed := by
  unfold complete
  split
  · exact ⟨rfl, rfl, rfl, rfl, rfl⟩
  · exact ⟨release_keeps child (fun _ _ _ => rfl) (fun _ => rfl) _,
      release_keeps interval (fun _ _ _ => rfl) (fun _ => rfl) _,
      release_keeps name (fun _ _ _ => rfl) (fun _ => rfl) _,
      release_keeps recurring (fun _ _ _ => rfl) (fun _ => rfl) _,
      release_keeps executed (fun _ _ _ => rfl) (fun _ => rfl) _⟩

theorem dropWatch_unwatched (h : Inv v) (stream : Stream) {op : ℕ} (hi : v.interval op = some 0)
    (id : ℕ) : (v.dropWatch stream op).source id ≠ some (.fd stream op) := by
  intro hid
  have hold := dropWatch_source hid
  obtain ⟨i, hi', hg⟩ := h.watch id stream op hold
  obtain rfl : 0 = i := by simpa [hi] using hi'
  have hgs : v.gsource stream op = some id := hg rfl
  simp only [dropWatch, hgs, unwatch, removeSource, setGsource, Function.update_self] at hid
  cases hid

theorem inv_release (h : Inv v) {op : ℕ} {i : ℤ} (hi : v.interval op = some i)
    (hlast : i = 0 → v.freed op = 0 ∧ ¬ v.Running op) : Inv (v.release op) := by
  have h₁ := inv_dropWatch h .stderr op
  have h₂ := inv_dropWatch h₁ .stdout op
  have hi₁ : (v.dropWatch .stderr op).interval op = some i := by
    rw [dropWatch_keeps interval fun _ _ => rfl, hi]
  have hi₂ : ((v.dropWatch .stderr op).dropWatch .stdout op).interval op = some i := by
    rw [dropWatch_keeps interval fun _ _ => rfl, hi₁]
  refine inv_free h₂ hi₂ ?_
  rintro rfl
  obtain ⟨hfreed, hrun⟩ := hlast rfl
  refine ⟨?_, ?_, ?_⟩
  · rw [dropWatch_freed, dropWatch_freed, hfreed]
  · unfold Running
    rw [dropWatch_keeps child fun _ _ => rfl, dropWatch_keeps child fun _ _ => rfl]
    exact hrun
  · rintro ⟨id, stream, hid⟩
    cases stream with
    | stdout => exact dropWatch_unwatched h₁ .stdout hi₁ id hid
    | stderr => exact dropWatch_unwatched h .stderr hi id (dropWatch_source hid)

theorem inv_spawn (h : Inv v) {op : ℕ} {i pid : ℤ} (hi : v.interval op = some i)
    (hrun : ¬ v.Running op) (hwaits : ¬ v.Waiting op)
    (hnew : i = 0 → v.freed op = 0 ∧ ∀ stream, v.gsource stream op = none)
    (timeout : ℤ) (desc : Text) : Inv (v.spawn op pid timeout desc) := by
  have hone : ∀ j, v.interval op = some j → j = 0 → v.freed op = 0 ∧
      ∀ stream, v.gsource stream op = none := by
    intro j hj hz
    obtain rfl : i = j := by simpa [hi] using hj
    exact hnew hz
  unfold spawn
  split
  · have h₁ := inv_addChildTimeout (inv_setPid h hi hrun pid) pid
    have hwaits' : ¬ ((v.setPid op pid).addSource (.childTimeout pid)).Waiting op := by
      rintro ⟨id, hid⟩
      rcases of_addSource hid with ⟨-, heq⟩ | hold
      · cases heq
      · exact hwaits ⟨id, hold⟩
    have h₂ := inv_newChild (p := ⟨pid, desc, v.next, false, some op⟩) h₁ rfl rfl
      (Function.update_self ..) hwaits' (fun hz => (hone 0 hz rfl).1)
      (fun _ => givenTo_next (v.setPid op pid) _)
    have h₃ := inv_watch h₂ .stdout hi fun hz => ⟨(hnew hz).2 _, (hnew hz).1⟩
    exact inv_watch h₃ .stderr hi fun hz => ⟨by
      simpa [watch, setGsource, addSource, setChild, setPid] using (hnew hz).2 .stderr, (hnew hz).1⟩
  · have h₁ := inv_setPid h hi hrun pid
    have h₂ := inv_newChild (p := ⟨pid, desc, 0, false, some op⟩) h₁ rfl rfl
      (Function.update_self ..) hwaits (fun hz => (hone 0 hz rfl).1) (fun hne => absurd rfl hne)
    have h₃ := inv_watch h₂ .stdout hi fun hz => ⟨(hnew hz).2 _, (hnew hz).1⟩
    exact inv_watch h₃ .stderr hi fun hz => ⟨by
      simpa [watch, setGsource, addSource, setChild, setPid] using (hnew hz).2 .stderr, (hnew hz).1⟩

theorem inv_launch (h : Inv v) {op : ℕ} {i : ℤ} (hi : v.interval op = some i)
    (hrun : ¬ v.Running op) (hwaits : ¬ v.Waiting op)
    (hnew : i = 0 → v.freed op = 0 ∧ ∀ stream, v.gsource stream op = none)
    (timeout : ℤ) (desc : Text) (fork : Option ℕ) : Inv (v.launch op timeout desc fork) := by
  have hlog : Inv (v.log op) := ⟨h.fresh, h.child, h.childTimer, h.waiting, h.repeatTimer,
    h.recurring, h.watch, h.gsource, h.ident, h.oneShot, h.unused, h.positive, h.zero⟩
  cases fork with
  | none => exact inv_setPid hlog hi hrun (-1)
  | some pid => exact inv_spawn hlog hi hrun hwaits hnew timeout desc

theorem inv_start (h : Inv v) {op : ℕ} {i : ℤ} (hi : v.interval op = some i)
    (hrun : ¬ v.Running op) (hwaits : ¬ v.Waiting op)
    (hnew : i = 0 → v.freed op = 0 ∧ ∀ stream, v.gsource stream op = none)
    (timeout : ℤ) {id : Text} (hid : v.id op = some id) (fork : Option ℕ) :
    Inv (v.start op i timeout id fork) := by
  unfold start
  split
  · exact inv_launch (inv_register h hi ‹_› hid) hi hrun hwaits hnew timeout id fork
  · exact inv_launch h hi hrun hwaits hnew timeout id fork

section
variable (v : Registry) (op : ℕ) (interval timeout : ℤ) (id : Text) (fork : Option ℕ)

theorem launch_frame : (v.launch op timeout id fork).freed = v.freed ∧
    (v.launch op timeout id fork).interval = v.interval ∧
    (v.launch op timeout id fork).recurring = v.recurring ∧
    (v.launch op timeout id fork).executed = op :: v.executed ∧
    (v.launch op timeout id fork).id = v.id ∧ (v.launch op timeout id fork).name = v.name := by
  cases fork with
  | none => exact ⟨rfl, rfl, rfl, rfl, rfl, rfl⟩
  | some pid =>
    simp only [launch, spawn]
    split <;> exact ⟨rfl, rfl, rfl, rfl, rfl, rfl⟩

theorem start_frame : (v.start op interval timeout id fork).freed = v.freed ∧
    (v.start op interval timeout id fork).interval = v.interval ∧
    (v.start op interval timeout id fork).executed = op :: v.executed ∧
    (v.start op interval timeout id fork).id = v.id ∧
    (v.start op interval timeout id fork).name = v.name := by
  unfold start
  split
  · obtain ⟨hf, hi, -, he, hid, hn⟩ := launch_frame (v.register id op) op timeout id fork
    exact ⟨hf, hi, he, hid, hn⟩
  · obtain ⟨hf, hi, -, he, hid, hn⟩ := launch_frame v op timeout id fork
    exact ⟨hf, hi, he, hid, hn⟩

theorem start_recurring : (v.start op interval timeout id fork).recurring =
    if 0 < interval then Function.update v.recurring id (some op) else v.recurring := by
  unfold start
  rw [(launch_frame _ op timeout id fork).2.2.1]
  split <;> rfl

end

/-- An action has at most one child. -/
theorem running_unique (h : Inv v) {op : ℕ} {pid qid : ℤ} {p q : MainloopChild ℕ}
    (hp : v.child pid = some p) (hop : p.privatedata = some op)
    (hq : v.child qid = some q) (hoq : q.privatedata = some op) : pid = qid := by
  obtain ⟨-, o, ho, hpid⟩ := h.child pid p hp
  obtain ⟨-, o', ho', hqid⟩ := h.child qid q hq
  grind

/-- `operation_finished`, with the table entry gone. -/
theorem inv_complete (h : Inv v) {pid : ℤ} {p : MainloopChild ℕ} {op : ℕ} {i : ℤ}
    (hp : v.child pid = some p) (hop : p.privatedata = some op) (hi : v.interval op = some i) :
    Inv ((v.setChild pid none).complete op i) := by
  have hgone : ¬ (v.setChild pid none).Running op := by
    rintro ⟨qid, q, hq, hoq⟩
    simp only [setChild, Function.update_apply] at hq
    split at hq
    · cases hq
    · rename_i hne
      exact hne (running_unique h hq hoq hp hop)
  have hwaits : ¬ (v.setChild pid none).Waiting op := by
    rintro ⟨id, hid⟩
    exact (h.waiting id op hid).1 ⟨pid, p, hp, hop⟩
  have h₁ := inv_removeChild h pid
  unfold complete
  split
  · exact inv_setPid (inv_arm h₁ hi ‹_› hgone hwaits) hi hgone 0
  · rename_i hz
    refine inv_release (inv_setPid h₁ hi hgone 0) hi fun hz => ⟨?_, hgone⟩
    subst hz
    by_contra hfreed
    exact ((h.oneShot op hi).2 hfreed).1 ⟨pid, p, hp, hop⟩

theorem expire_frame (v : Registry) (pid : ℤ) (kill : KillResult) :
    (v.expire pid kill).freed = v.freed ∧ (v.expire pid kill).interval = v.interval ∧
    (v.expire pid kill).recurring = v.recurring ∧ (v.expire pid kill).executed = v.executed ∧
    (v.expire pid kill).id = v.id ∧ (v.expire pid kill).name = v.name := by
  unfold expire
  split
  · exact ⟨rfl, rfl, rfl, rfl, rfl, rfl⟩
  · split
    · exact ⟨rfl, rfl, rfl, rfl, rfl, rfl⟩
    · split <;> exact ⟨rfl, rfl, rfl, rfl, rfl, rfl⟩

theorem expire_source {id : ℕ} (hid : id < v.next) (pid : ℤ) (kill : KillResult) :
    (v.expire pid kill).source id = v.source id := by
  unfold expire
  split
  · rfl
  · split
    · rfl
    · split
      · rfl
      · exact Function.update_of_ne (Nat.ne_of_lt hid) ..

theorem inv_expire (h : Inv v) (pid : ℤ) (kill : KillResult) : Inv (v.expire pid kill) := by
  unfold expire
  split
  · exact h
  · rename_i p hp
    split
    · exact inv_editChild h hp rfl rfl fun hne => absurd rfl hne
    · split
      · exact inv_editChild h hp rfl rfl fun hne => absurd rfl hne
      · exact inv_editChild (inv_addChildTimeout h pid) hp rfl rfl fun _ => givenTo_next v _

theorem launch_removeSource (v : Registry) {id : ℕ} (hid : id < v.next) (op : ℕ) (timeout : ℤ)
    (desc : Text) (fork : Option ℕ) :
    (v.launch op timeout desc fork).removeSource id =
      (v.removeSource id).launch op timeout desc fork := by
  cases fork with
  | none => rfl
  | some pid =>
    simp only [launch, log, spawn, watch, addSource, setGsource, setChild, setPid, removeSource]
    split
    all_goals
      refine Registry.ext rfl ?_ rfl rfl rfl rfl rfl rfl rfl rfl rfl rfl
      funext k
      simp only [Function.update_apply]
      grind

theorem start_removeSource (v : Registry) {id : ℕ} (hid : id < v.next) (op : ℕ)
    (interval timeout : ℤ) (name : Text) (fork : Option ℕ) :
    (v.start op interval timeout name fork).removeSource id =
      (v.removeSource id).start op interval timeout name fork := by
  unfold start
  split
  · exact launch_removeSource (v.register name op) hid op timeout name fork
  · exact launch_removeSource v hid op timeout name fork

end Registry

end Matahari.Services
