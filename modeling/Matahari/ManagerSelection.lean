import Matahari.Library.OnDemand
import Matahari.Mainloop

set_option autoImplicit false

/-!
# The selected objects

The state of the Python API: filters on hosts, a class and property values, and the objects that
they select. `Proxy` asks the QMF session for them once, agent by agent, and `CacheDescriptor`
keeps it until a filter changes. `K` is the type of the routing keys of agents, `V` that of
property values, and `W` what the session knows at a moment, which changes from query to query.
-/
namespace Matahari.Api
open Mainloop OnDemand

variable {W O K V : Type}

structure Query (K V : Type) where
  klass : Text
  package : Option Text
  agent : Option K
  properties : List (Text × V)

structure Objects (W O K V : Type) where
  published : W → List O
  klass : O → Text
  package : O → Text
  agent : O → K
  property : W → O → Text → Option V

structure Objects.Matches (objects : Objects W O K V) (w : W) (q : Query K V) (o : O) : Prop where
  published : o ∈ objects.published w
  klass : objects.klass o = q.klass
  package : ∀ package, q.package = some package → objects.package o = package
  agent : ∀ agent, q.agent = some agent → objects.agent o = agent
  properties : ∀ p ∈ q.properties, objects.property w o p.1 = some p.2

/-- `qmf.console.Session`, with `none` for an exception. It answers with the objects that match,
each of them once. -/
structure Session (W O K V : Type) extends Objects W O K V where
  getObjects : W → Query K V → Option (List O)
  mem_getObjects : ∀ w q os, getObjects w q = some os →
    ∀ o, o ∈ os ↔ toObjects.Matches w q o
  nodup_getObjects : ∀ w q os, getObjects w q = some os → os.Nodup

structure Frozenset (K : Type) where
  iter : List K → List K
  mem_iter : ∀ ks k, k ∈ iter ks ↔ k ∈ ks
  nodup_iter : ∀ ks, (iter ks).Nodup

def runQueries (session : Session W O K V) (ws : ℕ → W) : ℕ → List (Query K V) → Option (List O)
  | _, [] => some []
  | n, q :: qs =>
    (session.getObjects (ws n) q).bind fun os => (runQueries session ws (n + 1) qs).map (os ++ ·)

/-- The queries of `Manager.agents`: one for each host, which is given by its UUID. -/
def agentQueries (hosts : Option (List V)) : List (Query K V) :=
  let agents (properties : List (Text × V)) : Query K V :=
    ⟨"Agent".toList, some "org.matahariproject".toList, none, properties⟩
  match hosts with
  | none => [agents []]
  | some hosts => hosts.map fun uuid => agents [("uuid".toList, uuid)]

structure Filters (V : Type) where
  hosts : Option (List V)
  package : Option Text
  klass : Option Text
  properties : List (Text × V)

def objectQueries (filters : Filters V) (klass : Text) (agents : List K) : List (Query K V) :=
  agents.map fun agent => ⟨klass, filters.package, some agent, filters.properties⟩

def proxyObjects (session : Session W O K V) (set : Frozenset K) (filters : Filters V)
    (klass : Text) (ws : ℕ → W) : Option (List O) :=
  let queries := agentQueries filters.hosts
  (runQueries session ws 0 queries).bind fun agents =>
    runQueries session ws queries.length
      (objectQueries filters klass (set.iter (agents.map session.agent)))

/-- `CacheDescriptor.__get__`, where nothing is kept: there is no proxy without a class. -/
def construct (session : Session W O K V) (set : Frozenset K) (filters : Filters V)
    (ws : ℕ → W) : Option (Option (List O)) :=
  match filters.klass with
  | none => some none
  | some klass => (proxyObjects session set filters klass ws).map some

structure State (O V : Type) where
  filters : Filters V
  cache : Option (Option (List O))

namespace State

def init : State O V := ⟨⟨none, none, none, []⟩, none⟩

def delObjects (s : State O V) : State O V := { s with cache := none }

def setHosts (s : State O V) (hosts : Option (List V)) : State O V :=
  { s with filters.hosts := hosts }.delObjects

def setClass (s : State O V) (klass package : Option Text) : State O V :=
  { s with filters.klass := klass, filters.package := package, filters.properties := [] }.delObjects

def setPropertyFilter (s : State O V) (name : Text) (value : V) : State O V :=
  { s with
    filters.properties :=
      s.filters.properties.filter (fun p : Text × V => p.1 ≠ name) ++ [(name, value)] }.delObjects

def clearPropertyFilter (s : State O V) : State O V :=
  { s with filters.properties := [] }.delObjects

def clearState (s : State O V) : State O V :=
  (s.clearPropertyFilter.setClass none none).setHosts none

def objects (session : Session W O K V) (set : Frozenset K) (s : State O V) (ws : ℕ → W) :
    State O V × Option (Option (List O)) :=
  match s.cache with
  | some proxy => (s, some proxy)
  | none =>
    match construct session set s.filters ws with
    | some proxy => ({ s with cache := some proxy }, some proxy)
    | none => (s, none)

end State

inductive Call (W V : Type) where
  | setHosts (hosts : Option (List V))
  | setClass (klass package : Option Text)
  | setPropertyFilter (name : Text) (value : V)
  | clearPropertyFilter
  | clearState
  | objects (ws : ℕ → W)

def State.step (session : Session W O K V) (set : Frozenset K) (s : State O V) :
    Call W V → State O V
  | .setHosts hosts => s.setHosts hosts
  | .setClass klass package => s.setClass klass package
  | .setPropertyFilter name value => s.setPropertyFilter name value
  | .clearPropertyFilter => s.clearPropertyFilter
  | .clearState => s.clearState
  | .objects ws => (s.objects session set ws).1

def State.run (session : Session W O K V) (set : Frozenset K) (calls : List (Call W V)) :
    State O V :=
  calls.foldl (State.step session set) State.init

/-! ## The queries -/

section
variable {session : Session W O K V} {set : Frozenset K} {ws : ℕ → W} {o : O}

theorem mem_runQueries {qs : List (Query K V)} {n : ℕ} {os : List O}
    (h : runQueries session ws n qs = some os) :
    o ∈ os ↔ ∃ i q, qs[i]? = some q ∧ session.Matches (ws (n + i)) q o := by
  induction qs generalizing n os with
  | nil =>
    cases h
    simp
  | cons q qs ih =>
    obtain ⟨first, hfirst, hrest⟩ := Option.bind_eq_some_iff.mp h
    obtain ⟨rest, hrest, hos⟩ := Option.map_eq_some_iff.mp hrest
    rw [← hos, List.mem_append, session.mem_getObjects _ _ _ hfirst, ih hrest]
    constructor
    · rintro (hmatch | ⟨i, q', hq', hmatch⟩)
      · exact ⟨0, q, rfl, hmatch⟩
      · refine ⟨i + 1, q', hq', ?_⟩
        rwa [show n + (i + 1) = n + 1 + i by omega]
    · rintro ⟨i, q', hq', hmatch⟩
      cases i with
      | zero =>
        cases hq'
        exact .inl hmatch
      | succ i =>
        refine .inr ⟨i, q', hq', ?_⟩
        rwa [show n + 1 + i = n + (i + 1) by omega]

theorem nodup_objectQueries {filters : Filters V} {klass : Text} {agents : List K} {n : ℕ}
    {os : List O} (hagents : agents.Nodup)
    (h : runQueries session ws n (objectQueries filters klass agents) = some os) : os.Nodup := by
  induction agents generalizing n os with
  | nil =>
    cases h
    exact List.nodup_nil
  | cons agent agents ih =>
    rw [List.nodup_cons] at hagents
    obtain ⟨first, hfirst, hrest⟩ := Option.bind_eq_some_iff.mp h
    obtain ⟨rest, hrest, hos⟩ := Option.map_eq_some_iff.mp hrest
    rw [← hos, List.nodup_append]
    refine ⟨session.nodup_getObjects _ _ _ hfirst, ih hagents.2 hrest, ?_⟩
    rintro o ho o' ho' rfl
    have hown := ((session.mem_getObjects _ _ _ hfirst o).mp ho).agent agent rfl
    obtain ⟨i, q, hq, hmatch⟩ := (mem_runQueries hrest).mp ho'
    obtain ⟨other, hother, rfl⟩ := List.mem_map.mp (List.mem_of_getElem? hq)
    exact hagents.1 (hown ▸ hmatch.agent other rfl ▸ hother)

end

/-! ## What is selected -/

/-- The host of an agent is selected, as one of the agent's own objects says. -/
structure OnSelectedHost (session : Session W O K V) (hosts : Option (List V)) (w : W) (agent : K)
    (o : O) : Prop where
  published : o ∈ session.published w
  klass : session.klass o = "Agent".toList
  package : session.package o = "org.matahariproject".toList
  agent : session.agent o = agent
  host : ∀ uuids, hosts = some uuids → ∃ uuid ∈ uuids,
    session.property w o "uuid".toList = some uuid

structure OfSelectedClass (session : Session W O K V) (filters : Filters V) (klass : Text) (w : W)
    (o : O) : Prop where
  published : o ∈ session.published w
  klass : session.klass o = klass
  package : ∀ package, filters.package = some package → session.package o = package
  properties : ∀ p ∈ filters.properties, session.property w o p.1 = some p.2

/-- What a selection is to be: each object once, none that the filters do not ask for, and all
that they ask for as long as the queries last and their hosts keep the UUID. -/
structure Selects (session : Session W O K V) (filters : Filters V) (klass : Text) (ws : ℕ → W)
    (os : List O) : Prop where
  once : os.Nodup
  sound : ∀ o ∈ os, ∃ i j a, i < j ∧
    OnSelectedHost session filters.hosts (ws i) (session.agent o) a ∧
    OfSelectedClass session filters klass (ws j) o
  complete : ∀ o a, (∀ i, OfSelectedClass session filters klass (ws i) o) →
    (∀ i, OnSelectedHost session filters.hosts (ws i) (session.agent o) a) →
    (∀ i, session.property (ws i) a "uuid".toList = session.property (ws 0) a "uuid".toList) →
    o ∈ os

section
variable {session : Session W O K V} {set : Frozenset K} {ws : ℕ → W}

theorem matches_agentQueries {hosts : Option (List V)} {i : ℕ} {q : Query K V} {w : W} {a : O}
    (hq : (agentQueries hosts)[i]? = some q) (h : session.Matches w q a) :
    OnSelectedHost session hosts w (session.agent a) a := by
  cases hosts with
  | none =>
    have hmem := List.mem_singleton.mp (List.mem_of_getElem? hq)
    subst hmem
    exact ⟨h.published, h.klass, h.package _ rfl, rfl, fun uuids huuids =>
      absurd huuids (Option.some_ne_none uuids).symm⟩
  | some uuids =>
    obtain ⟨uuid, huuid, rfl⟩ := List.mem_map.mp (List.mem_of_getElem? hq)
    refine ⟨h.published, h.klass, h.package _ rfl, rfl, fun uuids' huuids => ?_⟩
    cases huuids
    exact ⟨uuid, huuid, h.properties _ List.mem_cons_self⟩

/-- One of the queries for agents finds an agent whose host is selected. -/
theorem agentQueries_find {hosts : Option (List V)} {agent : K} {a : O}
    (h : ∀ i, OnSelectedHost session hosts (ws i) agent a)
    (hsame : ∀ i, session.property (ws i) a "uuid".toList =
      session.property (ws 0) a "uuid".toList) :
    ∃ i q, (agentQueries (K := K) hosts)[i]? = some q ∧ session.Matches (ws i) q a := by
  cases hosts with
  | none =>
    refine ⟨0, _, rfl, (h 0).published, (h 0).klass, fun package hpackage => ?_,
      fun agent hagent => absurd hagent (Option.some_ne_none agent).symm,
      fun p hp => absurd hp List.not_mem_nil⟩
    cases hpackage
    exact (h 0).package
  | some uuids =>
    obtain ⟨uuid, hmem, huuid⟩ := (h 0).host uuids rfl
    obtain ⟨i, hi⟩ := List.mem_iff_getElem?.mp hmem
    refine ⟨i, ⟨"Agent".toList, some "org.matahariproject".toList, none, [("uuid".toList, uuid)]⟩,
      ?_, (h i).published, (h i).klass, fun package hpackage => ?_,
      fun agent hagent => absurd hagent (Option.some_ne_none agent).symm, fun p hp => ?_⟩
    · exact List.getElem?_map.trans (congrArg _ hi)
    · cases hpackage
      exact (h i).package
    · obtain rfl := List.mem_singleton.mp hp
      exact (hsame i).trans huuid

theorem proxyObjects_selects {filters : Filters V} {klass : Text} {os : List O}
    (h : proxyObjects session set filters klass ws = some os) :
    Selects session filters klass ws os := by
  obtain ⟨agents, hagents, hobjects⟩ := Option.bind_eq_some_iff.mp h
  constructor
  · exact nodup_objectQueries (set.nodup_iter _) hobjects
  · intro o ho
    obtain ⟨j, q, hq, hmatch⟩ := (mem_runQueries hobjects).mp ho
    obtain ⟨agent, hagent, rfl⟩ := List.mem_map.mp (List.mem_of_getElem? hq)
    obtain ⟨a, ha, rfl⟩ := List.mem_map.mp ((set.mem_iter _ _).mp hagent)
    obtain ⟨i, q, hq, hfound⟩ := (mem_runQueries hagents).mp ha
    have hi : i < (agentQueries (K := K) filters.hosts).length :=
      (List.getElem?_eq_some_iff.mp hq).1
    rw [hmatch.agent _ rfl]
    exact ⟨0 + i, (agentQueries (K := K) filters.hosts).length + j, a, by omega,
      matches_agentQueries hq hfound,
      hmatch.published, hmatch.klass, hmatch.package, hmatch.properties⟩
  · intro o a hselected hhost hsame
    obtain ⟨i, q, hq, hfound⟩ := agentQueries_find hhost hsame
    have hagent : session.agent o ∈ set.iter (agents.map session.agent) := by
      rw [set.mem_iter, ← (hhost 0).agent]
      exact List.mem_map_of_mem
        ((mem_runQueries hagents).mpr ⟨i, q, hq, by rwa [Nat.zero_add]⟩)
    obtain ⟨j, hj⟩ := List.mem_iff_getElem?.mp hagent
    refine (mem_runQueries hobjects).mpr ⟨j, _, List.getElem?_map.trans (congrArg _ hj), ?_⟩
    have hat := hselected ((agentQueries (K := K) filters.hosts).length + j)
    refine ⟨hat.published, hat.klass, hat.package, fun agent hagent => ?_, hat.properties⟩
    cases hagent
    rfl

end

/-! ## The cache -/

def Call.event : Call W V → Event (Filters V) (ℕ → W)
  | .setHosts hosts => .change fun filters => { filters with hosts := hosts }
  | .setClass klass package =>
    .change fun filters => { filters with klass := klass, package := package, properties := [] }
  | .setPropertyFilter name value =>
    .change fun filters =>
      { filters with
        properties := filters.properties.filter (fun p : Text × V => p.1 ≠ name) ++ [(name, value)] }
  | .clearPropertyFilter => .change fun filters => { filters with properties := [] }
  | .clearState => .change fun _ => ⟨none, none, none, []⟩
  | .objects ws => .read ws

def State.cell (s : State O V) : Cell (Filters V) (Option (List O)) := ⟨s.filters, s.cache⟩

section
variable {session : Session W O K V} {set : Frozenset K}

theorem cell_objects (s : State O V) (ws : ℕ → W) :
    (s.objects session set ws).1.cell = (s.cell.read (construct session set) ws).1 ∧
      (s.objects session set ws).2 = (s.cell.read (construct session set) ws).2 := by
  unfold State.objects Cell.read State.cell
  cases hcache : s.cache with
  | some proxy =>
    dsimp only
    rw [hcache]
    exact ⟨rfl, rfl⟩
  | none =>
    dsimp only
    cases construct session set s.filters ws with
    | some proxy => exact ⟨rfl, rfl⟩
    | none =>
      dsimp only
      rw [hcache]
      exact ⟨rfl, rfl⟩

theorem cell_step (s : State O V) (call : Call W V) :
    (s.step session set call).cell = s.cell.step (construct session set) call.event := by
  cases call with
  | objects ws => exact (cell_objects s ws).1
  | _ => rfl

theorem cell_run (calls : List (Call W V)) :
    (State.run session set calls).cell =
      (State.cell (O := O) State.init).run (construct session set) (calls.map Call.event) := by
  induction calls using List.reverseRecOn with
  | nil => rfl
  | append_singleton calls call ih =>
    rw [List.map_append, List.map_singleton, run_concat, ← ih]
    unfold State.run
    rw [List.foldl_append]
    exact cell_step _ call

def UsedSince (calls : List (Call W V)) (ws : ℕ → W) : Prop :=
  ∃ before after, calls = before ++ .objects ws :: after ∧
    ∀ call ∈ after, ∃ ws, call = Call.objects ws

theorem eq_objects_of_event {call : Call W V} {ws : ℕ → W} (h : call.event = .read ws) :
    call = .objects ws := by
  cases call with
  | objects ws' =>
    cases h
    rfl
  | _ => cases h

theorem usedSince_of_readSince {calls : List (Call W V)} {ws : ℕ → W}
    (h : ReadSince (calls.map Call.event) ws) : UsedSince calls ws := by
  obtain ⟨before, after, hsplit, hafter⟩ := h
  obtain ⟨first, rest, hcalls, _, hrest⟩ := List.map_eq_append_iff.mp hsplit
  obtain ⟨call, last, rfl, hcall, hlast⟩ := List.map_eq_cons_iff.mp hrest
  refine ⟨first, last, by rw [hcalls, eq_objects_of_event hcall], fun call hcall => ?_⟩
  obtain ⟨w, hw⟩ := hafter call.event (hlast ▸ List.mem_map_of_mem hcall)
  exact ⟨w, eq_objects_of_event hw⟩

end

/-- Whatever the filters were before and whatever the session has in the meantime, the selection
is one for the filters of now, from a moment since the last of them was set. -/
theorem selection_current (session : Session W O K V) (set : Frozenset K) (calls : List (Call W V))
    (ws : ℕ → W) (proxy : Option (List O))
    (h : ((State.run session set calls).objects session set ws).2 = some proxy) :
    (proxy = none ↔ (State.run session set calls).filters.klass = none) ∧
    ∀ os, proxy = some os → ∃ klass ws', UsedSince (calls ++ [.objects ws]) ws' ∧
      (State.run session set calls).filters.klass = some klass ∧
      Selects session (State.run session set calls).filters klass ws' os := by
  rw [(cell_objects _ ws).2, cell_run] at h
  obtain ⟨w, hsince, hcompute⟩ := read_current rfl h
  rw [← cell_run] at hcompute
  change construct session set (State.run session set calls).filters w = some proxy at hcompute
  have hused : UsedSince (calls ++ [.objects ws]) w := by
    apply usedSince_of_readSince
    rw [List.map_append]
    exact hsince
  unfold construct at hcompute
  cases hklass : (State.run session set calls).filters.klass with
  | none =>
    rw [hklass] at hcompute
    cases hcompute
    exact ⟨⟨fun _ => rfl, fun _ => rfl⟩, fun os hos => absurd hos (Option.some_ne_none os).symm⟩
  | some klass =>
    rw [hklass] at hcompute
    obtain ⟨os, hos, rfl⟩ := Option.map_eq_some_iff.mp hcompute
    refine ⟨⟨fun hnone => absurd hnone (Option.some_ne_none os),
      fun hnone => absurd hnone (Option.some_ne_none klass)⟩, fun os' hos' => ?_⟩
    cases hos'
    exact ⟨klass, w, hused, rfl, proxyObjects_selects hos⟩

def Objects.session [DecidableEq K] [DecidableEq V] (objects : Objects W O K V)
    (nodup : ∀ w, (objects.published w).Nodup) : Session W O K V where
  toObjects := objects
  getObjects w q :=
    some ((objects.published w).filter fun o =>
      objects.klass o == q.klass && q.package.all (objects.package o == ·) &&
        q.agent.all (objects.agent o == ·) &&
        q.properties.all fun p => objects.property w o p.1 == some p.2)
  mem_getObjects w q os hos o := by
    cases hos
    simp only [List.mem_filter, Bool.and_eq_true, beq_iff_eq, Option.all_eq_true, List.all_eq_true]
    constructor
    · rintro ⟨hpublished, ⟨⟨hklass, hpackage⟩, hagent⟩, hproperties⟩
      exact ⟨hpublished, hklass, hpackage, hagent, hproperties⟩
    · intro h
      exact ⟨h.published, ⟨⟨h.klass, h.package⟩, h.agent⟩, h.properties⟩
  nodup_getObjects w q os hos := by
    cases hos
    exact (nodup w).filter _

def dedupSet : Frozenset ℕ := ⟨List.dedup, fun _ _ => List.mem_dedup, fun ks => ks.nodup_dedup⟩

def twoHosts : Session Unit ℕ ℕ Text :=
  Objects.session
    { published := fun _ => List.range 4
      klass := fun o => if o % 2 = 0 then "Agent".toList else "Network".toList
      package := fun _ => "org.matahariproject".toList
      agent := fun o => o / 2
      property := fun _ o name =>
        if name = "uuid".toList then some [if o < 2 then 'a' else 'b'] else none }
    fun _ => List.nodup_range

def secondHost : List (Call Unit Text) :=
  [.setClass (some "Network".toList) (some "org.matahariproject".toList), .objects fun _ => (),
    .setHosts (some [['b']])]

theorem selection_current_second_host :
    ∃ klass ws, UsedSince (secondHost ++ [.objects fun _ => ()]) ws ∧
      (State.run twoHosts dedupSet secondHost).filters.klass = some klass ∧
      Selects twoHosts (State.run twoHosts dedupSet secondHost).filters klass ws [3] :=
  (selection_current twoHosts dedupSet secondHost (fun _ => ()) (some [3]) rfl).2 [3] rfl

end Matahari.Api
