import Matahari.DbusAgent

set_option autoImplicit false

/-!
# The names of bridged objects

`addToSchema` makes the name of an object from a bus name, a path and an interface, and
`invoke` parses it again. What `find` returns is kept in an `unsigned int`.
-/
namespace Matahari.DbusBridge
open Mainloop PartialState

def npos : ℕ := 2 ^ 64 - 1

def findAt (s : Text) : ℕ := (s.findIdx? (· = '@')).getD npos

def unknownName : Text := "Unknown bus name, object path or interface".toList

/-- The parsing of `invoke`. What is in `pos` is at most the `size_t` found, so that `substr`
has nothing to throw. -/
def parseName (name : Text) : Except Text (Text × Text × Text) :=
  let pos := findAt name % 2 ^ 32
  if pos = npos then .error unknownName
  else
    let busName := name.take pos
    let objectAndInterface := name.drop ((pos + 1) % 2 ^ 32)
    let pos := findAt objectAndInterface % 2 ^ 32
    if pos = npos then .error unknownName
    else
      .ok (busName, objectAndInterface.take pos, objectAndInterface.drop ((pos + 1) % 2 ^ 32))

/-- A name with fewer than two `'@'` is refused, and from any other the parts come out. -/
def ParsesWell (name : Text) : Prop :=
  (name.count '@' < 2 → parseName name = .error unknownName) ∧
  (2 ≤ name.count '@' → ∃ busName objectPath interface,
    parseName name = .ok (busName, objectPath, interface) ∧ '@' ∉ busName ∧ '@' ∉ objectPath ∧
      busName ++ '@' :: objectPath ++ '@' :: interface = name) ∧
  ∀ busName objectPath interface, '@' ∉ busName → '@' ∉ objectPath →
    name = objectName busName objectPath interface →
    parseName name = .ok (busName, objectPath, interface)

/-- The name is made of three parts, and the positions after the first two fit in 32 bits. -/
def ShortParts (name : Text) : Prop :=
  ∃ busName objectPath interface, '@' ∉ busName ∧ '@' ∉ objectPath ∧
    name = objectName busName objectPath interface ∧
    busName.length < 2 ^ 32 - 1 ∧ objectPath.length < 2 ^ 32 - 1

section
variable {busName objectPath interface name part rest : Text}

theorem mod_ne_npos (n : ℕ) : n % 2 ^ 32 ≠ npos := by
  have : n % 2 ^ 32 < 2 ^ 32 := Nat.mod_lt n (by decide)
  unfold npos
  omega

theorem parseName_eq (name : Text) : parseName name =
    .ok ((splitName name).1, (splitName (splitName name).2).1,
      (splitName (splitName name).2).2) := by
  rw [parseName, if_neg (mod_ne_npos _), if_neg (mod_ne_npos _)]
  rfl

theorem parseName_ne_error {text : Text} : parseName name ≠ .error text := by
  rw [parseName_eq]
  exact nofun

/-- A request goes to the object that the parsing gives. -/
theorem objectRequest_eq (q : Qpid) (bus : Bus) (name : Text) (ev : Event) :
    objectRequest q bus name ev =
      (match parseName name with
      | .error text => raiseException text
      | .ok parts => do
        match ← getDBusObject bus (cStr parts.1) (cStr parts.2.1) (cStr parts.2.2) false with
        | .error text => raiseException text
        | .ok o =>
          if cStr ev.methodName = "Set".toList then setRequest q bus o ev
          else if cStr ev.methodName = "Get".toList then getRequest q bus o
          else methodRequest q bus o parts.2.2 ev) := by
  rw [parseName_eq]
  rfl

theorem findIdx_append (hpart : '@' ∉ part) (rest : Text) :
    (part ++ '@' :: rest).findIdx? (· = '@') = some part.length := by
  have hnone : part.findIdx? (· = '@') = none := by
    rw [List.findIdx?_eq_none_iff]
    intro c hc
    exact decide_eq_false fun heq => hpart (heq ▸ hc)
  rw [List.findIdx?_append, hnone]
  simp [List.findIdx?_cons]

theorem splitName_append (hpart : '@' ∉ part) (rest : Text) :
    splitName (part ++ '@' :: rest) =
      ((part ++ '@' :: rest).take (part.length % 2 ^ 32),
        (part ++ '@' :: rest).drop ((part.length % 2 ^ 32 + 1) % 2 ^ 32)) := by
  rw [splitName, findIdx_append hpart, Option.getD_some]

theorem splitName_of_short (hpart : '@' ∉ part) (hshort : part.length < 2 ^ 32 - 1)
    (rest : Text) : splitName (part ++ '@' :: rest) = (part, rest) := by
  have hpos : part.length % 2 ^ 32 = part.length := Nat.mod_eq_of_lt (by omega)
  have hnext : (part.length + 1) % 2 ^ 32 = part.length + 1 := Nat.mod_eq_of_lt (by omega)
  rw [splitName_append hpart, hpos, hnext, List.take_left, ← List.drop_drop, List.drop_left]
  rfl

theorem splitName_of_last (hpart : '@' ∉ part) (hlast : part.length = 2 ^ 32 - 1)
    (rest : Text) : splitName (part ++ '@' :: rest) = (part, part ++ '@' :: rest) := by
  have hpos : part.length % 2 ^ 32 = part.length := Nat.mod_eq_of_lt (by omega)
  have hnext : (part.length + 1) % 2 ^ 32 = 0 := by omega
  rw [splitName_append hpart, hpos, hnext, List.take_left, List.drop_zero]

theorem length_of_splitName (hpart : '@' ∉ part)
    (h : (splitName (part ++ '@' :: rest)).1 = part) : part.length < 2 ^ 32 := by
  have hlen : (splitName (part ++ '@' :: rest)).1.length ≤ part.length % 2 ^ 32 := by
    rw [splitName_append hpart]
    exact List.length_take_le _ _
  rw [h] at hlen
  exact hlen.trans_lt (Nat.mod_lt _ (by decide))

theorem splitName_eq_iff (hpart : '@' ∉ part) :
    splitName (part ++ '@' :: rest) = (part, rest) ↔ part.length < 2 ^ 32 - 1 := by
  constructor
  · intro h
    have hlt : part.length < 2 ^ 32 := length_of_splitName hpart (congrArg Prod.fst h)
    by_contra hlong
    have hlast : part.length = 2 ^ 32 - 1 := by omega
    rw [splitName_of_last hpart hlast] at h
    have hlen := congrArg (fun parts => parts.2.length) h
    simp only [List.length_append, List.length_cons] at hlen
    omega
  · intro hshort
    exact splitName_of_short hpart hshort rest

theorem objectName_eq (busName objectPath interface : Text) :
    objectName busName objectPath interface =
      busName ++ '@' :: (objectPath ++ '@' :: interface) := by
  rw [objectName, List.append_assoc, List.cons_append]

/-- The parts come out of the name that is made of them if they are short. -/
theorem parseName_objectName (hbus : '@' ∉ busName) (hpath : '@' ∉ objectPath) :
    parseName (objectName busName objectPath interface) =
        .ok (busName, objectPath, interface) ↔
      busName.length < 2 ^ 32 - 1 ∧ objectPath.length < 2 ^ 32 - 1 := by
  rw [objectName_eq, parseName_eq]
  constructor
  · intro h
    have hparts := Except.ok.inj h
    rw [Prod.mk.injEq, Prod.mk.injEq] at hparts
    obtain ⟨hfst, hsnd, hthd⟩ := hparts
    have hlt := length_of_splitName hbus hfst
    have hshort : busName.length < 2 ^ 32 - 1 := by
      by_contra hlong
      have hlast : busName.length = 2 ^ 32 - 1 := by omega
      -- The rest is the name once more, and so is the interface.
      rw [splitName_of_last hbus hlast, splitName_of_last hbus hlast] at hthd
      have hlen := congrArg List.length hthd
      simp only [List.length_append, List.length_cons] at hlen
      omega
    rw [splitName_of_short hbus hshort] at hsnd hthd
    exact ⟨hshort, (splitName_eq_iff hpath).mp (Prod.ext hsnd hthd)⟩
  · intro ⟨hshort, hshort'⟩
    rw [splitName_of_short hbus hshort, splitName_of_short hpath hshort']

theorem part_unique {part' rest' : Text} (hpart : '@' ∉ part) (hpart' : '@' ∉ part')
    (h : part ++ '@' :: rest = part' ++ '@' :: rest') : part = part' ∧ rest = rest' := by
  have hbefore : ∀ {p : Text} (r : Text), '@' ∉ p →
      (p ++ '@' :: r).takeWhile (· ≠ '@') = p := by
    intro p r hp
    rw [List.takeWhile_append_of_pos]
    · simp
    · intro c hc
      exact decide_eq_true fun heq => hp (heq ▸ hc)
  have heq : part = part' := by
    rw [← hbefore rest hpart, h, hbefore rest' hpart']
  subst heq
  exact ⟨rfl, List.tail_eq_of_cons_eq (List.append_cancel_left h)⟩

theorem objectName_inj {busName' objectPath' interface' : Text}
    (hbus : '@' ∉ busName) (hpath : '@' ∉ objectPath) (hbus' : '@' ∉ busName')
    (hpath' : '@' ∉ objectPath')
    (h : objectName busName objectPath interface = objectName busName' objectPath' interface') :
    busName = busName' ∧ objectPath = objectPath' ∧ interface = interface' := by
  rw [objectName_eq, objectName_eq] at h
  obtain ⟨rfl, hrest⟩ := part_unique hbus hbus' h
  exact ⟨rfl, part_unique hpath hpath' hrest⟩

theorem two_le_count_iff (name : Text) : 2 ≤ name.count '@' ↔
    ∃ busName objectPath interface, '@' ∉ busName ∧ '@' ∉ objectPath ∧
      name = objectName busName objectPath interface := by
  constructor
  · intro h
    have hmem : '@' ∈ name := List.count_pos_iff.mp (by omega)
    obtain ⟨busName, rest, rfl, hbus⟩ := List.eq_append_cons_of_mem hmem
    rw [List.count_append, List.count_eq_zero.mpr hbus, List.count_cons_self] at h
    have hmem' : '@' ∈ rest := List.count_pos_iff.mp (by omega)
    obtain ⟨objectPath, interface, rfl, hpath⟩ := List.eq_append_cons_of_mem hmem'
    exact ⟨busName, objectPath, interface, hbus, hpath, (objectName_eq ..).symm⟩
  · intro ⟨busName, objectPath, interface, _, _, hname⟩
    rw [hname, objectName_eq, List.count_append, List.count_cons_self, List.count_append,
      List.count_cons_self]
    omega

end

/-- The parsing is right for the names of three parts of which the first two are short. -/
theorem parsesWell_iff (name : Text) : ParsesWell name ↔ ShortParts name := by
  constructor
  · intro ⟨hfew, _, hinverse⟩
    have htwo : 2 ≤ name.count '@' := by
      by_contra hone
      exact parseName_ne_error (hfew (by omega))
    obtain ⟨busName, objectPath, interface, hbus, hpath, hname⟩ := (two_le_count_iff name).mp htwo
    have hparse := hinverse busName objectPath interface hbus hpath hname
    rw [hname, parseName_objectName hbus hpath] at hparse
    exact ⟨busName, objectPath, interface, hbus, hpath, hname, hparse⟩
  · intro ⟨busName, objectPath, interface, hbus, hpath, hname, hshort⟩
    have htwo := (two_le_count_iff name).mpr ⟨busName, objectPath, interface, hbus, hpath, hname⟩
    have hparse : parseName (objectName busName objectPath interface) =
        .ok (busName, objectPath, interface) := (parseName_objectName hbus hpath).mpr hshort
    rw [← hname] at hparse
    refine ⟨fun hone => absurd hone (by omega), fun _ => ?_, ?_⟩
    · exact ⟨busName, objectPath, interface, hparse, hbus, hpath, hname.symm⟩
    · intro busName' objectPath' interface' hbus' hpath' hname'
      obtain ⟨rfl, rfl, rfl⟩ := objectName_inj hbus hpath hbus' hpath' (hname.symm.trans hname')
      exact hparse

/-- A name without `'@'` is the bus name and the interface. -/
theorem parsesWell_wrong : ¬ ParsesWell "org.x".toList := by
  intro h
  exact parseName_ne_error (h.1 (by decide))

end Matahari.DbusBridge
