import Matahari.ShellClassCommands

set_option autoImplicit false

/-!
# Scripts for a class

What `Proxy` of `api.py` makes of the commands of a class, and what a script of such commands
leaves behind in the selected objects.
-/
namespace Matahari.Shell.ClassCommands
open Mainloop Dispatch

variable {O W : Type}

/-- The attributes of the objects of the console, those that the proxy has got itself, and what is
on the hosts. -/
structure Objects (O W : Type) where
  attrs : ℕ → Text → Option (Value (Object O))
  own : List (Text × Value (Object O))
  world : W

/-- What `setattr` of an object raises, and `Manager.invoke_method`. -/
structure Console (O W : Type) where
  refuses : ℕ → Text → Value (Object O) → Option Text
  invoke : List ℕ → Text → List (Value (Object O)) → W → Except Text Unit × W

structure Proxy where
  objects : List ℕ
  methodnames : List Text

def raises (exception : Text) (s : Objects O W) : Except Raised Bool × Objects O W :=
  (.error (.exception exception), s)

def setattr (s : Objects O W) (object : ℕ) (attr : Text) (val : Value (Object O)) : Objects O W :=
  { s with attrs := Function.update s.attrs object (Function.update (s.attrs object) attr (some val)) }

section
variable (c : Console O W) (proxy : Proxy)

def setattrs (attr : Text) (val : Value (Object O)) :
    List ℕ → Objects O W → Except Raised Bool × Objects O W
  | [], s => (.ok false, s)
  | object :: objects, s =>
    match c.refuses object attr val with
    | some exception => raises exception s
    | none => setattrs attr val objects (setattr s object attr val)

/-- `__setattr__`. What a later use makes of an attribute that the proxy gets itself is left out. -/
def Proxy.setattr (attr : Text) (val : Value (Object O)) (s : Objects O W) :
    Except Raised Bool × Objects O W :=
  if attr.head? = some '_' then (.ok false, { s with own := (attr, val) :: s.own })
  else if proxy.objects.isEmpty then raises "IndexError".toList s
  else setattrs c attr val proxy.objects s

def Proxy.write (attr : Text) (s : Objects O W) : Except Raised Bool × Objects O W :=
  if proxy.objects.isEmpty then raises "IndexError".toList s
  else if proxy.methodnames.contains attr then raises "TypeError".toList s
  else if proxy.objects.all fun object => (s.attrs object attr).isSome then (.ok false, s)
  else raises "AttributeError".toList s

def Proxy.invoke (attr : Text) (args : List (Value (Object O))) (s : Objects O W) :
    Except Raised Bool × Objects O W :=
  if proxy.objects.isEmpty then raises "IndexError".toList s
  else if proxy.methodnames.contains attr then
    match c.invoke proxy.objects attr args s.world with
    | (.ok _, world) => (.ok false, { s with world := world })
    | (.error exception, world) => raises exception { s with world := world }
  else raises "TypeError".toList s

def proxyPerform : Action O → Objects O W → Except Raised Bool × Objects O W
  | .get name, s => proxy.write name s
  | .set name value, s => proxy.setattr c name value s
  | .filter _ _, s => (.ok false, s)
  | .call method args, s => proxy.invoke c method args s

/-- The objects that come before the first one that refuses the value. -/
def reached (attr : Text) (val : Value (Object O)) : List ℕ :=
  proxy.objects.takeWhile fun object => (c.refuses object attr val).isNone

end

section
variable {c : Console O W} {proxy : Proxy} {attr name : Text} {val : Value (Object O)}

theorem setattrs_attrs (objects : List ℕ) (s : Objects O W) (o : ℕ) (n : Text) :
    (setattrs c attr val objects s).2.attrs o n =
      if n = attr ∧ o ∈ objects.takeWhile (fun object => (c.refuses object attr val).isNone) then
        some val
      else s.attrs o n := by
  induction objects generalizing s with
  | nil =>
    rw [List.takeWhile_nil, if_neg (fun h => List.not_mem_nil h.2)]
    rfl
  | cons object objects ih =>
    rw [setattrs, List.takeWhile_cons]
    cases hrefuses : c.refuses object attr val with
    | some exception =>
      rw [Option.isNone_some, if_neg Bool.false_ne_true, if_neg (fun h => List.not_mem_nil h.2)]
      rfl
    | none =>
      rw [Option.isNone_none, if_pos rfl]
      dsimp only
      rw [ih]
      by_cases hname : n = attr
      · subst hname
        by_cases hobject : o = object
        · subst hobject
          simp [setattr]
        · simp [setattr, hobject]
      · have hsame : (setattr s object attr val).attrs o n = s.attrs o n := by
          unfold setattr
          dsimp only
          by_cases hobject : o = object
          · subst hobject
            rw [Function.update_self, Function.update_of_ne hname]
          · rw [Function.update_of_ne hobject]
        rw [if_neg (fun h => hname h.1), if_neg (fun h => hname h.1), hsame]

/-- Setting gives the value to the objects that are reached, and changes nothing else of any. -/
theorem setattr_attrs (hattr : attr.head? ≠ some '_') (s : Objects O W) (o : ℕ) (n : Text) :
    (proxy.setattr c attr val s).2.attrs o n =
      if n = attr ∧ o ∈ reached c proxy attr val then some val else s.attrs o n := by
  unfold Proxy.setattr
  rw [if_neg hattr]
  by_cases hempty : proxy.objects.isEmpty = true
  · have hnone : reached c proxy attr val = [] := by
      unfold reached
      rw [List.isEmpty_iff.mp hempty, List.takeWhile_nil]
    rw [if_pos hempty, hnone, if_neg (fun h => List.not_mem_nil h.2)]
    rfl
  · rw [if_neg hempty, setattrs_attrs]
    rfl

theorem write_attrs (s : Objects O W) : (proxy.write name s).2 = s := by
  unfold Proxy.write
  split
  · rfl
  · split
    · rfl
    · split <;> rfl

theorem invoke_attrs (args : List (Value (Object O))) (s : Objects O W) :
    (proxy.invoke c name args s).2.attrs = s.attrs := by
  unfold Proxy.invoke
  split
  · rfl
  · split
    · split <;> rfl
    · rfl

end

/-! ## Scripts -/

section
variable (py : Python O) (c : Console O W) (proxy : Proxy) (schema : Schema) (shell : Bool)

def ForObjects (line : Text) : Prop :=
  (strip isSpace line).head? = some '#' ∨
    ∃ name arg rest, parseline shell line = (some (name, arg), rest) ∧
      (name = "get".toList ∨ name = "set".toList ∨ name = "call".toList)

/-- The line asks to set the attribute to the value, and the object is reached. -/
def SetBy (line : Text) (o : ℕ) (n : Text) (v : Value (Object O)) : Prop :=
  (strip isSpace line).head? ≠ some '#' ∧
    (∃ name arg rest, parseline shell line = (some (name, arg), rest) ∧
      Asks py schema name (Shell.split arg) (.set n v)) ∧ o ∈ reached c proxy n v

end

section
variable {py : Python O} {c : Console O W} {proxy : Proxy} {schema : Schema}
  {base : List (Handler (Object O) (Objects O W))} {m : Mode (Object O) (Objects O W)}
  {line : Text} {s : Objects O W} {o : ℕ} {n : Text}

theorem head_ne_of_asks {name : Text} {words : List Text} {v : Value (Object O)}
    (hown : ∀ prop ∈ schema.properties, (propertyName prop).head? ≠ some '_')
    (h : Asks py schema name words (.set n v)) : n.head? ≠ some '_' := by
  cases h with
  | set hprop => exact hown _ hprop

theorem line_attrs (fuel : ℕ) (hschema : schema.WellNamed)
    (hown : ∀ prop ∈ schema.properties, (propertyName prop).head? ≠ some '_')
    (hbase : Elsewhere base)
    (hm : modeOf (base ++ classCommands py (proxyPerform c proxy) schema) = .ok m)
    (hcomment : (strip isSpace line).head? ≠ some '#')
    (hline : ForObjects (m "shell".toList).isSome line) :
    (∀ v, SetBy py c proxy schema (m "shell".toList).isSome line o n v →
      (onecmd fuel m line s).2.attrs o n = some v) ∧
    ((∀ v, ¬ SetBy py c proxy schema (m "shell".toList).isSome line o n v) →
      (onecmd fuel m line s).2.attrs o n = s.attrs o n) := by
  cases hline with
  | inl h => exact absurd h hcomment
  | inr h =>
    obtain ⟨name, arg, rest, hparse, hname⟩ := h
    have hclass : OfClass name (Shell.split arg) := by
      unfold OfClass
      tauto
    have hserves := (class_commands_typed py (proxyPerform c proxy) fuel schema hschema base hbase m
      hm line name arg rest hparse hclass s).1
    constructor
    · intro v hset
      obtain ⟨-, ⟨name', arg', rest', hparse', hasks⟩, hreached⟩ := hset
      rw [hparse] at hparse'
      cases hparse'
      rw [(hserves.asked _ hasks).state]
      change (proxy.setattr c n v s).2.attrs o n = some v
      rw [setattr_attrs (head_ne_of_asks hown hasks), if_pos ⟨rfl, hreached⟩]
    · intro hnone
      by_cases hany : ∃ a, Asks py schema name (Shell.split arg) a
      · obtain ⟨a, hasks⟩ := hany
        rw [(hserves.asked a hasks).state]
        cases a with
        | get name => exact congrFun (congrFun (congrArg Objects.attrs (write_attrs s)) o) n
        | filter name value => rfl
        | call method args => exact congrFun (congrFun (invoke_attrs args s) o) n
        | set attr val =>
          change (proxy.setattr c attr val s).2.attrs o n = _
          rw [setattr_attrs (head_ne_of_asks hown hasks), if_neg]
          intro hset
          apply hnone val
          rw [hset.1]
          exact ⟨hcomment, ⟨name, arg, rest, hparse, hasks⟩, hset.2⟩
      · rw [(hserves.idle hany).state]

end

def refusing : Console Unit Unit where
  refuses object _ _ := if object = 2 then some "BrokerError".toList else none
  invoke _ _ _ world := (.ok (), world)

def twoSelected : Proxy := ⟨[1, 2], ["set_uuid".toList]⟩

end Matahari.Shell.ClassCommands
