import Matahari.DbusTypes

set_option autoImplicit false

/-!
# Marshalling between D-Bus messages and variants

The conversions of `utils.cpp` and `message_add_arg` of `method.cpp`. A D-Bus
value that is read into a variant and written back under its own signature is
the value that was read.
-/
namespace Matahari.DbusBridge
open Mainloop BracketScan

/-- The characters `'r'` and `'e'` are the type codes that libdbus has for
structs and dict entries besides their brackets. -/
def getSignatureItemLength : Text → ℕ
  | [] => 0
  | t :: rest =>
    if t = 'a' then 1 + getSignatureItemLength rest
    else if t = 'r' ∨ t = '(' then 1 + scan '(' ')' 1 rest
    else if t = 'e' ∨ t = '{' then 1 + scan '{' '}' 1 rest
    else 1

def cStr (text : Text) : Text := text.takeWhile (· ≠ nul)

/-- `none` is `DBUS_TYPE_INVALID`; otherwise the value has its own type. -/
def qpidVariantToDbus (c : Conversions) (value : QVariant) (expectedType : Char) :
    Option BasicValue :=
  match value with
  | .bool b => if expectedType = 'b' ∨ expectedType = 'v' then some (.boolean b) else none
  | .integer n =>
    match IntKind.ofCode expectedType with
    | some k => (c.asInteger k n).map (.integer k)
    | none =>
      if expectedType = 'd' then
        (c.asInteger .int64 n).map fun m => .double (c.doubleOfInt m.val)
      else if expectedType = 'v' then (c.asInteger .int64 n).map (.integer .int64)
      else none
  | .float bits =>
    if expectedType = 'd' ∨ expectedType = 'v' then some (.double (c.doubleOfFloat bits)) else none
  | .double bits =>
    if expectedType = 'd' ∨ expectedType = 'v' then some (.double bits) else none
  | .string text =>
    if expectedType = 's' ∨ expectedType = 'v' then some (.string (cStr text)) else none
  | .void | .uuid _ | .list _ | .map _ => none

def BasicValue.toVariant : BasicValue → QVariant
  | .boolean b => .bool b
  | .integer kind value => .integer (.sized kind value)
  | .double bits => .double bits
  | .objectPath text | .string text => .string text
  | .signature _ | .unixFd _ => .void

mutual

def dbusMessageIterToQpidVariant : Item → QVariant
  | .basic value => value.toVariant
  | .array _ items _ | .struct items _ | .dictEntry items _ =>
    .list (dbusMessageItersToQpidVariants items)
  | .variant _ [] => .void
  | .variant _ (content :: _) => dbusMessageIterToQpidVariant content

def dbusMessageItersToQpidVariants : List Item → List QVariant
  | [] => []
  | item :: items =>
    dbusMessageIterToQpidVariant item :: dbusMessageItersToQpidVariants items

end

theorem dbusMessageItersToQpidVariants_eq_map (items : List Item) :
    dbusMessageItersToQpidVariants items = items.map dbusMessageIterToQpidVariant := by
  induction items with
  | nil => rfl
  | cons item items ih => rw [dbusMessageItersToQpidVariants, ih, List.map_cons]

/-- `dbus_message_iter_append_basic` refuses only a string that is not UTF-8. -/
def appendBasic (c : Conversions) (w : BasicValue) : Bool × List Item :=
  match w with
  | .string text => if c.utf8 text then (true, [.basic w]) else (false, [])
  | _ => (true, [.basic w])

def addBasic (c : Conversions) (value : QVariant) (type : Char) : Bool × List Item :=
  match qpidVariantToDbus c value type with
  | none => (false, [])
  | some w => appendBasic c w

/-- The results of opening, of appending and of closing are not looked at. -/
def addVariant (c : Conversions) (value : QVariant) : Bool × List Item :=
  match qpidVariantToDbus c value 'v' with
  | none => (true, [.variant [] []])
  | some w => (true, [.variant [w.type.code] (appendBasic c w).2])

def container (bracket : Char) (items : List Item) (closed : Bool) : Item :=
  if bracket = '(' then .struct items closed else .dictEntry items closed

/-- One turn of a loop over the values: `q` is the rest of the loop, which is not
reached once a value has been refused. -/
def andThen (r q : Bool × List Item) : Bool × List Item :=
  if r.1 then (q.1, r.2 ++ q.2) else (false, r.2)

mutual

/-- The items appended to the message and the value returned. A container whose
loop returns early is left open. -/
def messageAddArg (c : Conversions) (signature : Text) (value : QVariant) :
    Bool × List Item :=
  match signature with
  | [] => (false, [])
  | t :: rest =>
    if t = 'a' then
      match value with
      | .list values =>
        let r := addElements c rest values
        (r.1, [.array rest r.2 r.1])
      | _ => (false, [])
    else if t = 'r' ∨ t = '(' ∨ t = 'e' ∨ t = '{' then
      match value with
      | .list values =>
        let r := addFields c rest values
        (r.1, [container t r.2 r.1])
      | _ => (false, [])
    else if t = 'v' then addVariant c value
    else addBasic c value t

def addElements (c : Conversions) (subsignature : Text) : List QVariant → Bool × List Item
  | [] => (true, [])
  | value :: values =>
    andThen (messageAddArg c subsignature value) (addElements c subsignature values)

def addFields (c : Conversions) (signature : Text) : List QVariant → Bool × List Item
  | [] => (true, [])
  | value :: values =>
    let len := getSignatureItemLength signature
    if len < 1 then (false, [])
    else
      andThen (messageAddArg c (signature.take len) value)
        (addFields c (signature.drop len) values)

end

theorem entrySignature_eq (key : Basic) (t : DType) :
    entrySignature key t.signature = '{' :: (signatures [.basic key, t] ++ ['}']) := by
  simp [entrySignature, signatures, DType.signature]

theorem getSignatureItemLength_entry (key : Basic) (t : DType) (rest : Text) :
    getSignatureItemLength (entrySignature key t.signature ++ rest) =
      (entrySignature key t.signature).length := by
  have hbody : Nested (key.code :: t.signature) := t.nested.cons key.code_ne_bracket
  have hclose := hbody.2.scan_close (by decide) rest
  have hsplit : entrySignature key t.signature ++ rest =
      '{' :: ((key.code :: t.signature) ++ '}' :: rest) := by
    simp [entrySignature]
  rw [hsplit, getSignatureItemLength, if_neg (by decide), if_neg (by decide),
    if_pos (by decide), hclose]
  simp [entrySignature, Nat.add_comm]

theorem getSignatureItemLength_append : ∀ (t : DType) (rest : Text),
    getSignatureItemLength (t.signature ++ rest) = t.signature.length
  | .basic type, rest => by
    rcases type with _ | k | _ | _ | _ | _ | _
    case integer => cases k <;> rfl
    all_goals rfl
  | .variant, rest => rfl
  | .array element, rest => by
    rw [DType.signature, List.cons_append, getSignatureItemLength, if_pos rfl,
      getSignatureItemLength_append element rest, List.length_cons, Nat.add_comm]
  | .dict key value, rest => by
    rw [DType.signature, List.cons_append, getSignatureItemLength, if_pos rfl,
      getSignatureItemLength_entry, List.length_cons, Nat.add_comm]
  | .struct first rest', rest => by
    have hbody : Nested (first.signature ++ signatures rest') :=
      first.nested.append (signatures_nested rest')
    have hclose := hbody.1.scan_close (by decide) rest
    rw [DType.signature, List.cons_append, List.append_assoc, getSignatureItemLength,
      if_neg (by decide), if_pos (by decide), List.singleton_append, hclose]
    simp [Nat.add_comm, Nat.add_assoc]

theorem DType.signature_ne_nil (t : DType) : t.signature ≠ [] := by
  cases t <;> simp [DType.signature]

section
variable (c : Conversions)

theorem messageAddArg_array (sub : Text) (values : List QVariant) :
    messageAddArg c ('a' :: sub) (.list values) =
      ((addElements c sub values).1,
        [.array sub (addElements c sub values).2 (addElements c sub values).1]) := by
  rw [messageAddArg, if_pos rfl]

theorem messageAddArg_struct (fields : Text) (values : List QVariant) :
    messageAddArg c ('(' :: fields) (.list values) =
      ((addFields c fields values).1,
        [.struct (addFields c fields values).2 (addFields c fields values).1]) := by
  rw [messageAddArg, if_neg (by decide), if_pos (by decide)]
  rfl

theorem messageAddArg_entry (fields : Text) (values : List QVariant) :
    messageAddArg c ('{' :: fields) (.list values) =
      ((addFields c fields values).1,
        [.dictEntry (addFields c fields values).2 (addFields c fields values).1]) := by
  rw [messageAddArg, if_neg (by decide), if_pos (by decide)]
  rfl

theorem messageAddArg_eq_list {t : Char} (ht : t = 'a' ∨ t = '(' ∨ t = '{') {rest : Text}
    {value : QVariant} {i : Item} (h : (messageAddArg c (t :: rest) value).2 = [i]) :
    ∃ values, value = .list values := by
  cases value with
  | list values => exact ⟨values, rfl⟩
  | _ =>
    exfalso
    rcases ht with rfl | rfl | rfl <;> simp [messageAddArg] at h

theorem messageAddArg_variant (value : QVariant) :
    messageAddArg c ['v'] value = addVariant c value := by
  rw [messageAddArg.eq_def]
  rfl

theorem messageAddArg_basic (b : Basic) (value : QVariant) :
    messageAddArg c [b.code] value = addBasic c value b.code := by
  have hcode : b.code ≠ 'a' ∧ ¬ (b.code = 'r' ∨ b.code = '(' ∨ b.code = 'e' ∨ b.code = '{') ∧
      b.code ≠ 'v' := by
    rcases b with _ | k | _ | _ | _ | _ | _
    case integer => cases k <;> decide
    all_goals decide
  rw [messageAddArg.eq_def]
  simp only [if_neg hcode.1, if_neg hcode.2.1, if_neg hcode.2.2]

/-- A list with more values than the container has fields meets its closing bracket. -/
theorem messageAddArg_close {close : Char} (hclose : close = ')' ∨ close = '}')
    (value : QVariant) : messageAddArg c [close] value = (false, []) := by
  rcases hclose with rfl | rfl <;>
    cases value <;> simp [messageAddArg, addBasic, qpidVariantToDbus, IntKind.ofCode]

theorem addFields_cons (t : DType) (rest : Text) (value : QVariant) (values : List QVariant) :
    addFields c (t.signature ++ rest) (value :: values) =
      andThen (messageAddArg c t.signature value) (addFields c rest values) := by
  have hlen := getSignatureItemLength_append t rest
  have hpos : ¬ t.signature.length < 1 := by
    have := List.length_pos_iff.mpr t.signature_ne_nil
    omega
  rw [addFields]
  simp only [hlen, if_neg hpos, List.take_left, List.drop_left]

theorem appendBasic_cases (w : BasicValue) :
    appendBasic c w = (true, [.basic w]) ∨ appendBasic c w = (false, []) := by
  unfold appendBasic
  split
  · split
    · exact .inl rfl
    · exact .inr rfl
  · exact .inl rfl

/-- A call appends one item, or fails with nothing appended. -/
theorem messageAddArg_cases (signature : Text) (value : QVariant) :
    (∃ i, (messageAddArg c signature value).2 = [i]) ∨
      messageAddArg c signature value = (false, []) := by
  rw [messageAddArg.eq_def]
  split
  · exact .inr rfl
  · split_ifs
    · split
      · exact .inl ⟨_, rfl⟩
      · exact .inr rfl
    · split
      · exact .inl ⟨_, rfl⟩
      · exact .inr rfl
    · unfold addVariant
      split
      · exact .inl ⟨_, rfl⟩
      · exact .inl ⟨_, rfl⟩
    · unfold addBasic
      split
      · exact .inr rfl
      · rename_i w _
        rcases appendBasic_cases c w with h | h
        · exact .inl ⟨.basic w, by rw [h]⟩
        · exact .inr h

theorem andThen_messageAddArg_iff {signature : Text} {value : QVariant}
    {q : Bool × List Item} {items : List Item} :
    andThen (messageAddArg c signature value) q = (true, items) ↔
      ∃ i rest, messageAddArg c signature value = (true, [i]) ∧ q = (true, rest) ∧
        items = i :: rest := by
  constructor
  · intro h
    unfold andThen at h
    split at h
    · rename_i hok
      rcases messageAddArg_cases c signature value with ⟨i, hi⟩ | hfail
      · refine ⟨i, q.2, Prod.ext hok hi, Prod.ext (Prod.mk.inj h).1 rfl, ?_⟩
        rw [← (Prod.mk.inj h).2, hi, List.singleton_append]
      · rw [hfail] at hok
        cases hok
    · cases h
  · rintro ⟨i, rest, hi, hq, rfl⟩
    rw [andThen, hi, hq, if_pos rfl, List.singleton_append]

theorem addElements_eq_iff {sub : Text} {values : List QVariant} {items : List Item} :
    addElements c sub values = (true, items) ↔
      List.Forall₂ (fun v i => messageAddArg c sub v = (true, [i])) values items := by
  induction values generalizing items with
  | nil =>
    rw [addElements, List.forall₂_nil_left_iff]
    simp [eq_comm]
  | cons v values ih =>
    rw [addElements, andThen_messageAddArg_iff, List.forall₂_cons_left_iff]
    simp only [ih]

theorem addFields_eq_iff {close : Char} (hclose : close = ')' ∨ close = '}')
    {ts : List DType} {values : List QVariant} {items : List Item}
    (hlen : ts.length = items.length) :
    addFields c (signatures ts ++ [close]) values = (true, items) ↔
      ts.length = values.length ∧
      List.Forall₂ (fun p i => messageAddArg c p.1.signature p.2 = (true, [i]))
        (ts.zip values) items := by
  induction ts generalizing values items with
  | nil =>
    rw [List.length_nil] at hlen
    rw [List.eq_nil_of_length_eq_zero hlen.symm]
    cases values with
    | nil => simp [addFields]
    | cons v values =>
      have hone : getSignatureItemLength [close] = 1 := by
        rcases hclose with rfl | rfl <;> rfl
      rw [signatures, List.nil_append, addFields]
      simp [hone, messageAddArg_close c hclose, andThen]
  | cons t ts ih =>
    cases items with
    | nil => cases hlen
    | cons i items =>
      cases values with
      | nil => simp [addFields]
      | cons v values =>
        have hrest := @ih values items (Nat.succ.inj hlen)
        rw [signatures, List.append_assoc, addFields_cons, andThen_messageAddArg_iff,
          List.zip_cons_cons, List.forall₂_cons]
        simp only [List.length_cons, Nat.succ_inj]
        constructor
        · rintro ⟨j, js, hj, hjs, heq⟩
          cases heq
          exact ⟨(hrest.mp hjs).1, hj, (hrest.mp hjs).2⟩
        · rintro ⟨hvalues, hi, hitems⟩
          exact ⟨i, items, hi, hrest.mpr ⟨hvalues, hitems⟩, rfl⟩

theorem addEntry_eq_iff {key : Basic} {t : DType} {value : QVariant} {i j : Item} :
    messageAddArg c (entrySignature key t.signature) value = (true, [.dictEntry [i, j] true]) ↔
      ∃ k v, value = .list [k, v] ∧ addBasic c k key.code = (true, [i]) ∧
        messageAddArg c t.signature v = (true, [j]) := by
  have hfields : ∀ values, addFields c (signatures [.basic key, t] ++ ['}']) values =
      (true, [i, j]) ↔ ∃ k v, values = [k, v] ∧ addBasic c k key.code = (true, [i]) ∧
        messageAddArg c t.signature v = (true, [j]) := by
    intro values
    rw [addFields_eq_iff c (.inr rfl) rfl]
    constructor
    · rintro ⟨hlen, hadd⟩
      rcases List.length_eq_two.mp hlen.symm with ⟨k, v, rfl⟩
      simp only [List.zip_cons_cons, List.zip_nil_right, List.forall₂_cons, DType.signature,
        messageAddArg_basic] at hadd
      exact ⟨k, v, rfl, hadd.1, hadd.2.1⟩
    · rintro ⟨k, v, rfl, hk, hv⟩
      simp only [List.zip_cons_cons, List.zip_nil_right, List.forall₂_cons, DType.signature,
        messageAddArg_basic]
      exact ⟨rfl, hk, hv, .nil⟩
  rw [entrySignature_eq]
  constructor
  · intro h
    rcases messageAddArg_eq_list c (.inr (.inr rfl)) (congrArg Prod.snd h) with ⟨values, rfl⟩
    rw [messageAddArg_entry] at h
    simp only [Prod.mk.injEq, List.cons.injEq, and_true, Item.dictEntry.injEq] at h
    rcases (hfields values).mp (Prod.ext h.1 h.2.1) with ⟨k, v, rfl, hkv⟩
    exact ⟨k, v, rfl, hkv⟩
  · rintro ⟨k, v, rfl, hkv⟩
    rw [messageAddArg_entry, (hfields [k, v]).mpr ⟨k, v, rfl, hkv⟩]

end

def Basic.bridged : Basic → Bool
  | .boolean | .integer _ | .double | .string => true
  | .objectPath | .signature | .unixFd => false

mutual

/-- Types built from `y b n q i u x t d s` by arrays, dictionaries and structs. -/
def DType.bridged : DType → Bool
  | .basic type => type.bridged
  | .variant => false
  | .array element => element.bridged
  | .dict key value => key.bridged && value.bridged
  | .struct first rest => first.bridged && allBridged rest

def allBridged : List DType → Bool
  | [] => true
  | t :: ts => t.bridged && allBridged ts

end

theorem bridged_of_mem {ts : List DType} (h : allBridged ts = true) :
    ∀ t ∈ ts, t.bridged = true := by
  induction ts with
  | nil => simp
  | cons t ts ih =>
    rw [allBridged, Bool.and_eq_true] at h
    exact List.forall_mem_cons.mpr ⟨h.1, ih h.2⟩

theorem cStr_eq_self {text : Text} (h : nul ∉ text) : cStr text = text := by
  rw [cStr, List.takeWhile_eq_self_iff]
  intro x hx
  have hne : x ≠ nul := fun hnul => h (hnul ▸ hx)
  simpa using hne

theorem roundtrip_basic {c : Conversions} (hc : c.Preserve) {w : BasicValue}
    (hb : w.type.bridged = true) (hw : w.WellFormed c.utf8) :
    addBasic c w.toVariant w.type.code = (true, [.basic w]) := by
  cases w with
  | boolean b => rfl
  | integer k n =>
    have hn : c.asInteger k (.sized k n) = some n := hc k (.sized k n) n.2
    simp [addBasic, BasicValue.toVariant, BasicValue.type, Basic.code, qpidVariantToDbus, hn,
      appendBasic]
  | double bits => rfl
  | string text =>
    rcases hw with ⟨hnul, hutf⟩
    simp [addBasic, BasicValue.toVariant, BasicValue.type, Basic.code, qpidVariantToDbus,
      cStr_eq_self hnul, appendBasic, hutf]
  | objectPath text => cases hb
  | signature text => cases hb
  | unixFd fd => cases hb

theorem roundtrip_fields {c : Conversions} {close : Char} (hclose : close = ')' ∨ close = '}')
    {ts : List DType} {items : List Item} (hlen : ts.length = items.length)
    (h : ∀ p ∈ ts.zip items,
      messageAddArg c p.1.signature (dbusMessageIterToQpidVariant p.2) = (true, [p.2])) :
    addFields c (signatures ts ++ [close]) (items.map dbusMessageIterToQpidVariant) =
      (true, items) := by
  rw [addFields_eq_iff c hclose hlen]
  refine ⟨by rw [List.length_map, hlen], ?_⟩
  have hsnd : (ts.zip items).map Prod.snd = items := List.map_snd_zip hlen.ge
  rw [List.zip_map_right, List.forall₂_map_left_iff]
  nth_rewrite 2 [← hsnd]
  rw [List.forall₂_map_right_iff, List.forall₂_same]
  exact h

/-- A D-Bus value, read into a variant and appended under its own signature, is
appended as it was. -/
theorem marshal_roundtrip {c : Conversions} (hc : c.Preserve) {t : DType} {d : Item}
    (ht : t.bridged = true) (hd : HasType c.utf8 t d) :
    messageAddArg c t.signature (dbusMessageIterToQpidVariant d) = (true, [d]) := by
  induction hd with
  | @basic w hw =>
    rw [DType.signature, messageAddArg_basic]
    exact roundtrip_basic hc ht hw
  | variant => cases ht
  | @array t items _ ih =>
    have helems : addElements c t.signature (items.map dbusMessageIterToQpidVariant) =
        (true, items) := by
      rw [addElements_eq_iff, List.forall₂_map_left_iff, List.forall₂_same]
      exact fun i hi => ih i hi ht
    rw [DType.signature, dbusMessageIterToQpidVariant, dbusMessageItersToQpidVariants_eq_map,
      messageAddArg_array, helems]
  | @dict key t entries hkeys _ ih =>
    rw [DType.bridged, Bool.and_eq_true] at ht
    have helems : addElements c (entrySignature key t.signature)
        (entries.map fun e => .list [e.1.toVariant, dbusMessageIterToQpidVariant e.2]) =
          (true, entries.map fun e => .dictEntry [.basic e.1, e.2] true) := by
      rw [addElements_eq_iff, List.forall₂_map_left_iff, List.forall₂_map_right_iff,
        List.forall₂_same]
      intro e he
      rcases hkeys e he with ⟨htype, hw⟩
      have hkey := roundtrip_basic hc (htype ▸ ht.1) hw
      rw [addEntry_eq_iff]
      exact ⟨_, _, rfl, htype ▸ hkey, ih e he ht.2⟩
    rw [DType.signature, dbusMessageIterToQpidVariant, dbusMessageItersToQpidVariants_eq_map,
      List.map_map]
    have hvalues : (dbusMessageIterToQpidVariant ∘ fun e : BasicValue × Item =>
        Item.dictEntry [.basic e.1, e.2] true) =
          fun e => .list [e.1.toVariant, dbusMessageIterToQpidVariant e.2] := by
      funext e
      rfl
    rw [hvalues, messageAddArg_array, helems]
  | @struct t ts items hlen _ ih =>
    rw [DType.bridged, Bool.and_eq_true] at ht
    have hall : ∀ u ∈ t :: ts, u.bridged = true :=
      List.forall_mem_cons.mpr ⟨ht.1, bridged_of_mem ht.2⟩
    have hfields : addFields c (signatures (t :: ts) ++ [')'])
        (items.map dbusMessageIterToQpidVariant) = (true, items) :=
      roundtrip_fields (.inl rfl) hlen fun p hp => ih p hp (hall p.1 (List.of_mem_zip hp).1)
    rw [DType.signature, dbusMessageIterToQpidVariant, dbusMessageItersToQpidVariants_eq_map,
      messageAddArg_struct]
    rw [signatures] at hfields
    rw [hfields]

/-- Conversions that refuse exactly the integers out of range, for ASCII strings
and without conversions to `double`. -/
def exactConversions : Conversions where
  asInteger k n := if h : k.lo ≤ n.val ∧ n.val ≤ k.hi then some ⟨n.val, h⟩ else none
  doubleOfInt _ := 0
  doubleOfFloat _ := 0
  utf8 text := text.all fun x => x.toNat < 128

theorem exactConversions_preserve : exactConversions.Preserve := by
  intro k n h
  exact dif_pos h

def dictOfStructs : DType :=
  .dict .string (.struct (.basic (.integer .int32)) [.array (.basic (.integer .byte))])

def dictOfStructsItem : Item :=
  .array "{s(iay)}".toList
    [.dictEntry [.basic (.string "ab".toList), .struct
      [.basic (.integer .int32 ⟨-5, by decide⟩),
        .array ['y'] [.basic (.integer .byte ⟨7, by decide⟩)] true] true] true] true

theorem dictOfStructsItem_hasType :
    HasType exactConversions.utf8 dictOfStructs dictOfStructsItem := by
  have hint : HasType exactConversions.utf8 (.basic (.integer .int32))
      (.basic (.integer .int32 ⟨-5, by decide⟩)) :=
    .basic (w := .integer .int32 ⟨-5, by decide⟩) trivial
  have hbyte : HasType exactConversions.utf8 (.basic (.integer .byte))
      (.basic (.integer .byte ⟨7, by decide⟩)) :=
    .basic (w := .integer .byte ⟨7, by decide⟩) trivial
  have hbytes : HasType exactConversions.utf8 (.array (.basic (.integer .byte)))
      (.array ['y'] [.basic (.integer .byte ⟨7, by decide⟩)] true) :=
    .array (by simpa using hbyte)
  have hstruct : HasType exactConversions.utf8
      (.struct (.basic (.integer .int32)) [.array (.basic (.integer .byte))])
      (.struct [.basic (.integer .int32 ⟨-5, by decide⟩),
        .array ['y'] [.basic (.integer .byte ⟨7, by decide⟩)] true] true) :=
    .struct rfl (by simpa using ⟨hint, hbytes⟩)
  have hkey : BasicValue.WellFormed exactConversions.utf8 (.string "ab".toList) :=
    ⟨by decide, by decide⟩
  exact @HasType.dict _ .string _ [(.string "ab".toList, _)] (by simpa using ⟨rfl, hkey⟩)
    (by simpa using hstruct)

theorem marshal_roundtrip_dict : dictOfStructs.signature = "a{s(iay)}".toList ∧
    messageAddArg exactConversions dictOfStructs.signature
      (dbusMessageIterToQpidVariant dictOfStructsItem) = (true, [dictOfStructsItem]) :=
  ⟨by decide, marshal_roundtrip exactConversions_preserve (by decide) dictOfStructsItem_hasType⟩

end Matahari.DbusBridge
