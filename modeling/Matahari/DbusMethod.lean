import Matahari.DbusMarshal

set_option autoImplicit false

/-!
# Calling a D-Bus method

`Method::call` of `method.cpp` with the body of the message that it sends. The
result of `addToMessage` is not looked at, so a message goes out whatever became
of its arguments; it is well typed exactly when every argument fits the type
that the method declares for it.
-/
namespace Matahari.DbusBridge
open Mainloop

inductive Direction where
  | dirIn
  | dirOut
  deriving DecidableEq, Repr

inductive Access where
  | readOnly
  | readWrite
  deriving DecidableEq, Repr

structure Arg where
  name : Text
  type : Text
  dir : Direction := .dirIn
  access : Access := .readWrite
  deriving DecidableEq, Repr

structure Method where
  name : Text
  allArgs : List Arg
  deriving DecidableEq, Repr

def Method.inArgs (m : Method) : List Arg := m.allArgs.filter (·.dir = .dirIn)

def Method.outArgs (m : Method) : List Arg := m.allArgs.filter (·.dir = .dirOut)

def Arg.addToMessage (c : Conversions) (arg : Arg) (v : QVariant) : Bool × List Item :=
  messageAddArg c arg.type v

/-- What libdbus answers: whether it makes a message for the four names, and the
reply, or the text of the error. -/
structure CallOutcome where
  created : Bool
  reply : Except Text (List Item)

structure CallResult where
  results : List QVariant
  err : Option Text
  sent : Option (List Item)

def wrongNumber (expected found : ℕ) : Text :=
  "Wrong number of arguments (expected: ".toList ++ (toString expected).toList ++
    ", found: ".toList ++ (toString found).toList ++ ")".toList

def messageBody (c : Conversions) (inArgs : List Arg) (args : List QVariant) : List Item :=
  (inArgs.zip args).flatMap fun p => (p.1.addToMessage c p.2).2

def Method.call (c : Conversions) (m : Method) (args : List QVariant) (o : CallOutcome) :
    CallResult :=
  if m.inArgs.length ≠ args.length then
    ⟨[], some (wrongNumber m.inArgs.length args.length), none⟩
  else if o.created = false then
    ⟨[], some "Unable to create DBus message".toList, none⟩
  else
    let body := messageBody c m.inArgs args
    match o.reply with
    | .error text => ⟨[], some ("Unable to call DBus method: ".toList ++ text), some body⟩
    | .ok items => ⟨items.map dbusMessageIterToQpidVariant, none, some body⟩

def FitsBasic (c : Conversions) : Basic → QVariant → Prop
  | .boolean, .bool _ => True
  | .integer k, .integer n => (c.asInteger k n).isSome = true
  | .double, .integer n => (c.asInteger .int64 n).isSome = true
  | .double, .float _ => True
  | .double, .double _ => True
  | .string, .string text => c.utf8 (cStr text) = true
  | _, _ => False

def FitsVariant (c : Conversions) : QVariant → Prop
  | .bool _ => True
  | .integer n => (c.asInteger .int64 n).isSome = true
  | .float _ => True
  | .double _ => True
  | .string text => c.utf8 (cStr text) = true
  | _ => False

/-- The variants that can be sent as a value of a type: a list for each container,
as long as the struct that it stands for. -/
inductive Fits (c : Conversions) : DType → QVariant → Prop
  | basic {b : Basic} {v : QVariant} : FitsBasic c b v → Fits c (.basic b) v
  | variant {v : QVariant} : FitsVariant c v → Fits c .variant v
  | array {t : DType} {vs : List QVariant} :
      (∀ v ∈ vs, Fits c t v) → Fits c (.array t) (.list vs)
  | dict {key : Basic} {t : DType} {entries : List (QVariant × QVariant)} :
      (∀ e ∈ entries, FitsBasic c key e.1) → (∀ e ∈ entries, Fits c t e.2) →
      Fits c (.dict key t) (.list (entries.map fun e => .list [e.1, e.2]))
  | struct {t : DType} {ts : List DType} {vs : List QVariant} :
      (t :: ts).length = vs.length → (∀ p ∈ (t :: ts).zip vs, Fits c p.1 p.2) →
      Fits c (.struct t ts) (.list vs)

section
variable {c : Conversions}

theorem nul_not_mem_cStr (text : Text) : nul ∉ cStr text := by
  intro h
  have := List.mem_takeWhile_imp h
  simp at this

theorem addBasic_items {v : QVariant} {code : Char} {i : Item}
    (h : (addBasic c v code).2 = [i]) : addBasic c v code = (true, [i]) := by
  unfold addBasic at h ⊢
  split at h
  · cases h
  · rename_i w hw
    rcases appendBasic_cases c w with hok | hno
    · rw [hok] at h ⊢
      exact Prod.ext rfl h
    · rw [hno] at h
      cases h

/-- Strings are cut at their first NUL, so libdbus takes what is well formed. -/
theorem appendBasic_convert {v : QVariant} {code : Char} {w : BasicValue}
    (h : qpidVariantToDbus c v code = some w) :
    (w.WellFormed c.utf8 ∧ appendBasic c w = (true, [.basic w])) ∨
      (¬ w.WellFormed c.utf8 ∧ appendBasic c w = (false, [])) := by
  cases w with
  | string text =>
    have hnul : nul ∉ text := by
      cases v with
      | string text' =>
        simp only [qpidVariantToDbus] at h
        split at h
        · cases h
          exact nul_not_mem_cStr text'
        · cases h
      | integer n =>
        simp only [qpidVariantToDbus] at h
        split at h
        · simp at h
        · split_ifs at h <;> simp at h
      | _ => simp [qpidVariantToDbus] at h
    by_cases hutf : c.utf8 text = true
    · exact .inl ⟨⟨hnul, hutf⟩, by rw [appendBasic, if_pos hutf]⟩
    · exact .inr ⟨fun hw => hutf hw.2, by rw [appendBasic, if_neg hutf]⟩
  | _ => exact .inl ⟨trivial, rfl⟩

theorem addBasic_eq_iff {v : QVariant} {code : Char} {i : Item} :
    addBasic c v code = (true, [i]) ↔
      ∃ w, qpidVariantToDbus c v code = some w ∧ w.WellFormed c.utf8 ∧ i = .basic w := by
  cases h : qpidVariantToDbus c v code with
  | none => simp [addBasic, h]
  | some w =>
    rcases appendBasic_convert h with ⟨hw, ha⟩ | ⟨hw, ha⟩ <;>
      simp [addBasic, h, ha, hw, eq_comm]

theorem fitsBasic_iff {b : Basic} {v : QVariant} :
    FitsBasic c b v ↔
      ∃ w, qpidVariantToDbus c v b.code = some w ∧ w.type = b ∧ w.WellFormed c.utf8 := by
  have hk : ∀ k : IntKind, k.code ≠ 'b' ∧ k.code ≠ 'v' ∧ k.code ≠ 'd' ∧ k.code ≠ 's' := by
    intro k
    cases k <;> decide
  have ho : IntKind.ofCode 'b' = none ∧ IntKind.ofCode 'd' = none ∧ IntKind.ofCode 's' = none ∧
      IntKind.ofCode 'o' = none ∧ IntKind.ofCode 'g' = none ∧ IntKind.ofCode 'h' = none := by
    decide
  rcases b with _ | k | _ | _ | _ | _ | _ <;>
    cases v <;>
    simp [FitsBasic, qpidVariantToDbus, Basic.code, hk, ho, BasicValue.type,
      BasicValue.WellFormed, nul_not_mem_cStr, Option.isSome_iff_exists, -Option.map_subtype]

theorem fitsVariant_iff {v : QVariant} :
    FitsVariant c v ↔ ∃ w, qpidVariantToDbus c v 'v' = some w ∧ w.WellFormed c.utf8 := by
  have ho : IntKind.ofCode 'v' = none := by decide
  cases v <;>
    simp [FitsVariant, qpidVariantToDbus, ho, BasicValue.WellFormed, nul_not_mem_cStr,
      Option.isSome_iff_exists, -Option.map_subtype]

theorem exists_forall₂ {α β : Type} {R : α → β → Prop} {l : List α}
    (h : ∀ x ∈ l, ∃ y, R x y) : ∃ ys, List.Forall₂ R l ys := by
  induction l with
  | nil => exact ⟨[], .nil⟩
  | cons x l ih =>
    rw [List.forall_mem_cons] at h
    rcases h.1 with ⟨y, hy⟩
    rcases ih h.2 with ⟨ys, hys⟩
    exact ⟨y :: ys, .cons hy hys⟩

theorem exists_of_forall₂ {α β : Type} {R : α → β → Prop} {l : List α} {ys : List β}
    (h : List.Forall₂ R l ys) : ∀ x ∈ l, ∃ y ∈ ys, R x y := by
  induction h with
  | nil => simp
  | @cons x y l ys hxy _ ih =>
    rw [List.forall_mem_cons]
    refine ⟨⟨y, List.mem_cons_self, hxy⟩, fun x' hx' => ?_⟩
    rcases ih x' hx' with ⟨y', hy', hxy'⟩
    exact ⟨y', List.mem_cons_of_mem y hy', hxy'⟩

theorem forall₂_of_zip {α β γ : Type} {P : α → γ → Prop} {as : List α} {bs : List β}
    {cs : List γ} (hlen : as.length = bs.length)
    (h : List.Forall₂ (fun p z => P p.1 z) (as.zip bs) cs) : List.Forall₂ P as cs := by
  rw [← List.map_fst_zip hlen.le, List.forall₂_map_left_iff]
  exact h

theorem Fits.appended {t : DType} {v : QVariant} (h : Fits c t v) :
    ∃ i, messageAddArg c t.signature v = (true, [i]) ∧ HasType c.utf8 t i := by
  induction h with
  | basic hb =>
    rcases fitsBasic_iff.mp hb with ⟨w, hw, rfl, hwell⟩
    refine ⟨.basic w, ?_, .basic hwell⟩
    rw [DType.signature, messageAddArg_basic, addBasic_eq_iff]
    exact ⟨w, hw, hwell, rfl⟩
  | variant hv =>
    rcases fitsVariant_iff.mp hv with ⟨w, hw, hwell⟩
    refine ⟨.variant [w.type.code] [.basic w], ?_, .variant (t := .basic w.type) (.basic hwell)⟩
    rcases appendBasic_convert hw with ⟨_, happ⟩ | ⟨hno, _⟩
    · rw [DType.signature, messageAddArg_variant, addVariant, hw]
      simp only [happ]
    · exact absurd hwell hno
  | @array t vs _ ih =>
    rcases exists_forall₂ ih with ⟨items, hitems⟩
    have hadd : addElements c t.signature vs = (true, items) := by
      rw [addElements_eq_iff]
      exact hitems.imp fun v i hvi => hvi.1
    have htypes : ∀ i ∈ items, HasType c.utf8 t i := by
      intro i hi
      rcases exists_of_forall₂ hitems.flip i hi with ⟨v, _, _, hti⟩
      exact hti
    refine ⟨.array t.signature items true, ?_, .array htypes⟩
    rw [DType.signature, messageAddArg_array, hadd]
  | @dict key t entries hkeys _ ih =>
    have hentry : ∀ e ∈ entries, ∃ p : BasicValue × Item,
        messageAddArg c (entrySignature key t.signature) (.list [e.1, e.2]) =
          (true, [.dictEntry [.basic p.1, p.2] true]) ∧
        (p.1.type = key ∧ p.1.WellFormed c.utf8) ∧ HasType c.utf8 t p.2 := by
      intro e he
      rcases fitsBasic_iff.mp (hkeys e he) with ⟨w, hw, htype, hwell⟩
      rcases ih e he with ⟨i, hi, hti⟩
      refine ⟨(w, i), ?_, ⟨htype, hwell⟩, hti⟩
      rw [addEntry_eq_iff]
      exact ⟨e.1, e.2, rfl, addBasic_eq_iff.mpr ⟨w, hw, hwell, rfl⟩, hi⟩
    rcases exists_forall₂ hentry with ⟨pairs, hpairs⟩
    have hadd : addElements c (entrySignature key t.signature)
        (entries.map fun e => .list [e.1, e.2]) =
          (true, pairs.map fun p => .dictEntry [.basic p.1, p.2] true) := by
      rw [addElements_eq_iff, List.forall₂_map_left_iff, List.forall₂_map_right_iff]
      exact hpairs.imp fun e p hep => hep.1
    have htypes : ∀ p ∈ pairs, (p.1.type = key ∧ p.1.WellFormed c.utf8) ∧
        HasType c.utf8 t p.2 := by
      intro p hp
      rcases exists_of_forall₂ hpairs.flip p hp with ⟨e, _, _, htp⟩
      exact htp
    refine ⟨_, ?_, .dict (fun p hp => (htypes p hp).1) fun p hp => (htypes p hp).2⟩
    rw [DType.signature, messageAddArg_array, hadd]
  | @struct t ts vs hlen _ ih =>
    rcases exists_forall₂ ih with ⟨items, hitems⟩
    have htypes : List.Forall₂ (HasType c.utf8) (t :: ts) items :=
      forall₂_of_zip hlen (hitems.imp fun p i hpi => hpi.2)
    have hcount : (t :: ts).length = items.length := htypes.length_eq
    have hadd : addFields c (signatures (t :: ts) ++ [')']) vs = (true, items) := by
      rw [addFields_eq_iff c (.inl rfl) hcount]
      exact ⟨hlen, hitems.imp fun p i hpi => hpi.1⟩
    refine ⟨.struct items true, ?_, .struct hcount fun p hp => List.forall₂_zip htypes hp⟩
    rw [signatures] at hadd
    rw [DType.signature, messageAddArg_struct, hadd]

/-- A complete value of a type comes only from a variant that fits the type. -/
theorem HasType.fits {t : DType} {i : Item} (h : HasType c.utf8 t i) :
    ∀ v, (messageAddArg c t.signature v).2 = [i] → Fits c t v := by
  induction h with
  | @basic w hwell =>
    intro v hv
    rw [DType.signature, messageAddArg_basic] at hv
    rcases addBasic_eq_iff.mp (addBasic_items hv) with ⟨w', hw', _, hi⟩
    cases hi
    exact .basic (fitsBasic_iff.mpr ⟨w, hw', rfl, hwell⟩)
  | @variant t i hti _ =>
    intro v hv
    rw [DType.signature, messageAddArg_variant, addVariant] at hv
    cases hw : qpidVariantToDbus c v 'v' with
    | none => simp [hw] at hv
    | some w =>
      rcases appendBasic_convert hw with ⟨hwell, _⟩ | ⟨_, hno⟩
      · exact .variant (fitsVariant_iff.mpr ⟨w, hw, hwell⟩)
      · simp [hw, hno] at hv
  | @array t items _ ih =>
    intro v hv
    rw [DType.signature] at hv
    rcases messageAddArg_eq_list c (.inl rfl) hv with ⟨vs, rfl⟩
    rw [messageAddArg_array] at hv
    simp only [List.cons.injEq, and_true, Item.array.injEq, true_and] at hv
    have hadd := (addElements_eq_iff c).mp (Prod.ext hv.2 hv.1)
    refine .array fun x hx => ?_
    rcases exists_of_forall₂ hadd x hx with ⟨i, hi, hxi⟩
    exact ih i hi x (congrArg Prod.snd hxi)
  | @dict key t entries hkeys _ ih =>
    intro v hv
    rw [DType.signature] at hv
    rcases messageAddArg_eq_list c (.inl rfl) hv with ⟨vs, rfl⟩
    rw [messageAddArg_array] at hv
    simp only [List.cons.injEq, and_true, Item.array.injEq, true_and] at hv
    have hadd := (addElements_eq_iff c).mp (Prod.ext hv.2 hv.1)
    rw [List.forall₂_map_right_iff] at hadd
    have hpair : ∀ x ∈ vs, ∃ p : QVariant × QVariant,
        x = .list [p.1, p.2] ∧ FitsBasic c key p.1 ∧ Fits c t p.2 := by
      intro x hx
      rcases exists_of_forall₂ hadd x hx with ⟨e, he, hxe⟩
      rcases (addEntry_eq_iff c).mp hxe with ⟨k, y, rfl, hk, hy⟩
      rcases addBasic_eq_iff.mp hk with ⟨w, hw, hwell, hbasic⟩
      cases hbasic
      have hfit := fitsBasic_iff.mpr ⟨e.1, hw, (hkeys e he).1, hwell⟩
      exact ⟨(k, y), rfl, hfit, ih e he y (congrArg Prod.snd hy)⟩
    rcases exists_forall₂ hpair with ⟨pairs, hpairs⟩
    have hvs : vs = pairs.map fun p => .list [p.1, p.2] := by
      have heq := hpairs.imp fun x p hxp => hxp.1
      rwa [← List.forall₂_map_right_iff, List.forall₂_eq_eq_eq] at heq
    rw [hvs]
    have hfits : ∀ p ∈ pairs, FitsBasic c key p.1 ∧ Fits c t p.2 := by
      intro p hp
      rcases exists_of_forall₂ hpairs.flip p hp with ⟨x, _, _, hfit⟩
      exact hfit
    exact .dict (fun p hp => (hfits p hp).1) fun p hp => (hfits p hp).2
  | @struct t ts items hlen _ ih =>
    intro v hv
    rw [DType.signature] at hv
    rcases messageAddArg_eq_list c (.inr (.inl rfl)) hv with ⟨vs, rfl⟩
    rw [messageAddArg_struct] at hv
    simp only [List.cons.injEq, and_true, Item.struct.injEq] at hv
    have hadd : addFields c (signatures (t :: ts) ++ [')']) vs = (true, items) := by
      rw [signatures]
      exact Prod.ext hv.2 hv.1
    rw [addFields_eq_iff c (.inl rfl) hlen] at hadd
    rcases hadd with ⟨hvs, hadd⟩
    refine .struct hvs fun p hp => ?_
    have hih : List.Forall₂ (fun u i => ∀ x, (messageAddArg c u.signature x).2 = [i] →
        Fits c u x) (t :: ts) items :=
      List.forall₂_iff_zip.mpr ⟨hlen, fun {u i} hui => ih (u, i) hui⟩
    rw [← List.map_fst_zip hvs.le, List.forall₂_map_left_iff] at hih
    rcases exists_of_forall₂ (hih.mp (fun q i hq hqi => hq q.2 (congrArg Prod.snd hqi)) hadd)
      p hp with ⟨i, _, hfit⟩
    exact hfit

def Declares (c : Conversions) (arg : Arg) (i : Item) : Prop :=
  ∃ t : DType, arg.type = t.signature ∧ HasType c.utf8 t i

/-- `v` can be sent as a value of the signature that the argument declares. -/
def Accepts (c : Conversions) (arg : Arg) (v : QVariant) : Prop :=
  ∃ t : DType, arg.type = t.signature ∧ Fits c t v

theorem accepts_iff {arg : Arg} {v : QVariant} :
    Accepts c arg v ↔ ∃ i, (arg.addToMessage c v).2 = [i] ∧ Declares c arg i := by
  constructor
  · rintro ⟨t, ht, hfits⟩
    rcases hfits.appended with ⟨i, hi, hti⟩
    refine ⟨i, ?_, t, ht, hti⟩
    rw [Arg.addToMessage, ht, hi]
  · rintro ⟨i, hi, t, ht, hti⟩
    rw [Arg.addToMessage, ht] at hi
    exact ⟨t, ht, hti.fits v hi⟩

theorem forall₂_flatMap_iff {α β : Type} {P : α → β → Prop} {ps : List (α × QVariant)}
    {f : α × QVariant → List β} (hf : ∀ p, (f p).length ≤ 1) :
    List.Forall₂ P (ps.map Prod.fst) (ps.flatMap f) ↔
      ∀ p ∈ ps, ∃ i, f p = [i] ∧ P p.1 i := by
  have hshort : ∀ qs : List (α × QVariant), (qs.flatMap f).length ≤ qs.length := by
    intro qs
    induction qs with
    | nil => simp
    | cons q qs ih =>
      have := hf q
      rw [List.flatMap_cons, List.length_append, List.length_cons]
      omega
  induction ps with
  | nil => simp
  | cons p ps ih =>
    rw [List.map_cons, List.flatMap_cons, List.forall_mem_cons]
    constructor
    · intro h
      have hlen := h.length_eq
      have hps := hshort ps
      simp only [List.length_cons, List.length_map, List.length_append] at hlen
      have hone : (f p).length = 1 := by
        have := hf p
        omega
      rcases List.length_eq_one_iff.mp hone with ⟨i, hi⟩
      rw [hi, List.singleton_append, List.forall₂_cons] at h
      exact ⟨⟨i, hi, h.1⟩, ih.mp h.2⟩
    · rintro ⟨⟨i, hi, hp⟩, hps⟩
      rw [hi, List.singleton_append]
      exact .cons hp (ih.mpr hps)

theorem messageBody_iff {inArgs : List Arg} {args : List QVariant}
    (hlen : inArgs.length = args.length) :
    List.Forall₂ (Declares c) inArgs (messageBody c inArgs args) ↔
      List.Forall₂ (Accepts c) inArgs args := by
  have hone : ∀ p : Arg × QVariant, (p.1.addToMessage c p.2).2.length ≤ 1 := by
    intro p
    rcases messageAddArg_cases c p.1.type p.2 with ⟨i, hi⟩ | hfail
    · rw [Arg.addToMessage, hi, List.length_singleton]
    · simp [Arg.addToMessage, hfail]
  have hbody : List.Forall₂ (Declares c) ((inArgs.zip args).map Prod.fst)
      (messageBody c inArgs args) ↔ _ := forall₂_flatMap_iff hone
  rw [List.map_fst_zip hlen.le] at hbody
  rw [hbody, List.forall₂_iff_zip]
  constructor
  · intro h
    exact ⟨hlen, fun {arg v} hp => accepts_iff.mpr (h (arg, v) hp)⟩
  · rintro ⟨_, h⟩ p hp
    exact accepts_iff.mp (h hp)

end

/-- An error with no message sent, or a message whose body has one complete value
of the declared signature for every input argument. -/
def CallResult.WellTyped (c : Conversions) (m : Method) (r : CallResult) : Prop :=
  (r.err ≠ none ∧ r.sent = none) ∨
    ∃ body, r.sent = some body ∧ List.Forall₂ (Declares c) m.inArgs body

theorem call_wellTyped_iff (c : Conversions) (m : Method) (args : List QVariant)
    (o : CallOutcome) :
    (m.call c args o).WellTyped c m ↔
      m.inArgs.length ≠ args.length ∨ o.created = false ∨
        List.Forall₂ (Accepts c) m.inArgs args := by
  by_cases hlen : m.inArgs.length = args.length
  · by_cases hmsg : o.created = false
    · simp [CallResult.WellTyped, Method.call, hlen, hmsg]
    · have hsent : ∀ (err : Option Text) (results : List QVariant),
          (CallResult.mk results err (some (messageBody c m.inArgs args))).WellTyped c m ↔
            List.Forall₂ (Accepts c) m.inArgs args := by
        intro err results
        rw [← messageBody_iff hlen]
        simp [CallResult.WellTyped]
      rw [Method.call, if_neg (not_not.mpr hlen), if_neg hmsg, or_iff_right (not_not.mpr hlen),
        or_iff_right hmsg]
      cases o.reply with
      | error text => exact hsent _ _
      | ok items => exact hsent _ _
  · rw [Method.call, if_pos hlen]
    simp [CallResult.WellTyped, hlen]

def oneInteger : Method := ⟨"f".toList, [{ name := "n".toList, type := "i".toList }]⟩

/-- A text for an integer argument: the message goes out without it, and no error
is reported. -/
theorem unconverted_argument_sent :
    ¬ (oneInteger.call exactConversions [.string "x".toList] ⟨true, .ok []⟩).WellTyped
      exactConversions oneInteger := by
  have hcall : oneInteger.call exactConversions [.string "x".toList] ⟨true, .ok []⟩ =
      ⟨[], none, some []⟩ := rfl
  rw [hcall]
  rintro (⟨herr, _⟩ | ⟨body, hbody, htypes⟩)
  · exact herr rfl
  · cases hbody
    cases htypes

end Matahari.DbusBridge
