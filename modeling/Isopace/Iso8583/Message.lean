import Isopace.Iso8583.Types

/-!
# Messages

Model of `iso8583/message.go` and of the getters of `iso8583/value.go`. A read decodes lazily and
memoises, so it returns the message it leaves behind. A `*Message` held by a value is the tree below
it. `SetP` can fail after it has changed the message, so it returns the message in both cases.
-/

namespace Isopace.Iso8583

open Lib List

variable {K : Codecs}

/-! ## Value getters (value.go) -/

namespace Value

/-- `fieldErr`, value.go:154. -/
def fieldErr (v : Value K) (cause : Err) : Err := .field .zero v.off "" cause

/-- `String`, value.go:85. -/
def text (v : Value K) : Except Err Bytes :=
  match v.kind with
  | .string | .numeric => .ok v.raw
  | .bytes => .ok v.raw
  | .amount => .ok v.dec.toText
  | _ => .error (v.fieldErr (.cause .notText))

/-- `parseInt`, value.go:159. -/
def parseInt (b : Bytes) : Except Err Int64 :=
  if b = [] then .error (.cause .notNumeric)
  else
    match Lib.parseInt (2 ^ 63) b with
    | .error e => .error (.cause (.num e))
    | .ok n => .ok (Int64.ofInt n)

/-- `parseUint`, value.go:166. -/
def parseUint (b : Bytes) : Except Err ℕ :=
  if b = [] then .error (.cause .notNumeric)
  else
    match Lib.parseUint (2 ^ 64 - 1) b with
    | .error e => .error (.cause (.num e))
    | .ok n => .ok n

/-- `Uint`, value.go:116. -/
def uint (v : Value K) : Except Err ℕ :=
  match v.kind with
  | .numeric | .string =>
    match parseUint v.raw with
    | .error e => .error (v.fieldErr e)
    | .ok u => .ok u
  | _ => .error (v.fieldErr (.cause .notNumeric))

/-- `Decimal`, value.go:130. -/
def decimal (v : Value K) : Except Err Decimal :=
  match v.kind with
  | .amount => .ok v.dec
  | .numeric =>
    match parseInt v.raw with
    | .error e => .error (v.fieldErr e)
    | .ok n => .ok ⟨n, 0⟩
  | _ => .error (v.fieldErr (.cause .wrongKind))

end Value

/-! ## Building values (message.go 481-553) -/

/-- The Go types `makeValue` distinguishes in its `any` argument. -/
inductive Arg (K : Codecs)
  | value (v : Value K)
  | string (s : Bytes)
  | bytes (b : Bytes)
  | int (n : Int64)
  | int64 (n : Int64)
  | uint64 (n : UInt64)
  | decimal (d : Decimal)
  | amount (d : Decimal) (currency : Bytes)
  | other

/-- `scalarFromBytes`, message.go:515. -/
def scalarFromBytes (kind : Kind) (b : Bytes) : Except Err (Value K) :=
  match kind with
  | .amount =>
    match Lib.parseInt (2 ^ 63) b with
    | .error e => .error (.field .zero (-1) "" (.cause (.num e)))
    | .ok n => .ok { Value.zero with dec := ⟨Int64.ofInt n, 0⟩, raw := b, kind := .amount }
  | .bytes => .ok { Value.zero with raw := b, kind := .bytes }
  | .numeric => .ok { Value.zero with raw := b, kind := .numeric }
  | _ => .ok { Value.zero with raw := b, kind := .string }

/-- `numericKind`, message.go:541. -/
def numericKind (kind : Kind) : Kind :=
  if kind = .string ∨ kind = .invalid then .numeric else kind

/-- `scalarFromInt`, message.go:532. -/
def scalarFromInt (kind : Kind) (n : Int64) : Value K :=
  if kind = .amount then
    { Value.zero with dec := ⟨n, 0⟩, raw := formatInt n.toInt, kind := .amount }
  else { Value.zero with raw := formatInt n.toInt, kind := numericKind kind }

/-- `makeValue`, message.go:483. -/
def makeValue (d : Option (FieldDef K)) (arg : Arg K) : Except Err (Value K) :=
  let kind :=
    match d with
    | some d => if d.kind ≠ .invalid then d.kind else .string
    | none => .string
  match arg with
  | .value x => .ok x
  | .string s => scalarFromBytes kind s
  | .bytes b =>
    let k :=
      match d with
      | some d => if d.kind = .invalid then .bytes else kind
      | none => .bytes
    .ok { Value.zero with raw := b, kind := k }
  | .int n => .ok (scalarFromInt kind n)
  | .int64 n => .ok (scalarFromInt kind n)
  | .uint64 n => .ok { Value.zero with raw := formatNat n.toNat, kind := numericKind kind }
  | .decimal x => .ok { Value.zero with dec := x, raw := x.toText, kind := .amount }
  | .amount x _ => .ok { Value.zero with dec := x, raw := x.toText, kind := .amount }
  | .other =>
    .error (.field (match d with | some d => d.path | none => .zero) (-1) ""
      (.cause .unsupportedType))

/-! ## Construction and presence -/

/-- `New`, message.go:61. -/
def Message.new (s : Schema K) : Message K where
  schema := some s
  src := none
  bm := .empty
  slots := replicate (s.maxDE + 1) Slot.zero
  owned := true
  dirty := .empty
  sealed := false
  tags := none
  tagOrder := []

/-- `newDecoded`, message.go:71. -/
def newDecoded (s : Schema K) (src : Bytes) (isSealed : Bool) : Message K where
  schema := some s
  src := some src
  bm := .empty
  slots := replicate (s.maxDE + 1) Slot.zero
  owned := false
  dirty := .empty
  sealed := isSealed
  tags := none
  tagOrder := []

/-- `NewTLV`, message.go:180. -/
def Message.newTLV (sub : Option (Schema K)) : Message K where
  schema := sub
  src := none
  bm := .empty
  slots := []
  owned := true
  dirty := .empty
  sealed := false
  tags := some []
  tagOrder := []

/-- The slot `Set` leaves for a value. -/
def SlotOf.edit (s : Slot K) (v : Value K) : Slot K :=
  { s with v := v, present := true, decoded := true, dirty := true, fromSrc := false }

namespace MessageOf

/-- `def`, message.go:88. -/
def fieldDef (m : Message K) (de : ℤ) : Option (FieldDef K) := m.schema.bind (·.field de)

def slot? (m : Message K) (de : ℤ) : Option (Slot K) :=
  if de < 0 then none else m.slots[de.toNat]?

def setSlot (m : Message K) (de : ℤ) (sl : Slot K) : Message K :=
  { m with slots := m.slots.set de.toNat sl }

/-- `Has`, message.go:99. -/
def has (m : Message K) (de : ℤ) : Bool :=
  match m.slot? de with
  | none => false
  | some sl => sl.present

/-! ## Reading -/

/-- The decoding step of `decodeSlot` on the body of a field. -/
def decodeField (ops : Ops K) (d : FieldDef K) (body : Bytes) (units bodyOff : ℤ) :
    Except Err (Value K) :=
  match d.codec with
  | some c =>
    match ops.decodeBody c body units d with
    | .error e => .error e
    | .ok dv => .ok { dv with codec := some c, off := bodyOff }
  | none => .ok { Value.zero with raw := body, kind := .bytes, off := bodyOff }

/-- `decodeSlot`. Slicing outside `src`, a panic, gives no value. -/
def decodeSlot (ops : Ops K) (m : Message K) (de : ℤ) : Message K × Option (Value K) :=
  match m.slot? de with
  | none => (m, none)
  | some s =>
    if ¬ s.present then (m, none)
    else if s.decoded then (m, some s.v)
    else
      match m.fieldDef de with
      | none => (m, none)
      | some d =>
        if ¬ s.fromSrc then (m.setSlot de { s with decoded := true }, some s.v)
        else
          match slice (m.src.getD []) s.bodyOff s.bodyEnd with
          | none => (m, none)
          | some body =>
            match decodeField ops d body s.units s.bodyOff with
            | .error _ => (m, none)
            | .ok v => (m.setSlot de { s with v := v, decoded := true }, some v)

/-- `Get`, message.go:128. -/
def get (ops : Ops K) (m : Message K) (de : ℤ) : Message K × Option (Value K) :=
  match m.slot? de with
  | none => (m, none)
  | some _ => decodeSlot ops m de

/-- `strings.ToUpper` on ASCII text. -/
def toUpper (s : Bytes) : Bytes := s.map fun c => if 0x61 ≤ c ∧ c ≤ 0x7A then c - 0x20 else c

/-- `tagKey`, schema.go:159. -/
def tagKey (e : PathElem) : Bytes := if e.isTag then e.tag else formatInt e.n.toInt

/-- `GetTag`, message.go:198. -/
def getTag (m : Message K) (tag : Bytes) : Option (Value K) :=
  match m.tags with
  | none => none
  | some tags =>
    match tags.lookup (toUpper tag) with
    | none => none
    | some ts => if ts.present then some ts.v else none

def mapSet {α β : Type} [DecidableEq α] (k : α) (v : β) : List (α × β) → List (α × β)
  | [] => [(k, v)]
  | p :: ps => if p.1 = k then (k, v) :: ps else p :: mapSet k v ps

/-- `PutTag`, message.go:186. -/
def putTag (m : Message K) (tag : Bytes) (v : Value K) : Message K :=
  let key := toUpper tag
  let tags := m.tags.getD []
  { m with
    tagOrder := if (tags.lookup key).isSome then m.tagOrder else m.tagOrder ++ [key]
    tags := some (mapSet key ⟨v, true⟩ tags) }

/-- `TagSeq`, message.go:210. -/
def tagSeq (m : Message K) : List (Bytes × Value K) :=
  m.tagOrder.filterMap fun key =>
    match (m.tags.getD []).lookup key with
    | none => none
    | some ts => if ts.present then some (key, ts.v) else none

/-- Whether the schema is a TLV one (`m.schema != nil && m.schema.isTLV`). -/
def isTLV (m : Message K) : Bool := (m.schema.map (·.isTLV)).getD false

def putChild (m : Message K) (de : ℤ) (child : Message K) : Message K :=
  match m.slot? de with
  | none => m
  | some s => m.setSlot de { s with v := { s.v with sub := some child } }

def putTagChild (m : Message K) (tag : Bytes) (child : Message K) : Message K :=
  match (m.tags.getD []).lookup (toUpper tag) with
  | none => m
  | some ts =>
    { m with tags := some (mapSet (toUpper tag) { ts with v := { ts.v with sub := some child } }
        (m.tags.getD [])) }

/-- `GetP` along the elements of a path. -/
def getElems (ops : Ops K) (m : Message K) : List PathElem → Message K × Option (Value K)
  | [] => (m, none)
  | head :: rest =>
    if m.isTLV then
      match m.getTag (tagKey head) with
      | none => (m, none)
      | some v =>
        if rest = [] then (m, some v)
        else
          match v.composite with
          | none => (m, none)
          | some sub =>
            let r := getElems ops sub rest
            (m.putTagChild (tagKey head) r.1, r.2)
    else if head.isTag then (m, none)
    else
      let g := m.get ops head.n.toInt
      match g.2 with
      | none => (g.1, none)
      | some v =>
        if rest = [] then (g.1, some v)
        else
          match v.composite with
          | none => (g.1, none)
          | some sub =>
            let r := getElems ops sub rest
            (g.1.putChild head.n.toInt r.1, r.2)

/-- `GetP`, message.go:136. -/
def getP (ops : Ops K) (m : Message K) (p : FieldPath) : Message K × Option (Value K) :=
  m.getElems ops p.elems

/-- `HasP`, message.go:107. -/
def hasP (ops : Ops K) (m : Message K) (p : FieldPath) : Message K × Bool :=
  match p.elems with
  | [e] => if ¬ e.isTag then (m, m.has e.n.toInt) else ((m.getP ops p).1, (m.getP ops p).2.isSome)
  | _ => ((m.getP ops p).1, (m.getP ops p).2.isSome)

def fieldsFrom (ops : Ops K) : List ℕ → Message K → Message K × List (ℕ × Value K)
  | [], m => (m, [])
  | de :: des, m =>
    let g := m.decodeSlot ops de
    let r := fieldsFrom ops des g.1
    match g.2 with
    | none => (r.1, r.2)
    | some v => (r.1, (de, v) :: r.2)

/-- `Fields`, message.go:261. -/
def fields (ops : Ops K) (m : Message K) : Message K × List (ℕ × Value K) :=
  fieldsFrom ops (List.range' 1 (m.slots.length - 1)) m

/-! ## Writing -/

/-- The marks `Set` leaves on a message. -/
def touch (m : Message K) (de : ℤ) : Message K :=
  { m with
    owned := true
    bm := if de ≥ 1 then m.bm.set de else m.bm
    dirty := if de ≥ 1 then m.dirty.set de else m.dirty }

/-- `Set`, message.go:282. -/
def set (m : Message K) (de : ℤ) (arg : Arg K) : Except Err (Message K) :=
  if m.sealed then .error (.field (.de de) (-1) "" (.cause .messageSealed))
  else
    match m.schema with
    | none => .error .goPanic
    | some _ =>
      match m.fieldDef de with
      | none => .error (.field (.de de) (-1) "" (.cause .unknownDE))
      | some d =>
        match makeValue (some d) arg with
        | .error e => .error e
        | .ok val =>
          if de ≥ m.slots.length then .error (.field (.de de) (-1) "" (.cause .unknownDE))
          else
            match m.slot? de with
            | none => .error .goPanic
            | some s => .ok ((m.setSlot de (s.edit { val with codec := d.codec })).touch de)

/-- `ensureChild`, message.go:366. -/
def ensureChild (ops : Ops K) (m : Message K) (de : ℤ) (d : FieldDef K) :
    Message K × Except Err (Message K) :=
  match m.slot? de with
  | none => (m, .error (.field (.de de) (-1) "" (.cause .unknownDE)))
  | some s0 =>
    let g := if s0.present then m.decodeSlot ops de else (m, none)
    let m := g.1
    match g.2.bind Value.composite with
    | some child =>
      match m.slot? de with
      | none => (m, .error .goPanic)
      | some s => ({ m.setSlot de { s with dirty := true, fromSrc := false } with owned := true },
          .ok child)
    | none =>
      match m.slot? de with
      | none => (m, .error .goPanic)
      | some s =>
        let child :=
          match d.sub with
          | some sub => if sub.isTLV then Message.newTLV (some sub) else Message.new sub
          | none => Message.newTLV none
        ((m.setSlot de (s.edit (Value.ofComposite [] (some child)))).touch de, .ok child)

/-- `SetP` along the elements of a path; errors report the path `full`. -/
def setElems (ops : Ops K) (m : Message K) (arg : Arg K) :
    List PathElem → FieldPath → Message K × Except Err Unit
  | [], full =>
    if m.sealed then (m, .error (.field full (-1) "" (.cause .messageSealed)))
    else (m, .error (.field full (-1) "" (.cause .notPresent)))
  | head :: rest, full =>
    if m.sealed then (m, .error (.field full (-1) "" (.cause .messageSealed)))
    else if m.isTLV then
      let tagDef := m.schema.bind (·.lookupTag (toUpper (tagKey head)))
      if rest ≠ [] then (m, .error (.field full (-1) "" (.cause (.nestedTLVWrite full))))
      else
        match makeValue tagDef arg with
        | .error e => (m, .error e)
        | .ok val =>
          let val := match tagDef with | some d => { val with codec := d.codec } | none => val
          ({ m.putTag (tagKey head) val with owned := true }, .ok ())
    else if head.isTag then (m, .error (.field full (-1) "" (.cause .unknownDE)))
    else
      let de := head.n.toInt
      if rest = [] then
        match m.set de arg with
        | .error e => (m, .error e)
        | .ok m' => (m', .ok ())
      else
        match m.fieldDef de with
        | none => (m, .error (.field full (-1) "" (.cause (.deNotComposite de))))
        | some d =>
          if d.sub.isNone then (m, .error (.field full (-1) "" (.cause (.deNotComposite de))))
          else
            match m.ensureChild ops de d with
            | (m, .error e) => (m, .error e)
            | (m, .ok child) =>
              let r := setElems ops child arg rest full.tail
              (m.putChild de r.1, r.2)

/-- `SetP`, message.go:315. -/
def setP (ops : Ops K) (m : Message K) (p : FieldPath) (arg : Arg K) :
    Message K × Except Err Unit :=
  m.setElems ops arg p.elems p

/-- The message without the slot of a data element. -/
def dropSlot (m : Message K) (de : ℤ) : Message K :=
  { m.setSlot de Slot.zero with
    bm := if de ≥ 1 then m.bm.clear de else m.bm
    owned := true }

/-- `Unset`, message.go:411. -/
def unset (m : Message K) (de : ℤ) : Message K :=
  if m.sealed then m
  else
    match m.slot? de with
    | none => m
    | some s => if ¬ s.present then m else m.dropSlot de

/-- `Seal`, message.go:445. -/
def toSealed (m : Message K) : Message K := { m with sealed := true }

end MessageOf

/-! ## `Clone` -/

mutual

/-- `Clone`, message.go:455. -/
def MessageOf.clone : MessageOf K (Value K) → MessageOf K (Value K)
  | ⟨schema, src, bm, slots, _, dirty, _, tags, tagOrder⟩ =>
    ⟨schema, src, bm, cloneSlots slots, false, dirty, false, tags,
      if tags.isSome then tagOrder else []⟩

def cloneSlots : List (SlotOf (Value K)) → List (SlotOf (Value K))
  | [] => []
  | s :: ss => cloneSlot s :: cloneSlots ss

def cloneSlot : SlotOf (Value K) → SlotOf (Value K)
  | ⟨v, present, decoded, dirty, fromSrc, units, wireOff, bodyOff, bodyEnd⟩ =>
    ⟨Value.clone v, present, decoded, dirty, fromSrc, units, wireOff, bodyOff, bodyEnd⟩

def Value.clone : Value K → Value K
  | ⟨raw, kind, codec, off, sub, dec⟩ => ⟨raw, kind, codec, off, cloneSub sub, dec⟩

def cloneSub : Option (MessageOf K (Value K)) → Option (MessageOf K (Value K))
  | none => none
  | some m => some m.clone

end

/-! ## What the writes do -/

namespace MessageOf

lemma lookup_mapSet {α β : Type} [DecidableEq α] [BEq α] [LawfulBEq α] (k : α) (v : β)
    (ps : List (α × β)) (k' : α) :
    (mapSet k v ps).lookup k' = if k' = k then some v else ps.lookup k' := by
  have hcons : ∀ (a : α) (b : β) (l : List (α × β)),
      ((a, b) :: l).lookup k' = if k' = a then some b else l.lookup k' := by
    intro a b l
    rw [lookup_cons]
    by_cases h : k' = a
    · rw [if_pos h, beq_iff_eq.mpr h]
    · rw [if_neg h, beq_eq_false_iff_ne.mpr h]
  induction ps with
  | nil => exact hcons k v []
  | cons p ps ih =>
    obtain ⟨a, b⟩ := p
    unfold mapSet
    split_ifs with ha hk hk
    · rw [hcons, if_pos hk]
    · rw [hcons, hcons, if_neg hk, if_neg (fun h => hk (h.trans ha))]
    · rw [hcons, if_neg (by rw [hk]; exact fun h => ha h.symm), ih, if_pos hk]
    · rw [hcons, hcons, ih, if_neg hk]

lemma slot?_natCast (m : Message K) (n : ℕ) : m.slot? n = m.slots[n]? := by
  unfold slot?
  rw [if_neg (by omega), Int.toNat_natCast]

variable {de : ℤ} {m : Message K} {sl : Slot K}

lemma slot?_neg (m : Message K) (h : de < 0) : m.slot? de = none := if_pos h

lemma nonneg_of_slot? (h : m.slot? de = some sl) : 0 ≤ de := by
  by_contra hc
  rw [m.slot?_neg (by omega)] at h
  cases h

lemma nat_of_slot? (h : m.slot? de = some sl) : ∃ n : ℕ, de = n :=
  Int.eq_ofNat_of_zero_le (nonneg_of_slot? h)

lemma lt_of_slot? (h : m.slot? de = some sl) : de < m.slots.length := by
  obtain ⟨n, rfl⟩ := nat_of_slot? h
  rw [m.slot?_natCast] at h
  exact_mod_cast (List.getElem?_eq_some_iff.mp h).1

lemma slot?_setSlot (m : Message K) (hde : 0 ≤ de) (sl : Slot K) (de' : ℤ) :
    (m.setSlot de sl).slot? de' =
      if de' = de ∧ de < m.slots.length then some sl else m.slot? de' := by
  unfold slot? setSlot
  by_cases hneg : de' < 0
  · rw [if_pos hneg, if_pos hneg, if_neg (by omega)]
  rw [if_neg hneg, if_neg hneg, getElem?_set]
  split_ifs with h1 h2 h3 h3 h3
  · rfl
  · omega
  · omega
  · rw [getElem?_eq_none (by omega)]
  · omega
  · rfl

lemma slot?_setSlot_of_some {old : Slot K} (h : m.slot? de = some old) (sl : Slot K) (de' : ℤ) :
    (m.setSlot de sl).slot? de' = if de' = de then some sl else m.slot? de' := by
  rw [m.slot?_setSlot (nonneg_of_slot? h)]
  simp only [lt_of_slot? h, and_true]

lemma slot?_setSlot_self {old : Slot K} (h : m.slot? de = some old) (sl : Slot K) :
    (m.setSlot de sl).slot? de = some sl :=
  (slot?_setSlot_of_some h sl de).trans (if_pos rfl)

lemma has_setSlot {old : Slot K} (h : m.slot? de = some old) (sl : Slot K) (de' : ℤ) :
    (m.setSlot de sl).has de' = if de' = de then sl.present else m.has de' := by
  unfold has
  rw [slot?_setSlot_of_some h]
  split_ifs <;> rfl

/-- What all slots satisfy survives the writing of a slot that satisfies it. -/
lemma slots_setSlot {P : ℤ → Slot K → Prop} (h : ∀ n sl, m.slot? n = some sl → P n sl)
    (hde : 0 ≤ de) (hsl : P de sl) : ∀ n sl', (m.setSlot de sl).slot? n = some sl' → P n sl' := by
  intro n sl' hsl'
  rw [m.slot?_setSlot hde] at hsl'
  split_ifs at hsl' with hn
  · cases hsl'
    rwa [hn.1]
  · exact h n sl' hsl'

lemma slot_of_zero {k : ℕ} (hz : m.slots = replicate k Slot.zero) (h : m.slot? de = some sl) :
    sl = Slot.zero := by
  obtain ⟨n, rfl⟩ := nat_of_slot? h
  rw [slot?_natCast, hz] at h
  exact (mem_replicate.mp (mem_of_getElem? h)).2

@[simp] lemma setSlot_length (m : Message K) (de : ℤ) (sl : Slot K) :
    (m.setSlot de sl).slots.length = m.slots.length := length_set

@[simp] lemma touch_slot? (m : Message K) (de de' : ℤ) : (m.touch de).slot? de' = m.slot? de' :=
  rfl

lemma has_eq_true : m.has de = true ↔ ∃ sl, m.slot? de = some sl ∧ sl.present = true := by
  unfold has
  cases m.slot? de with
  | none | some sl => simp

lemma has_of_zero {k : ℕ} (hz : m.slots = replicate k Slot.zero) (de : ℤ) : m.has de = false := by
  rw [Bool.eq_false_iff, Ne, has_eq_true]
  rintro ⟨sl, hsl, hp⟩
  rw [slot_of_zero hz hsl] at hp
  cases hp

lemma set_eq {arg : Arg K} {d : FieldDef K} {v : Value K} (hs : m.sealed = false)
    (hd : m.fieldDef de = some d) (hv : makeValue (some d) arg = .ok v)
    (hsl : m.slot? de = some sl) :
    m.set de arg = .ok ((m.setSlot de (sl.edit { v with codec := d.codec })).touch de) := by
  unfold set
  rw [if_neg (by rw [hs]; simp)]
  rcases hsch : m.schema with _ | s
  · rw [fieldDef, hsch] at hd
    cases hd
  have hlt := lt_of_slot? hsl
  dsimp only
  rw [hd]
  dsimp only
  rw [hv]
  dsimp only
  rw [if_neg (by omega), hsl]

lemma setSlot_setSlot (m : Message K) (de : ℤ) (a b : Slot K) :
    (m.setSlot de a).setSlot de b = m.setSlot de b := by
  unfold setSlot
  rw [set_set]

lemma set_ok {m' : Message K} {arg : Arg K} (h : m.set de arg = .ok m') :
    ∃ d v sl, m.sealed = false ∧ m.fieldDef de = some d ∧ makeValue (some d) arg = .ok v ∧
      m.slot? de = some sl ∧
      m' = (m.setSlot de (sl.edit { v with codec := d.codec })).touch de := by
  unfold set at h
  by_cases hsealed : m.sealed = true
  · rw [if_pos hsealed] at h; cases h
  rw [if_neg hsealed] at h
  split at h
  · cases h
  rename_i s hs
  rcases hd : m.fieldDef de with _ | d
  · simp [hd] at h
  rw [hd] at h
  dsimp only at h
  split at h
  · cases h
  rename_i v hv
  by_cases hlen : de ≥ m.slots.length
  · rw [if_pos hlen] at h; cases h
  rw [if_neg hlen] at h
  rcases hsl : m.slot? de with _ | sl
  · simp [hsl] at h
  rw [hsl] at h
  cases h
  exact ⟨d, v, sl, by simpa using hsealed, rfl, hv, rfl, rfl⟩

lemma get_absent {ops : Ops K} (h : m.has de = false) : (m.get ops de).2 = none := by
  unfold has at h
  unfold get decodeSlot
  rcases hsl : m.slot? de with _ | sl
  · rfl
  rw [hsl] at h
  dsimp only at h ⊢
  rw [if_pos (by simpa using h)]

/-- What `Unset` does: nothing on a sealed message or an absent field. -/
theorem unset_cases (m : Message K) (de : ℤ) :
    (m.unset de = m ∧ (m.sealed = true ∨ m.has de = false)) ∨
      (m.sealed = false ∧ (∃ sl, m.slot? de = some sl ∧ sl.present = true) ∧
        m.unset de = m.dropSlot de) := by
  unfold unset has
  by_cases hsealed : m.sealed = true
  · rw [if_pos hsealed]
    exact Or.inl ⟨rfl, Or.inl hsealed⟩
  rw [if_neg hsealed]
  rcases hsl : m.slot? de with _ | sl
  · exact Or.inl ⟨rfl, Or.inr rfl⟩
  dsimp only
  by_cases hp : sl.present = true
  · rw [if_neg (by simpa using hp)]
    exact Or.inr ⟨by simpa using hsealed, ⟨sl, rfl, hp⟩, rfl⟩
  · rw [if_pos (by simpa using hp)]
    exact Or.inl ⟨rfl, Or.inr (by simpa using hp)⟩

lemma dropSlot_slot? {old : Slot K} (h : m.slot? de = some old) (de' : ℤ) :
    (m.dropSlot de).slot? de' = if de' = de then some Slot.zero else m.slot? de' :=
  slot?_setSlot_of_some h Slot.zero de'

end MessageOf

end Isopace.Iso8583
