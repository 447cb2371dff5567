import Isopace.Iso8583.Lens

/-!
# Messages as pointers

A composite value holds its child by pointer (value.go, line 56). Here the reads and writes of
message.go are on a heap of messages, where values can share a child.
-/

namespace Isopace.Iso8583

open Lib

variable {K : Codecs}

/-! ## The heap -/

/-- `Value`, with the child as an address. -/
structure PValue (K : Codecs) where
  raw : Bytes
  kind : Kind
  codec : Option K.Field
  off : ℤ
  sub : Option ℕ
  dec : Decimal

abbrev Node (K : Codecs) := MessageOf K (PValue K)

abbrev Heap (K : Codecs) := List (Node K)

abbrev PSlot (K : Codecs) := SlotOf (PValue K)

mutual

def allocValue : Value K → Heap K → Heap K × PValue K
  | ⟨raw, kind, codec, off, sub, dec⟩, h =>
    ((allocSub sub h).1, ⟨raw, kind, codec, off, (allocSub sub h).2, dec⟩)

def allocSub : Option (MessageOf K (Value K)) → Heap K → Heap K × Option ℕ
  | none, h => (h, none)
  | some m, h => ((allocMessage m h).1, some (allocMessage m h).2)

def allocMessage : MessageOf K (Value K) → Heap K → Heap K × ℕ
  | ⟨schema, src, bm, slots, owned, dirty, isSealed, tags, tagOrder⟩, h =>
    let s := allocSlots slots h
    let t := allocTags tags s.1
    (t.1 ++ [⟨schema, src, bm, s.2, owned, dirty, isSealed, t.2, tagOrder⟩], t.1.length)

def allocSlots : List (SlotOf (Value K)) → Heap K → Heap K × List (PSlot K)
  | [], h => (h, [])
  | s :: ss, h =>
    let p := allocSlot s h
    let ps := allocSlots ss p.1
    (ps.1, p.2 :: ps.2)

def allocSlot : SlotOf (Value K) → Heap K → Heap K × PSlot K
  | ⟨v, present, decoded, dirty, fromSrc, units, wireOff, bodyOff, bodyEnd⟩, h =>
    let p := allocValue v h
    (p.1, ⟨p.2, present, decoded, dirty, fromSrc, units, wireOff, bodyOff, bodyEnd⟩)

def allocTags : Option (List (Bytes × TagSlotOf (Value K))) → Heap K →
    Heap K × Option (List (Bytes × TagSlotOf (PValue K)))
  | none, h => (h, none)
  | some ts, h => ((allocTagList ts h).1, some (allocTagList ts h).2)

def allocTagList : List (Bytes × TagSlotOf (Value K)) → Heap K →
    Heap K × List (Bytes × TagSlotOf (PValue K))
  | [], h => (h, [])
  | (key, ⟨v, present⟩) :: ts, h =>
    let p := allocValue v h
    let ps := allocTagList ts p.1
    (ps.1, (key, ⟨p.2, present⟩) :: ps.2)

end

namespace Node

def slot? (m : Node K) (de : ℤ) : Option (PSlot K) :=
  if de < 0 then none else m.slots[de.toNat]?

def setSlot (m : Node K) (de : ℤ) (sl : PSlot K) : Node K :=
  { m with slots := m.slots.set de.toNat sl }

def fieldDef (m : Node K) (de : ℤ) : Option (FieldDef K) := m.schema.bind (·.field de)

/-- Whether the schema is a TLV one (`m.schema != nil && m.schema.isTLV`). -/
def isTLV (m : Node K) : Bool := (m.schema.map (·.isTLV)).getD false

def getTag (m : Node K) (tag : Bytes) : Option (PValue K) :=
  match m.tags with
  | none => none
  | some tags =>
    match tags.lookup (MessageOf.toUpper tag) with
    | none => none
    | some ts => if ts.present then some ts.v else none

def putTag (m : Node K) (tag : Bytes) (v : PValue K) : Node K :=
  let key := MessageOf.toUpper tag
  let tags := m.tags.getD []
  { m with
    tagOrder := if (tags.lookup key).isSome then m.tagOrder else m.tagOrder ++ [key]
    tags := some (MessageOf.mapSet key ⟨v, true⟩ tags) }

/-- The marks `Set` leaves on a message. -/
def touch (m : Node K) (de : ℤ) : Node K :=
  { m with
    owned := true
    bm := if de ≥ 1 then m.bm.set de else m.bm
    dirty := if de ≥ 1 then m.dirty.set de else m.dirty }

/-- The slot `Set` leaves for a value. -/
def editSlot (s : PSlot K) (v : PValue K) : PSlot K :=
  { s with v := v, present := true, decoded := true, dirty := true, fromSrc := false }

def zeroSlot : PSlot K :=
  ⟨⟨[], .invalid, none, 0, none, .zero⟩, false, false, false, false, 0, 0, 0, 0⟩

end Node

def PValue.composite (v : PValue K) : Option ℕ := if v.kind = .composite then v.sub else none

namespace Heap

def put (h : Heap K) (r : ℕ) (m : Node K) : Heap K := List.set h r m

/-! ## Reading -/

def decodeSlot (ops : Ops K) (h : Heap K) (r : ℕ) (de : ℤ) : Heap K × Option (PValue K) :=
  match h[r]? with
  | none => (h, none)
  | some m =>
    match Node.slot? m de with
    | none => (h, none)
    | some s =>
      if ¬ s.present then (h, none)
      else if s.decoded then (h, some s.v)
      else
        match Node.fieldDef m de with
        | none => (h, none)
        | some d =>
          if ¬ s.fromSrc then (h.put r (Node.setSlot m de { s with decoded := true }), some s.v)
          else
            match slice (m.src.getD []) s.bodyOff s.bodyEnd with
            | none => (h, none)
            | some body =>
              match MessageOf.decodeField ops d body s.units s.bodyOff with
              | .error _ => (h, none)
              | .ok v =>
                let p := allocValue v h
                (p.1.put r (Node.setSlot m de { s with v := p.2, decoded := true }), some p.2)

/-- `GetP` on the message at `r`, along the elements of a path. -/
def getElems (ops : Ops K) (h : Heap K) (r : ℕ) : List PathElem → Heap K × Option (PValue K)
  | [] => (h, none)
  | head :: rest =>
    match h[r]? with
    | none => (h, none)
    | some m =>
      let g : Heap K × Option (PValue K) :=
        if Node.isTLV m then (h, Node.getTag m (MessageOf.tagKey head))
        else if head.isTag then (h, none)
        else decodeSlot ops h r head.n.toInt
      match g.2 with
      | none => (g.1, none)
      | some v =>
        if rest = [] then (g.1, some v)
        else
          match v.composite with
          | none => (g.1, none)
          | some sub => getElems ops g.1 sub rest

/-! ## Writing -/

/-- The argument of a `Set`: one with its own children, or a `Value` whose child is in the heap. -/
inductive PArg (K : Codecs)
  | fresh (arg : Arg K)
  | value (v : PValue K)

def makeValue (h : Heap K) (d : Option (FieldDef K)) : PArg K → Except Err (Heap K × PValue K)
  | .fresh arg => (Iso8583.makeValue d arg).map fun v => allocValue v h
  | .value v => .ok (h, v)

def set (h : Heap K) (r : ℕ) (de : ℤ) (arg : PArg K) : Heap K × Except Err Unit :=
  match h[r]? with
  | none => (h, .error .goPanic)
  | some m =>
    if m.sealed then (h, .error (.field (.de de) (-1) "" (.cause .messageSealed)))
    else
      match m.schema with
      | none => (h, .error .goPanic)
      | some _ =>
        match Node.fieldDef m de with
        | none => (h, .error (.field (.de de) (-1) "" (.cause .unknownDE)))
        | some d =>
          match makeValue h (some d) arg with
          | .error e => (h, .error e)
          | .ok (h', val) =>
            if de ≥ m.slots.length then (h', .error (.field (.de de) (-1) "" (.cause .unknownDE)))
            else
              match Node.slot? m de with
              | none => (h', .error .goPanic)
              | some s =>
                (h'.put r (Node.touch (Node.setSlot m de
                  (Node.editSlot s { val with codec := d.codec })) de), .ok ())

/-- `ensureChild` on the message at `r`: the address of the child. -/
def ensureChild (ops : Ops K) (h : Heap K) (r : ℕ) (de : ℤ) (d : FieldDef K) :
    Heap K × Except Err ℕ :=
  match (h[r]?).bind (Node.slot? · de) with
  | none => (h, .error (.field (.de de) (-1) "" (.cause .unknownDE)))
  | some s0 =>
    let g := if s0.present then decodeSlot ops h r de else (h, none)
    match (g.1[r]?).bind fun m => (Node.slot? m de).map (m, ·) with
    | none => (g.1, .error .goPanic)
    | some (m, s) =>
      match g.2.bind PValue.composite with
      | some child =>
        (g.1.put r
          { Node.setSlot m de { s with dirty := true, fromSrc := false } with owned := true },
          .ok child)
      | none =>
        let c := allocMessage (MessageOf.freshChild d) g.1
        (c.1.put r (Node.touch (Node.setSlot m de
          (Node.editSlot s ⟨[], .composite, none, -1, some c.2, .zero⟩)) de), .ok c.2)

/-- `SetP` on the message at `r`; errors report the path `full`. -/
def setElems (ops : Ops K) (h : Heap K) (r : ℕ) (arg : PArg K) :
    List PathElem → FieldPath → Heap K × Except Err Unit
  | [], full =>
    match h[r]? with
    | none => (h, .error .goPanic)
    | some m =>
      if m.sealed then (h, .error (.field full (-1) "" (.cause .messageSealed)))
      else (h, .error (.field full (-1) "" (.cause .notPresent)))
  | head :: rest, full =>
    match h[r]? with
    | none => (h, .error .goPanic)
    | some m =>
      if m.sealed then (h, .error (.field full (-1) "" (.cause .messageSealed)))
      else if Node.isTLV m then
        let tagDef := m.schema.bind (·.lookupTag (MessageOf.toUpper (MessageOf.tagKey head)))
        if rest ≠ [] then (h, .error (.field full (-1) "" (.cause (.nestedTLVWrite full))))
        else
          match makeValue h tagDef arg with
          | .error e => (h, .error e)
          | .ok (h', val) =>
            let val := match tagDef with | some d => { val with codec := d.codec } | none => val
            (h'.put r { Node.putTag m (MessageOf.tagKey head) val with owned := true }, .ok ())
      else if head.isTag then (h, .error (.field full (-1) "" (.cause .unknownDE)))
      else
        let de := head.n.toInt
        if rest = [] then set h r de arg
        else
          match Node.fieldDef m de with
          | none => (h, .error (.field full (-1) "" (.cause (.deNotComposite de))))
          | some d =>
            if d.sub.isNone then (h, .error (.field full (-1) "" (.cause (.deNotComposite de))))
            else
              match ensureChild ops h r de d with
              | (h', .error e) => (h', .error e)
              | (h', .ok child) => setElems ops h' child arg rest full.tail

def unset (h : Heap K) (r : ℕ) (de : ℤ) : Heap K :=
  match h[r]? with
  | none => h
  | some m =>
    if m.sealed then h
    else
      match Node.slot? m de with
      | none => h
      | some s =>
        if ¬ s.present then h
        else
          h.put r { Node.setSlot m de Node.zeroSlot with
            bm := if de ≥ 1 then m.bm.clear de else m.bm
            owned := true }

def unsetP (h : Heap K) (r : ℕ) (p : FieldPath) : Heap K :=
  match p.elems with
  | [head] => if head.isTag then h else h.unset r head.n.toInt
  | _ => h

/-! ## `Seal` and `Clone` -/

/-- `Seal` of the message at `r`. -/
def toSealed (h : Heap K) (r : ℕ) : Heap K :=
  match h[r]? with
  | none => h
  | some m => h.put r { m with sealed := true }

def cloneSlots (clone : Heap K → ℕ → Option (Heap K × ℕ)) :
    List (PSlot K) → Heap K → Option (Heap K × List (PSlot K))
  | [], h => some (h, [])
  | s :: ss, h =>
    match s.v.sub with
    | none => (cloneSlots clone ss h).map fun q => (q.1, s :: q.2)
    | some a =>
      (clone h a).bind fun c =>
        (cloneSlots clone ss c.1).map fun q =>
          (q.1, { s with v := { s.v with sub := some c.2 } } :: q.2)

/-- `Clone` of the message at `r`. The values of tags are copied with the addresses in them. -/
def clone : ℕ → Heap K → ℕ → Option (Heap K × ℕ)
  | 0, _, _ => none
  | fuel + 1, h, r =>
    match h[r]? with
    | none => none
    | some m =>
      (cloneSlots (clone fuel) m.slots h).map fun q =>
        (q.1 ++ [{ m with
          slots := q.2
          owned := false
          sealed := false
          tagOrder := if m.tags.isSome then m.tagOrder else [] }], q.1.length)

def getP (ops : Ops K) (h : Heap K) (r : ℕ) (p : FieldPath) : Heap K × Option (PValue K) :=
  h.getElems ops r p.elems

def setP (ops : Ops K) (h : Heap K) (r : ℕ) (p : FieldPath) (arg : PArg K) :
    Heap K × Except Err Unit :=
  h.setElems ops r arg p.elems p

end Heap

end Isopace.Iso8583
