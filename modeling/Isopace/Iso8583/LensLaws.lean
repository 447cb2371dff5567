import Isopace.FieldCodec.Catalog
import Isopace.Iso8583.Shape

/-!
# The lens laws of `SetP` and `GetP`

The laws of `Lens` on the heap, where every child is held in one place and the value that is written
brings its own. Result: `setP_lens`.
-/

namespace Isopace.Iso8583

open Lib FieldCodec

variable {K : Codecs} {ops : Ops K} {h h' : Heap K}

/-! ## What a read returns -/

variable {f : List ℕ}

lemma ReprValue.inv {v : Value K} {p : PValue K} (hv : ReprValue h v p f) :
    p = v.point p.sub ∧ (v.sub = none ∧ p.sub = none ∨ ∃ m a n g, v.sub = some m ∧
      p.sub = some a ∧ h[a]? = some n ∧ ReprNode h m n g) := by
  cases hv with
  | leaf hsub => exact ⟨rfl, Or.inl ⟨hsub, rfl⟩⟩
  | node hsub hn hm => exact ⟨rfl, Or.inr ⟨_, _, _, _, hsub, rfl, hn, hm⟩⟩

/-- The results of two reads stand for the same tree, or there is none. -/
def SameResult (a b : Heap K × Option (PValue K)) : Prop :=
  ∃ ov, Reads a.1 ov a.2 ∧ Reads b.1 ov b.2

lemma Reads.raw {ov : Option (Value K)} {p : Option (PValue K)} (hr : Reads h ov p) :
    p.map (·.raw) = ov.map (·.raw) := by
  rcases ov with _ | v
  · rcases p with _ | _
    · rfl
    exact hr.elim
  rcases p with _ | p
  · exact hr.elim
  obtain ⟨f, hv⟩ := hr
  rw [hv.inv.1]
  rfl

/-! ## The laws -/

lemma Holds.sameResult {r r' : ℕ} {m m' : Message K} {n n' : Node K} {f' : List ℕ}
    (hh : Holds h r m n f)
    (hh' : Holds h' r' m' n' f') {path : List PathElem}
    (heq : (m.getElems ops path).2 = (m'.getElems ops path).2) :
    SameResult (h.getElems ops r path) (h'.getElems ops r' path) := by
  obtain ⟨-, -, -, -, hreads⟩ := getElems_holds ops path hh
  obtain ⟨-, -, -, -, hreads'⟩ := getElems_holds ops path hh'
  exact ⟨(m.getElems ops path).2, hreads, heq ▸ hreads'⟩

/-- **The lens laws** of `SetP` and `GetP`, for a message that holds each of its composite
children in one place. -/
theorem setP_lens (ops : Ops K) {r : ℕ} {m : Message K} {n : Node K} {f : List ℕ}
    (hh : Holds h r m n f)
    {text : Bytes} {p : FieldPath} (hp : parsePath text = .ok p) (u v : Arg K)
    (hset : (h.setP ops r p (.fresh v)).2 = .ok ()) :
    (∃ val, makeValue ((m.setP ops p v).1.defAt ops p.elems) v = .ok val ∧
      Reads ((h.setP ops r p (.fresh v)).1.getP ops r p).1
        (some (MessageOf.stamp ((m.setP ops p v).1.defAt ops p.elems) val))
        ((h.setP ops r p (.fresh v)).1.getP ops r p).2) ∧
    (∀ text' q, parsePath text' = .ok q → MessageOf.Branch p.elems q.elems →
      SameResult (h.getP ops r q) ((h.setP ops r p (.fresh v)).1.getP ops r q)) ∧
    ((h.setP ops r p (.fresh u)).1.setP ops r p (.fresh v)).2 = .ok () ∧
    ∀ q, SameResult (((h.setP ops r p (.fresh u)).1.setP ops r p (.fresh v)).1.getP ops r q)
      ((h.setP ops r p (.fresh v)).1.getP ops r q) := by
  obtain ⟨n₁, f₁, hv, -, hres⟩ := setElems_holds ops v p.elems p hh
  obtain ⟨n₂, f₂, hu, -, -⟩ := setElems_holds ops u p.elems p hh
  obtain ⟨n₃, f₃, huv, -, hres'⟩ := setElems_holds ops v p.elems p hu
  have hok : m.setElems ops v p.elems p = ((m.setElems ops v p.elems p).1, .ok ()) :=
    Prod.ext rfl (hres.symm.trans hset)
  have htwice := MessageOf.setElems_setElems (u := u) hok
  refine ⟨?_, fun text' q hq hbr => ?_, ?_, fun q => ?_⟩
  · obtain ⟨val, hval, hget⟩ := MessageOf.getElems_setElems hok
    obtain ⟨-, -, -, -, hreads⟩ := getElems_holds ops p.elems hv
    rw [hget] at hreads
    exact ⟨val, hval, hreads⟩
  · exact hh.sameResult hv (MessageOf.getElems_setElems_other (parsePath_canonical hp) hok _
      (parsePath_canonical hq) hbr).symm
  · rw [htwice] at hres'
    exact hres'
  · rw [htwice] at huv
    exact huv.sameResult hv rfl

/-! ## A child in two places -/

def itemBuilder : SchemaBuilder Catalog :=
  (((SchemaBuilder.newSchema "item").asHeaderless).withBitmap ⟨some .bitmapBinary, 1⟩).field
    (catalog 0) 2 "TEXT" (some .ascii) (some LengthCodec.llVarASCII) []

def itemSchema : Schema Catalog where
  id := "item"
  mti := none
  bitmap := ⟨some .bitmapBinary, 1⟩
  defs := [none, none,
    some ⟨.de 2, "TEXT", .string, some .ascii, some LengthCodec.llVarASCII, 0, 0, none⟩]
  tags := []
  maxDE := 2
  isTLV := false

def boxBuilder : SchemaBuilder Catalog :=
  ((((SchemaBuilder.newSchema "box").withMTI (catalog 1) (some .ascii)).withBitmap
    ⟨some .bitmapBinary, 1⟩).composite 2 "FIRST" (some itemSchema) (some LengthCodec.llVarASCII)
      [FieldOpt.withCodec (catalog 1) (some .packager)]).composite 3 "SECOND" (some itemSchema)
        (some LengthCodec.llVarASCII) [FieldOpt.withCodec (catalog 1) (some .packager)]

def boxSchema : Schema Catalog where
  id := "box"
  mti := some ⟨.de 0, "MTI", .string, some .ascii, none, 4, 0, none⟩
  bitmap := ⟨some .bitmapBinary, 1⟩
  defs := [none, none,
    some ⟨.de 2, "FIRST", .composite, some .packager, some LengthCodec.llVarASCII, 0, 0,
      some itemSchema⟩,
    some ⟨.de 3, "SECOND", .composite, some .packager, some LengthCodec.llVarASCII, 0, 0,
      some itemSchema⟩]
  tags := []
  maxDE := 3
  isTLV := false

example : itemBuilder.build = .ok itemSchema ∧ boxBuilder.build = .ok boxSchema := ⟨rfl, rfl⟩

def newBox : Heap Catalog × ℕ := allocMessage (Message.new boxSchema) []

def textIn (de : Int32) : FieldPath := ⟨[⟨de, []⟩, ⟨2, []⟩], by simp [maxPathDepth]⟩

theorem setP_lens_newBox :
    parsePath [0x32, 0x2E, 0x32] = .ok (textIn 2) ∧
    (newBox.1.setP (catalog 1) 0 (textIn 2) (.fresh (.string [0x42]))).2 = .ok () ∧
    SameResult (newBox.1.getP (catalog 1) 0 (textIn 3))
      ((newBox.1.setP (catalog 1) 0 (textIn 2) (.fresh (.string [0x42]))).1.getP (catalog 1) 0
        (textIn 3)) ∧
    ((newBox.1.setP (catalog 1) 0 (textIn 2) (.fresh (.string [0x41]))).1.setP (catalog 1) 0
      (textIn 2) (.fresh (.string [0x42]))).2 = .ok () := by
  obtain ⟨n, f, hn, hm, hcreated⟩ := allocMessage_repr (Message.new boxSchema) []
  have hp : parsePath [0x32, 0x2E, 0x32] = .ok (textIn 2) := rfl
  obtain ⟨-, hother, htwice, -⟩ := setP_lens (catalog 1) ⟨hn, hm, hcreated.nodup⟩ hp
    (.string [0x41]) (.string [0x42]) rfl
  exact ⟨hp, rfl, hother [0x33, 0x2E, 0x32] (textIn 3) rfl ⟨by decide, by decide⟩, htwice⟩

/-- The text is set in the first data element; its value is read and stored in the second. -/
def sharedBox : Heap Catalog :=
  let h := (newBox.1.setP (catalog 1) 0 (textIn 2) (.fresh (.string [0x41]))).1
  match h.getP (catalog 1) 0 (.de 2) with
  | (h, none) => h
  | (h, some v) => (h.set 0 3 (.value v)).1

/-- **A child in two places.** The two paths branch, and a write to one of them is read at
the other. -/
theorem shared_child_written : boxBuilder.build = .ok boxSchema ∧
    parsePath [0x32, 0x2E, 0x32] = .ok (textIn 2) ∧ parsePath [0x33, 0x2E, 0x32] = .ok (textIn 3) ∧
    MessageOf.Branch (textIn 2).elems (textIn 3).elems ∧
    (sharedBox.setP (catalog 1) 0 (textIn 2) (.fresh (.string [0x42]))).2 = .ok () ∧
    ((sharedBox.getP (catalog 1) 0 (textIn 3)).2.map (·.raw)) = some [0x41] ∧
    (((sharedBox.setP (catalog 1) 0 (textIn 2) (.fresh (.string [0x42]))).1.getP (catalog 1) 0
      (textIn 3)).2.map (·.raw)) = some [0x42] ∧
    ¬ SameResult (sharedBox.getP (catalog 1) 0 (textIn 3))
      ((sharedBox.setP (catalog 1) 0 (textIn 2) (.fresh (.string [0x42]))).1.getP (catalog 1) 0
        (textIn 3)) := by
  have h1 : ((sharedBox.getP (catalog 1) 0 (textIn 3)).2.map (·.raw)) = some [0x41] := rfl
  have h2 : (((sharedBox.setP (catalog 1) 0 (textIn 2) (.fresh (.string [0x42]))).1.getP
      (catalog 1) 0 (textIn 3)).2.map (·.raw)) = some [0x42] := rfl
  refine ⟨rfl, rfl, rfl, ⟨by decide, by decide⟩, rfl, h1, h2, ?_⟩
  rintro ⟨ov, hr1, hr2⟩
  rw [hr1.raw] at h1
  rw [hr2.raw, h1] at h2
  cases h2

/-! ## Templates in templates -/


def leafBuilder : SchemaBuilder Catalog :=
  (SchemaBuilder.newSchema "leaf").tag (catalog 0) [0x39, 0x41] "TEXT" (some .ascii) []

def leafSchema : Schema Catalog where
  id := "leaf"
  mti := none
  bitmap := ⟨none, 0⟩
  defs := [none]
  tags := [([0x39, 0x41], ⟨⟨[⟨-1, [0x39, 0x41]⟩], by simp [maxPathDepth]⟩, "TEXT", .string,
    some .ascii, none, 0, 0, none⟩)]
  maxDE := 0
  isTLV := true

def templateBuilder : SchemaBuilder Catalog :=
  (SchemaBuilder.newSchema "template").tag (catalog 1) [0x45, 0x31] "INNER" (some .berTLV)
    [FieldOpt.withComposite (some leafSchema)]

def templateSchema : Schema Catalog where
  id := "template"
  mti := none
  bitmap := ⟨none, 0⟩
  defs := [none]
  tags := [([0x45, 0x31], ⟨⟨[⟨-1, [0x45, 0x31]⟩], by simp [maxPathDepth]⟩, "INNER", .composite,
    some .berTLV, none, 0, 0, some leafSchema⟩)]
  maxDE := 0
  isTLV := true

def nestedBuilder : SchemaBuilder Catalog :=
  ((((SchemaBuilder.newSchema "nested").withMTI (catalog 2) (some .ascii)).withBitmap
    ⟨some .bitmapBinary, 1⟩).composite 2 "OUTER" (some templateSchema) (some LengthCodec.llVarASCII)
      [FieldOpt.withCodec (catalog 2) (some .berTLV)]).composite 3 "INNER" (some leafSchema)
        (some LengthCodec.llVarASCII) [FieldOpt.withCodec (catalog 2) (some .berTLV)]

def nestedSchema : Schema Catalog where
  id := "nested"
  mti := some ⟨.de 0, "MTI", .string, some .ascii, none, 4, 0, none⟩
  bitmap := ⟨some .bitmapBinary, 1⟩
  defs := [none, none,
    some ⟨.de 2, "OUTER", .composite, some .berTLV, some LengthCodec.llVarASCII, 0, 0,
      some templateSchema⟩,
    some ⟨.de 3, "INNER", .composite, some .berTLV, some LengthCodec.llVarASCII, 0, 0,
      some leafSchema⟩]
  tags := []
  maxDE := 3
  isTLV := false

example : leafBuilder.build = .ok leafSchema ∧ templateBuilder.build = .ok templateSchema ∧
    nestedBuilder.build = .ok nestedSchema := ⟨rfl, rfl, rfl⟩

def nestedWire : Bytes :=
  [0x30, 0x32, 0x30, 0x30, 0x40, 0, 0, 0, 0, 0, 0, 0, 0x30, 0x35, 0xE1, 0x03, 0x9A, 0x01, 0x41]

def innerText : FieldPath :=
  ⟨[⟨2, []⟩, ⟨-1, [0x45, 0x31]⟩, ⟨-1, [0x39, 0x41]⟩], by simp [maxPathDepth]⟩
def otherText : FieldPath := ⟨[⟨3, []⟩, ⟨-1, [0x39, 0x41]⟩], by simp [maxPathDepth]⟩

example : parsePath [0x32, 0x2E, 0x45, 0x31, 0x2E, 0x39, 0x41] = .ok innerText ∧
    parsePath [0x33, 0x2E, 0x39, 0x41] = .ok otherText := ⟨rfl, rfl⟩

end Isopace.Iso8583
