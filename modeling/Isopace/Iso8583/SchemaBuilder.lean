import Isopace.Iso8583.Message

/-!
# Building schemas

Model of `iso8583/schema_builder.go`. The maps `defs` and `tags` are association lists, so problems
come in the order of insertion. `Pad`, `Optional`, `MustExist`, `RequiredOn` and `Validate` set
fields that are left out.
-/

namespace Isopace.Iso8583

open Lib List Option

variable {K : Codecs}

/-! ## Model -/

inductive BuildErr
  | dupDE (de : ℤ)
  | dupTag (key : Bytes)
  | emptyID
  | deRange (de : ℤ)
  | noValueCodec (de : ℤ)
  | fixedNoMaxLen (de : ℤ)
  | maxLenLimit (de : ℤ) (n : ℤ)
  | compositeNoSub (de : ℤ)
  | tagNoValueCodec (key : Bytes)
  | tagMaxLenLimit (key : Bytes) (n : ℤ)
  | noBitmapCodec
  | levelsRange (levels : ℤ)
  | noMTICodec
  deriving DecidableEq, Repr

structure SchemaError where
  id : String
  errs : List BuildErr
  deriving DecidableEq, Repr

def defaultMTILen : ℤ := 4

def maxFieldUnits : ℤ := 1048576

structure SchemaBuilder (K : Codecs) where
  id : String
  mti : Option (FieldDef K)
  bitmap : BitmapSpec
  defs : List (ℤ × FieldDef K)
  tags : List (Bytes × FieldDef K)
  order : List Bytes
  isTLV : Bool
  headerless : Bool
  errs : List BuildErr

abbrev FieldOpt (K : Codecs) := FieldDef K → FieldDef K

def applyOpts (d : FieldDef K) (opts : List (FieldOpt K)) : FieldDef K :=
  opts.foldl (fun d o => o d) d

def kindOf (ops : Ops K) : Option K.Field → Kind
  | none => .invalid
  | some c => ops.kind c

namespace FieldOpt

def maxLen (n : ℤ) : FieldOpt K := fun d => { d with maxLen := n }

def scale (n : UInt8) : FieldOpt K := fun d => { d with scale := n }

def withCodec (ops : Ops K) (c : Option K.Field) : FieldOpt K :=
  fun d => { d with codec := c, kind := kindOf ops c }

def withComposite (sub : Option (Schema K)) : FieldOpt K :=
  fun d => { d with sub := sub, kind := .composite }

end FieldOpt

def validateDef (de : ℤ) (d : FieldDef K) : List BuildErr :=
  (if d.sub.isNone ∧ d.codec.isNone then [.noValueCodec de] else []) ++
  (if d.length.isNone ∧ d.sub.isNone ∧ d.maxLen ≤ 0 then [.fixedNoMaxLen de] else []) ++
  (if d.maxLen > maxFieldUnits then [.maxLenLimit de d.maxLen] else []) ++
  (if d.kind = .composite ∧ d.sub.isNone then [.compositeNoSub de] else [])

def validateTagDef (key : Bytes) (d : FieldDef K) : List BuildErr :=
  if d.codec.isNone ∧ d.sub.isNone then [.tagNoValueCodec key]
  else if d.maxLen > maxFieldUnits then [.tagMaxLenLimit key d.maxLen]
  else []

namespace SchemaBuilder

def newSchema (id : String) : SchemaBuilder K where
  id := id
  mti := none
  bitmap := ⟨none, 0⟩
  defs := []
  tags := []
  order := []
  isTLV := false
  headerless := false
  errs := []

def withMTI (b : SchemaBuilder K) (ops : Ops K) (c : Option K.Field) : SchemaBuilder K :=
  { b with mti := some ⟨.de 0, "MTI", kindOf ops c, c, none, defaultMTILen, 0, none⟩ }

def withBitmap (b : SchemaBuilder K) (spec : BitmapSpec) : SchemaBuilder K :=
  { b with bitmap := spec }

def asHeaderless (b : SchemaBuilder K) : SchemaBuilder K := { b with headerless := true }

def define (b : SchemaBuilder K) (de : ℤ) (d : FieldDef K) : SchemaBuilder K :=
  { b with
    errs := if (b.defs.lookup de).isSome then b.errs ++ [.dupDE de] else b.errs
    defs := MessageOf.mapSet de d b.defs }

def field (b : SchemaBuilder K) (ops : Ops K) (de : ℤ) (name : String) (value : Option K.Field)
    (length : Option K.Length) (opts : List (FieldOpt K)) : SchemaBuilder K :=
  b.define de (applyOpts ⟨.de de, name, kindOf ops value, value, length, 0, 0, none⟩ opts)

def composite (b : SchemaBuilder K) (de : ℤ) (name : String) (sub : Option (Schema K))
    (length : Option K.Length) (opts : List (FieldOpt K)) : SchemaBuilder K :=
  b.define de (applyOpts ⟨.de de, name, .composite, none, length, 0, 0, sub⟩ opts)

def tag (b : SchemaBuilder K) (ops : Ops K) (tag : Bytes) (name : String) (value : Option K.Field)
    (opts : List (FieldOpt K)) : SchemaBuilder K :=
  let key := MessageOf.toUpper tag
  let d := applyOpts ⟨⟨[⟨-1, key⟩], by simp [maxPathDepth]⟩, name, kindOf ops value, value, none, 0,
    0, none⟩ opts
  let dup := (b.tags.lookup key).isSome
  { b with
    errs := if dup then b.errs ++ [.dupTag key] else b.errs
    order := if dup then b.order else b.order ++ [key]
    tags := MessageOf.mapSet key d b.tags
    isTLV := true }

/-- Whether `Build` accepts the number of a data element. -/
def inRange (de : ℤ) : Bool := 1 ≤ de ∧ de ≤ maxDEIndex

def maxStep (n : ℕ) (p : ℤ × FieldDef K) : ℕ :=
  if inRange p.1 ∧ (n : ℤ) < p.1 then p.1.toNat else n

/-- The largest number among the definitions in range. -/
def maxDE (b : SchemaBuilder K) : ℕ := b.defs.foldl maxStep 0

/-- All problems `Build` finds. -/
def problems (b : SchemaBuilder K) : List BuildErr :=
  b.errs ++
  (if b.id = "" then [.emptyID] else []) ++
  (b.defs.flatMap fun p => if inRange p.1 then validateDef p.1 p.2 else [.deRange p.1]) ++
  (b.order.flatMap fun key =>
    match b.tags.lookup key with
    | some d => validateTagDef key d
    | none => []) ++
  (if b.isTLV then []
   else
    (if b.bitmap.codec.isNone then [.noBitmapCodec] else []) ++
    (if b.bitmap.levels < 1 ∨ b.bitmap.levels > 3 then [.levelsRange b.bitmap.levels] else []) ++
    (if b.mti.isNone ∧ ¬ b.headerless then [.noMTICodec] else []))

def build (b : SchemaBuilder K) : Except SchemaError (Schema K) :=
  if b.problems ≠ [] then .error ⟨b.id, b.problems⟩
  else
    .ok
      { id := b.id
        mti := b.mti
        bitmap := b.bitmap
        defs := (List.range (b.maxDE + 1)).map fun (de : ℕ) => b.defs.lookup (de : ℤ)
        tags := b.tags
        maxDE := b.maxDE
        isTLV := b.isTLV }

end SchemaBuilder

/-! ## What `Build` accepts -/

/-- What holds of every schema that `Build` accepts. -/
structure SchemaOf.Built (s : Schema K) : Prop where
  defs_length : s.defs.length = s.maxDE + 1
  maxDE_le : s.maxDE ≤ 192
  valid : ∀ (n : ℕ) (d : FieldDef K), n ≠ 0 → s.field n = some d → validateDef n d = []
  positional : s.isTLV = false → s.bitmap.codec ≠ none ∧ 1 ≤ s.bitmap.levels ∧ s.bitmap.levels ≤ 3

lemma validateDef_eq_nil {de : ℤ} {d : FieldDef K} (h : validateDef de d = []) :
    (d.sub.isSome ∨ d.codec.isSome) ∧ (d.length.isSome ∨ d.sub.isSome ∨ 0 < d.maxLen) ∧
      d.maxLen ≤ maxFieldUnits ∧ (d.kind = .composite → d.sub.isSome) := by
  unfold validateDef at h
  simp only [append_eq_nil_iff, ite_eq_right_iff, cons_ne_nil, imp_false, not_and,
    isNone_iff_eq_none] at h
  obtain ⟨⟨⟨h1, h2⟩, h3⟩, h4⟩ := h
  simp only [← ne_none_iff_isSome]
  refine ⟨?_, ?_, by omega, h4⟩
  · by_cases hs : d.sub = none
    · exact Or.inr (h1 hs)
    · exact Or.inl hs
  by_cases hl : d.length = none
  · by_cases hs : d.sub = none
    · exact Or.inr (Or.inr (by have := h2 hl hs; omega))
    · exact Or.inr (Or.inl hs)
  · exact Or.inl hl

namespace SchemaBuilder

lemma lookup_mem {α β : Type} [BEq α] [LawfulBEq α] {k : α} {v : β} :
    ∀ {l : List (α × β)}, l.lookup k = some v → (k, v) ∈ l
  | [], h => by cases h
  | p :: l, h => by
    rw [lookup_cons] at h
    by_cases hk : k == p.1
    · simp only [hk] at h
      have hkp : k = p.1 := by simpa using hk
      rw [hkp, ← some.inj h]
      exact mem_cons_self
    · simp only [hk] at h
      exact mem_cons_of_mem _ (lookup_mem h)

lemma maxDE_le (b : SchemaBuilder K) : b.maxDE ≤ 192 := by
  unfold maxDE
  suffices h : ∀ (l : List (ℤ × FieldDef K)) (n : ℕ), n ≤ 192 → l.foldl maxStep n ≤ 192 from
    h _ _ (by norm_num)
  intro l
  induction l with
  | nil => intro n hn; exact hn
  | cons p l ih =>
    intro n hn
    apply ih
    unfold maxStep
    split_ifs with hp
    · have hr : 1 ≤ p.1 ∧ p.1 ≤ 192 := of_decide_eq_true hp.1
      omega
    · exact hn

lemma build_built {b : SchemaBuilder K} {s : Schema K} (h : b.build = .ok s) : s.Built := by
  unfold build at h
  by_cases hp : b.problems ≠ []
  · rw [if_pos hp] at h; cases h
  rw [if_neg hp] at h
  cases h
  rw [not_not] at hp
  unfold problems at hp
  simp only [append_eq_nil_iff] at hp
  obtain ⟨⟨⟨-, hdefs⟩, -⟩, hpos⟩ := hp
  refine ⟨by simp, b.maxDE_le, ?_, ?_⟩
  · intro n d hn hd
    rw [SchemaOf.field_natCast _ hn] at hd
    have hlt : n < b.maxDE + 1 := by
      by_contra hc
      rw [getElem?_eq_none (by simp; omega)] at hd
      cases hd
    simp only [getElem?_map, getElem?_range hlt, map_some,
      join_some] at hd
    have := flatMap_eq_nil_iff.mp hdefs _ (lookup_mem hd)
    split_ifs at this with hr
    exact this
  · intro ht
    dsimp only at ht
    rw [if_neg (by simp [ht])] at hpos
    simp only [append_eq_nil_iff, ite_eq_right_iff, cons_ne_nil, imp_false,
      isNone_iff_eq_none] at hpos
    have hl := hpos.1.2
    exact ⟨hpos.1.1, by dsimp only; omega⟩

end SchemaBuilder

end Isopace.Iso8583
