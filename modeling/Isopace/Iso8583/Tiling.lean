import Isopace.Iso8583.EditForward

/-!
# The spans of a decoded message

`Unmarshal` records where the fields stand. A count is below `10 ^ 6` or `2 ^ 16`, or at most `2 ^
20`, so no offset leaves an `int`. Result: `unmarshal_tiles`.
-/

namespace Isopace.Iso8583

open Lib Internal FieldCodec LengthCodec

def Err.Panics : Err → Prop
  | .cause _ => False
  | .field _ _ _ e => e.Panics
  | .goPanic => True

/-! ## The bitmap -/

/-- The loop of `ReadBitmap` with accesses that panic outside the wire. -/
def readLevelsSliced (c : BitmapCodec) (src : Bytes) (maxLevels : ℤ) :
    (level n : ℕ) → (off : ℤ) → Bitmap → Except Err (Bitmap × ℤ)
  | _, 0, off, bm => .ok (bm, off)
  | level, n + 1, off, bm =>
    if off < 0 ∨ off > src.length ∨ src.length - off < wireLen c then .error (.cause .shortBitmap)
    else
      match slice src off (off + wireLen c) with
      | none => .error .goPanic
      | some b =>
        match getWord c b with
        | none => .error (.cause .badHex)
        | some w =>
          let bm := bm.setWord level w
          let off := off + wireLen c
          if w &&& contMSB = 0 ∨ (level : ℤ) + 1 ≥ maxLevels then .ok (bm, off)
          else readLevelsSliced c src maxLevels (level + 1) n off bm

/-- No word of a bitmap is read outside the wire. By induction on the levels to come. -/
theorem readBitmap_sliced (c : BitmapCodec) (src : Bytes) (maxLevels : ℤ) (n : ℕ) :
    ∀ level off bm, readLevelsSliced c src maxLevels level n off bm =
      readLevels c src maxLevels level n off bm := by
  induction n with
  | zero => exact fun _ _ _ => rfl
  | succ n ih =>
    intro level off bm
    unfold readLevelsSliced readLevels
    split_ifs with hshort
    · rfl
    have hslice : slice src off (off + wireLen c) =
        some ((src.drop off.toNat).take (wireLen c)) := by
      unfold slice
      rw [if_pos (by omega), show (off + wireLen c).toNat - off.toNat = wireLen c by omega]
    rw [hslice]
    dsimp only
    rcases getWord c ((src.drop off.toNat).take (wireLen c)) with _ | w
    · rfl
    dsimp only
    rw [ih]

variable {c : BitmapCodec} {maxLevels : ℤ} {src : Bytes} {sp : Span} {des : List ℕ}

lemma readLevels_ok {n : ℕ} : ∀ {level : ℕ} {off next : ℤ} {bm bm' : Bitmap}, 0 ≤ off →
    off ≤ src.length →
      readLevels c src maxLevels level n off bm = .ok (bm', next) →
      off ≤ next ∧ next ≤ src.length := by
  induction n with
  | zero =>
    intro level off next bm bm' _ hle h
    cases h
    exact ⟨le_refl _, hle⟩
  | succ n ih =>
    intro level off next bm bm' h0 hle h
    unfold readLevels at h
    by_cases hshort : off < 0 ∨ off > src.length ∨ src.length - off < wireLen c
    · rw [if_pos hshort] at h
      cases h
    rw [if_neg hshort] at h
    split at h
    · cases h
    rename_i w hw
    split_ifs at h with hlast
    · cases h
      omega
    · have := ih (by omega) (by omega) h
      omega

variable {e : Err} {m : Message Catalog}

lemma readLevels_error {n : ℕ} : ∀ {level : ℕ} {off : ℤ} {bm : Bitmap},
      readLevels c src maxLevels level n off bm = .error e → ¬ e.Panics := by
  induction n with
  | zero => exact nofun
  | succ n ih =>
    intro level off bm h
    unfold readLevels at h
    split_ifs at h with hshort
    · cases h
      exact id
    rcases hw : getWord c ((src.drop off.toNat).take (wireLen c)) with _ | w
    · rw [hw] at h
      cases h
      exact id
    rw [hw] at h
    dsimp only at h
    split_ifs at h
    exact ih h

/-! ## One field -/

variable {n : ℕ} {d : FieldDef Catalog} {w : Bytes} {off : ℤ}

lemma atoiLoop_error : ∀ {b : Bytes} {n : ℕ}, atoiLoop b n = .error e → ¬ e.Panics
  | c :: b, n, h => by
    unfold atoiLoop at h
    split_ifs at h
    · cases h
      exact id
    · exact atoiLoop_error h

lemma count_error {v : VarLen} {b : Bytes} (h : v.count b = .error e) : ¬ e.Panics := by
  unfold VarLen.count at h
  split at h
  · exact atoiLoop_error h
  · exact atoiLoop_error h
  · split at h
    · cases h
      exact id
    · exact atoiLoop_error h
  · cases h

lemma readLen_error {l : CatalogLength} {maxLen : ℤ} (h0 : 0 ≤ off)
    (h : readLen l w off maxLen = .error e) : ¬ e.Panics := by
  cases l with
  | fixed => cases h
  | varLen v =>
    unfold readLen VarLen.readLen at h
    dsimp only at h
    split_ifs at h with hshort
    · cases h
      exact id
    have hslice : slice w off (off + v.width) = some ((w.drop off.toNat).take
        ((off + v.width).toNat - off.toNat)) := if_pos (by omega)
    rw [hslice] at h
    dsimp only at h
    split at h
    · cases h
      exact count_error ‹_›
    · cases h

lemma fieldBodySpan_error (h : fieldBodySpan (catalog n) d w off = .error e) : ¬ e.Panics := by
  unfold fieldBodySpan at h
  split_ifs at h with hr
  · cases h
    exact id
  cases hu : readUnits (catalog n) d w off with
  | ok r =>
    rw [hu] at h
    dsimp only at h
    split_ifs at h
    cases h
    exact id
  | error e' =>
    rw [hu] at h
    cases h
    unfold readUnits at hu
    split at hu
    · cases hu
    rw [catalog_readLen] at hu
    split at hu
    · rename_i heq
      cases hu
      exact readLen_error (not_lt.mp fun hc => hr (Or.inl hc)) heq
    split_ifs at hu
    cases hu
    exact id

lemma fieldBodySpan_within (hmax : 0 ≤ d.maxLen) (h : fieldBodySpan (catalog n) d w off = .ok sp) :
    off ≤ sp.bodyOff ∧ sp.bodyOff ≤ sp.bodyEnd ∧ sp.bodyEnd ≤ w.length ∧
      sp.next = sp.bodyEnd := by
  obtain ⟨-, -, hunits, hend, hle⟩ := fieldBodySpan_ok h
  have hnext : sp.next = sp.bodyEnd := by
    unfold fieldBodySpan at h
    split_ifs at h
    rw [hunits] at h
    dsimp only at h
    split_ifs at h
    rw [← Except.ok.inj h]
  obtain ⟨hu, ho⟩ : 0 ≤ sp.units ∧ off ≤ sp.bodyOff := by
    unfold readUnits at hunits
    split at hunits
    · obtain ⟨hu, ho⟩ := Prod.mk.inj (Except.ok.inj hunits)
      omega
    split at hunits
    · cases hunits
    split_ifs at hunits with hbad
    obtain ⟨hu, ho⟩ := Prod.mk.inj (Except.ok.inj hunits)
    omega
  have := wireBytes_nonneg (catalog_local n) d hu
  exact ⟨ho, by omega, hle, hnext⟩

/-! ## All fields -/

/-- The slot of a field that stands at `off`, inside the wire. -/
structure SpanAt (w : Bytes) (sl : Slot Catalog) (off : ℤ) : Prop where
  present : sl.present = true
  wireOff : sl.wireOff = off
  start_le : sl.wireOff ≤ sl.bodyOff
  body_le : sl.bodyOff ≤ sl.bodyEnd
  end_le : sl.bodyEnd ≤ w.length

lemma spanAt_of_fieldBodySpan (hmax : 0 ≤ d.maxLen)
    (h : fieldBodySpan (catalog n) d w off = .ok sp) :
    SpanAt w (spanSlot off sp) off ∧ (spanSlot (K := Catalog) off sp).bodyEnd = sp.next := by
  obtain ⟨h1, h2, h3, h4⟩ := fieldBodySpan_within hmax h
  exact ⟨⟨rfl, rfl, h1, h2, h3⟩, h4.symm⟩

def Tiles (w : Bytes) (m : Message Catalog) : List ℕ → (off : ℤ) → Prop
  | [], _ => True
  | de :: des, off => ∃ sl, m.slot? de = some sl ∧ SpanAt w sl off ∧ Tiles w m des sl.bodyEnd

variable {s : Schema Catalog}

lemma Walk.tiles (hmax : ∀ de d, s.field de = some d → 0 ≤ d.maxLen) {fin : ℤ}
    (h : Walk (catalog n) s w m des off fin) : Tiles w m des off := by
  induction h with
  | done => exact trivial
  | field hd hsp hslot _ ih =>
    obtain ⟨hspan, hend⟩ := spanAt_of_fieldBodySpan (hmax _ _ hd) hsp
    exact ⟨_, hslot, hspan, hend ▸ ih⟩

lemma readFields_error : ∀ {m : Message Catalog} {off : ℤ},
    readFields (catalog n) s w des m off = .error e → ¬ e.Panics := by
  induction des with
  | nil => exact nofun
  | cons de des ih =>
    intro m off h
    unfold readFields at h
    split at h
    · cases h
      exact id
    split at h
    · rename_i heq
      cases h
      exact fun hp => fieldBodySpan_error heq hp
    · exact ih h

/-! ## The whole message -/

def MTISpan (s : Schema Catalog) (w : Bytes) (m : Message Catalog) (off : ℤ) : Prop :=
  match s.mti with
  | none => off = 0
  | some _ => ∃ sl, m.slot? 0 = some sl ∧ SpanAt w sl 0 ∧ sl.bodyEnd = off

lemma MTIWalk.span (hmax : ∀ de d, s.field de = some d → 0 ≤ d.maxLen)
    (h : MTIWalk (catalog n) s w m off) :
    MTISpan s w m off ∧ 0 ≤ off ∧ off ≤ w.length := by
  unfold MTIWalk at h
  unfold MTISpan
  rcases hmti : s.mti with _ | d
  · rw [hmti] at h
    subst h
    exact ⟨rfl, le_refl _, Int.natCast_nonneg _⟩
  rw [hmti] at h
  obtain ⟨sp, hsp, hslot, rfl⟩ := h
  obtain ⟨hspan, hend⟩ := spanAt_of_fieldBodySpan (hmax 0 d (s.field_zero.trans hmti)) hsp
  have hwire := hspan.wireOff
  have hstart := hspan.start_le
  have hbody := hspan.body_le
  have hle := hspan.end_le
  exact ⟨⟨_, hslot, hspan, hend⟩, by omega, by omega⟩

lemma readMTI_error (h : readMTI (catalog n) s w m = .error e) : ¬ e.Panics := by
  unfold readMTI at h
  split at h
  · cases h
  split at h
  · rename_i heq
    cases h
    exact fun hp => fieldBodySpan_error heq hp
  · cases h

lemma parse_error {c : Codec Catalog} (h : c.parse (catalog n) w = .error e) : ¬ e.Panics := by
  unfold Codec.parse at h
  split at h
  · cases h
    exact readMTI_error ‹_›
  split at h
  · cases h
    exact id
  split at h
  · rename_i heq
    cases h
    exact fun hp => readLevels_error heq hp
  · exact readFields_error h

/-- What `Unmarshal` gives for a wire: one field behind the other. -/
def Tiling (c : Codec Catalog) (w : Bytes) (m : Message Catalog) : Prop :=
  ∃ bc start next, c.schema.bitmap.codec = some bc ∧ MTISpan c.schema w m start ∧
    readLevelsSliced bc w c.schema.bitmap.levels 0 3 start .empty = .ok (m.bm, next) ∧
    start ≤ next ∧ next ≤ w.length ∧ Tiles w m m.bm.range next ∧
    ∀ k : ℕ, 1 ≤ k → (m.has k = true ↔ k ∈ m.bm.range)

lemma parse_tiles {c : Codec Catalog} (hs : c.schema.Built)
    (hmax : ∀ de d, c.schema.field de = some d → 0 ≤ d.maxLen)
    (h : c.parse (catalog n) w = .ok (m, off)) :
    Tiling c w m := by
  obtain ⟨bc, start, next, hbc, hmti, hbm, hwalk, hhas⟩ := parse_walk hs h
  obtain ⟨hspan, h0, hle⟩ := hmti.span hmax
  obtain ⟨hnext, hend⟩ := readLevels_ok h0 hle hbm
  refine ⟨bc, start, next, hbc, hspan, ?_, hnext, hend, hwalk.tiles hmax, hhas⟩
  rw [readBitmap_sliced]
  exact hbm

/-- **The spans of a decoded message tile the wire**, and no access panics. -/
theorem unmarshal_tiles (n : ℕ) {b : SchemaBuilder Catalog} {c : Codec Catalog}
    (hb : b.build = .ok c.schema) (hmax : ∀ de d, c.schema.field de = some d → 0 ≤ d.maxLen)
    (w : Bytes) :
    (∀ bc start, readLevelsSliced bc w c.schema.bitmap.levels 0 3 start .empty =
      readBitmap bc w start c.schema.bitmap.levels) ∧
    ((∃ e, c.unmarshal (catalog n) w = .error e ∧ ¬ e.Panics) ∨
      ∃ m, c.unmarshal (catalog n) w = .ok m ∧ Tiling c w m) := by
  refine ⟨fun bc start => readBitmap_sliced bc w _ 3 0 start .empty, ?_⟩
  unfold Codec.unmarshal
  rcases h : c.parse (catalog n) w with e | r
  · exact Or.inl ⟨e, rfl, parse_error h⟩
  exact Or.inr ⟨r.1, rfl, parse_tiles (SchemaBuilder.build_built hb) hmax h⟩

theorem unmarshal_tiles_pan : panBuilder.build = .ok panSchema ∧
    ∃ m, (Codec.mk panSchema ⟨false, false⟩).unmarshal (catalog 0) panWire = .ok m ∧
      m.bm.range = [2] ∧ Tiling ⟨panSchema, ⟨false, false⟩⟩ panWire m := by
  have hmax : ∀ de d, panSchema.field de = some d → 0 ≤ d.maxLen := by
    intro de d hd
    rcases SchemaOf.mem_of_field hd with h | h
    · cases h
      decide
    simp only [panSchema, List.mem_cons, Option.some.injEq, List.not_mem_nil, or_false,
      reduceCtorEq, false_or] at h
    rw [h]
  refine ⟨rfl, ?_⟩
  rcases (unmarshal_tiles 0 (b := panBuilder) (c := ⟨panSchema, ⟨false, false⟩⟩) rfl hmax
    panWire).2 with ⟨e, he, -⟩ | ⟨m, hm, ht⟩
  · cases he
  refine ⟨m, hm, ?_, ht⟩
  cases hm
  rfl

end Isopace.Iso8583
