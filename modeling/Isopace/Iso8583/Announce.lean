import Isopace.Iso8583.RoundTrip

/-!
# Bitmap and content

Which data elements the bitmap that `Marshal` derives really announces; the fields are appended
regardless. Result: `announced_iff`.
-/

namespace Isopace.Iso8583

open Lib FieldCodec

variable {K : Codecs} {s : Schema K}

/-- The bitmap at `off` is read and announces exactly `des`. -/
def AnnouncesExactly (bc : BitmapCodec) (w : Bytes) (off levels : ℤ) (des : List ℕ) : Prop :=
  ∃ bm next, readBitmap bc w off levels = .ok (bm, next) ∧ ∀ n : ℕ, n ∈ bm.range ↔ n ∈ des

lemma canAnnounce_of_read {bc : BitmapCodec} {w : Bytes} {off levels next : ℤ} {bm : Bitmap}
    (h : readBitmap bc w off levels = .ok (bm, next)) {n : ℕ} (hn : n ∈ bm.range) :
    CanAnnounce levels n := by
  obtain ⟨hset, hd1, hd2⟩ := (Bitmap.mem_range bm n).mp hn
  exact ⟨hd1, hd2, readBitmap_isSet_le h hset⟩

/-- **When bitmap and content agree**: iff every present data element can be announced. -/
theorem announced_iff (ops : Ops K) {b : SchemaBuilder K} (hb : b.build = .ok s)
    (opts : CodecOptions) (m : Message K) (dst head w : Bytes) {bc : BitmapCodec}
    (hbc : s.bitmap.codec = some bc)
    (hv : Message.verbatim m = none) (hhead : appendMTI ops s m dst = .ok head)
    (hw : (Codec.mk s opts).marshal ops m dst = .ok w) :
    (∃ ps : List (Piece K),
      w = head ++ writeBitmap bc (Message.derived m) s.bitmap.levels ++ wireOf ps ∧
      ps.map Piece.de = Message.appended m ∧
      ∀ p ∈ ps, ∃ sl, m.slot? p.de = some sl ∧ slotBytes ops p.d sl m.src = .ok p.bytes) ∧
    (AnnouncesExactly bc w head.length s.bitmap.levels (Message.appended m) ↔
      ∀ n ∈ Message.appended m, CanAnnounce s.bitmap.levels n) := by
  obtain ⟨bc', head', ps, hbc', hhead', hweq, hdes, hps⟩ := marshal_encode
    (fun _ _ _ _ _ _ => True) (fun _ _ _ _ _ _ _ _ _ => ⟨0, 0, trivial⟩) hv hw
  cases hbc.symm.trans hbc'
  cases hhead.symm.trans hhead'
  refine ⟨⟨ps, hweq, hdes, fun p hp => ?_⟩, ?_, ?_⟩
  · obtain ⟨-, sl, hsl, -, he, -⟩ := hps p hp
    exact ⟨sl, hsl, he⟩
  · rintro ⟨bm, next, hread, hiff⟩ n hn
    exact canAnnounce_of_read hread ((hiff n).mpr hn)
  intro hcan
  obtain ⟨bm, hread, hset⟩ := readBitmap_writeBitmap bc (Message.derived m) s.bitmap.levels
    (derived_announceable hcan) head (wireOf ps)
  rw [← show w = head ++ writeBitmap bc (Message.derived m) s.bitmap.levels ++ wireOf ps from hweq]
    at hread
  refine ⟨bm, _, hread, fun n => ?_⟩
  rw [Bitmap.mem_range]
  constructor
  · rintro ⟨h1, h2⟩
    rw [hset n h2] at h1
    exact Message.mem_appended_of_isSet h1
  intro hn
  have hd : Bitmap.IsData n := ⟨(hcan n hn).1, (hcan n hn).2.1⟩
  have hs := SchemaBuilder.build_built hb
  have hle : n ≤ 192 := (appended_le (c := ⟨s, opts⟩) hs hv hw hn).2.trans hs.maxDE_le
  rw [hset n hd, Message.isSet_derived m n hle, decide_eq_true_eq]
  exact ⟨hn, hd⟩

def de65Builder : SchemaBuilder Catalog :=
  (((SchemaBuilder.newSchema "de65").withMTI (catalog 0) (some .ascii)).withBitmap
    ⟨some .bitmapBinary, 2⟩).field (catalog 0) 65 "settlement" (some .ascii) none
    [FieldOpt.maxLen 1]

def de65Edits : List (Edit Catalog) :=
  [.set 0 (.string [0x30, 0x38, 0x30, 0x30]), .set 65 (.string [0x31])]

theorem announced_iff_pan :
    AnnouncesExactly .bitmapBinary
      [0x30, 0x32, 0x30, 0x30, 0x40, 0, 0, 0, 0, 0, 0, 0, 0x30, 0x34, 0x34, 0x37, 0x31, 0x31] 4 1
      [2] :=
  (announced_iff (catalog 0) (b := panBuilder) (s := panSchema) rfl ⟨false, false⟩
    (runEdits (Message.new panSchema) panEdits) [] [0x30, 0x32, 0x30, 0x30] _ rfl rfl rfl
    rfl).2.mpr (by decide)

/-- **DE 65 is appended but not announced.** -/
theorem de65_not_announced : ∃ s w, de65Builder.build = .ok s ∧
    (Codec.mk s ⟨false, false⟩).marshal (catalog 0) (runEdits (Message.new s) de65Edits) [] =
    .ok w ∧
    appendMTI (catalog 0) s (runEdits (Message.new s) de65Edits) [] =
      .ok [0x30, 0x38, 0x30, 0x30] ∧
    Message.appended (runEdits (Message.new s) de65Edits) = [65] ∧
    ¬ AnnouncesExactly .bitmapBinary w 4 2 [65] := by
  refine ⟨_, _, rfl, rfl, rfl, rfl, ?_⟩
  rintro ⟨bm, next, hread, hiff⟩
  exact (canAnnounce_of_read hread ((hiff 65).mpr (by simp))).2.1 rfl

end Isopace.Iso8583
