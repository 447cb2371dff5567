import Isopace.Link.Framer

/-!
# A link is a message channel

The messages that `Send` accepts arrive in order, however the bytes are cut into reads.
Result: `link_faithful`.
-/

namespace Isopace.Link

set_option linter.dupNamespace false

open Lib List

variable {E : Type}

/-! ## Filters -/

/-- Applying the filter to what comes in undoes applying it to what goes out. -/
def Filter.Undoes (f : Filter E) : Prop :=
  ∀ msg out, f.apply msg true = .ok out → f.apply out false = .ok msg

lemma applyFilters_cons {outgoing : Bool} {f : Filter E} {fs : List (Filter E)} {msg out : Bytes} :
    applyFilters outgoing (f :: fs) msg = .ok out ↔
      ∃ mid, f.apply msg outgoing = .ok mid ∧ applyFilters outgoing fs mid = .ok out := by
  conv_lhs => unfold applyFilters
  cases f.apply msg outgoing with
  | error e | ok mid => simp

lemma applyFilters_append {outgoing : Bool} (fs gs : List (Filter E)) : ∀ {msg mid out : Bytes},
    applyFilters outgoing fs msg = .ok mid → applyFilters outgoing gs mid = .ok out →
      applyFilters outgoing (fs ++ gs) msg = .ok out := by
  induction fs with
  | nil =>
    intro msg mid out h hgs
    cases h
    exact hgs
  | cons f fs ih =>
    intro msg mid out h hgs
    obtain ⟨next, hf, hfs⟩ := applyFilters_cons.mp h
    exact applyFilters_cons.mpr ⟨next, hf, ih hfs hgs⟩

/-- The filters are undone in the reverse order. By induction on the stack. -/
theorem applyFilters_reverse (fs : List (Filter E)) : ∀ {msg out : Bytes}, (∀ f ∈ fs, f.Undoes) →
    applyFilters true fs msg = .ok out → applyFilters false fs.reverse out = .ok msg := by
  induction fs with
  | nil =>
    intro msg out _ h
    cases h
    rfl
  | cons f fs ih =>
    intro msg out hfs h
    obtain ⟨hf, hfs⟩ := forall_mem_cons.mp hfs
    obtain ⟨mid, hmid, hout⟩ := applyFilters_cons.mp h
    rw [reverse_cons]
    exact applyFilters_append _ _ (ih hfs hout) (applyFilters_cons.mpr ⟨msg, hf msg mid hmid, rfl⟩)

/-! ## Frames -/

namespace LengthPrefix

lemma max_lt (lp : LengthPrefix) : lp.max < 256 ^ lp.width := by
  rcases lp.made with ⟨hw, hm⟩ | ⟨hw, hm⟩
  · rw [hw, hm]
    decide
  · rw [hw, hm]
    decide

lemma readFrame_writeFrame (lp : LengthPrefix) {w w' msg : Bytes}
    (h : lp.writeFrame w msg = .ok w') :
    ∃ frame, w' = w ++ frame ∧ ∀ (chunks : List Bytes) (rest : Bytes), chunks.flatten = frame ++
    rest →
      (lp.readFrame chunks).result = .ok msg ∧ (lp.readFrame chunks).rest.flatten = rest := by
  unfold writeFrame at h
  split_ifs at h with hmax
  cases h
  refine ⟨_, rfl, fun chunks rest hchunks => ?_⟩
  rw [append_assoc] at hchunks
  obtain ⟨r, hhdr, hr⟩ := readFull_enough hchunks
  obtain ⟨r', hbody, hr'⟩ := readFull_enough hr
  rw [beBytes_length] at hhdr
  unfold readFrame
  rw [hhdr]
  dsimp only
  rw [beNat_beBytes_of_lt (lt_of_le_of_lt (not_lt.mp hmax) lp.max_lt), if_neg hmax, hbody]
  exact ⟨rfl, hr'⟩

lemma readFrame_bounded (lp : LengthPrefix) (chunks : List Bytes) :
    (∀ n, (lp.readFrame chunks).allocated = some n → n ≤ lp.max) ∧
      ∀ body, (lp.readFrame chunks).result = .ok body → body.length ≤ lp.max := by
  unfold readFrame
  cases hhdr : readFull lp.width chunks with
  | mk res r =>
    rcases res with e | hdr
    · exact ⟨fun _ h => (by cases h), fun _ h => (by cases h)⟩
    dsimp only
    split_ifs with hmax
    · exact ⟨fun _ h => (by cases h), fun _ h => (by cases h)⟩
    cases hbody : readFull (beNat hdr) r with
    | mk res' r' =>
      rcases res' with e | body
      · refine ⟨fun n h => ?_, fun _ h => (by cases h)⟩
        cases h
        exact not_lt.mp hmax
      refine ⟨fun n h => ?_, fun b h => ?_⟩
      · cases h
        exact not_lt.mp hmax
      cases h
      rw [readFull_length hbody]
      exact not_lt.mp hmax

end LengthPrefix

/-! ## Links -/

namespace Link

lemma receive_send {l l' : Link E} (hframer : l'.framer = l.framer)
    (hfilters : l'.filters = l.filters)
    (hundo : ∀ f ∈ l.filters, f.Undoes) {w w' msg : Bytes} (h : l.send w msg = .ok w') :
    ∃ frame, w' = w ++ frame ∧ ∀ (chunks : List Bytes) (rest : Bytes), chunks.flatten = frame ++
    rest →
      (l'.receive chunks).1 = .ok msg ∧ (l'.receive chunks).2.flatten = rest := by
  unfold send at h
  split_ifs at h
  split at h
  · cases h
  rename_i out hout
  split at h
  · cases h
  rename_i w'' hw
  cases h
  obtain ⟨frame, hframe, hread⟩ := l.framer.readFrame_writeFrame hw
  refine ⟨frame, hframe, fun chunks rest hchunks => ?_⟩
  obtain ⟨hresult, hrest⟩ := hread chunks rest hchunks
  unfold receive
  dsimp only
  rw [hframer, hfilters, hresult]
  dsimp only
  rw [applyFilters_reverse l.filters hundo hout]
  exact ⟨rfl, hrest⟩

/-- By induction on the messages; those that are rejected write nothing. -/
theorem receiveAll_sendAll {l l' : Link E} (hframer : l'.framer = l.framer)
    (hfilters : l'.filters = l.filters)
    (hundo : ∀ f ∈ l.filters, f.Undoes) (msgs : List Bytes) : ∀ w : Bytes,
    ∃ frames, (l.sendAll w msgs).1 = w ++ frames ∧
      ∀ (chunks : List Bytes) (tail : Bytes), chunks.flatten = frames ++ tail →
        (l'.receiveAll (l.sendAll w msgs).2.length chunks).1 = (l.sendAll w msgs).2.map .ok ∧
          (l'.receiveAll (l.sendAll w msgs).2.length chunks).2.flatten = tail := by
  induction msgs with
  | nil => exact fun w => ⟨[], (append_nil w).symm, fun chunks tail h => ⟨rfl, h⟩⟩
  | cons msg msgs ih =>
    intro w
    unfold sendAll
    rcases hs : l.send w msg with e | w'
    · exact ih w
    obtain ⟨frame, hframe, hone⟩ := receive_send hframer hfilters hundo hs
    obtain ⟨frames, hframes, hall⟩ := ih w'
    refine ⟨frame ++ frames, ?_, fun chunks tail hchunks => ?_⟩
    · rw [← append_assoc, ← hframe]
      exact hframes
    rw [append_assoc] at hchunks
    obtain ⟨hmsg, hrest⟩ := hone chunks _ hchunks
    obtain ⟨hmsgs, htail⟩ := hall _ tail hrest
    dsimp only [length_cons]
    unfold receiveAll
    exact ⟨by rw [map_cons, hmsg, hmsgs], htail⟩

end Link

/-- **A link is a faithful message channel**, in whatever chunks the bytes arrive; no body is
longer than the maximum. -/
theorem link_faithful (l l' : Link E) (hframer : l'.framer = l.framer)
    (hfilters : l'.filters = l.filters)
    (hundo : ∀ f ∈ l.filters, f.Undoes) :
    (∀ (w : Bytes) (msgs : List Bytes), ∃ frames, (l.sendAll w msgs).1 = w ++ frames ∧
      ∀ (chunks : List Bytes) (tail : Bytes), chunks.flatten = frames ++ tail →
        (l'.receiveAll (l.sendAll w msgs).2.length chunks).1 = (l.sendAll w msgs).2.map .ok ∧
          (l'.receiveAll (l.sendAll w msgs).2.length chunks).2.flatten = tail) ∧
    ∀ chunks : List Bytes,
    (∀ n, (l'.framer.readFrame chunks).allocated = some n → n ≤ l'.framer.max) ∧
      ∀ body, (l'.framer.readFrame chunks).result = .ok body → body.length ≤ l'.framer.max :=
  ⟨fun w msgs => Link.receiveAll_sendAll hframer hfilters hundo msgs w, l'.framer.readFrame_bounded⟩

def trailer : Filter Unit where
  apply msg outgoing :=
    if outgoing then .ok (msg ++ [0xFF])
    else if msg.getLast? = some 0xFF then .ok msg.dropLast
    else .error ()

lemma trailer_undoes : trailer.Undoes := by
  intro msg out h
  cases h
  unfold trailer
  simp

def trailerLink : Link Unit := ⟨⟨2, 2 ^ 16 - 1, Or.inl ⟨rfl, rfl⟩⟩, [trailer], false⟩

theorem link_faithful_trailer :
    (trailerLink.receiveAll 2 [[0x00], [0x02, 0x01, 0xFF, 0x00], [0x03], [0x02, 0x03, 0xFF]]).1 =
      [.ok [0x01], .ok [0x02, 0x03]] := by
  obtain ⟨hchannel, -⟩ := link_faithful trailerLink trailerLink rfl rfl
    (forall_mem_singleton.mpr trailer_undoes)
  obtain ⟨frames, hframes, hreceive⟩ := hchannel [] [[0x01], [0x02, 0x03]]
  have hwritten : frames = [0x00, 0x02, 0x01, 0xFF, 0x00, 0x03, 0x02, 0x03, 0xFF] := hframes.symm
  exact (hreceive _ [] (by rw [hwritten]; rfl)).1

end Isopace.Link
