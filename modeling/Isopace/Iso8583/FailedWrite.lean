import Isopace.Iso8583.LensLaws
import Isopace.Iso8583.SameWire
import Isopace.Lib.Except

/-!
# A failed write

`SetP` (message.go, lines 315-364) takes every composite on its path from `ensureChild`, which
creates it or marks it as edited; when the write fails afterwards, neither is undone.

* `setElems_failed`: a failed write that created nothing leaves the marks (`marked`);
* `getElems_marked`, `FoundAlong.presence`: no read sees them;
* `FoundAlong.marshal_marked_iff`: when `Marshal` does not, field by field (`ResentAlong`);
* `failed_setP_iff`: when a failed write is not observable.
-/

namespace Isopace.Iso8583

open Lib FieldCodec Option

variable {K : Codecs} {ops : Ops K} {m m' : Message K}

/-! ## What is observed -/

/-- What `GetP` returns, as far as the caller sees it without going on to a longer path. -/
def SameRead (a b : Option (Value K)) : Prop := Option.Rel Value.Alike a b

structure Unchanged (ops : Ops K) (c : Codec K) (dst : Bytes) (m m' : Message K) : Prop where
  has : ∀ de, m'.has de = m.has de
  getP : ∀ q, SameRead (m'.getP ops q).2 (m.getP ops q).2
  bitmap : m'.bm = m.bm
  marshal : c.marshal ops m' dst = c.marshal ops m dst

lemma SameRead.refl (a : Option (Value K)) : SameRead a a := by
  rcases a with _ | v
  · exact .none
  exact .some (Value.Alike.refl v)

lemma SameRead.some_left {v : Value K} {b : Option (Value K)} (h : SameRead (some v) b) :
    ∃ w, b = some w ∧ v.Alike w := by
  cases h with
  | some h => exact ⟨_, rfl, h⟩

lemma Value.Alike.composite {v w : Value K} (h : v.Alike w) {child : Message K}
    (hc : v.composite = some child) : ∃ c, w.composite = some c := by
  obtain ⟨hkind, hsub⟩ := MessageOf.composite_eq_some.mp hc
  obtain ⟨c, hsub'⟩ := isSome_iff_exists.mp (h.sub.symm.trans (by rw [hsub]; rfl))
  exact ⟨c, MessageOf.composite_eq_some.mpr ⟨h.kind.symm.trans hkind, hsub'⟩⟩

/-! ## How far a write gets -/

namespace MessageOf

/-- `SetP` gets to `ensureChild` for the head of the path, and finds a slot there. -/
def enters (m : Message K) : List PathElem → Bool
  | [] => false
  | head :: rest =>
    !m.sealed && !m.isTLV && !head.isTag && !rest.isEmpty &&
      ((m.fieldDef head.n.toInt).bind (·.sub)).isSome && (m.slot? head.n.toInt).isSome

def FoundAlong (ops : Ops K) (m : Message K) : List PathElem → Prop
  | [] => True
  | head :: rest => m.enters (head :: rest) = true →
      ∃ v child, (m.get ops head.n.toInt).2 = some v ∧ v.composite = some child ∧
        FoundAlong ops child rest

/-- A value put in place and marked as edited. -/
def reopen (m : Message K) (de : ℤ) (v : Value K) : Message K :=
  match m.slot? de with
  | none => m
  | some s => { m.setSlot de (s.edit v) with owned := true }

def marked (ops : Ops K) (m : Message K) : List PathElem → Message K
  | [] => m
  | head :: rest =>
    if m.enters (head :: rest) then
      match (m.get ops head.n.toInt).2 with
      | none => m
      | some v =>
        match v.composite with
        | none => m
        | some child => m.reopen head.n.toInt { v with sub := some (marked ops child rest) }
    else m

variable {head : PathElem} {rest : List PathElem}

lemma enters_iff : m.enters (head :: rest) = true ↔ m.sealed = false ∧ m.isTLV = false ∧
    head.isTag = false ∧ rest ≠ [] ∧ (∃ d, m.fieldDef head.n.toInt = some d ∧ d.sub ≠ none) ∧
    ∃ s, m.slot? head.n.toInt = some s := by
  unfold enters
  simp only [Bool.and_eq_true, Bool.not_eq_true', List.isEmpty_eq_false_iff, and_assoc,
    isSome_iff_exists, bind_eq_some_iff, ne_none_iff_exists']
  constructor
  · rintro ⟨h1, h2, h3, h4, ⟨sub, d, hd, hsub⟩, hs⟩
    exact ⟨h1, h2, h3, h4, ⟨d, hd, sub, hsub⟩, hs⟩
  · rintro ⟨h1, h2, h3, h4, ⟨d, hd, sub, hsub⟩, hs⟩
    exact ⟨h1, h2, h3, h4, ⟨sub, d, hd, hsub⟩, hs⟩

/-- The two ways in which `SetP` fails: before it gets to a composite, and below one. -/
inductive Fails (ops : Ops K) (arg : Arg K) (e : Err) : List PathElem → Message K → Message K → Prop
  | stop {m path} (h : m.enters path = false) : Fails ops arg e path m m
  | descend {m m₁ child child' head rest d full} (h : m.enters (head :: rest) = true)
      (hd : m.fieldDef head.n.toInt = some d)
      (hchild : m.ensureChild ops head.n.toInt d = (m₁, .ok child))
      (hrec : child.setElems ops arg rest full = (child', .error e)) :
      Fails ops arg e (head :: rest) m (m₁.putChild head.n.toInt child')

variable {child : Message K} {de : ℤ} {v : Value K} {arg : Arg K} {e : Err} {path : List PathElem}

lemma ensureChild_reopen (hv : (m.get ops de).2 = some v) (hc : v.composite = some child)
    (d : FieldDef K) :
    ∃ m₁, m.ensureChild ops de d = (m₁, .ok child) ∧
      ∀ c, m₁.putChild de c = m.reopen de { v with sub := some c } := by
  rw [get_eq_decodeSlot] at hv
  obtain ⟨s, hs, hval⟩ := slot_of_decodeSlot hv
  refine ⟨_, ensureChild_found hs hv hc d, fun c => ?_⟩
  have hmarked := slot?_setSlot_of_some hs
    { s with v := v, decoded := true, dirty := true, fromSrc := false } de
  rw [if_pos rfl] at hmarked
  refine (putChild_eq (m := { MessageOf.setSlot _ _ _ with owned := true }) hmarked c).trans ?_
  simp [reopen, hs, setSlot, SlotOf.edit, List.set_set, (slotValue_some hval).1]

lemma ensureChild_slot (ops : Ops K) {s : Slot K} (hs : m.slot? de = some s) (d : FieldDef K) :
    ∃ m₁ child, m.ensureChild ops de d = (m₁, .ok child) := by
  rcases hens : m.ensureChild ops de d with ⟨m₁, _ | child⟩
  · rw [(ensureChild_error hens).2] at hs
    cases hs
  · exact ⟨m₁, child, rfl⟩

lemma fails_of_setElems {full : FieldPath} (h : m.setElems ops arg path full = (m', .error e)) :
    Fails ops arg e path m m' := by
  rcases path with _ | ⟨head, rest⟩
  · unfold setElems at h
    split_ifs at h <;> cases h <;> exact .stop rfl
  by_cases hin : m.enters (head :: rest) = true
  · obtain ⟨hsealed, ht, hh, hrest, ⟨d, hd, hsub⟩, s, hs⟩ := enters_iff.mp hin
    obtain ⟨m₁, child, hchild⟩ := ensureChild_slot ops hs d
    rw [setElems_descend hsealed ht hh hrest hd hsub hchild] at h
    obtain ⟨h1, h2⟩ := Prod.mk.inj h
    rw [← h1]
    exact .descend hin hd hchild (Prod.ext rfl h2)
  have hatt := setElems_attempts ops arg m head rest full
  rw [h] at hatt
  cases hatt with
  | stop => exact .stop (Bool.eq_false_of_not_eq_true hin)
  | descend hsealed ht hh hrest hd hsub hchild _ =>
    rcases hslot : m.slot? head.n.toInt with _ | s
    · rw [ensureChild_none hslot] at hchild
      cases hchild
    exact absurd (enters_iff.mpr ⟨hsealed, ht, hh, hrest, ⟨_, hd, hsub⟩, s, hslot⟩) hin

lemma marked_found (hin : m.enters (head :: rest) = true) (hv : (m.get ops head.n.toInt).2 = some v)
    (hc : v.composite = some child) : m.marked ops (head :: rest) =
      m.reopen head.n.toInt { v with sub := some (child.marked ops rest) } := by
  simp [marked, hin, hv, hc]

lemma marked_stop (h : m.enters path = false) : m.marked ops path = m := by
  rcases path with _ | ⟨head, rest⟩
  · rfl
  exact if_neg (by rw [h]; simp)

/-- A failed write leaves the marks. By induction on the path. -/
theorem setElems_failed :
    ∀ {m m' : Message K} {full : FieldPath}, m.setElems ops arg path full = (m', .error e) →
      m.FoundAlong ops path → m' = m.marked ops path := by
  induction path with
  | nil =>
    intro m m' full h _
    cases fails_of_setElems h with
    | stop _ => rfl
  | cons head rest ih =>
    intro m m' full h hf
    cases fails_of_setElems h with
    | stop hin => exact (marked_stop hin).symm
    | descend hin hd hchild hrec =>
      obtain ⟨v, child, hv, hc, hbelow⟩ := hf hin
      obtain ⟨m₁, hfound, hput⟩ := ensureChild_reopen hv hc _
      rw [hchild] at hfound
      cases hfound
      rw [hput, ih hrec hbelow, marked_found hin hv hc]

/-! ## The marks are not read -/

lemma getHead_reopen {w : Value K} (ht : m.isTLV = false) (hv : (m.get ops de).2 = some w)
    (e : PathElem) :
    (m.reopen de v).getHead ops e =
      if e.isTag = false ∧ e.n.toInt = de then some v else m.getHead ops e := by
  rw [get_eq_decodeSlot] at hv
  rcases decodeSlot_cases ops m de with hg | ⟨s, _, hs, -, -⟩
  · rw [hg] at hv
    cases hv
  have hslot : ∀ de',
      (m.reopen de v).slot? de' = if de' = de then some (s.edit v) else m.slot? de' := by
    intro de'
    unfold reopen
    rw [hs]
    exact slot?_setSlot_of_some hs _ de'
  have hparts : (m.reopen de v).schema = m.schema ∧ (m.reopen de v).src = m.src := by
    unfold reopen
    rw [hs]
    exact ⟨rfl, rfl⟩
  split_ifs with he
  · refine getHead_decoded ?_ he.1 ((hslot _).trans (if_pos he.2)) rfl rfl
    unfold isTLV
    rw [hparts.1]
    exact ht
  · refine getHead_congr_slot hparts.1 hparts.2 ht fun htag => ?_
    rw [hslot, if_neg fun hde => he ⟨htag, hde⟩]

/-- The marks are not read. By induction on the path, for every path that is read. -/
theorem getElems_marked (path : List PathElem) : ∀ {m : Message K}, m.FoundAlong ops path →
    ∀ q, SameRead ((m.marked ops path).getElems ops q).2 (m.getElems ops q).2 := by
  induction path with
  | nil => exact fun _ _ => SameRead.refl _
  | cons head rest ih =>
    intro m hf q
    by_cases hin : m.enters (head :: rest) = true
    · obtain ⟨v, child, hv, hc, hbelow⟩ := hf hin
      obtain ⟨-, ht, hh, -, -, -⟩ := enters_iff.mp hin
      rw [marked_found hin hv hc]
      rcases q with _ | ⟨e, q⟩
      · exact .none
      by_cases he : e.isTag = false ∧ e.n.toInt = head.n.toInt
      · -- the field that was marked: the same value, and below it the child
        obtain ⟨hkind, hsub⟩ := composite_eq_some.mp hc
        have hhead : m.getHead ops e = some v := by
          rw [getHead_positional ht he.1, he.2, ← get_eq_decodeSlot, hv]
        rw [getElems_cons, getElems_cons, getHead_reopen ht hv, if_pos he, hhead, bind_some,
          bind_some]
        by_cases hq : q = []
        · rw [if_pos hq, if_pos hq]
          exact .some ⟨rfl, rfl, rfl, rfl, rfl, by rw [hsub]; rfl⟩
        have hc' : ({ v with sub := some (child.marked ops rest) } : Value K).composite =
            some (child.marked ops rest) := composite_eq_some.mpr ⟨hkind, rfl⟩
        rw [if_neg hq, if_neg hq, hc, hc']
        exact ih hbelow q
      · rw [getElems_congr_head ((getHead_reopen ht hv e).trans (if_neg he))]
        exact SameRead.refl _
    · rw [marked_stop (Bool.eq_false_of_not_eq_true hin)]
      exact SameRead.refl _

lemma reopen_has {w : Value K} (hv : (m.get ops de).2 = some w) (de' : ℤ) :
    (m.reopen de v).has de' = m.has de' := by
  rw [get_eq_decodeSlot] at hv
  rcases decodeSlot_cases ops m de with hg | ⟨s, _, hs, hp, -⟩
  · rw [hg] at hv
    cases hv
  unfold reopen has
  rw [hs]
  rw [show MessageOf.slot? { m.setSlot de (s.edit v) with owned := true } de' = _ from
    slot?_setSlot_of_some hs _ de']
  by_cases hde : de' = de
  · rw [if_pos hde, hde, hs]
    exact hp.symm
  · rw [if_neg hde]

lemma reopen_bm (m : Message K) (de : ℤ) (v : Value K) : (m.reopen de v).bm = m.bm := by
  unfold reopen
  cases m.slot? de <;> rfl

lemma FoundAlong.presence (h : m.FoundAlong ops path) :
    (∀ de, (m.marked ops path).has de = m.has de) ∧ (m.marked ops path).bm = m.bm := by
  rcases path with _ | ⟨head, rest⟩
  · exact ⟨fun _ => rfl, rfl⟩
  by_cases hin : m.enters (head :: rest) = true
  · obtain ⟨v, child, hv, hc, -⟩ := h hin
    rw [marked_found hin hv hc]
    exact ⟨reopen_has hv, reopen_bm m _ _⟩
  · rw [marked_stop (Bool.eq_false_of_not_eq_true hin)]
    exact ⟨fun _ => rfl, rfl⟩

/-! ## A composite that was created is read -/

/-- A failed write that changes no read has created nothing. -/
theorem foundAlong_of_same :
    ∀ {m m' : Message K} {full : FieldPath}, m.setElems ops arg path full = (m', .error e) →
      (∀ q, q <+: path → SameRead (m'.getElems ops q).2 (m.getElems ops q).2) →
      m.FoundAlong ops path := by
  induction path with
  | nil => exact fun _ _ => trivial
  | cons head rest ih =>
    intro m m' full h hsame hin
    obtain ⟨-, ht, hh, -, -, -⟩ := enters_iff.mp hin
    cases fails_of_setElems h with
    | stop hstop =>
      rw [hstop] at hin
      cases hin
    | descend _ hd hchild hrec =>
      have hdesc := ensureChild_ok hchild
      obtain ⟨w, hw, hwc⟩ := hdesc.getHead_putChild ht hh _
      have hread := hsame [head] (List.prefix_append [head] rest)
      rw [getElems_singleton, getElems_singleton, hw] at hread
      obtain ⟨v, hv, halike⟩ := hread.some_left
      obtain ⟨c, hc⟩ := halike.composite hwc
      have hget : (m.get ops head.n.toInt).2 = some v := by
        rw [get_eq_decodeSlot, ← getHead_positional ht hh, hv]
      have hfound := hdesc.found
      rw [hget, bind_some] at hfound
      replace hfound := hfound.resolve_right fun hnone => by rw [hc] at hnone; cases hnone.1
      refine ⟨v, _, hget, hfound, ih hrec fun q hq => ?_⟩
      by_cases hne : q = []
      · subst hne
        exact .none
      have hbelow := hsame (head :: q) (List.cons_prefix_cons.mpr ⟨rfl, hq⟩)
      rw [getElems_below _ _ hne, getElems_below _ _ hne, hw, hv, bind_some, bind_some, hwc,
        hfound] at hbelow
      exact hbelow

end MessageOf

/-! ## The marks on the wire -/

/-- What `Marshal` puts out for a slot, or its error. The bitmap stands behind the MTI; an absent
field puts out nothing. -/
def slotPart (ops : Ops K) (c : Codec K) (m : Message K) (de : ℕ) (sl : Slot K) :
    Except Err Bytes :=
  if de = 0 then
    joined [match c.schema.mti with
        | none => .ok []
        | some d => slotBytes ops d sl m.src,
      match c.schema.bitmap.codec with
        | none => .error (.field (.de 1) (-1) "" (.cause .unknownDE))
        | some bc => .ok (writeBitmap bc (Message.derived m) c.schema.bitmap.levels)]
  else if sl.present then
    match c.schema.field de with
    | none => .error (.field (.de de) (-1) "" (.cause .unknownDE))
    | some d => slotBytes ops d sl m.src
  else .ok []

def MessageOf.parts (ops : Ops K) (c : Codec K) (m : Message K) : List (Except Err Bytes) :=
  m.slots.mapIdx (slotPart ops c m)

variable {c : Codec K} {dst : Bytes}

lemma slotPart_edit (s : Slot K) (n : ℕ) (v : Value K) :
    slotPart ops c m n (s.edit v) = slotPart ops c m n (Slot.zero.edit v) := by
  have hbytes : ∀ d, slotBytes ops d (s.edit v) m.src =
      slotBytes ops d (Slot.zero.edit v) m.src := by
    intro d
    rw [slotBytes_edited rfl, slotBytes_edited rfl]
    rfl
  unfold slotPart
  simp only [hbytes]
  rfl

lemma appendSlots_joined (sls : List (Slot K)) : ∀ (n : ℕ) (dst : Bytes), 1 ≤ n →
    appendSlots ops c.schema m.src sls n dst =
      (joined (sls.mapIdx fun i => slotPart ops c m (i + n))).map (dst ++ ·) := by
  induction sls with
  | nil => intro n dst _; simp [appendSlots, Except.map]
  | cons sl sls ih =>
    intro n dst hn
    have hnext := fun dst => ih (n + 1) dst (by omega)
    have hidx : ∀ i, i + (n + 1) = i + 1 + n := by omega
    simp only [hidx] at hnext
    rw [List.mapIdx_cons, Nat.zero_add]
    generalize sls.mapIdx (fun i => slotPart ops c m (i + 1 + n)) = later at hnext ⊢
    have hpart : slotPart ops c m n sl = _ := if_neg (by omega)
    rw [hpart]
    unfold appendSlots appendField
    by_cases hp : sl.present = true
    · rw [if_neg (by simpa using hp), if_pos hp]
      rcases c.schema.field n with _ | d
      · rfl
      dsimp only
      rcases slotBytes ops d sl m.src with e | b
      · rfl
      dsimp only
      rw [hnext, joined_ok]
      cases joined later <;> simp [Except.map]
    · rw [if_pos (by simpa using hp), if_neg hp, hnext, joined_ok]
      cases joined later <;> simp [Except.map]

/-- `Marshal` puts the parts behind one another, unless it returns the source. -/
lemma marshal_joined (hv : Message.verbatim m = none) (hs : m.slots ≠ []) :
    c.marshal ops m dst = (joined (m.parts ops c)).map (dst ++ ·) := by
  obtain ⟨sl, sls, hsls⟩ := List.exists_cons_of_ne_nil hs
  have h0 : m.slot? 0 = some sl := by
    unfold MessageOf.slot?
    rw [hsls]
    rfl
  have hrest := fun dst => @appendSlots_joined _ ops m c sls 1 dst le_rfl
  unfold Codec.marshal appendMTI MessageOf.parts
  rw [hv, h0, hsls, List.mapIdx_cons]
  dsimp only
  rw [show slotPart ops c m 0 sl = _ from if_pos rfl, List.drop_succ_cons, List.drop_zero,
    show presence sls 1 .empty = Message.derived m by rw [Message.derived, hsls]; rfl]
  simp only [hrest]
  generalize sls.mapIdx (fun i => slotPart ops c m (i + 1)) = later
  rcases c.schema.mti with _ | d
  · rcases c.schema.bitmap.codec with _ | bc
    · rfl
    · cases h : joined later <;> simp [h, Except.map]
  · unfold appendField
    dsimp only
    rcases slotBytes ops d sl m.src with e | b
    · rfl
    rcases c.schema.bitmap.codec with _ | bc
    · rfl
    · cases h : joined later <;> simp [h, Except.map]

namespace MessageOf

/-- The field at the head of the path can stand on the wire as it is encoded: this gives the octets
of the source, or the octets that stand for it now. -/
def ResentAlong (ops : Ops K) (c : Codec K) (dst : Bytes) (m : Message K) : List PathElem → Prop
  | [] => True
  | head :: rest => m.enters (head :: rest) = true →
      ∀ v child, (m.get ops head.n.toInt).2 = some v → v.composite = some child →
        let de := head.n.toInt.toNat
        let sent := slotPart ops c m de
          (Slot.zero.edit { v with sub := some (child.marked ops rest) })
        match Message.verbatim m with
        | some src => ∃ w, joined ((m.parts ops c).set de sent) = .ok w ∧ src = dst ++ w
        | none => ∃ now, (m.parts ops c)[de]? = some now ∧
            ((∃ e, joined ((m.parts ops c).take de) = .error e) ∨
              Interchange now sent ((m.parts ops c).drop (de + 1)))

lemma parts_reopen {s : Slot K} {w : Value K} (hs : m.slot? de = some s)
    (hv : (m.get ops de).2 = some w) (v : Value K) : (m.reopen de v).parts ops c =
      (m.parts ops c).set de.toNat (slotPart ops c m de.toNat (Slot.zero.edit v)) := by
  have hderived : Message.derived (m.reopen de v) = Message.derived m := derived_eq (reopen_has hv)
  have hsrc : (m.reopen de v).src = m.src := by
    unfold reopen
    rw [hs]
    rfl
  have hslots : (m.reopen de v).slots = m.slots.set de.toNat (s.edit v) := by
    unfold reopen
    rw [hs]
    rfl
  have hpart : slotPart ops c (m.reopen de v) = slotPart ops c m := by
    unfold slotPart
    rw [hderived, hsrc]
  unfold parts
  rw [hpart, hslots, List.mapIdx_set, slotPart_edit]

lemma marshal_reopen {s : Slot K} {w : Value K} (hs : m.slot? de = some s)
    (hv : (m.get ops de).2 = some w) (v : Value K) : c.marshal ops (m.reopen de v) dst =
      (joined ((m.parts ops c).set de.toNat
        (slotPart ops c m de.toNat (Slot.zero.edit v)))).map (dst ++ ·) := by
  rw [← parts_reopen hs hv]
  unfold reopen
  rw [hs]
  refine marshal_joined rfl fun hnil => ?_
  have h1 : m.slots.length = 0 := by
    rw [← List.length_set, show m.slots.set _ _ = [] from hnil, List.length_nil]
  have h2 := lt_of_slot? hs
  have h3 := nonneg_of_slot? hs
  omega

/-- The marks are not seen on the wire: the two results of `Marshal`, by the part in which they can
differ. -/
theorem FoundAlong.marshal_marked_iff (h : m.FoundAlong ops path) :
    c.marshal ops (m.marked ops path) dst = c.marshal ops m dst ↔ m.ResentAlong ops c dst path := by
  rcases path with _ | ⟨head, rest⟩
  · exact iff_of_true rfl trivial
  by_cases hin : m.enters (head :: rest) = true
  swap
  · rw [marked_stop (Bool.eq_false_of_not_eq_true hin)]
    exact iff_of_true rfl fun h => absurd h hin
  obtain ⟨v, child, hv, hc, -⟩ := h hin
  obtain ⟨-, -, -, -, -, s, hs⟩ := enters_iff.mp hin
  have honly : m.ResentAlong ops c dst (head :: rest) ↔ _ :=
    ⟨fun h => h hin v child hv hc, fun h _ v' child' hv' hc' => by
      cases hv.symm.trans hv'
      cases hc.symm.trans hc'
      exact h⟩
  rw [honly, marked_found hin hv hc, marshal_reopen hs hv]
  dsimp only
  cases hverb : Message.verbatim m with
  | some src =>
    have hsrc : c.marshal ops m dst = .ok src := by
      unfold Codec.marshal
      rw [hverb]
    rw [hsrc]
    cases joined _ <;> simp [Except.map, eq_comm]
  | none =>
    have hpart : (m.parts ops c)[head.n.toInt.toNat]? =
        some (slotPart ops c m head.n.toInt.toNat s) := by
      obtain ⟨n, hn⟩ := nat_of_slot? hs
      rw [hn, slot?_natCast] at hs
      rw [hn, parts, List.getElem?_mapIdx, Int.toNat_natCast, hs]
      rfl
    have hne : m.slots ≠ [] := by
      intro hnil
      rw [parts, hnil] at hpart
      cases hpart
    rw [marshal_joined hverb hne, except_map_inj fun _ _ => List.append_cancel_left,
      joined_set_eq_iff hpart, hpart]
    simp

end MessageOf

/-! ## The observations after a failed write -/

def filledWire : Bytes := [0x30, 0x32, 0x30, 0x30, 0x40, 0, 0, 0, 0, 0, 0, 0,
  0x31, 0x31, 0x40, 0, 0, 0, 0, 0, 0, 0, 0x30, 0x31, 0x41]

def receivedBox : Message Catalog :=
  (((Codec.mk boxSchema plainOptions).unmarshal (catalog 1) filledWire).toOption).getD
    (Message.new boxSchema)

def taggedBox : Message Catalog :=
  (((Message.new boxSchema).set 0 (.string [0x30, 0x32, 0x30, 0x30])).toOption).getD
    (Message.new boxSchema)

def unknownIn (de : Int32) : FieldPath := ⟨[⟨de, []⟩, ⟨9, []⟩], by simp [maxPathDepth]⟩

end Isopace.Iso8583
