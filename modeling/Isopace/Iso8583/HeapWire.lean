import Isopace.Iso8583.HeapReads
import Isopace.Iso8583.SameWire

/-!
# What `Marshal` sees of a read

A read keeps a value in one message, which may be part of many trees. Each stays a tree and marshals
as before.
-/

namespace Isopace.Iso8583

open Lib FieldCodec List

variable {K : Codecs} {ops : Ops K} {h h' : Heap K}

/-! ## Values that marshal alike -/

def SlotFollows (s' s : Slot K) : Prop := s' = { s with v := s'.v } ∧ SameWireValue s'.v s.v

def TagFollows (e' e : Bytes × TagSlot K) : Prop :=
  e'.1 = e.1 ∧ e'.2.present = e.2.present ∧ SameWireValue e'.2.v e.2.v

variable {s s' : Slot K} {de : ℤ} {m m' : Message K} {n : Node K}

lemma SlotFollows.sameWire (hs : SlotFollows s' s) (src : Option Bytes) :
    SameWireSlot src s' s := by
  obtain ⟨heq, hv⟩ := hs
  rw [heq]
  exact ⟨⟨rfl, rfl, rfl, rfl, rfl, fun _ => hv.1⟩, fun _ => hv⟩

lemma forall₂_slot (hs : Forall₂ SlotFollows m'.slots m.slots) (h1 : m'.slot? de = some s')
    (h2 : m.slot? de = some s) : SlotFollows s' s := by
  obtain ⟨k, rfl⟩ := MessageOf.nat_of_slot? h1
  rw [MessageOf.slot?_natCast] at h1 h2
  obtain ⟨hlt1, rfl⟩ := List.getElem?_eq_some_iff.mp h1
  obtain ⟨hlt2, rfl⟩ := List.getElem?_eq_some_iff.mp h2
  exact (forall₂_iff_get.mp hs).2 k hlt1 hlt2

lemma forall₂_lookup {ts' ts : List (Bytes × TagSlot K)} (ht : Forall₂ TagFollows ts' ts)
    (key : Bytes) : ts'.lookup key = none ∧ ts.lookup key = none ∨
      ∃ a b, ts'.lookup key = some a ∧ ts.lookup key = some b ∧ a.present = b.present ∧
        SameWireValue a.v b.v := by
  induction ht with
  | nil => exact Or.inl ⟨rfl, rfl⟩
  | cons he _ ih =>
    rename_i e' e ts' ts _
    obtain ⟨k', a⟩ := e'
    obtain ⟨k, b⟩ := e
    obtain ⟨rfl, hp, hv⟩ := he
    rw [lookup_cons, lookup_cons]
    cases hk : key == k' with
    | true => exact Or.inr ⟨a, b, rfl, rfl, hp, hv⟩
    | false => exact ih

lemma SameWire.of_follows {ss : List (Slot K)} (tags : Option (List (Bytes × TagSlot K)))
    (hs : Forall₂ SlotFollows ss m.slots)
    (ht : Forall₂ TagFollows (tags.getD []) (m.tags.getD [])) : SameWire { m with
      slots := ss
      tags := tags } m := by
  refine .intro ⟨rfl, fun _ => rfl, rfl, hs.length_eq, fun key => ?_⟩ (fun de s t h1 h2 => ?_)
    fun key a b ha hb => ?_
  · rcases forall₂_lookup ht key with ⟨ha, hb⟩ | ⟨a, b, ha, hb, -⟩
    · rw [ha, hb]
    · rw [ha, hb]
      rfl
  · exact (forall₂_slot hs h1 h2).sameWire _
  rcases forall₂_lookup ht key with ⟨hn, -⟩ | ⟨a', b', ha', hb', hab⟩
  · rw [hn] at ha
    cases ha
  rw [ha'] at ha
  rw [hb'] at hb
  cases ha
  cases hb
  exact hab

lemma SameWire.setSlotLeft {M : Message K} (hw : SameWire m M) {t : Slot K}
    (hs : m.slot? de = some s)
    (ht : M.slot? de = some t) (hst : SameWireSlot M.src s' t) : SameWire (m.setSlot de s') M := by
  have ha := hw.alike
  refine .intro ⟨ha.src, ha.owned, ha.tagOrder, length_set.trans ha.slots, ha.keys⟩
    (fun de' x y hx hy => ?_) fun key a b => hw.tagAt
  rw [MessageOf.slot?_setSlot_of_some hs] at hx
  split_ifs at hx with hde
  · cases hx
    rw [hde, ht] at hy
    cases hy
    exact hst
  · exact hw.slotAt hx hy

variable {f : List ℕ} {q : PSlot K}

lemma ReprNode.slot_of_node (hr : ReprNode h m n f)
    (hq : Node.slot? n de = some q) : ∃ s, m.slot? de = some s ∧
      q = s.point q.v := by
  rcases hs : m.slot? de with _ | s
  · rw [hr.slot_none hs] at hq
    cases hq
  obtain ⟨p, -, -, -, hp, -⟩ := hr.slot hs
  rw [hp] at hq
  cases hq
  exact ⟨s, rfl, rfl⟩

lemma ReprNode.keepSlot (hr : ReprNode h m' n f) (hw : SameWire m' m)
    (hq : Node.slot? n de = some q) {v : Value K} {p : PValue K} {g : List ℕ}
    (hval : ReprValue h v p g)
    (hsame : ∀ s t, m'.slot? de = some s → q = s.point q.v → SameWireSlot m.src s t →
      SameWireSlot m.src { s with v := v, decoded := true } t)
    : ∃ m'' f'', ReprNode h m'' (Node.setSlot n de { q with v := p, decoded := true }) f'' ∧
      SameWire m'' m := by
  obtain ⟨s, hs, hpoint⟩ := hr.slot_of_node hq
  obtain ⟨_, f₁, _, f₃, -, -, -, hplug⟩ := hr.slot hs
  rcases hw.slots de with ⟨hnone, -⟩ | ⟨s₀, t, hs₀, ht, hst⟩
  · rw [hnone] at hs
    cases hs
  rw [hs] at hs₀
  cases hs₀
  have hnode := hplug { s with v := v, decoded := true } (fun _ _ => rfl) hval
  rw [hpoint]
  exact ⟨_, _, hnode, hw.setSlotLeft hs ht (hsame s t hs hpoint hst)⟩

lemma ReadStep.node (hst : ReadStep ops h h') (hh : h.Sound) {a : ℕ} (hn : h[a]? = some n)
    {f' : List ℕ}
    (hr : ReprNode h' m' n f') (hw : SameWire m' m) :
    ∃ n' m'' f'', h'[a]? = some n' ∧ ReprNode h' m'' n' f'' ∧
      SameWire m'' m := by
  cases hst with
  | same => exact ⟨n, m', f', hn, hr, hw⟩
  | mark hr₀ hs hp hd hsrc =>
    rename_i r n₀ de q d
    rw [Heap.getElem?_put hr₀]
    by_cases ha : a = r
    · subst ha
      rw [hr₀] at hn
      cases hn
      obtain ⟨s, hslot, -⟩ := hr.slot_of_node hs
      obtain ⟨p, -, g, -, hpoint, hval, -⟩ := hr.slot hslot
      rw [hs] at hpoint
      cases hpoint
      obtain ⟨m'', f'', hr'', hw''⟩ := hr.keepSlot hw hs hval fun s₀ t hs₀ _ hst => by
        rw [hslot] at hs₀
        cases hs₀
        exact ⟨⟨hst.1.present, hst.1.dirty, hst.1.fromSrc, hst.1.wireOff, hst.1.bodyEnd,
          hst.1.value⟩, hst.2⟩
      exact ⟨_, m'', f'', if_pos rfl, hr'', hw''⟩
    · exact ⟨n, m', f', (if_neg ha).trans hn, hr, hw⟩
  | keep hr₀ hs hp hdec hd hsrc hb hv =>
    rename_i r n₀ de q d body v
    obtain ⟨g, hval, hcreated⟩ := allocValue_repr v h
    rw [Heap.getElem?_put (getElem?_of_grows hcreated.grows hr₀)]
    by_cases ha : a = r
    · subst ha
      rw [hr₀] at hn
      cases hn
      -- the field is one that `Marshal` copies
      obtain ⟨hdirty, hsome⟩ := (hh n (mem_of_getElem? hr₀)).clean q (Node.mem_of_slot? hs) hsrc
      have hval' := hcreated.repr_put hval (List.getElem?_eq_some_iff.mp hr₀).1
        (Node.setSlot n de { q with v := (allocValue v h).2, decoded := true })
      obtain ⟨m'', f'', hr'', hw''⟩ := hr.keepSlot hw hs hval' fun s t _ hpoint hst => by
        have hcopied : t.copied m.src = true := by
          have hfrom : q.fromSrc = s.fromSrc := congrArg SlotOf.fromSrc hpoint
          have hd : q.dirty = s.dirty := congrArg SlotOf.dirty hpoint
          unfold SlotOf.copied
          rw [← hst.1.fromSrc, ← hst.1.dirty, ← hfrom, ← hd, hsrc, hdirty, ← hw.alike.src,
            ← hr.same.2.1, Option.isSome_iff_ne_none.mpr hsome]
          rfl
        refine ⟨⟨hst.1.present, hst.1.dirty, hst.1.fromSrc, hst.1.wireOff, hst.1.bodyEnd,
          fun hc => ?_⟩, fun hc => ?_⟩
        · rw [hcopied] at hc
          cases hc
        · rw [hcopied] at hc
          cases hc
      exact ⟨_, m'', f'', if_pos rfl, hr'', hw''⟩
    · exact ⟨n, m', f', (if_neg ha).trans (getElem?_of_grows hcreated.grows hn), hr, hw⟩

mutual

/-- After a step every tree is one that marshals alike. -/
theorem ReprValue.step (hst : ReadStep ops h h') (hh : h.Sound) {v : Value K} {p : PValue K}
    {f : List ℕ} : ReprValue h v p f → ∃ v' f', ReprValue h' v' p f' ∧ SameWireValue v' v
  | .leaf hsub => ⟨v, [], .leaf hsub, .refl v, fun c C hc => by rw [hsub] at hc; cases hc⟩
  | .node hsub hn hm => by
    rename_i a m n f
    obtain ⟨m', f', hr', hw'⟩ := hm.step hst hh
    obtain ⟨n'', m'', f'', hn'', hr'', hw''⟩ := hst.node hh hn hr' hw'
    refine ⟨{ v with sub := some m'' }, a :: f'', .node rfl hn'' hr'',
      ⟨rfl, rfl, rfl, rfl, rfl, by rw [hsub]; rfl⟩, fun c C hc hC => ?_⟩
    rw [hsub] at hC
    cases hc
    cases hC
    exact hw''

theorem ReprNode.step (hst : ReadStep ops h h') (hh : h.Sound) {m : Message K} {n : Node K}
    {f : List ℕ} : ReprNode h m n f → ∃ m' f', ReprNode h' m' n f' ∧ SameWire m' m
  | .plain ht hs => by
    obtain ⟨ss', f', hs', hfollows⟩ := hs.step hst hh
    refine ⟨{ m with slots := ss' }, f', .plain ht hs', SameWire.of_follows m.tags hfollows ?_⟩
    rw [ht]
    exact .nil
  | .tagged ht hs hg => by
    obtain ⟨ss', f', hs', hfollows⟩ := hs.step hst hh
    obtain ⟨ts', g', hg', htags⟩ := hg.step hst hh
    refine ⟨{ m with
      slots := ss'
      tags := some ts' }, f' ++ g', .tagged rfl hs' hg', SameWire.of_follows _ hfollows ?_⟩
    rw [ht]
    exact htags

theorem ReprSlots.step (hst : ReadStep ops h h') (hh : h.Sound) {ss : List (Slot K)}
    {ps : List (PSlot K)} {f : List ℕ} : ReprSlots h ss ps f →
      ∃ ss' f', ReprSlots h' ss' ps f' ∧ Forall₂ SlotFollows ss' ss
  | .nil => ⟨[], [], .nil, .nil⟩
  | .cons hv hs => by
    rename_i s p ss ps f g
    obtain ⟨v', f', hv', hw⟩ := hv.step hst hh
    obtain ⟨ss', g', hs', hfollows⟩ := hs.step hst hh
    exact ⟨{ s with v := v' } :: ss', f' ++ g', .cons hv' hs', .cons ⟨rfl, hw⟩ hfollows⟩

theorem ReprTags.step (hst : ReadStep ops h h') (hh : h.Sound) {ts : List (Bytes × TagSlot K)}
    {pt : List (Bytes × TagSlotOf (PValue K))} {f : List ℕ} : ReprTags h ts pt f →
      ∃ ts' f', ReprTags h' ts' pt f' ∧ Forall₂ TagFollows ts' ts
  | .nil => ⟨[], [], .nil, .nil⟩
  | .cons hv ht => by
    rename_i key t p ts pt f g
    obtain ⟨v', f', hv', hw⟩ := hv.step hst hh
    obtain ⟨ts', g', ht', hfollows⟩ := ht.step hst hh
    exact ⟨(key, { t with v := v' }) :: ts', f' ++ g', .cons hv' ht', .cons ⟨rfl, rfl, hw⟩ hfollows⟩

end

def Heap.Stands (h : Heap K) (r : ℕ) (m : Message K) : Prop :=
  ∃ n f, h[r]? = some n ∧ ReprNode h m n f

lemma ReadStep.stands (hst : ReadStep ops h h') (hh : h.Sound) {r : ℕ} (hm : h.Stands r m) :
    ∃ m', h'.Stands r m' ∧ SameWire m' m := by
  obtain ⟨n, f, hn, hr⟩ := hm
  obtain ⟨m', f', hr', hw'⟩ := hr.step hst hh
  obtain ⟨n'', m'', f'', hn'', hr'', hw''⟩ := hst.node hh hn hr' hw'
  exact ⟨m'', ⟨n'', f'', hn'', hr''⟩, hw''⟩

end Isopace.Iso8583
