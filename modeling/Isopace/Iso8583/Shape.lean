import Isopace.Iso8583.Heap

/-!
# Heaps that hold trees

A message of the heap stands for a tree when every child below it is held in one place; there the
pointer operations do what the operations on trees do.
-/

namespace Isopace.Iso8583

open Lib MessageOf List Option

variable {K : Codecs}

/-! ## Reading a tree off the heap -/

def Value.point (v : Value K) (sub : Option ℕ) : PValue K :=
  ⟨v.raw, v.kind, v.codec, v.off, sub, v.dec⟩

def SlotOf.point {V W : Type} (s : SlotOf V) (v : W) : SlotOf W :=
  ⟨v, s.present, s.decoded, s.dirty, s.fromSrc, s.units, s.wireOff, s.bodyOff, s.bodyEnd⟩

def MessageOf.point {V W : Type} (m : MessageOf K V) (slots : List (SlotOf W))
    (tags : Option (List (Bytes × TagSlotOf W))) : MessageOf K W :=
  ⟨m.schema, m.src, m.bm, slots, m.owned, m.dirty, m.sealed, tags, m.tagOrder⟩

mutual

/-- A value of the heap stands for a value; the list has the messages below it. -/
inductive ReprValue (h : Heap K) : Value K → PValue K → List ℕ → Prop
  | leaf {v : Value K} (hsub : v.sub = none) : ReprValue h v (v.point none) []
  | node {v : Value K} {a : ℕ} {m : Message K} {n : Node K} {f : List ℕ} (hsub : v.sub = some m)
      (hn : h[a]? = some n) (hm : ReprNode h m n f) : ReprValue h v (v.point (some a)) (a :: f)

inductive ReprNode (h : Heap K) : Message K → Node K → List ℕ → Prop
  | plain {m : Message K} {ps : List (PSlot K)} {f : List ℕ} (ht : m.tags = none)
      (hs : ReprSlots h m.slots ps f) : ReprNode h m (m.point ps none) f
  | tagged {m : Message K} {ts : List (Bytes × TagSlot K)} {ps : List (PSlot K)}
      {pt : List (Bytes × TagSlotOf (PValue K))} {f g : List ℕ} (ht : m.tags = some ts)
      (hs : ReprSlots h m.slots ps f) (hg : ReprTags h ts pt g) :
      ReprNode h m (m.point ps (some pt)) (f ++ g)

inductive ReprSlots (h : Heap K) : List (Slot K) → List (PSlot K) → List ℕ → Prop
  | nil : ReprSlots h [] [] []
  | cons {s : Slot K} {p : PValue K} {ss : List (Slot K)} {ps : List (PSlot K)} {f g : List ℕ}
      (hv : ReprValue h s.v p f) (hs : ReprSlots h ss ps g) :
      ReprSlots h (s :: ss) (s.point p :: ps) (f ++ g)

inductive ReprTags (h : Heap K) : List (Bytes × TagSlot K) →
    List (Bytes × TagSlotOf (PValue K)) → List ℕ → Prop
  | nil : ReprTags h [] [] []
  | cons {key : Bytes} {t : TagSlot K} {p : PValue K} {ts : List (Bytes × TagSlot K)}
      {pt : List (Bytes × TagSlotOf (PValue K))} {f g : List ℕ}
      (hv : ReprValue h t.v p f) (ht : ReprTags h ts pt g) :
      ReprTags h ((key, t) :: ts) ((key, ⟨p, t.present⟩) :: pt) (f ++ g)

end

def Agree (h h' : Heap K) (f : List ℕ) : Prop := ∀ a ∈ f, h'[a]? = h[a]?

variable {h h' : Heap K}

variable {g : List ℕ} {h₁ : Heap K} {de : ℤ} {s : Slot K} {p : PValue K} {v : Value K}

lemma Agree.left {f : List ℕ} (ha : Agree h h' (f ++ g)) : Agree h h' f :=
  fun a hm => ha a (mem_append_left g hm)

lemma Agree.right {f : List ℕ} (ha : Agree h h' (f ++ g)) : Agree h h' g :=
  fun a hm => ha a (mem_append_right f hm)

mutual

/-- A tree is read from its own messages only. -/
theorem ReprValue.frame {v : Value K} {p : PValue K} {f : List ℕ} :
    ReprValue h v p f → Agree h h' f → ReprValue h' v p f
  | .leaf hsub, _ => .leaf hsub
  | .node hsub hn hm, ha =>
    .node hsub ((ha _ mem_cons_self).trans hn)
      (hm.frame fun b hb => ha b (mem_cons_of_mem _ hb))

theorem ReprNode.frame {m : Message K} {n : Node K} {f : List ℕ} :
    ReprNode h m n f → Agree h h' f → ReprNode h' m n f
  | .plain ht hs, ha => .plain ht (hs.frame ha)
  | .tagged ht hs hg, ha => .tagged ht (hs.frame ha.left) (hg.frame ha.right)

theorem ReprSlots.frame {ss : List (Slot K)} {ps : List (PSlot K)} {f : List ℕ} :
    ReprSlots h ss ps f → Agree h h' f → ReprSlots h' ss ps f
  | .nil, _ => .nil
  | .cons hv hs, ha => .cons (hv.frame ha.left) (hs.frame ha.right)

theorem ReprTags.frame {ts : List (Bytes × TagSlot K)} {pt : List (Bytes × TagSlotOf (PValue K))}
    {f : List ℕ} : ReprTags h ts pt f → Agree h h' f → ReprTags h' ts pt f
  | .nil, _ => .nil
  | .cons hv ht, ha => .cons (hv.frame ha.left) (ht.frame ha.right)

end

mutual

theorem ReprValue.lt {v : Value K} {p : PValue K} {f : List ℕ} :
    ReprValue h v p f → ∀ a ∈ f, a < h.length
  | .leaf _, _, ha => nomatch ha
  | .node _ hn hm, a, ha => by
    rcases mem_cons.mp ha with rfl | ha
    · exact (List.getElem?_eq_some_iff.mp hn).1
    · exact hm.lt a ha

theorem ReprNode.lt {m : Message K} {n : Node K} {f : List ℕ} :
    ReprNode h m n f → ∀ a ∈ f, a < h.length
  | .plain _ hs, a, ha => hs.lt a ha
  | .tagged _ hs hg, a, ha => (mem_append.mp ha).elim (hs.lt a) (hg.lt a)

theorem ReprSlots.lt {ss : List (Slot K)} {ps : List (PSlot K)} {f : List ℕ} :
    ReprSlots h ss ps f → ∀ a ∈ f, a < h.length
  | .nil, _, ha => nomatch ha
  | .cons hv hs, a, ha => (mem_append.mp ha).elim (hv.lt a) (hs.lt a)

theorem ReprTags.lt {ts : List (Bytes × TagSlot K)} {pt : List (Bytes × TagSlotOf (PValue K))}
    {f : List ℕ} : ReprTags h ts pt f → ∀ a ∈ f, a < h.length
  | .nil, _, ha => nomatch ha
  | .cons hv ht, a, ha => (mem_append.mp ha).elim (hv.lt a) (ht.lt a)

end

/-! ## Creating a tree -/

/-- The addresses of a tree that was created in a heap: new ones, each once. -/
structure Created (h h' : Heap K) (f : List ℕ) : Prop where
  grows : h <+: h'
  new : ∀ a ∈ f, h.length ≤ a
  nodup : f.Nodup

lemma Created.agree {f : List ℕ} (hf : Created h h' f) (hlt : ∀ a ∈ g, a < h.length) :
    Agree h h' g := by
  intro a ha
  obtain ⟨t, rfl⟩ := hf.grows
  rw [getElem?_append_left (hlt a ha)]

lemma Created.append {f : List ℕ} (hf : Created h h₁ f) (hlt : ∀ a ∈ f, a < h₁.length)
    (hg : Created h₁ h' g) : Created h h' (f ++ g) where
  grows := hf.grows.trans hg.grows
  new a ha := by
    rcases mem_append.mp ha with ha | ha
    · exact hf.new a ha
    · exact hf.grows.length_le.trans (hg.new a ha)
  nodup := nodup_append.mpr ⟨hf.nodup, hg.nodup, fun a ha b hb hab => by
    have h1 := hlt a ha
    have h2 := hg.new b hb
    omega⟩

lemma Created.nil (h : Heap K) : Created h h [] :=
  ⟨prefix_refl h, by simp, nodup_nil⟩

lemma Created.cons {f : List ℕ} (hf : Created h h' f) (hlt : ∀ a ∈ f, a < h'.length) (n : Node K) :
    Created h (h' ++ [n]) (h'.length :: f) where
  grows := hf.grows.trans (prefix_append h' [n])
  new a ha := by
    rcases mem_cons.mp ha with rfl | ha
    · exact hf.grows.length_le
    · exact hf.new a ha
  nodup := nodup_cons.mpr ⟨fun hm => lt_irrefl _ (hlt _ hm), hf.nodup⟩

lemma agree_append {f : List ℕ} (hlt : ∀ a ∈ f, a < h.length) (n : Node K) :
    Agree h (h ++ [n]) f := fun a ha => getElem?_append_left (hlt a ha)

mutual

theorem allocValue_repr : ∀ (v : Value K) (h : Heap K),
    ∃ f, ReprValue (allocValue v h).1 v (allocValue v h).2 f ∧ Created h (allocValue v h).1 f
  | ⟨raw, kind, codec, off, none, dec⟩, h => ⟨[], .leaf rfl, Created.nil h⟩
  | ⟨raw, kind, codec, off, some m, dec⟩, h => by
    obtain ⟨n, f, hn, hm, hf⟩ := allocMessage_repr m h
    exact ⟨(allocMessage m h).2 :: f, .node rfl hn hm, hf⟩

theorem allocMessage_repr : ∀ (m : MessageOf K (Value K)) (h : Heap K),
    ∃ n f, (allocMessage m h).1[(allocMessage m h).2]? = some n ∧
      ReprNode (allocMessage m h).1 m n f ∧
      Created h (allocMessage m h).1 ((allocMessage m h).2 :: f)
  | ⟨schema, src, bm, slots, owned, dirty, isSealed, none, tagOrder⟩, h => by
    obtain ⟨f, hs, hf⟩ := allocSlots_repr slots h
    exact ⟨_, f, getElem?_concat_length, .plain rfl (hs.frame (agree_append hs.lt _)),
      hf.cons hs.lt _⟩
  | ⟨schema, src, bm, slots, owned, dirty, isSealed, some ts, tagOrder⟩, h => by
    obtain ⟨f, hs, hf⟩ := allocSlots_repr slots h
    obtain ⟨g, ht, hg⟩ := allocTagList_repr ts (allocSlots slots h).1
    have hs' := hs.frame (hg.agree hs.lt)
    have hfg := hf.append hs.lt hg
    refine ⟨_, f ++ g, getElem?_concat_length, .tagged rfl
      (hs'.frame (agree_append hs'.lt _)) (ht.frame (agree_append ht.lt _)), hfg.cons ?_ _⟩
    exact fun a ha => (mem_append.mp ha).elim (hs'.lt a) (ht.lt a)

theorem allocSlots_repr : ∀ (ss : List (SlotOf (Value K))) (h : Heap K),
    ∃ f, ReprSlots (allocSlots ss h).1 ss (allocSlots ss h).2 f ∧ Created h (allocSlots ss h).1 f
  | [], h => ⟨[], .nil, Created.nil h⟩
  | ⟨v, present, decoded, dirty, fromSrc, units, wireOff, bodyOff, bodyEnd⟩ :: ss, h => by
    obtain ⟨f, hv, hf⟩ := allocValue_repr v h
    obtain ⟨g, hs, hg⟩ := allocSlots_repr ss (allocValue v h).1
    exact ⟨f ++ g, .cons (hv.frame (hg.agree hv.lt)) hs, hf.append hv.lt hg⟩

theorem allocTagList_repr : ∀ (ts : List (Bytes × TagSlotOf (Value K))) (h : Heap K),
    ∃ f, ReprTags (allocTagList ts h).1 ts (allocTagList ts h).2 f ∧
      Created h (allocTagList ts h).1 f
  | [], h => ⟨[], .nil, Created.nil h⟩
  | (key, ⟨v, present⟩) :: ts, h => by
    obtain ⟨f, hv, hf⟩ := allocValue_repr v h
    obtain ⟨g, ht, hg⟩ := allocTagList_repr ts (allocValue v h).1
    exact ⟨f ++ g, .cons (hv.frame (hg.agree hv.lt)) ht, hf.append hv.lt hg⟩

end

/-! ## The parts of a tree -/

variable {ss : List (Slot K)} {ps : List (PSlot K)}

lemma ReprSlots.at {f : List ℕ}
    (hr : ReprSlots h ss ps f) : ∀ {i : ℕ} {s : Slot K}, ss[i]? = some s →
    ∃ p f₁ f₂ f₃, ps[i]? = some (s.point p) ∧ ReprValue h s.v p f₂ ∧ f = f₁ ++ (f₂ ++ f₃) ∧
      ∀ {h' : Heap K} {p' : PValue K} {f₂' : List ℕ} (s' : Slot K), Agree h h' (f₁ ++ f₃) →
        ReprValue h' s'.v p' f₂' →
        ReprSlots h' (ss.set i s') (ps.set i (s'.point p')) (f₁ ++ (f₂' ++ f₃)) := by
  induction ss generalizing ps f with
  | nil => exact fun hs => nomatch hs
  | cons s₀ ss ih =>
    cases hr with
    | cons hv hs =>
      rename_i p₀ ps f g
      intro i s hi
      cases i with
      | zero =>
        cases hi
        refine ⟨p₀, [], f, g, rfl, hv, rfl, fun _ ha hv' => ?_⟩
        rw [nil_append]
        exact .cons hv' (hs.frame ha.right)
      | succ i =>
        obtain ⟨p, f₁, f₂, f₃, hp, hv₂, rfl, hplug⟩ := ih hs hi
        refine ⟨p, f ++ f₁, f₂, f₃, hp, hv₂, by rw [append_assoc], fun s' ha hv' => ?_⟩
        rw [append_assoc] at ha ⊢
        exact .cons (hv.frame ha.left) (hplug s' ha.right hv')

lemma ReprSlots.length_eq {f : List ℕ}
    (hr : ReprSlots h ss ps f) : ps.length = ss.length := by
  induction ss generalizing ps f with
  | nil =>
    cases hr
    rfl
  | cons s ss ih =>
    cases hr with
    | cons _ hs => rw [length_cons, length_cons, ih hs]

variable {ts : List (Bytes × TagSlot K)} {pt : List (Bytes × TagSlotOf (PValue K))} {key : Bytes}

lemma ReprTags.at
    (hr : ReprTags h ts pt g) : ∀ {t : TagSlot K},
    ts.lookup key = some t →
    ∃ p g₁ g₂ g₃, pt.lookup key = some ⟨p, t.present⟩ ∧ ReprValue h t.v p g₂ ∧
      g = g₁ ++ (g₂ ++ g₃) ∧
      ∀ {h' : Heap K} {p' : PValue K} {g₂' : List ℕ} (t' : TagSlot K), Agree h h' (g₁ ++ g₃) →
        ReprValue h' t'.v p' g₂' →
        ReprTags h' (mapSet key t' ts) (mapSet key ⟨p', t'.present⟩ pt)
          (g₁ ++ (g₂' ++ g₃)) := by
  induction ts generalizing pt g with
  | nil => exact fun hs => nomatch hs
  | cons e ts ih =>
    cases hr with
    | cons hv ht =>
      rename_i key₀ t₀ p₀ pt f g
      intro t hl
      by_cases hk : key₀ = key
      · subst hk
        rw [lookup_cons_self] at hl
        cases hl
        refine ⟨p₀, [], f, g, lookup_cons_self, hv, rfl, fun _ ha hv' => ?_⟩
        simp only [mapSet, if_pos, nil_append]
        exact .cons hv' (ht.frame ha.right)
      have hb : (key == key₀) = false := by
        rw [beq_eq_false_iff_ne]
        exact fun hc => hk hc.symm
      rw [lookup_cons, hb] at hl
      obtain ⟨p, g₁, g₂, g₃, hp, hv₂, rfl, hplug⟩ := ih ht hl
      refine ⟨p, f ++ g₁, g₂, g₃, ?_, hv₂, by rw [append_assoc], fun t' ha hv' => ?_⟩
      · rw [lookup_cons, hb]
        exact hp
      rw [append_assoc] at ha ⊢
      simp only [mapSet, if_neg hk]
      exact .cons (hv.frame ha.left) (hplug t' ha.right hv')

lemma ReprTags.absent
    (hr : ReprTags h ts pt g) (hl : ts.lookup key = none) : pt.lookup key = none ∧
      ∀ {h' : Heap K} {p' : PValue K} {g' : List ℕ} (t' : TagSlot K), Agree h h' g →
        ReprValue h' t'.v p' g' →
        ReprTags h' (mapSet key t' ts) (mapSet key ⟨p', t'.present⟩ pt)
          (g ++ g') := by
  induction ts generalizing pt g with
  | nil =>
    cases hr
    refine ⟨rfl, fun {h' p' g'} _ _ hv' => ?_⟩
    rw [nil_append, ← append_nil g']
    exact .cons hv' .nil
  | cons e ts ih =>
    cases hr with
    | cons hv ht =>
      rename_i key₀ t₀ p₀ pt f g
      have hk : key₀ ≠ key := by
        rintro rfl
        rw [lookup_cons_self] at hl
        cases hl
      have hb : (key == key₀) = false := by
        rw [beq_eq_false_iff_ne]
        exact fun hc => hk hc.symm
      rw [lookup_cons, hb] at hl
      obtain ⟨hp, hplug⟩ := ih ht hl
      refine ⟨?_, fun t' ha hv' => ?_⟩
      · rw [lookup_cons, hb]
        exact hp
      rw [append_assoc]
      simp only [mapSet, if_neg hk]
      exact .cons (hv.frame ha.left) (hplug t' ha.right hv')

/-! ## A message of the heap that holds a tree -/

/-- The message at `r` stands for `m`; `f` has the addresses below it, each in one place. -/
structure Holds (h : Heap K) (r : ℕ) (m : Message K) (n : Node K) (f : List ℕ) : Prop where
  node : h[r]? = some n
  repr : ReprNode h m n f
  nodup : (r :: f).Nodup

/-- A step that changes no message but those in `f`, and leaves a tree over `f'`. -/
structure Moved (h h' : Heap K) (f f' : List ℕ) : Prop where
  grows : h.length ≤ h'.length
  kept : ∀ a < h.length, a ∉ f → h'[a]? = h[a]?
  from_ : ∀ a ∈ f', a ∈ f ∨ h.length ≤ a

lemma Moved.refl (h : Heap K) (f : List ℕ) : Moved h h f f :=
  ⟨le_refl _, fun _ _ _ => rfl, fun _ ha => Or.inl ha⟩

lemma Moved.self (h : Heap K) (r : ℕ) (f : List ℕ) : Moved h h (r :: f) f :=
  ⟨le_refl _, fun _ _ _ => rfl, fun _ ha => Or.inl (mem_cons_of_mem r ha)⟩

variable {f₁ : List ℕ}

lemma Moved.trans {f f' : List ℕ} (h1 : Moved h h₁ f f₁) (h2 : Moved h₁ h' f₁ f') :
    Moved h h' f f' where
  grows := h1.grows.trans h2.grows
  kept a ha hn := by
    have hn₁ : a ∉ f₁ := fun hc => (h1.from_ a hc).elim hn (fun hle => by omega)
    rw [h2.kept a (by have := h1.grows; omega) hn₁, h1.kept a ha hn]
  from_ a ha := by
    rcases h2.from_ a ha with ha | ha
    · exact h1.from_ a ha
    · exact Or.inr (by have := h1.grows; omega)

lemma Created.moved {f : List ℕ} (hf : Created h h' f) : Moved h h' [] f where
  grows := hf.grows.length_le
  kept a ha _ := hf.agree (g := [a]) (fun b hb => by rwa [mem_singleton.mp hb]) a
    mem_cons_self
  from_ a ha := Or.inr (hf.new a ha)

variable {f₂ f₃ : List ℕ}

lemma nodup_parts {r : ℕ} :
    (r :: (f₁ ++ (f₂ ++ f₃))).Nodup ↔ (r :: (f₁ ++ f₃)).Nodup ∧ f₂.Nodup ∧
      ∀ a ∈ f₂, a ∉ r :: (f₁ ++ f₃) := by
  have hperm : (r :: (f₁ ++ (f₂ ++ f₃))).Perm (f₂ ++ r :: (f₁ ++ f₃)) :=
    ((perm_append_comm_assoc f₁ f₂ f₃).cons r).trans perm_middle.symm
  rw [hperm.nodup_iff, nodup_append]
  constructor
  · rintro ⟨h1, h2, h3⟩
    exact ⟨h2, h1, fun a ha hc => h3 a ha a hc rfl⟩
  · rintro ⟨h1, h2, h3⟩
    exact ⟨h2, h1, fun a ha b hb hab => h3 a ha (hab ▸ hb)⟩

variable {ops : Ops K} {r : ℕ} {m m' : Message K} {n n' : Node K} {f f' : List ℕ}

lemma Holds.lt (hh : Holds h r m n f) : ∀ a ∈ r :: f, a < h.length := by
  intro a ha
  rcases mem_cons.mp ha with rfl | ha
  · exact (List.getElem?_eq_some_iff.mp hh.node).1
  · exact hh.repr.lt a ha

/-- A change of one part of a tree leaves the others. -/
theorem Holds.part (hh : Holds h r m n f) {f₂' : List ℕ} (hf : f = f₁ ++ (f₂ ++ f₃))
    (hmv : Moved h h₁ f₂ f₂') (hnd : f₂'.Nodup) :
    h₁[r]? = some n ∧ (r :: (f₁ ++ (f₂' ++ f₃))).Nodup ∧ Agree h h₁ (f₁ ++ f₃) ∧
      Moved h h₁ (r :: f) (f₁ ++ (f₂' ++ f₃)) := by
  subst hf
  have hlt : ∀ a ∈ r :: (f₁ ++ f₃), a < h.length := by
    intro a ha
    apply hh.lt
    simp only [mem_cons, mem_append] at ha ⊢
    tauto
  obtain ⟨h1, -, h3⟩ := nodup_parts.mp hh.nodup
  have hkept : ∀ a ∈ r :: (f₁ ++ f₃), h₁[a]? = h[a]? := fun a ha =>
    hmv.kept a (hlt a ha) fun hc => h3 a hc ha
  refine ⟨?_, nodup_parts.mpr ⟨h1, hnd, fun a ha hc => ?_⟩, fun a ha => ?_, ⟨hmv.grows, ?_, ?_⟩⟩
  · rw [hkept r mem_cons_self, hh.node]
  · rcases hmv.from_ a ha with hin | hle
    · exact h3 a hin hc
    · have := hlt a hc
      omega
  · exact hkept a (mem_cons_of_mem r ha)
  · refine fun a ha hn => hmv.kept a ha fun hc => hn ?_
    simp only [mem_cons, mem_append]
    tauto
  · intro a ha
    have hfrom := hmv.from_ a
    simp only [mem_cons, mem_append] at ha ⊢
    tauto

lemma holds_put (hr : ReprNode h₁ m' n' f') (hnd : (r :: f').Nodup) (hlt : r < h₁.length) :
    Holds (h₁.put r n') r m' n' f' where
  node := by
    unfold Heap.put
    rw [getElem?_set_self hlt]
  repr := by
    refine hr.frame fun a ha => ?_
    have hne : r ≠ a := by
      rintro rfl
      exact (nodup_cons.mp hnd).1 ha
    unfold Heap.put
    rw [getElem?_set_ne hne]
  nodup := hnd

lemma Moved.put (hmv : Moved h h₁ (r :: f) f') (n' : Node K) :
    Moved h (h₁.put r n') (r :: f) f' where
  grows := by
    unfold Heap.put
    rw [length_set]
    exact hmv.grows
  kept a ha hn := by
    have hne : r ≠ a := by
      rintro rfl
      exact hn mem_cons_self
    unfold Heap.put
    rw [getElem?_set_ne hne]
    exact hmv.kept a ha hn
  from_ := hmv.from_

/-! ## The slots and tags of a message -/

lemma ReprNode.same (hr : ReprNode h m n f) : n.schema = m.schema ∧ n.src = m.src ∧
    n.sealed = m.sealed ∧ n.slots.length = m.slots.length := by
  cases hr with
  | plain _ hs | tagged _ hs _ => exact ⟨rfl, rfl, rfl, hs.length_eq⟩

lemma ReprNode.isTLV_eq (hr : ReprNode h m n f) : Node.isTLV n = m.isTLV := by
  unfold Node.isTLV isTLV
  rw [hr.same.1]

lemma ReprNode.fieldDef_eq (hr : ReprNode h m n f) (de : ℤ) :
    Node.fieldDef n de = m.fieldDef de := by
  unfold Node.fieldDef fieldDef
  rw [hr.same.1]

lemma ReprNode.slot_none (hr : ReprNode h m n f) (hs : m.slot? de = none) :
    Node.slot? n de = none := by
  unfold Node.slot?
  unfold slot? at hs
  split_ifs at hs ⊢
  · rfl
  rw [getElem?_eq_none_iff] at hs ⊢
  rw [hr.same.2.2.2]
  exact hs

lemma ReprNode.slot (hr : ReprNode h m n f) (hs : m.slot? de = some s) :
    ∃ p f₁ f₂ f₃, Node.slot? n de = some (s.point p) ∧ ReprValue h s.v p f₂ ∧
      f = f₁ ++ (f₂ ++ f₃) ∧
      ∀ {h' : Heap K} {p' : PValue K} {f₂' : List ℕ} (s' : Slot K), Agree h h' (f₁ ++ f₃) →
        ReprValue h' s'.v p' f₂' →
        ReprNode h' (m.setSlot de s') (Node.setSlot n de (s'.point p')) (f₁ ++ (f₂' ++ f₃)) := by
  obtain ⟨k, rfl⟩ := nat_of_slot? hs
  rw [slot?_natCast] at hs
  have hslot : ∀ n : Node K, Node.slot? n (k : ℤ) = n.slots[k]? := fun n => by
    unfold Node.slot?
    rw [if_neg (by omega), Int.toNat_natCast]
  cases hr with
  | plain ht hsl =>
    obtain ⟨p, f₁, f₂, f₃, hp, hv, rfl, hplug⟩ := hsl.at hs
    exact ⟨p, f₁, f₂, f₃, (hslot _).trans hp, hv, rfl,
      fun s' ha hv' => .plain ht (hplug s' ha hv')⟩
  | tagged ht hsl hg =>
    obtain ⟨p, f₁, f₂, f₃, hp, hv, rfl, hplug⟩ := hsl.at hs
    rename_i g
    refine ⟨p, f₁, f₂, f₃ ++ g, (hslot _).trans hp, hv, by simp only [append_assoc],
      fun {h' p' f₂'} s' ha hv' => ?_⟩
    rw [← append_assoc] at ha
    rw [show f₁ ++ (f₂' ++ (f₃ ++ g)) = (f₁ ++ (f₂' ++ f₃)) ++ g by simp only [append_assoc]]
    exact .tagged ht (hplug s' ha.left hv') (hg.frame ha.right)

lemma Moved.weaken (hmv : Moved h h' [] f') (f : List ℕ) : Moved h h' f f' where
  grows := hmv.grows
  kept a ha _ := hmv.kept a ha not_mem_nil
  from_ a ha := Or.inr ((hmv.from_ a ha).resolve_left not_mem_nil)

/-- A slot and its surroundings, whatever a step does below the slot. -/
theorem Holds.slot (hh : Holds h r m n f) (hs : m.slot? de = some s) :
    ∃ p f₂, Node.slot? n de = some (s.point p) ∧ ReprValue h s.v p f₂ ∧ (∀ a ∈ f₂, a ∈ f) ∧
      f₂.Nodup ∧ r ∉ f₂ ∧
      ∀ {h₁ : Heap K} {p' : PValue K} {f₂' : List ℕ} (s' : Slot K), Moved h h₁ f₂ f₂' →
        f₂'.Nodup → ReprValue h₁ s'.v p' f₂' →
        ∃ f', h₁[r]? = some n ∧ (r :: f').Nodup ∧
          ReprNode h₁ (m.setSlot de s') (Node.setSlot n de (s'.point p')) f' ∧
          Moved h h₁ (r :: f) f' := by
  obtain ⟨p, f₁, f₂, f₃, hp, hv, rfl, hplug⟩ := hh.repr.slot hs
  obtain ⟨-, hnd, hout⟩ := nodup_parts.mp hh.nodup
  refine ⟨p, f₂, hp, hv, fun a ha => ?_, hnd, fun hc => hout r hc mem_cons_self,
    fun s' hmv hnd' hv' => ?_⟩
  · exact mem_append_right f₁ (mem_append_left f₃ ha)
  · obtain ⟨hn, hnodup, hagree, hmoved⟩ := hh.part rfl hmv hnd'
    exact ⟨_, hn, hnodup, hplug s' hagree hv', hmoved⟩

lemma Moved.holds_put (hn : h₁[r]? = some n) (hnd : (r :: f').Nodup) (hr : ReprNode h₁ m' n' f')
    (hmv : Moved h h₁ (r :: f) f') : Holds (h₁.put r n') r m' n' f' ∧
    Moved h (h₁.put r n') (r :: f) f' :=
  ⟨Isopace.Iso8583.holds_put hr hnd (List.getElem?_eq_some_iff.mp hn).1, hmv.put n'⟩

lemma Node.slot?_setSlot {s : PSlot K} (hs : Node.slot? n de = some s) (s' : PSlot K) :
    Node.slot? (Node.setSlot n de s') de = some s' := by
  unfold Node.slot? at hs ⊢
  split_ifs at hs ⊢ with hde
  exact List.getElem?_set_self (List.getElem?_eq_some_iff.mp hs).1

/-! ## Reading -/

lemma decodeSlot_holds (ops : Ops K) (hh : Holds h r m n f) (de : ℤ) :
    ∃ n' f', Holds (h.decodeSlot ops r de).1 r (m.decodeSlot ops de).1 n' f' ∧
      Moved h (h.decodeSlot ops r de).1 (r :: f) f' ∧
      ((m.decodeSlot ops de).2 = none ∧ (h.decodeSlot ops r de).2 = none ∨
        ∃ s p, (m.decodeSlot ops de).1.slot? de = some s ∧ (m.decodeSlot ops de).2 = some s.v ∧
          Node.slot? n' de = some (s.point p) ∧ (h.decodeSlot ops r de).2 = some p) := by
  unfold Heap.decodeSlot
  rw [hh.node]
  dsimp only
  rcases hs : m.slot? de with _ | s
  · rw [hh.repr.slot_none hs]
    have hm : m.decodeSlot ops de = (m, none) := by
      unfold decodeSlot
      rw [hs]
    rw [hm]
    exact ⟨n, f, hh, Moved.self h r f, Or.inl ⟨rfl, rfl⟩⟩
  obtain ⟨p, f₂, hp, hv, -, hf₂, -, hplug⟩ := hh.slot hs
  rw [hp]
  unfold decodeSlot
  rw [hs]
  simp only [SlotOf.point, hh.repr.fieldDef_eq, hh.repr.same.2.1]
  by_cases hpres : s.present = true
  · simp only [hpres, not_true_eq_false, if_false]
    by_cases hdec : s.decoded = true
    · simp only [hdec, if_true]
      exact ⟨n, f, hh, Moved.self h r f, Or.inr ⟨s, p, hs, rfl, hp, rfl⟩⟩
    simp only [hdec, if_false, Bool.false_eq_true]
    rcases hd : m.fieldDef de with _ | d
    · exact ⟨n, f, hh, Moved.self h r f, Or.inl ⟨rfl, rfl⟩⟩
    by_cases hsrc : s.fromSrc = true
    · simp only [hsrc, not_true_eq_false, if_false]
      rcases hb : slice (m.src.getD []) s.bodyOff s.bodyEnd with _ | body
      · exact ⟨n, f, hh, Moved.self h r f, Or.inl ⟨rfl, rfl⟩⟩
      dsimp only
      rcases hdf : decodeField ops d body s.units s.bodyOff with e | v
      · exact ⟨n, f, hh, Moved.self h r f, Or.inl ⟨rfl, rfl⟩⟩
      obtain ⟨g, hg, hcreated⟩ := allocValue_repr v h
      obtain ⟨f', hn, hnd, hr, hmv⟩ := hplug
        { s with v := v, present := true, decoded := true, fromSrc := true }
        (hcreated.moved.weaken f₂) hcreated.nodup hg
      obtain ⟨hholds, hmoved⟩ := hmv.holds_put hn hnd hr
      refine ⟨_, f', hholds, hmoved, Or.inr ⟨_, _,
        slot?_setSlot_self hs _, rfl,
        Node.slot?_setSlot hp _, rfl⟩⟩
    · simp only [hsrc, Bool.false_eq_true, not_false_eq_true, if_true]
      obtain ⟨f', hn, hnd, hr, hmv⟩ := hplug
        { s with present := true, decoded := true, fromSrc := false } (Moved.refl h f₂) hf₂ hv
      obtain ⟨hholds, hmoved⟩ := hmv.holds_put hn hnd hr
      exact ⟨_, f', hholds, hmoved, Or.inr ⟨_, _,
        slot?_setSlot_self hs _, rfl,
        Node.slot?_setSlot hp _, rfl⟩⟩
  · simp only [hpres, Bool.false_eq_true, not_false_eq_true, if_true]
    exact ⟨n, f, hh, Moved.self h r f, Or.inl ⟨trivial, trivial⟩⟩

/-! ## Going down -/

variable {a : ℕ}

lemma Moved.cons_self (hmv : Moved h h' (a :: f) f') : Moved h h' (a :: f) (a :: f') where
  grows := hmv.grows
  kept := hmv.kept
  from_ b hb := by
    rcases mem_cons.mp hb with rfl | hb
    · exact Or.inl mem_cons_self
    · exact hmv.from_ b hb

structure Place (h : Heap K) (r : ℕ) (n : Node K) (f : List ℕ) (v : Value K) (p : PValue K)
    (write : Message K → Message K) : Prop where
  repr : ∃ g, ReprValue h v p g
  child : ∀ {c : Message K}, v.sub = some c → ∃ a nc fc, p = v.point (some a) ∧ Holds h a c nc fc ∧
    ∀ {h₁ : Heap K} {c' : Message K} {nc' : Node K} {fc' : List ℕ}, Holds h₁ a c' nc' fc' →
      Moved h h₁ (a :: fc) fc' → ∃ f', Holds h₁ r (write c') n f' ∧ Moved h h₁ (r :: f) f'

variable {write : Message K → Message K}

lemma Holds.place (hh : Holds h r m n f) (hv : ReprValue h v p f₂)
    (hf : f = f₁ ++ (f₂ ++ f₃))
    (hplug : ∀ {h' : Heap K} {c' : Message K} {f₂' : List ℕ}, Agree h h' (f₁ ++ f₃) →
      ReprValue h' { v with sub := some c' } p f₂' → ReprNode h' (write c') n (f₁ ++ (f₂' ++ f₃))) :
    Place h r n f v p write where
  repr := ⟨f₂, hv⟩
  child := by
    intro c hc
    subst hf
    obtain ⟨-, hnd, -⟩ := nodup_parts.mp hh.nodup
    cases hv with
    | leaf hsub =>
      rw [hsub] at hc
      cases hc
    | node hsub hn hm =>
      rename_i a c₀ nc fc
      rw [hsub] at hc
      cases hc
      refine ⟨a, nc, fc, rfl, ⟨hn, hm, hnd⟩, fun hchild hmv => ?_⟩
      obtain ⟨hroot, hnodup, hagree, hmoved⟩ := hh.part rfl hmv.cons_self hchild.nodup
      exact ⟨_, ⟨hroot, hplug hagree (.node rfl hchild.node hchild.repr), hnodup⟩, hmoved⟩

lemma Node.setSlot_self {s : PSlot K} (hs : Node.slot? n de = some s) :
    Node.setSlot n de s = n := by
  unfold Node.slot? at hs
  split_ifs at hs
  obtain ⟨hlt, hs⟩ := List.getElem?_eq_some_iff.mp hs
  unfold Node.setSlot
  rw [← hs, set_getElem_self]

lemma Holds.slot_place (hh : Holds h r m n f) (hs : m.slot? de = some s) :
    ∃ p, Node.slot? n de = some (s.point p) ∧ Place h r n f s.v p (m.putChild de) := by
  obtain ⟨p, f₁, f₂, f₃, hp, hv, hf, hplug⟩ := hh.repr.slot hs
  refine ⟨p, hp, hh.place hv hf fun {h' c' f₂'} hagree hv' => ?_⟩
  rw [putChild_eq hs]
  rw [← Node.setSlot_self hp]
  exact hplug { s with v := { s.v with sub := some c' } } hagree hv'

lemma ReprNode.tag (hr : ReprNode h m n f) {tag : Bytes} (hv : m.getTag tag = some v) :
    ∃ p, Node.getTag n tag = some p ∧ ∃ f₁ f₂ f₃,
      ReprValue h v p f₂ ∧ f = f₁ ++ (f₂ ++ f₃) ∧
      ∀ {h' : Heap K} {c' : Message K} {f₂' : List ℕ}, Agree h h' (f₁ ++ f₃) →
        ReprValue h' { v with sub := some c' } p f₂' →
        ReprNode h' (m.putTagChild tag c') n (f₁ ++ (f₂' ++ f₃)) := by
  unfold getTag at hv
  cases hr with
  | plain ht hsl =>
    rw [ht] at hv
    cases hv
  | tagged ht hsl hg =>
    rename_i ts ps pt f g
    rw [ht] at hv
    dsimp only at hv
    split at hv
    · cases hv
    rename_i t hl
    split_ifs at hv with hp
    cases hv
    obtain ⟨p, g₁, g₂, g₃, hpt, hval, rfl, hplug⟩ := hg.at hl
    refine ⟨p, ?_, f ++ g₁, g₂, g₃, hval, by rw [append_assoc], fun {h' c' f₂'} ha hv' => ?_⟩
    · simp [Node.getTag, point, hpt, hp]
    rw [append_assoc] at ha ⊢
    have htags := hplug { t with v := { t.v with sub := some c' } } ha.right hv'
    rw [mapSet_self (l := pt) hpt] at htags
    have hput : m.putTagChild tag c' = { m with tags := some (mapSet
        (toUpper tag) { t with v := { t.v with sub := some c' } } ts) } := by
      unfold putTagChild
      rw [ht, getD_some, hl]
    rw [hput]
    exact .tagged rfl (hsl.frame ha.left) htags

lemma Holds.tag_place (hh : Holds h r m n f) {tag : Bytes} (hv : m.getTag tag = some v) :
    ∃ p, Node.getTag n tag = some p ∧ Place h r n f v p (m.putTagChild tag) := by
  obtain ⟨p, hp, f₁, f₂, f₃, hval, hf, hplug⟩ := hh.repr.tag hv
  exact ⟨p, hp, hh.place hval hf hplug⟩

lemma ReprNode.tag_none (hr : ReprNode h m n f) {tag : Bytes} (hv : m.getTag tag = none) :
    Node.getTag n tag = none := by
  unfold getTag at hv
  cases hr with
  | plain ht hsl => rfl
  | tagged ht hsl hg =>
    rename_i ts ps pt f g
    rw [ht] at hv
    unfold Node.getTag point
    dsimp only at hv ⊢
    rcases hl : ts.lookup (toUpper tag) with _ | t
    · rw [(hg.absent hl).1]
    obtain ⟨p, -, -, -, hpt, -⟩ := hg.at hl
    rw [hl] at hv
    rw [hpt]
    dsimp only at hv ⊢
    split_ifs at hv ⊢
    rfl

/-- What a read returns on the heap stands for what it returns on the tree. -/
def Reads (h : Heap K) : Option (Value K) → Option (PValue K) → Prop
  | none, none => True
  | some v, some p => ∃ g, ReprValue h v p g
  | _, _ => False

lemma ReprValue.composite_none (hv : ReprValue h v p g) (hc : v.composite = none) :
    p.composite = none := by
  unfold Value.composite at hc
  cases hv with
  | leaf hsub => exact ite_self none
  | node hsub hn hm =>
    rw [hsub] at hc
    split_ifs at hc with hk
    exact if_neg hk

lemma Place.getElems {rest : List PathElem}
    (hpl : Place h r n f v p write) (hh : Holds h r m n f)
    (ih : ∀ {h : Heap K} {r : ℕ} {m : Message K} {n : Node K} {f : List ℕ}, Holds h r m n f →
      ∃ n' f', Holds (h.getElems ops r rest).1 r (m.getElems ops rest).1 n' f' ∧
      Moved h (h.getElems ops r rest).1 (r :: f) f' ∧
      Reads (h.getElems ops r rest).1 (m.getElems ops rest).2 (h.getElems ops r rest).2)
    {h₀ : Heap K} {f₀ : List ℕ} (hmv : Moved h₀ h (r :: f₀) f) {t : Message K × Option (Value K)}
    {g : Heap K × Option (PValue K)}
    (ht : t = if rest = [] then (m, some v) else
      match v.composite with
      | none => (m, none)
      | some sub => (write (sub.getElems ops rest).1, (sub.getElems ops rest).2))
    (hg : g = if rest = [] then (h, some p) else
      match p.composite with
      | none => (h, none)
      | some sub => h.getElems ops sub rest) :
    ∃ n' f', Holds g.1 r t.1 n' f' ∧ Moved h₀ g.1 (r :: f₀) f' ∧ Reads g.1 t.2 g.2 := by
  subst ht hg
  split_ifs with hrest
  · exact ⟨n, f, hh, hmv, hpl.repr⟩
  rcases hc : v.composite with _ | c
  · obtain ⟨g, hv⟩ := hpl.repr
    rw [hv.composite_none hc]
    exact ⟨n, f, hh, hmv, trivial⟩
  obtain ⟨hkind, hsub⟩ := composite_eq_some.mp hc
  obtain ⟨a, nc, fc, rfl, hchild, hplug⟩ := hpl.child hsub
  obtain ⟨nc', fc', hchild', hmoved, hreads⟩ := ih hchild
  obtain ⟨f', hroot, hmv'⟩ := hplug hchild' hmoved
  rw [show (v.point (some a)).composite = some a from if_pos hkind]
  exact ⟨n, f', hroot, hmv.cons_self.trans hmv', hreads⟩

lemma getElems_holds (ops : Ops K) (path : List PathElem) :
    ∀ {h : Heap K} {r : ℕ} {m : Message K} {n : Node K} {f : List ℕ}, Holds h r m n f →
      ∃ n' f', Holds (h.getElems ops r path).1 r (m.getElems ops path).1 n' f' ∧
        Moved h (h.getElems ops r path).1 (r :: f) f' ∧
        Reads (h.getElems ops r path).1 (m.getElems ops path).2 (h.getElems ops r path).2 := by
  induction path with
  | nil => exact fun {h r m n f} hh => ⟨n, f, hh, Moved.self h r f, trivial⟩
  | cons head rest ih =>
    intro h r m n f hh
    unfold Heap.getElems getElems
    rw [hh.node]
    dsimp only
    rw [hh.repr.isTLV_eq]
    by_cases ht : m.isTLV = true
    · rw [if_pos ht, if_pos ht]
      rcases hv : m.getTag (tagKey head) with _ | v
      · rw [hh.repr.tag_none hv]
        exact ⟨n, f, hh, Moved.self h r f, trivial⟩
      obtain ⟨p, hp, hpl⟩ := hh.tag_place hv
      rw [hp]
      exact hpl.getElems hh ih (Moved.self h r f) rfl rfl
    rw [if_neg ht, if_neg ht]
    by_cases hh' : head.isTag = true
    · rw [if_pos hh', if_pos hh']
      exact ⟨n, f, hh, Moved.self h r f, trivial⟩
    rw [if_neg hh', if_neg hh', get_eq_decodeSlot]
    obtain ⟨n', f', hholds, hmoved, hres⟩ := decodeSlot_holds ops hh head.n.toInt
    rcases hres with ⟨h1, h2⟩ | ⟨s, p, hs, h1, hp, h2⟩
    · rw [h1, h2]
      exact ⟨n', f', hholds, hmoved, trivial⟩
    rw [h1, h2]
    obtain ⟨p', hp', hpl⟩ := hholds.slot_place hs
    rw [hp] at hp'
    obtain rfl : p = p' := congrArg SlotOf.v (some.inj hp')
    exact hpl.getElems hholds ih hmoved rfl rfl

/-! ## Writing -/

lemma ReprNode.touch (hr : ReprNode h m n f) (de : ℤ) :
    ReprNode h (m.touch de) (Node.touch n de) f := by
  cases hr with
  | plain ht hs => exact ReprNode.plain (m := m.touch de) ht hs
  | tagged ht hs hg => exact ReprNode.tagged (m := m.touch de) ht hs hg

lemma ReprNode.own (hr : ReprNode h m n f) :
    ReprNode h { m with owned := true } { n with owned := true } f := by
  cases hr with
  | plain ht hs => exact ReprNode.plain (m := { m with owned := true }) ht hs
  | tagged ht hs hg => exact ReprNode.tagged (m := { m with owned := true }) ht hs hg

def PValue.stamp (d : Option (FieldDef K)) (v : PValue K) : PValue K :=
  match d with
  | some d => { v with codec := d.codec }
  | none => v

lemma ReprValue.stamp (hv : ReprValue h v p g) (c : Option K.Field) :
    ReprValue h { v with codec := c } { p with codec := c } g := by
  cases hv with
  | leaf hsub => exact ReprValue.leaf (v := { v with codec := c }) hsub
  | node hsub hn hm => exact ReprValue.node (v := { v with codec := c }) hsub hn hm

lemma Holds.putTag (hh : Holds h r m n f) (hg : Created h h₁ g) (hv : ReprValue h₁ v p g)
    (tag : Bytes) :
    ∃ f', h₁[r]? = some n ∧ (r :: f').Nodup ∧
      ReprNode h₁ (m.putTag tag v) (Node.putTag n tag p) f' ∧ Moved h h₁ (r :: f) f' := by
  -- the part that is replaced, and the node with the new tag, in the three cases
  suffices hplug : ∃ f₁ f₂ f₃, f = f₁ ++ (f₂ ++ f₃) ∧ (Agree h h₁ (f₁ ++ f₃) →
      ReprNode h₁ (m.putTag tag v) (Node.putTag n tag p) (f₁ ++ (g ++ f₃))) by
    obtain ⟨f₁, f₂, f₃, hf, hplug⟩ := hplug
    obtain ⟨hn, hnd, hagree, hmv⟩ := hh.part hf (hg.moved.weaken f₂) hg.nodup
    exact ⟨_, hn, hnd, hplug hagree, hmv⟩
  cases hh.repr with
  | plain ht hsl =>
    refine ⟨f, [], [], by simp, fun ha => ?_⟩
    rw [append_nil] at ha
    have hnew : ReprTags h₁ [(toUpper tag, ⟨v, true⟩)]
        [(toUpper tag, ⟨p, true⟩)] g := by
      rw [← append_nil g]
      exact .cons (t := ⟨v, true⟩) hv .nil
    unfold putTag Node.putTag
    rw [ht]
    rw [append_nil]
    exact .tagged rfl (hsl.frame ha) hnew
  | tagged ht hsl hgs =>
    rename_i ts ps pt f₀ g₀
    rcases hl : ts.lookup (toUpper tag) with _ | t
    · obtain ⟨hpt, hplug⟩ := hgs.absent hl
      refine ⟨f₀ ++ g₀, [], [], by simp, fun ha => ?_⟩
      rw [append_nil] at ha
      unfold putTag Node.putTag
      simp only [ht, getD_some, hl, hpt, point]
      rw [append_nil, append_assoc]
      exact ReprNode.tagged rfl (hsl.frame ha.left) (hplug ⟨v, true⟩ ha.right hv)
    obtain ⟨p₀, g₁, g₂, g₃, hpt, -, rfl, hplug⟩ := hgs.at hl
    refine ⟨f₀ ++ g₁, g₂, g₃, by rw [append_assoc], fun ha => ?_⟩
    rw [append_assoc] at ha
    unfold putTag Node.putTag
    simp only [ht, getD_some, hl, hpt, point]
    rw [append_assoc]
    exact ReprNode.tagged rfl (hsl.frame ha.left) (hplug ⟨v, true⟩ ha.right hv)

lemma Holds.grow (hh : Holds h r m n f) (hg : Created h h₁ g) :
    Holds h₁ r m n f ∧ Moved h h₁ (r :: f) f := by
  have hgrow : Moved h h₁ [] [] :=
    ⟨hg.grows.length_le, hg.moved.kept, by simp⟩
  have hf : f = f ++ ([] ++ []) := (append_nil f).symm
  obtain ⟨hn, hnd, hagree, hmv⟩ := hh.part hf hgrow nodup_nil
  simp only [append_nil] at hnd hagree hmv
  exact ⟨⟨hn, hh.repr.frame hagree, hnd⟩, hmv⟩

variable {t : Message K × Except Err Unit}

lemma set_holds (hh : Holds h r m n f) (de : ℤ) (arg : Arg K)

    (ht : t = match m.set de arg with
      | .error e => (m, .error e)
      | .ok m' => (m', .ok ())) :
    ∃ n' f', Holds (h.set r de (.fresh arg)).1 r t.1 n' f' ∧
      Moved h (h.set r de (.fresh arg)).1 (r :: f) f' ∧ (h.set r de (.fresh arg)).2 = t.2 := by
  subst ht
  unfold Heap.set MessageOf.set Heap.makeValue
  rw [hh.node]
  dsimp only
  obtain ⟨hschema, -, hsealed, hlen⟩ := hh.repr.same
  rw [hschema, hsealed, hh.repr.fieldDef_eq, hlen]
  by_cases hs : m.sealed = true
  · rw [if_pos hs, if_pos hs]
    exact ⟨n, f, hh, Moved.self h r f, rfl⟩
  rw [if_neg hs, if_neg hs]
  rcases m.schema with _ | _
  · exact ⟨n, f, hh, Moved.self h r f, rfl⟩
  rcases m.fieldDef de with _ | d
  · exact ⟨n, f, hh, Moved.self h r f, rfl⟩
  dsimp only
  rcases makeValue (some d) arg with e | v
  · exact ⟨n, f, hh, Moved.self h r f, rfl⟩
  obtain ⟨g, hv, hg⟩ := allocValue_repr v h
  dsimp only [Except.map]
  split_ifs with hde
  · obtain ⟨hholds, hmv⟩ := hh.grow hg
    exact ⟨n, f, hholds, hmv, rfl⟩
  rcases hslot : m.slot? de with _ | s
  · rw [hh.repr.slot_none hslot]
    obtain ⟨hholds, hmv⟩ := hh.grow hg
    exact ⟨n, f, hholds, hmv, rfl⟩
  obtain ⟨p, f₂, hp, -, -, -, -, hplug⟩ := hh.slot hslot
  rw [hp]
  obtain ⟨f', hn, hnd, hr, hmv⟩ := hplug (s.edit { v with codec := d.codec })
    (hg.moved.weaken f₂) hg.nodup (hv.stamp d.codec)
  obtain ⟨hholds, hmoved⟩ := hmv.holds_put hn hnd (hr.touch de)
  exact ⟨_, f', hholds, hmoved, rfl⟩

lemma setTag_holds (hh : Holds h r m n f) (td : Option (FieldDef K)) (tag : Bytes) (arg : Arg K)
    {g : Heap K × Except Err Unit}
    (ht : t = match makeValue td arg with
      | .error e => (m, .error e)
      | .ok val => ({ m.putTag tag (stamp td val) with owned := true }, .ok ()))
    (hg : g = match h.makeValue td (.fresh arg) with
      | .error e => (h, .error e)
      | .ok (h', val) =>
        (h'.put r { Node.putTag n tag (val.stamp td) with owned := true }, .ok ())) :
    ∃ n' f', Holds g.1 r t.1 n' f' ∧ Moved h g.1 (r :: f) f' ∧ g.2 = t.2 := by
  subst ht hg
  unfold Heap.makeValue
  dsimp only
  rcases makeValue td arg with e | v
  · exact ⟨n, f, hh, Moved.self h r f, rfl⟩
  obtain ⟨g, hv, hg⟩ := allocValue_repr v h
  dsimp only [Except.map]
  rcases td with _ | d
  · obtain ⟨f', hn, hnd, hr, hmv⟩ := hh.putTag hg hv tag
    obtain ⟨hholds, hmoved⟩ := hmv.holds_put hn hnd hr.own
    exact ⟨_, f', hholds, hmoved, rfl⟩
  obtain ⟨f', hn, hnd, hr, hmv⟩ := hh.putTag hg (hv.stamp d.codec) tag
  obtain ⟨hholds, hmoved⟩ := hmv.holds_put hn hnd hr.own
  exact ⟨_, f', hholds, hmoved, rfl⟩

/-- The slot and the address at which `ensureChild` leaves a child. -/
def ChildAt (m : Message K) (n : Node K) (de : ℤ) (c : Message K) (a : ℕ) : Prop :=
  ∃ s, m.slot? de = some s ∧ s.v.sub = some c ∧
    Node.slot? n de = some (s.point (s.v.point (some a)))

lemma Holds.create (hh : Holds h r m n f) (hs : m.slot? de = some s) {p : PSlot K}
    (hp : Node.slot? n de = some p) (c : Message K) :
    ∃ n' f', Holds ((allocMessage c h).1.put r (Node.touch (Node.setSlot n de
          (Node.editSlot p ⟨[], .composite, none, -1, some (allocMessage c h).2, .zero⟩)) de)) r
        ((m.setSlot de (s.edit (Value.ofComposite [] (some c)))).touch de) n' f' ∧
      Moved h ((allocMessage c h).1.put r (Node.touch (Node.setSlot n de
          (Node.editSlot p ⟨[], .composite, none, -1, some (allocMessage c h).2, .zero⟩)) de))
        (r :: f) f' ∧
      ChildAt ((m.setSlot de (s.edit (Value.ofComposite [] (some c)))).touch de) n' de c
        (allocMessage c h).2 := by
  obtain ⟨p', f₂, hp', -, -, -, -, hplug⟩ := hh.slot hs
  rw [hp] at hp'
  cases hp'
  obtain ⟨nc, fc, hn, hm, hcreated⟩ := allocMessage_repr c h
  obtain ⟨f', hroot, hnd, hr, hmv⟩ := hplug (s.edit (Value.ofComposite [] (some c)))
    (hcreated.moved.weaken f₂) hcreated.nodup (.node rfl hn hm)
  obtain ⟨hholds, hmoved⟩ := hmv.holds_put hroot hnd (hr.touch de)
  refine ⟨_, f', hholds, hmoved, s.edit (Value.ofComposite [] (some c)), ?_, rfl, ?_⟩
  · rw [touch_slot?, slot?_setSlot_self hs]
  · exact Node.slot?_setSlot hp _

lemma Holds.keep (hh : Holds h r m n f) (hs : m.slot? de = some s) {p : PSlot K}
    (hp : Node.slot? n de = some p) {c : Message K} (hc : s.v.sub = some c)
    (ha : p.v.sub = some a) :
    ∃ n' f', Holds (h.put r { Node.setSlot n de { p with dirty := true, fromSrc := false } with
          owned := true }) r
        { m.setSlot de { s with dirty := true, fromSrc := false } with owned := true } n' f' ∧
      Moved h (h.put r { Node.setSlot n de { p with dirty := true, fromSrc := false } with
          owned := true }) (r :: f) f' ∧
      ChildAt { m.setSlot de { s with dirty := true, fromSrc := false } with owned := true }
        n' de c a := by
  obtain ⟨p', f₂, hp', hv, -, hf₂, -, hplug⟩ := hh.slot hs
  rw [hp] at hp'
  cases hp'
  obtain ⟨f', hroot, hnd, hr, hmv⟩ := hplug { s with dirty := true, fromSrc := false }
    (Moved.refl h f₂) hf₂ hv
  obtain ⟨hholds, hmoved⟩ := hmv.holds_put hroot hnd hr.own
  refine ⟨_, f', hholds, hmoved, { s with dirty := true, fromSrc := false }, ?_, hc, ?_⟩
  · exact slot?_setSlot_self hs _
  cases hv with
  | leaf hsub =>
    cases ha
  | node hsub hn hm =>
    cases ha
    exact Node.slot?_setSlot hp _

lemma Heap.decodeSlot_absent {s : PSlot K} (hn : h[r]? = some n) (hs : Node.slot? n de = some s)
    (hp : ¬ s.present = true) : h.decodeSlot ops r de = (h, none) := by
  simp [Heap.decodeSlot, hn, hs, hp]

lemma ensureChild_holds (ops : Ops K) (hh : Holds h r m n f) (de : ℤ) (d : FieldDef K) :
    ∃ n' f', Holds (h.ensureChild ops r de d).1 r (m.ensureChild ops de d).1 n' f' ∧
      Moved h (h.ensureChild ops r de d).1 (r :: f) f' ∧
      ((∃ e, (m.ensureChild ops de d).2 = .error e ∧ (h.ensureChild ops r de d).2 = .error e) ∨
        ∃ c a, (m.ensureChild ops de d).2 = .ok c ∧ (h.ensureChild ops r de d).2 = .ok a ∧
          ChildAt (m.ensureChild ops de d).1 n' de c a) := by
  unfold Heap.ensureChild ensureChild
  rw [hh.node, bind_some]
  rcases hs : m.slot? de with _ | s
  · rw [hh.repr.slot_none hs]
    exact ⟨n, f, hh, Moved.self h r f, Or.inl ⟨_, rfl, rfl⟩⟩
  obtain ⟨p, hp, -⟩ := hh.slot_place hs
  rw [hp]
  dsimp only
  have hheap : (if (s.point p).present = true then h.decodeSlot ops r de else (h, none)) =
      h.decodeSlot ops r de := by
    split_ifs with hpres
    · rfl
    · exact (Heap.decodeSlot_absent hh.node hp hpres).symm
  rw [hheap, ite_decodeSlot hs]
  obtain ⟨n', f', hholds, hmoved, hres⟩ := decodeSlot_holds ops hh de
  -- a slot that is not read is the one that was there
  have hslot : ∃ s', (m.decodeSlot ops de).1.slot? de = some s' := by
    rcases decodeSlot_cases ops m de with hg | ⟨s', v, hs', -, hg⟩
    · rw [hg]
      exact ⟨s, hs⟩
    · rw [hg]
      exact ⟨_, slot?_setSlot_self hs' _⟩
  obtain ⟨s', hs'⟩ := hslot
  obtain ⟨p', hp', hpl⟩ := hholds.slot_place hs'
  rw [hholds.node, bind_some, hp', map_some, hs']
  have hnew : ∃ n'' f'', Holds _ r _ n'' f'' ∧ Moved h _ (r :: f) f'' ∧ ChildAt _ n'' de _ _ :=
    (hholds.create hs' hp' (freshChild d)).imp fun _ => Exists.imp fun _ hc =>
      ⟨hc.1, hmoved.cons_self.trans hc.2.1, hc.2.2⟩
  obtain ⟨n'', f'', hholds', hmoved', hchild⟩ := hnew
  rcases hres with ⟨h1, h2⟩ | ⟨s₁, p₁, hs₁, h1, hp₁, h2⟩
  · rw [h1, h2]
    exact ⟨n'', f'', hholds', hmoved', Or.inr ⟨_, _, rfl, rfl, hchild⟩⟩
  rw [hs'] at hs₁
  cases hs₁
  rw [hp'] at hp₁
  obtain rfl : p' = p₁ := congrArg SlotOf.v (some.inj hp₁)
  rw [h1, h2, bind_some, bind_some]
  rcases hc : s'.v.composite with _ | c
  · obtain ⟨g, hv⟩ := hpl.repr
    rw [hv.composite_none hc]
    exact ⟨n'', f'', hholds', hmoved', Or.inr ⟨_, _, rfl, rfl, hchild⟩⟩
  obtain ⟨hkind, hsub⟩ := composite_eq_some.mp hc
  obtain ⟨a, -, -, rfl, -⟩ := hpl.child hsub
  rw [show (s'.v.point (some a)).composite = some a from if_pos hkind]
  obtain ⟨n₃, f₃, hholds₃, hmoved₃, hchild₃⟩ := hholds.keep hs' hp' hsub rfl
  exact ⟨n₃, f₃, hholds₃, hmoved.cons_self.trans hmoved₃, Or.inr ⟨_, _, rfl, rfl, hchild₃⟩⟩

/-- `SetP` on the heap is `SetP` on the tree, if the argument brings its own children. -/
theorem setElems_holds (ops : Ops K) (arg : Arg K) (path : List PathElem) :
    ∀ {h : Heap K} {r : ℕ} {m : Message K} {n : Node K} {f : List ℕ} (full : FieldPath),
      Holds h r m n f →
      ∃ n' f', Holds (h.setElems ops r (.fresh arg) path full).1 r (m.setElems ops arg path full).1
          n' f' ∧
        Moved h (h.setElems ops r (.fresh arg) path full).1 (r :: f) f' ∧
        (h.setElems ops r (.fresh arg) path full).2 = (m.setElems ops arg path full).2 := by
  induction path with
  | nil =>
    intro h r m n f full hh
    unfold Heap.setElems setElems
    rw [hh.node]
    dsimp only
    rw [hh.repr.same.2.2.1]
    split_ifs
    · exact ⟨n, f, hh, Moved.self h r f, rfl⟩
    · exact ⟨n, f, hh, Moved.self h r f, rfl⟩
  | cons head rest ih =>
    intro h r m n f full hh
    unfold Heap.setElems setElems
    rw [hh.node]
    dsimp only
    obtain ⟨hschema, -, hsealed, -⟩ := hh.repr.same
    rw [hsealed, hh.repr.isTLV_eq, hh.repr.fieldDef_eq, hschema]
    by_cases hs : m.sealed = true
    · rw [if_pos hs, if_pos hs]
      exact ⟨n, f, hh, Moved.self h r f, rfl⟩
    rw [if_neg hs, if_neg hs]
    by_cases ht : m.isTLV = true
    · rw [if_pos ht, if_pos ht]
      by_cases hrest : rest = []
      · rw [if_neg (not_not_intro hrest), if_neg (not_not_intro hrest)]
        exact setTag_holds hh _ _ arg rfl rfl
      · rw [if_pos hrest, if_pos hrest]
        exact ⟨n, f, hh, Moved.self h r f, rfl⟩
    rw [if_neg ht, if_neg ht]
    by_cases hh' : head.isTag = true
    · rw [if_pos hh', if_pos hh']
      exact ⟨n, f, hh, Moved.self h r f, rfl⟩
    rw [if_neg hh', if_neg hh']
    split_ifs with hrest
    · exact set_holds hh head.n.toInt arg rfl
    rcases m.fieldDef head.n.toInt with _ | d
    · exact ⟨n, f, hh, Moved.self h r f, rfl⟩
    dsimp only
    split_ifs with hsub
    · exact ⟨n, f, hh, Moved.self h r f, rfl⟩
    obtain ⟨n', f', hholds, hmoved, hres⟩ := ensureChild_holds ops hh head.n.toInt d
    cases hc : h.ensureChild ops r head.n.toInt d with
    | mk h₁ res =>
    cases hm : m.ensureChild ops head.n.toInt d with
    | mk m₁ res' =>
    rw [hc, hm] at hholds hres
    rw [hc] at hmoved
    rcases hres with ⟨e, h1, h2⟩ | ⟨c, a, h1, h2, s, hs', hsub', hslot⟩
    · cases h1
      cases h2
      exact ⟨n', f', hholds, hmoved, rfl⟩
    cases h1
    cases h2
    obtain ⟨p, hp, hpl⟩ := hholds.slot_place hs'
    rw [hslot] at hp
    obtain rfl : s.v.point (some a) = p := congrArg SlotOf.v (some.inj hp)
    obtain ⟨a', nc, fc, ha, hchild, hplug⟩ := hpl.child hsub'
    obtain rfl : a = a' := some.inj (congrArg PValue.sub ha)
    obtain ⟨nc', fc', hchild', hmoved', hres⟩ := ih full.tail hchild
    obtain ⟨f'', hroot, hmv⟩ := hplug hchild' hmoved'
    exact ⟨n', f'', hroot, hmoved.cons_self.trans hmv, hres⟩

end Isopace.Iso8583
