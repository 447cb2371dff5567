import Isopace.Iso8583.LensLaws

/-!
# What reads change in the heap

A read may keep a value it decoded; nothing that a later read shows changes. `lookAt` is `GetP`
without that memoisation.
-/

namespace Isopace.Iso8583

open Lib FieldCodec MessageOf List Option Node

variable {K : Codecs} {ops : Ops K} {h h' : Heap K}

/-! ## Looking without keeping -/

/-- What is compared of a value that was read: everything but the address of its child. -/
def PValue.shown (p : PValue K) : PValue K := { p with sub := p.sub.map fun _ => 0 }

def Value.shown (v : Value K) : PValue K := v.point (v.sub.map fun _ => 0)

variable {f : List ℕ} {p : PValue K} {v : Value K} {n : Node K} {r a : ℕ} {de : ℤ} {s : PSlot K}
  {head : PathElem}

lemma ReprValue.shown_eq (hv : ReprValue h v p f) : p.shown = v.shown := by
  cases hv with
  | leaf hsub | node hsub _ _ => rw [Value.shown, hsub]; rfl

inductive Found (K : Codecs)
  | kept (p : PValue K)
  | decoded (v : Value K)

namespace Found

def shown : Found K → PValue K
  | kept p => p.shown
  | decoded v => v.shown

/-- What is found below a field, `look` being what is found from an address on. -/
def below (ops : Ops K) (look : ℕ → Option (PValue K)) (rest : List PathElem) :
    Found K → Option (PValue K)
  | kept p => p.composite.bind look
  | decoded v => v.composite.bind fun m => (m.getElems ops rest).2.map Value.shown

end Found

namespace Node

def findSlot (ops : Ops K) (n : Node K) (de : ℤ) : Option (Found K) :=
  match slot? n de with
  | none => none
  | some s =>
    if ¬ s.present then none
    else if s.decoded then some (.kept s.v)
    else
      match fieldDef n de with
      | none => none
      | some d =>
        if ¬ s.fromSrc then some (.kept s.v)
        else
          match slice (n.src.getD []) s.bodyOff s.bodyEnd with
          | none => none
          | some body =>
            (decodeField ops d body s.units s.bodyOff).toOption.map .decoded

def find (ops : Ops K) (n : Node K) (head : PathElem) : Option (Found K) :=
  if isTLV n then (getTag n (tagKey head)).map .kept
  else if head.isTag then none
  else findSlot ops n head.n.toInt

end Node

/-- What `GetP` shows of the message at an address, without keeping a value. -/
def Heap.lookAt (ops : Ops K) (h : Heap K) : List PathElem → ℕ → Option (PValue K)
  | [], _ => none
  | head :: rest, r =>
    ((h[r]?).bind (find ops · head)).bind fun x =>
      if rest = [] then some x.shown else x.below ops (h.lookAt ops rest) rest

/-! ## Trees -/

lemma ReprNode.find (ops : Ops K) {m : Message K} (hr : ReprNode h m n f) (head : PathElem) :
    m.getHead ops head = none ∧ find ops n head = none ∨
      ∃ v, m.getHead ops head = some v ∧ (find ops n head = some (.decoded v) ∨
        ∃ p g, find ops n head = some (.kept p) ∧ ReprValue h v p g) := by
  unfold getHead Node.find
  rw [hr.isTLV_eq]
  by_cases ht : m.isTLV = true
  · rw [if_pos ht, if_pos ht]
    rcases hv : m.getTag (tagKey head) with _ | v
    · rw [hr.tag_none hv]
      exact Or.inl ⟨rfl, rfl⟩
    obtain ⟨p, hp, -, g, -, hval, -⟩ := hr.tag hv
    rw [hp]
    exact Or.inr ⟨v, rfl, Or.inr ⟨p, g, rfl, hval⟩⟩
  rw [if_neg ht, if_neg ht]
  split_ifs with htag
  · exact Or.inl ⟨rfl, rfl⟩
  rw [get_eq_decodeSlot, decodeSlot_snd]
  unfold findSlot
  rcases hs : m.slot? head.n.toInt with _ | s
  · rw [hr.slot_none hs]
    exact Or.inl ⟨rfl, rfl⟩
  obtain ⟨p, -, g, -, hp, hval, -⟩ := hr.slot hs
  rw [hp, hr.fieldDef_eq, hr.same.2.1, bind_some]
  unfold slotValue
  simp only [SlotOf.point]
  by_cases hpres : s.present = true
  · simp only [hpres, not_true_eq_false, if_false]
    by_cases hdec : s.decoded = true
    · simp only [hdec, if_true]
      exact Or.inr ⟨s.v, rfl, Or.inr ⟨p, g, rfl, hval⟩⟩
    simp only [hdec, if_false, Bool.false_eq_true]
    rcases m.fieldDef head.n.toInt with _ | d
    · exact Or.inl ⟨rfl, rfl⟩
    by_cases hsrc : s.fromSrc = true
    · simp only [hsrc, not_true_eq_false, if_false]
      rcases slice (m.src.getD []) s.bodyOff s.bodyEnd with _ | body
      · exact Or.inl ⟨rfl, rfl⟩
      dsimp only
      rcases decodeField ops d body s.units s.bodyOff with e | v
      · exact Or.inl ⟨rfl, rfl⟩
      exact Or.inr ⟨v, rfl, Or.inl rfl⟩
    · simp only [hsrc, Bool.false_eq_true, not_false_eq_true, if_true]
      exact Or.inr ⟨s.v, rfl, Or.inr ⟨p, g, rfl, hval⟩⟩
  · simp only [hpres, Bool.false_eq_true, not_false_eq_true, if_true]
    exact Or.inl ⟨trivial, trivial⟩

lemma ReprValue.look {α : Type} {g : List ℕ} (hv : ReprValue h v p g) {look : ℕ → Option α}
    {look' : Message K → Option α}
    (hlook : ∀ {a m n f}, h[a]? = some n → ReprNode h m n f → look a = look' m) :
    p.composite.bind look = v.composite.bind look' := by
  unfold PValue.composite Value.composite
  cases hv with
  | leaf hsub =>
    rw [hsub, ite_self, show (v.point none).sub = none from rfl, ite_self]
    rfl
  | node hsub hn hm =>
    rw [hsub]
    unfold Value.point
    split_ifs
    · exact hlook hn hm
    · rfl

/-- In a tree `lookAt` finds what `GetP` finds. By induction on the path. -/
theorem ReprNode.lookAt_eq (path : List PathElem) : ∀ {r : ℕ} {m : Message K} {n : Node K}
    {f : List ℕ}, h[r]? = some n → ReprNode h m n f →
      h.lookAt ops path r = (m.getElems ops path).2.map Value.shown := by
  induction path with
  | nil => exact fun _ _ => rfl
  | cons head rest ih =>
    intro r m n f hn hr
    rw [Heap.lookAt, hn, bind_some, getElems_cons]
    rcases hr.find ops head with ⟨hm, hf⟩ | ⟨v, hm, hf | ⟨p, g, hf, hval⟩⟩
    · rw [hm, hf]
      rfl
    · rw [hm, hf, bind_some, bind_some]
      split_ifs
      · rfl
      · exact map_bind.symm
    · rw [hm, hf, bind_some, bind_some]
      split_ifs
      · exact congrArg some hval.shown_eq
      · rw [map_bind]
        exact hval.look fun hn hr => ih hn hr

/-! ## One step of a read -/

inductive ReadStep (ops : Ops K) (h : Heap K) : Heap K → Prop
  | same : ReadStep ops h h
  | mark {r : ℕ} {n : Node K} {de : ℤ} {s : PSlot K} {d : FieldDef K} (hn : h[r]? = some n)
      (hs : slot? n de = some s) (present : s.present = true) (hd : fieldDef n de = some d)
      (fromSrc : s.fromSrc = false) :
      ReadStep ops h (h.put r (setSlot n de { s with decoded := true }))
  | keep {r : ℕ} {n : Node K} {de : ℤ} {s : PSlot K} {d : FieldDef K} {body : Bytes} {v : Value K}
      (hn : h[r]? = some n) (hs : slot? n de = some s) (present : s.present = true)
      (decoded : s.decoded = false) (hd : fieldDef n de = some d) (fromSrc : s.fromSrc = true)
      (hb : slice (n.src.getD []) s.bodyOff s.bodyEnd = some body)
      (hv : decodeField ops d body s.units s.bodyOff = .ok v) :
      ReadStep ops h ((allocValue v h).1.put r
        (setSlot n de { s with v := (allocValue v h).2, decoded := true }))

lemma decodeSlot_step (ops : Ops K) (hn : h[r]? = some n) (de : ℤ) :
    ReadStep ops h (h.decodeSlot ops r de).1 ∧
      ((h.decodeSlot ops r de).2 = none ∧ findSlot ops n de = none ∨
        ∃ p n', (h.decodeSlot ops r de).2 = some p ∧ (h.decodeSlot ops r de).1[r]? = some n' ∧
          n'.schema = n.schema ∧ findSlot ops n' de = some (.kept p)) := by
  unfold Heap.decodeSlot findSlot
  rw [hn]
  dsimp only
  have hr : r < h.length := (List.getElem?_eq_some_iff.mp hn).1
  rcases hs : slot? n de with _ | s
  · exact ⟨.same, Or.inl ⟨rfl, rfl⟩⟩
  dsimp only
  by_cases hp : s.present = true
  · rw [if_neg (not_not_intro hp), if_neg (not_not_intro hp)]
    by_cases hdec : s.decoded = true
    · rw [if_pos hdec, if_pos hdec]
      refine ⟨.same, Or.inr ⟨s.v, n, rfl, hn, rfl, ?_⟩⟩
      simp [hs, hp, hdec]
    rw [if_neg hdec, if_neg hdec]
    rcases hd : fieldDef n de with _ | d
    · exact ⟨.same, Or.inl ⟨rfl, rfl⟩⟩
    dsimp only
    by_cases hsrc : s.fromSrc = true
    · rw [if_neg (not_not_intro hsrc), if_neg (not_not_intro hsrc)]
      rcases hb : slice (n.src.getD []) s.bodyOff s.bodyEnd with _ | body
      · exact ⟨.same, Or.inl ⟨rfl, rfl⟩⟩
      dsimp only
      rcases hv : decodeField ops d body s.units s.bodyOff with e | v
      · exact ⟨.same, Or.inl ⟨rfl, rfl⟩⟩
      refine ⟨.keep hn hs hp (Bool.eq_false_of_not_eq_true hdec) hd hsrc hb hv,
        Or.inr ⟨_, _, rfl, getElem?_set_self ?_, rfl, ?_⟩⟩
      · obtain ⟨_, -, hcreated⟩ := allocValue_repr v h
        exact hr.trans_le hcreated.grows.length_le
      · simp [slot?_setSlot hs, hp]
    · rw [if_pos hsrc, if_pos hsrc]
      refine ⟨.mark hn hs hp hd (Bool.eq_false_of_not_eq_true hsrc),
        Or.inr ⟨s.v, _, rfl, getElem?_set_self hr, rfl, ?_⟩⟩
      simp [slot?_setSlot hs, hp]
  · rw [if_pos hp, if_pos hp]
    exact ⟨.same, Or.inl ⟨rfl, rfl⟩⟩

/-! ## No step changes what is found -/

/-- The children exist, and what is in the source has not been edited. -/
structure Node.Sound (bound : ℕ) (n : Node K) : Prop where
  slots : ∀ s ∈ n.slots, ∀ a, s.v.sub = some a → a < bound
  tags : ∀ e ∈ n.tags.getD [], ∀ a, e.2.v.sub = some a → a < bound
  clean : ∀ s ∈ n.slots, s.fromSrc = true → s.dirty = false ∧ n.src ≠ none

def Heap.Sound (h : Heap K) : Prop := ∀ n ∈ h, Node.Sound h.length n

lemma Node.mem_of_slot? (hs : slot? n de = some s) : s ∈ n.slots := by
  unfold slot? at hs
  split_ifs at hs
  exact mem_of_getElem? hs

lemma Node.slot?_setSlot_ne {de' : ℤ} (hne : de' ≠ de) (hde : 0 ≤ de) (s' : PSlot K) :
    slot? (setSlot n de s') de' = slot? n de' := by
  unfold slot? setSlot
  split_ifs with hneg
  · rfl
  · exact getElem?_set_ne (by omega)

lemma Node.nonneg_of_slot? (hs : slot? n de = some s) : 0 ≤ de := by
  unfold slot? at hs
  split_ifs at hs with hneg
  exact not_lt.mp hneg

lemma Node.find_setSlot (hs : slot? n de = some s) (s' : PSlot K)
    (hde : isTLV n = true ∨ head.isTag = true ∨ head.n.toInt ≠ de) :
    find ops (setSlot n de s') head = find ops n head := by
  unfold find
  rw [show isTLV (setSlot n de s') = isTLV n from rfl]
  by_cases ht : isTLV n = true
  · rw [if_pos ht, if_pos ht]
    rfl
  rw [if_neg ht, if_neg ht]
  split_ifs with htag
  · rfl
  have hne : head.n.toInt ≠ de := (hde.resolve_left ht).resolve_left htag
  unfold findSlot
  rw [slot?_setSlot_ne hne (nonneg_of_slot? hs)]
  rfl

lemma getElem?_of_grows {l l' : Heap K} (hg : l <+: l') (hn : l[a]? = some n) :
    l'[a]? = some n := by
  obtain ⟨t, rfl⟩ := hg
  rw [List.getElem?_append_left (List.getElem?_eq_some_iff.mp hn).1]
  exact hn

lemma Heap.getElem?_put {n' : Node K} (hn : h[r]? = some n) :
    (h.put r n')[a]? = if a = r then some n' else h[a]? := by
  unfold Heap.put
  by_cases ha : a = r
  · rw [if_pos ha, ha, List.getElem?_set_self (List.getElem?_eq_some_iff.mp hn).1]
  · rw [if_neg ha, getElem?_set_ne (Ne.symm ha)]

lemma Created.repr_put {g : List ℕ} (hc : Created h h' g) (hv : ReprValue h' v p g)
    (hr : r < h.length)
    (n' : Node K) : ReprValue (h'.put r n') v p g := by
  refine hv.frame fun a ha => ?_
  have hne : a ≠ r := by
    have := hc.new a ha
    omega
  exact getElem?_set_ne (Ne.symm hne)

lemma ReadStep.find (hst : ReadStep ops h h') (hn : h[a]? = some n) (head : PathElem) :
    ∃ n', h'[a]? = some n' ∧
      (find ops n' head = find ops n head ∨
        ∃ v p g, find ops n head = some (.decoded v) ∧ find ops n' head = some (.kept p) ∧
          ReprValue h' v p g) := by
  cases hst with
  | same => exact ⟨n, hn, Or.inl rfl⟩
  | mark hr hs hp hd hsrc =>
    rename_i r n₀ de s d
    rw [Heap.getElem?_put hr]
    by_cases ha : a = r
    · subst ha
      rw [hr] at hn
      cases hn
      refine ⟨_, if_pos rfl, Or.inl ?_⟩
      by_cases hde : isTLV n = true ∨ head.isTag = true ∨ head.n.toInt ≠ de
      · exact find_setSlot hs _ hde
      simp only [not_or, not_not] at hde
      obtain ⟨ht, htag, rfl⟩ := hde
      unfold find
      rw [if_neg (show ¬ isTLV (setSlot n _ _) = true from ht), if_neg ht, if_neg htag,
        if_neg htag]
      unfold findSlot
      rw [slot?_setSlot hs, hs]
      rw [show fieldDef (setSlot n head.n.toInt _) head.n.toInt = some d from hd, hd]
      simp only [hp, hsrc, not_true_eq_false, if_false, Bool.false_eq_true, not_false_eq_true,
        if_true, ite_self]
    · exact ⟨n, (if_neg ha).trans hn, Or.inl rfl⟩
  | keep hr hs hp hdec hd hsrc hb hv =>
    rename_i r n₀ de s d body v
    obtain ⟨g, hval, hcreated⟩ := allocValue_repr v h
    have hlt : r < h.length := (List.getElem?_eq_some_iff.mp hr).1
    rw [Heap.getElem?_put (getElem?_of_grows hcreated.grows hr)]
    by_cases ha : a = r
    · subst ha
      rw [hr] at hn
      cases hn
      refine ⟨_, if_pos rfl, ?_⟩
      by_cases hde : isTLV n = true ∨ head.isTag = true ∨ head.n.toInt ≠ de
      · exact Or.inl (find_setSlot hs _ hde)
      simp only [not_or, not_not] at hde
      obtain ⟨ht, htag, rfl⟩ := hde
      refine Or.inr ⟨v, (allocValue v h).2, g, ?_, ?_, hcreated.repr_put hval hlt _⟩
      · unfold find
        rw [if_neg ht, if_neg htag]
        unfold findSlot
        rw [hs]
        dsimp only
        rw [if_neg (not_not_intro hp), if_neg (by rw [hdec]; exact Bool.false_ne_true), hd]
        dsimp only
        rw [if_neg (not_not_intro hsrc), hb]
        dsimp only
        rw [hv]
        rfl
      · unfold find
        rw [if_neg (show ¬ isTLV (setSlot n _ _) = true from ht), if_neg htag]
        unfold findSlot
        rw [slot?_setSlot hs]
        dsimp only
        rw [if_neg (not_not_intro hp), if_pos rfl]
    · exact ⟨n, (if_neg ha).trans (getElem?_of_grows hcreated.grows hn), Or.inl rfl⟩

lemma Node.findSlot_kept (hf : findSlot ops n de = some (.kept p)) :
    ∃ s, slot? n de = some s ∧ s.v = p := by
  unfold findSlot at hf
  split at hf
  · cases hf
  rename_i s hs
  refine ⟨s, hs, ?_⟩
  split at hf
  · cases hf
  split at hf
  · cases hf
    rfl
  split at hf
  · cases hf
  split at hf
  · cases hf
    rfl
  split at hf
  · cases hf
  · obtain ⟨w, -, he⟩ := map_eq_some_iff.mp hf
    cases he

lemma Node.getTag_mem {tag : Bytes} (hp : getTag n tag = some p) :
    ∃ e ∈ n.tags.getD [], e.2.v = p := by
  unfold getTag at hp
  split at hp
  · cases hp
  rename_i ts hts
  split at hp
  · cases hp
  rename_i e he
  split_ifs at hp
  cases hp
  obtain ⟨l₁, l₂, hl, -⟩ := lookup_eq_some_iff.mp he
  refine ⟨(toUpper tag, e), ?_, rfl⟩
  rw [hts, hl]
  exact mem_append_right l₁ mem_cons_self

lemma Node.Sound.find_lt {bound : ℕ} (hn : Sound bound n)
    (hf : find ops n head = some (.kept p)) (ha : p.composite = some a) : a < bound := by
  have hsub : p.sub = some a := by
    unfold PValue.composite at ha
    split_ifs at ha
    exact ha
  unfold find at hf
  split_ifs at hf
  · obtain ⟨q, hq, he⟩ := map_eq_some_iff.mp hf
    cases he
    obtain ⟨e, he, rfl⟩ := getTag_mem hq
    exact hn.tags e he a hsub
  · obtain ⟨s, hs, rfl⟩ := findSlot_kept hf
    exact hn.slots s (mem_of_slot? hs) a hsub

/-- A step of a read changes nothing that is found. -/
theorem ReadStep.lookAt_eq (hst : ReadStep ops h h') (hh : h.Sound) (path : List PathElem) :
    ∀ {r : ℕ}, r < h.length → h'.lookAt ops path r = h.lookAt ops path r := by
  induction path with
  | nil => exact fun _ => rfl
  | cons head rest ih =>
    intro r hr
    have hn : h[r]? = some h[r] := getElem?_eq_getElem hr
    obtain ⟨n', hn', hfind⟩ := hst.find hn head
    rw [Heap.lookAt, Heap.lookAt, hn, hn', bind_some, bind_some]
    rcases hfind with hsame | ⟨v, p, g, hv, hp, hval⟩
    · rw [hsame]
      rcases hf : Node.find ops h[r] head with _ | x
      · rfl
      rw [bind_some, bind_some]
      split_ifs
      · rfl
      cases x with
      | decoded v => rfl
      | kept p =>
        unfold Found.below
        dsimp only
        rcases hc : p.composite with _ | a
        · rfl
        exact ih ((hh _ (getElem_mem hr)).find_lt hf hc)
    · -- the child that was decoded is now in the heap
      rw [hv, hp, bind_some, bind_some]
      split_ifs
      · exact congrArg some hval.shown_eq
      · exact hval.look fun hn hr => hr.lookAt_eq rest hn

/-! ## Steps keep the heap sound -/

/-- A message whose fields in the source have not been edited, at any depth. -/
inductive MessageOf.Clean : Message K → Prop
  | mk {m : Message K} (source : ∀ s ∈ m.slots, s.fromSrc = true → s.dirty = false ∧ m.src ≠ none)
      (below : ∀ s ∈ m.slots, ∀ c, s.v.sub = some c → Clean c)
      (tags : ∀ e ∈ m.tags.getD [], ∀ c, e.2.v.sub = some c → Clean c) : Clean m

def Value.Clean (v : Value K) : Prop := ∀ c, v.sub = some c → c.Clean

lemma ReprValue.sub_lt (hv : ReprValue h v p f) (ha : p.sub = some a) : a < h.length := by
  cases hv with
  | leaf _ => cases ha
  | node _ hn _ =>
    cases ha
    exact (List.getElem?_eq_some_iff.mp hn).1

lemma ReprSlots.mem {ss : List (Slot K)} {ps : List (PSlot K)} (hs : ReprSlots h ss ps f) :
    ∀ q ∈ ps, (∀ a, q.v.sub = some a → a < h.length) ∧
      ∃ s ∈ ss, q.fromSrc = s.fromSrc ∧ q.dirty = s.dirty := by
  induction ss generalizing ps f with
  | nil =>
    cases hs
    simp
  | cons s ss ih =>
    cases hs with
    | cons hv hs =>
      intro q hq
      rcases mem_cons.mp hq with rfl | hq
      · exact ⟨fun a => hv.sub_lt, s, mem_cons_self, rfl, rfl⟩
      · obtain ⟨hlt, s', hs', hflags⟩ := ih hs q hq
        exact ⟨hlt, s', mem_cons_of_mem s hs', hflags⟩

lemma ReprTags.mem {ts : List (Bytes × TagSlot K)} {pt : List (Bytes × TagSlotOf (PValue K))}
    (ht : ReprTags h ts pt f) : ∀ e ∈ pt, ∀ a, e.2.v.sub = some a → a < h.length := by
  induction ts generalizing pt f with
  | nil =>
    cases ht
    simp
  | cons t ts ih =>
    cases ht with
    | cons hv ht =>
      intro e he
      rcases mem_cons.mp he with rfl | he
      · exact fun a => hv.sub_lt
      · exact ih ht e he

lemma ReprNode.sound {m : Message K} (hr : ReprNode h m n f) (hm : m.Clean) : Sound h.length n := by
  have hclean : ∀ {ps : List (PSlot K)} {g : List ℕ}, ReprSlots h m.slots ps g →
      ∀ q ∈ ps, q.fromSrc = true → q.dirty = false ∧ m.src ≠ none := by
    intro ps g hs q hq hfrom
    obtain ⟨-, s, hmem, hf, hd⟩ := hs.mem q hq
    cases hm with
    | mk source _ _ =>
      rw [hd]
      exact source s hmem (hf.symm.trans hfrom)
  cases hr with
  | plain ht hs =>
    exact ⟨fun q hq => (hs.mem q hq).1, fun e he => absurd he not_mem_nil, hclean hs⟩
  | tagged ht hs hg => exact ⟨fun q hq => (hs.mem q hq).1, hg.mem, hclean hs⟩

lemma Node.Sound.mono {b b' : ℕ} (hn : Sound b n) (hb : b ≤ b') : Sound b' n :=
  ⟨fun s hs a ha => (hn.slots s hs a ha).trans_le hb,
    fun e he a ha => (hn.tags e he a ha).trans_le hb, hn.clean⟩

lemma Heap.Sound.push (hh : h.Sound) (hn : Node.Sound (h ++ [n]).length n) :
    Heap.Sound (h ++ [n]) := by
  intro x hx
  rcases mem_append.mp hx with hx | hx
  · exact (hh x hx).mono (by simp)
  · rw [mem_singleton.mp hx]
    exact hn

mutual

theorem allocValue_sound : ∀ (v : Value K) {h : Heap K}, v.Clean → h.Sound →
    (allocValue v h).1.Sound
  | ⟨_, _, _, _, none, _⟩, _, _, hh => hh
  | ⟨_, _, _, _, some m, _⟩, _, hv, hh => allocMessage_sound m (hv m rfl) hh

theorem allocMessage_sound : ∀ (m : MessageOf K (Value K)) {h : Heap K}, m.Clean → h.Sound →
    (allocMessage m h).1.Sound
  | ⟨schema, src, bm, slots, owned, dirty, isSealed, tags, tagOrder⟩, h, hm, hh => by
    obtain ⟨n, f, hn, hr, -⟩ := allocMessage_repr
      ⟨schema, src, bm, slots, owned, dirty, isSealed, tags, tagOrder⟩ h
    have hsound := hr.sound hm
    rw [allocMessage] at hn hsound ⊢
    rw [getElem?_concat_length] at hn
    rw [some.inj hn] at hsound ⊢
    refine Heap.Sound.push ?_ hsound
    cases hm with
    | mk _ below htags =>
      have hs := allocSlots_sound slots (fun s hs => below s hs) hh
      rcases tags with _ | ts
      · exact hs
      exact allocTagList_sound ts htags hs

theorem allocSlots_sound : ∀ (ss : List (SlotOf (Value K))) {h : Heap K},
    (∀ s ∈ ss, s.v.Clean) → h.Sound → (allocSlots ss h).1.Sound
  | [], _, _, hh => hh
  | ⟨v, _, _, _, _, _, _, _, _⟩ :: ss, _, hss, hh =>
    allocSlots_sound ss (fun s hs => hss s (mem_cons_of_mem _ hs))
      (allocValue_sound v (hss _ mem_cons_self) hh)

theorem allocTagList_sound : ∀ (ts : List (Bytes × TagSlotOf (Value K))) {h : Heap K},
    (∀ e ∈ ts, e.2.v.Clean) → h.Sound → (allocTagList ts h).1.Sound
  | [], _, _, hh => hh
  | (_, ⟨v, _⟩) :: ts, _, hts, hh =>
    allocTagList_sound ts (fun e he => hts e (mem_cons_of_mem _ he))
      (allocValue_sound v (hts _ mem_cons_self) hh)

end

lemma Heap.Sound.put (hh : h.Sound) (hn : Node.Sound h.length n) (r : ℕ) : (h.put r n).Sound := by
  intro x hx
  rw [show (h.put r n).length = h.length from length_set]
  rcases mem_or_eq_of_mem_set hx with hx | rfl
  · exact hh x hx
  · exact hn

lemma Node.Sound.setSlot {b : ℕ} (hn : Sound b n) (de : ℤ) (hsub : ∀ a, s.v.sub = some a → a < b)
    (hclean : s.fromSrc = true → s.dirty = false ∧ n.src ≠ none) : Sound b (setSlot n de s) := by
  refine ⟨fun q hq => ?_, hn.tags, fun q hq => ?_⟩
  · rcases mem_or_eq_of_mem_set hq with hq | rfl
    · exact hn.slots q hq
    · exact hsub
  rcases mem_or_eq_of_mem_set hq with hq | rfl
  · exact hn.clean q hq
  · exact hclean

def DecodesClean (ops : Ops K) : Prop :=
  ∀ {c body units d} {v : Value K}, ops.decodeBody c body units d = .ok v → v.Clean

lemma decodeField_clean (ho : DecodesClean ops) {d : FieldDef K} {body : Bytes} {units off : ℤ}
    (hv : decodeField ops d body units off = .ok v) : v.Clean := by
  intro c hc
  obtain ⟨k, dv, -, hd, hsub⟩ := decodeField_of_sub hv hc
  exact ho hd c hsub

lemma ReadStep.sound (ho : DecodesClean ops) (hst : ReadStep ops h h') (hh : h.Sound) :
    h'.Sound := by
  cases hst with
  | same => exact hh
  | mark hn hs hp hd hsrc =>
    have hnode := hh _ (mem_of_getElem? hn)
    have hsub := hnode.slots _ (mem_of_slot? hs)
    have hclean := hnode.clean _ (mem_of_slot? hs)
    refine hh.put (hnode.setSlot _ ?_ ?_) _
    · exact hsub
    · exact hclean
  | keep hn hs hp hdec hd hsrc hb hv =>
    rename_i v
    have hsound := allocValue_sound v (decodeField_clean ho hv) hh
    obtain ⟨f, hval, hcreated⟩ := allocValue_repr v h
    have hnode := hsound _ (mem_of_getElem? (getElem?_of_grows hcreated.grows hn))
    have hclean := hnode.clean _ (mem_of_slot? hs)
    refine hsound.put (hnode.setSlot _ ?_ ?_) _
    · exact fun a => hval.sub_lt
    · exact hclean

lemma ReadStep.length_le (hst : ReadStep ops h h') : h.length ≤ h'.length := by
  cases hst with
  | same => exact le_rfl
  | mark => exact length_set.ge
  | keep _ _ _ _ _ _ _ _ =>
    rename_i v _ _ _ _ _ _ _ _
    obtain ⟨f, -, hcreated⟩ := allocValue_repr v h
    exact hcreated.grows.length_le.trans length_set.ge

/-! ## Reads -/

abbrev ReadSteps (ops : Ops K) : Heap K → Heap K → Prop := Relation.ReflTransGen (ReadStep ops)

lemma ReadSteps.keeps (ho : DecodesClean ops) (hst : ReadSteps ops h h') (hh : h.Sound) :
    h'.Sound ∧ h.length ≤ h'.length ∧
      ∀ path {r}, r < h.length → h'.lookAt ops path r = h.lookAt ops path r := by
  induction hst with
  | refl => exact ⟨hh, le_rfl, fun _ _ _ => rfl⟩
  | tail _ hstep ih =>
    obtain ⟨hsound, hlen, hlook⟩ := ih
    exact ⟨hstep.sound ho hsound, hlen.trans hstep.length_le, fun path r hr =>
      (hstep.lookAt_eq hsound path (hr.trans_le hlen)).trans (hlook path hr)⟩

lemma lookAt_below (ho : DecodesClean ops) {rest : List PathElem}
    (ih : ∀ {h : Heap K} {r : ℕ}, h.Sound → r < h.length → ReadSteps ops h
      (h.getElems ops r rest).1 ∧ (h.getElems ops r rest).2.map PValue.shown = h.lookAt ops rest r)
    {h₁ : Heap K} (hh : h.Sound) (hr : r < h.length) (hst : ReadSteps ops h h₁)
    (hfound : ∃ n₁, h₁[r]? = some n₁ ∧ Node.find ops n₁ head = some (.kept p)) :
    ∀ g, g = (if rest = [] then (h₁, some p) else
        match p.composite with
        | none => (h₁, none)
        | some sub => h₁.getElems ops sub rest) →
      ReadSteps ops h g.1 ∧ g.2.map PValue.shown = h.lookAt ops (head :: rest) r := by
  obtain ⟨n₁, hn₁, hf⟩ := hfound
  rintro g rfl
  obtain ⟨hh₁, -, hlook⟩ := hst.keeps ho hh
  rw [← hlook (head :: rest) hr, Heap.lookAt, hn₁, bind_some, hf, bind_some]
  split_ifs with hrest
  · exact ⟨hst, rfl⟩
  unfold Found.below
  dsimp only
  rcases hc : p.composite with _ | a
  · exact ⟨hst, rfl⟩
  obtain ⟨hst', hshown⟩ := ih hh₁ ((hh₁ _ (mem_of_getElem? hn₁)).find_lt hf hc)
  exact ⟨hst.trans hst', hshown⟩

lemma getElems_lookAt (ho : DecodesClean ops) (path : List PathElem) :
    ∀ {h : Heap K} {r : ℕ}, h.Sound → r < h.length →
      ReadSteps ops h (h.getElems ops r path).1 ∧
        (h.getElems ops r path).2.map PValue.shown = h.lookAt ops path r := by
  induction path with
  | nil => exact fun _ _ => ⟨.refl, rfl⟩
  | cons head rest ih =>
    intro h r hh hr
    have hn : h[r]? = some h[r] := getElem?_eq_getElem hr
    unfold Heap.getElems
    rw [hn]
    dsimp only
    by_cases ht : isTLV h[r] = true
    · rw [if_pos ht]
      rcases hv : getTag h[r] (tagKey head) with _ | p
      · refine ⟨.refl, ?_⟩
        rw [Heap.lookAt, hn, bind_some, find, if_pos ht, hv]
        rfl
      refine lookAt_below ho ih hh hr .refl ⟨h[r], hn, ?_⟩ _ rfl
      rw [find, if_pos ht, hv]
      rfl
    rw [if_neg ht]
    by_cases htag : head.isTag = true
    · rw [if_pos htag]
      refine ⟨.refl, ?_⟩
      rw [Heap.lookAt, hn, bind_some, find, if_neg ht, if_pos htag]
      rfl
    rw [if_neg htag]
    obtain ⟨hst, ⟨hres, hf⟩ | ⟨p, n', hres, hn', hschema, hf⟩⟩ :=
      decodeSlot_step ops hn head.n.toInt
    · rw [hres]
      refine ⟨.single hst, ?_⟩
      rw [Heap.lookAt, hn, bind_some, find, if_neg ht, if_neg htag, hf]
      rfl
    rw [hres]
    refine lookAt_below ho ih hh hr (.single hst) ⟨n', hn', ?_⟩ _ rfl
    have ht' : ¬ isTLV n' = true := by
      unfold Node.isTLV at ht ⊢
      rwa [hschema]
    rw [find, if_neg ht', if_neg htag, hf]

end Isopace.Iso8583
