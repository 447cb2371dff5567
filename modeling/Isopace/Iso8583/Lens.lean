import Isopace.Iso8583.ParsePath

/-!
# Path writes and reads

`SetP` and `GetP` are a lens, on messages whose children are each held in one place.
-/

namespace Isopace.Iso8583

open Lib List Option

variable {K : Codecs} {ops : Ops K}

namespace MessageOf

variable {m m' m₁ child : Message K} {d : FieldDef K} {de : ℤ}

/-! ## Decoding a slot -/

variable {s : Slot K} {arg : Arg K}

lemma setSlot_self (h : m.slot? de = some s) : m.setSlot de s = m := by
  obtain ⟨n, rfl⟩ := nat_of_slot? h
  rw [slot?_natCast] at h
  obtain ⟨hn, hs⟩ := List.getElem?_eq_some_iff.mp h
  unfold setSlot
  rw [Int.toNat_natCast, ← hs, set_getElem_self]

lemma decodeSlot_cases (ops : Ops K) (m : Message K) (de : ℤ) :
    m.decodeSlot ops de = (m, none) ∨ ∃ s v, m.slot? de = some s ∧ s.present = true ∧
      m.decodeSlot ops de = (m.setSlot de { s with v := v, decoded := true }, some v) := by
  unfold decodeSlot
  rcases hs : m.slot? de with _ | s
  · exact Or.inl rfl
  dsimp only
  by_cases hp : s.present = true
  · rw [if_neg (not_not_intro hp)]
    by_cases hd : s.decoded = true
    · rw [if_pos hd]
      refine Or.inr ⟨s, s.v, rfl, hp, ?_⟩
      rw [← hd, setSlot_self hs]
    rw [if_neg hd]
    rcases m.fieldDef de with _ | d
    · exact Or.inl rfl
    dsimp only
    by_cases hsrc : s.fromSrc = true
    · rw [if_neg (not_not_intro hsrc)]
      rcases slice (m.src.getD []) s.bodyOff s.bodyEnd with _ | body
      · exact Or.inl rfl
      dsimp only
      rcases decodeField ops d body s.units s.bodyOff with e | v
      · exact Or.inl rfl
      exact Or.inr ⟨s, v, rfl, hp, rfl⟩
    · rw [if_pos hsrc]
      exact Or.inr ⟨s, s.v, rfl, hp, rfl⟩
  · rw [if_pos hp]
    exact Or.inl rfl

/-- The value of a slot: the one in place, or what the definition decodes from the source. -/
def slotValue (ops : Ops K) (d : Option (FieldDef K)) (src : Option Bytes) (s : Slot K) :
    Option (Value K) :=
  if ¬ s.present then none
  else if s.decoded then some s.v
  else
    match d with
    | none => none
    | some d =>
      if ¬ s.fromSrc then some s.v
      else
        match slice (src.getD []) s.bodyOff s.bodyEnd with
        | none => none
        | some body => (decodeField ops d body s.units s.bodyOff).toOption

lemma decodeSlot_snd (ops : Ops K) (m : Message K) (de : ℤ) :
    (m.decodeSlot ops de).2 = (m.slot? de).bind (slotValue ops (m.fieldDef de) m.src) := by
  unfold decodeSlot
  rcases m.slot? de with _ | s
  · rfl
  rw [bind_some]
  unfold slotValue
  dsimp only
  split_ifs
  · rfl
  · rcases m.fieldDef de with _ | d
    · rfl
    rcases slice (m.src.getD []) s.bodyOff s.bodyEnd with _ | body
    · rfl
    dsimp only
    cases decodeField ops d body s.units s.bodyOff <;> rfl
  · cases m.fieldDef de <;> rfl
  · rfl

variable {v : Value K}

lemma slotValue_some {d : Option (FieldDef K)} {src : Option Bytes}
    (h : slotValue ops d src s = some v) : s.present = true ∧
      (v = s.v ∧ (s.decoded = true ∨ s.fromSrc = false) ∨ ∃ d' body, d = some d' ∧
        slice (src.getD []) s.bodyOff s.bodyEnd = some body ∧
        decodeField ops d' body s.units s.bodyOff = .ok v) := by
  unfold slotValue at h
  split_ifs at h with hp hd hf
  · exact ⟨hp, Or.inl ⟨(some.inj h).symm, Or.inl hd⟩⟩
  · split at h
    · cases h
    split at h
    · cases h
    rename_i body hbody
    refine ⟨hp, Or.inr ⟨_, body, rfl, hbody, ?_⟩⟩
    generalize decodeField ops _ body s.units s.bodyOff = x at h
    cases x <;> cases h
    rfl
  · split at h
    · cases h
    · exact ⟨hp, Or.inl ⟨(some.inj h).symm, Or.inr (Bool.eq_false_of_not_eq_true hf)⟩⟩

lemma decodeField_of_sub {body : Bytes} {units off : ℤ}
    (h : decodeField ops d body units off = .ok v) (hsub : v.sub = some child) :
    ∃ c dv, d.codec = some c ∧ ops.decodeBody c body units d = .ok dv ∧ dv.sub = some child := by
  unfold decodeField at h
  split at h
  · rename_i c hc
    split at h
    · cases h
    rename_i dv hdv
    cases h
    exact ⟨c, dv, hc, hdv, hsub⟩
  · cases h
    cases hsub

lemma slot_of_decodeSlot (h : (m.decodeSlot ops de).2 = some v) :
    ∃ s, m.slot? de = some s ∧ slotValue ops (m.fieldDef de) m.src s = some v :=
  bind_eq_some_iff.mp ((decodeSlot_snd ops m de).symm.trans h)

lemma decodeSlot_decoded (hs : m.slot? de = some s) (hp : s.present = true)
    (hd : s.decoded = true) :
    m.decodeSlot ops de = (m, some s.v) := by
  simp [decodeSlot, hs, hp, hd]

lemma get_eq_decodeSlot (m : Message K) (de : ℤ) : m.get ops de = m.decodeSlot ops de := by
  unfold get
  split
  · rename_i hs
    unfold decodeSlot
    rw [hs]
  · rfl

/-! ## One step down -/

def freshChild (d : FieldDef K) : Message K :=
  match d.sub with
  | some sub => if sub.isTLV then Message.newTLV (some sub) else Message.new sub
  | none => Message.newTLV none

structure Descends (ops : Ops K) (m : Message K) (de : ℤ) (d : FieldDef K) (m₁ child : Message K) :
    Prop where
  slot : ∃ s, m₁.slot? de = some s ∧ s.present = true ∧ s.decoded = true ∧ s.dirty = true ∧
    s.fromSrc = false ∧ s.v.kind = .composite ∧ s.v.sub = some child
  other : ∀ de', de' ≠ de → m₁.slot? de' = m.slot? de'
  schema : m₁.schema = m.schema
  src : m₁.src = m.src
  sealed : m₁.sealed = m.sealed
  owned : m₁.owned = true
  /-- The child is the one that `Get` finds, or a new one. -/
  found : (m.get ops de).2.bind Value.composite = some child ∨
    (m.get ops de).2.bind Value.composite = none ∧ child = freshChild d

variable {sub : Message K}

lemma composite_eq_some :
    v.composite = some sub ↔ v.kind = .composite ∧ v.sub = some sub := by
  unfold Value.composite
  split_ifs with h <;> simp [h]

lemma ite_decodeSlot (hs : m.slot? de = some s) :
    (if s.present = true then m.decodeSlot ops de else (m, none)) = m.decodeSlot ops de := by
  split_ifs with hp
  · rfl
  · simp [decodeSlot, hs, hp]

lemma ensureChild_found (hs : m.slot? de = some s)
    (hv : (m.decodeSlot ops de).2 = some v) (hc : v.composite = some child) (d : FieldDef K) :
    m.ensureChild ops de d = ({ m.setSlot de
      { s with v := v, decoded := true, dirty := true, fromSrc := false } with owned := true },
      .ok child) := by
  unfold ensureChild
  rw [hs]
  dsimp only
  rw [ite_decodeSlot hs]
  rcases decodeSlot_cases ops m de with hg | ⟨s', w, hs', hp, hg⟩
  · rw [hg] at hv
    cases hv
  rw [hs] at hs'
  cases hs'
  rw [hg] at hv
  cases hv
  simp only [hg, bind_some, hc, slot?_setSlot_of_some hs, if_pos, setSlot_setSlot]

lemma ensureChild_create (hs : m.slot? de = some s)
    (hnone : (m.decodeSlot ops de).2.bind Value.composite = none) (d : FieldDef K) :
    m.ensureChild ops de d = ((m.setSlot de
      (s.edit (Value.ofComposite [] (some (freshChild d))))).touch de, .ok (freshChild d)) := by
  unfold ensureChild
  rw [hs]
  dsimp only
  rw [ite_decodeSlot hs, hnone]
  rcases decodeSlot_cases ops m de with hg | ⟨s', w, hs', hp, hg⟩
  · rw [hg, hs]
    rfl
  rw [hs] at hs'
  cases hs'
  simp only [hg, slot?_setSlot_of_some hs, if_pos, setSlot_setSlot]
  rfl

lemma ensureChild_none (hs : m.slot? de = none) (d : FieldDef K) : m.ensureChild ops de d =
    (m, .error (.field (.de de) (-1) "" (.cause .unknownDE))) := by
  unfold ensureChild
  rw [hs]

lemma ensureChild_ok (h : m.ensureChild ops de d = (m₁, .ok child)) :
    Descends ops m de d m₁ child := by
  rcases hs : m.slot? de with _ | s
  · rw [ensureChild_none hs] at h
    cases h
  rcases hc : (m.decodeSlot ops de).2.bind Value.composite with _ | c
  · rw [ensureChild_create hs hc] at h
    cases h
    refine ⟨⟨s.edit (Value.ofComposite [] (some (freshChild d))), ?_, rfl, rfl, rfl, rfl, rfl, rfl⟩,
      fun de' hne => ?_, rfl, rfl, rfl, rfl, Or.inr ⟨by rw [get_eq_decodeSlot, hc], rfl⟩⟩
    · rw [touch_slot?, slot?_setSlot_self hs]
    · rw [touch_slot?, slot?_setSlot_of_some hs, if_neg hne]
  obtain ⟨v, hv, hvc⟩ := bind_eq_some_iff.mp hc
  obtain ⟨s', hs', hval⟩ := slot_of_decodeSlot hv
  rw [hs] at hs'
  cases hs'
  rw [ensureChild_found hs hv hvc] at h
  cases h
  obtain ⟨hkind, hsub⟩ := composite_eq_some.mp hvc
  refine ⟨⟨{ s with v := v, decoded := true, dirty := true, fromSrc := false }, ?_,
    (slotValue_some hval).1, rfl, rfl, rfl, hkind, hsub⟩, fun de' hne => ?_, rfl, rfl, rfl, rfl,
    Or.inl (by rw [get_eq_decodeSlot, hc])⟩
  · exact slot?_setSlot_self hs _
  · exact (slot?_setSlot_of_some hs _ de').trans (if_neg hne)

lemma ensureChild_error {e : Err} (h : m.ensureChild ops de d = (m₁, .error e)) :
    m₁ = m ∧ m.slot? de = none := by
  rcases hs : m.slot? de with _ | s
  · rw [ensureChild_none hs] at h
    cases h
    exact ⟨rfl, rfl⟩
  rcases hc : (m.decodeSlot ops de).2.bind Value.composite with _ | c
  · rw [ensureChild_create hs hc] at h
    cases h
  obtain ⟨v, hv, hvc⟩ := bind_eq_some_iff.mp hc
  rw [ensureChild_found hs hv hvc] at h
  cases h

lemma putChild_eq (hs : m.slot? de = some s) (child : Message K) :
    m.putChild de child = m.setSlot de { s with v := { s.v with sub := some child } } := by
  unfold putChild
  rw [hs]

/-! ## Reading along a path -/

variable {head : PathElem} {rest : List PathElem}

def getHead (ops : Ops K) (m : Message K) (head : PathElem) : Option (Value K) :=
  if m.isTLV then m.getTag (tagKey head)
  else if head.isTag then none
  else (m.get ops head.n.toInt).2

lemma getHead_tlv (ht : m.isTLV = true) (head : PathElem) :
    m.getHead ops head = m.getTag (tagKey head) := if_pos ht

lemma getHead_positional (ht : m.isTLV = false) (hh : head.isTag = false) :
    m.getHead ops head = (m.decodeSlot ops head.n.toInt).2 := by
  unfold getHead
  rw [if_neg (by rw [ht]; simp), if_neg (by rw [hh]; simp), get_eq_decodeSlot]

lemma getHead_decoded (ht : m.isTLV = false) (hh : head.isTag = false)
    (hs : m.slot? head.n.toInt = some s) (hp : s.present = true) (hd : s.decoded = true) :
    m.getHead ops head = some s.v := by
  rw [getHead_positional ht hh, decodeSlot_decoded hs hp hd]

lemma getElems_cons (m : Message K) (head : PathElem) (rest : List PathElem) :
    (m.getElems ops (head :: rest)).2 = (m.getHead ops head).bind fun v =>
      if rest = [] then some v else v.composite.bind fun sub => (sub.getElems ops rest).2 := by
  conv_lhs => unfold getElems
  unfold getHead
  by_cases ht : m.isTLV = true
  · rw [if_pos ht, if_pos ht]
    rcases m.getTag (tagKey head) with _ | v
    · rfl
    dsimp only [bind_some]
    split_ifs
    · rfl
    · cases v.composite <;> rfl
  rw [if_neg ht, if_neg ht]
  by_cases hh : head.isTag = true
  · rw [if_pos hh, if_pos hh]
    rfl
  rw [if_neg hh, if_neg hh]
  rcases hg : (m.get ops head.n.toInt).2 with _ | v
  · simp [hg]
  dsimp only [bind_some]
  rw [hg]
  dsimp only
  split_ifs
  · rfl
  · cases v.composite <;> rfl

inductive Visits (ops : Ops K) (m : Message K) (head : PathElem) (rest : List PathElem) :
    Message K → Prop
  | same : Visits ops m head rest m
  | slot : Visits ops m head rest (m.decodeSlot ops head.n.toInt).1
  | tagChild {v : Value K} {sub : Message K} (hv : m.getTag (tagKey head) = some v)
      (hc : v.composite = some sub) :
      Visits ops m head rest (m.putTagChild (tagKey head) (sub.getElems ops rest).1)
  | child {v : Value K} {sub : Message K} (hv : (m.decodeSlot ops head.n.toInt).2 = some v)
      (hc : v.composite = some sub) : Visits ops m head rest
        ((m.decodeSlot ops head.n.toInt).1.putChild head.n.toInt (sub.getElems ops rest).1)

lemma getElems_visits (ops : Ops K) (m : Message K) (head : PathElem) (rest : List PathElem) :
    Visits ops m head rest (m.getElems ops (head :: rest)).1 := by
  unfold getElems
  rw [get_eq_decodeSlot]
  dsimp only
  split
  · split
    · exact .same
    rename_i hv
    repeat' split
    all_goals first | exact .same | exact .tagChild hv ‹_›
  split
  · exact .same
  split
  · exact .slot
  rename_i hv
  repeat' split
  all_goals first | exact .slot | exact .child hv ‹_›

lemma hasP_fst (ops : Ops K) (m : Message K) (p : FieldPath) :
    (m.hasP ops p).1 = m ∨ (m.hasP ops p).1 = (m.getP ops p).1 := by
  unfold hasP
  split
  · split_ifs
    · exact Or.inr rfl
    · exact Or.inl rfl
  · exact Or.inr rfl

@[simp] lemma getElems_singleton (m : Message K) (head : PathElem) :
    (m.getElems ops [head]).2 = m.getHead ops head := by
  rw [getElems_cons]
  cases m.getHead ops head <;> rfl

lemma getElems_below (m : Message K) (head : PathElem) (hrest : rest ≠ []) :
    (m.getElems ops (head :: rest)).2 =
      ((m.getHead ops head).bind Value.composite).bind fun sub => (sub.getElems ops rest).2 := by
  rw [getElems_cons]
  rcases m.getHead ops head with _ | v
  · rfl
  exact if_neg hrest

lemma get_of_absent (h : ∀ s ∈ m.slots, s.present = false) (de : ℤ) : (m.get ops de).2 = none := by
  rw [get_eq_decodeSlot]
  rcases decodeSlot_cases ops m de with hg | ⟨s, v, hs, hp, -⟩
  · rw [hg]
  obtain ⟨n, rfl⟩ := nat_of_slot? hs
  rw [slot?_natCast] at hs
  rw [h s (mem_of_getElem? hs)] at hp
  cases hp

lemma getElems_freshChild (d : FieldDef K) (path : List PathElem) :
    ((freshChild d).getElems ops path).2 = none := by
  rcases path with _ | ⟨head, rest⟩
  · rfl
  rw [getElems_cons]
  have hhead : (freshChild d).getHead ops head = none := by
    unfold getHead freshChild
    split
    · split_ifs
      · rfl
      · rfl
      · exact get_of_absent (fun _ hs => absurd hs not_mem_nil) _
      · rfl
      · rfl
      · exact get_of_absent (fun s hs => by rw [eq_of_mem_replicate hs]; rfl) _
    · split_ifs
      · rfl
      · rfl
      · exact get_of_absent (fun _ hs => absurd hs not_mem_nil) _
  rw [hhead]
  rfl

/-! ## Writing along a path -/

def stamp (d : Option (FieldDef K)) (v : Value K) : Value K :=
  match d with
  | some d => { v with codec := d.codec }
  | none => v

def tagDef (m : Message K) (head : PathElem) : Option (FieldDef K) :=
  m.schema.bind (·.lookupTag (toUpper (tagKey head)))

inductive Writes (ops : Ops K) (arg : Arg K) :
    List PathElem → FieldPath → Message K → Message K → Prop
  | tag {m head full val} (hsealed : m.sealed = false) (ht : m.isTLV = true)
      (hval : makeValue (m.tagDef head) arg = .ok val) :
      Writes ops arg [head] full m
        { m.putTag (tagKey head) (stamp (m.tagDef head) val) with owned := true }
  | leaf {m m' head full} (ht : m.isTLV = false) (hh : head.isTag = false)
      (hset : m.set head.n.toInt arg = .ok m') : Writes ops arg [head] full m m'
  | descend {m m₁ child child' head rest full d} (hsealed : m.sealed = false)
      (ht : m.isTLV = false) (hh : head.isTag = false) (hrest : rest ≠ [])
      (hd : m.fieldDef head.n.toInt = some d) (hsub : d.sub ≠ none)
      (hchild : m.ensureChild ops head.n.toInt d = (m₁, .ok child))
      (hrec : child.setElems ops arg rest (FieldPath.tail full) = (child', .ok ())) :
      Writes ops arg (head :: rest) full m (m₁.putChild head.n.toInt child')

/-- What `SetP` does at the head of a path. -/
inductive Attempts (ops : Ops K) (arg : Arg K) (m : Message K) (head : PathElem)
    (rest : List PathElem) (full : FieldPath) : Message K × Except Err Unit → Prop
  | stop (e : Err) : Attempts ops arg m head rest full (m, .error e)
  | tag {val} (hrest : rest = []) (hsealed : m.sealed = false) (ht : m.isTLV = true)
      (hval : makeValue (m.tagDef head) arg = .ok val) : Attempts ops arg m head rest full
        ({ m.putTag (tagKey head) (stamp (m.tagDef head) val) with owned := true }, .ok ())
  | leaf {m' : Message K} (hrest : rest = []) (hsealed : m.sealed = false) (ht : m.isTLV = false)
      (hh : head.isTag = false) (hset : m.set head.n.toInt arg = .ok m') :
      Attempts ops arg m head rest full (m', .ok ())
  | descend {m₁ child child' : Message K} {d : FieldDef K} {res : Except Err Unit}
      (hsealed : m.sealed = false) (ht : m.isTLV = false) (hh : head.isTag = false)
      (hrest : rest ≠ []) (hd : m.fieldDef head.n.toInt = some d) (hsub : d.sub ≠ none)
      (hchild : m.ensureChild ops head.n.toInt d = (m₁, .ok child))
      (hrec : child.setElems ops arg rest full.tail = (child', res)) :
      Attempts ops arg m head rest full (m₁.putChild head.n.toInt child', res)

lemma setElems_attempts (ops : Ops K) (arg : Arg K) (m : Message K) (head : PathElem)
    (rest : List PathElem) (full : FieldPath) :
    Attempts ops arg m head rest full (m.setElems ops arg (head :: rest) full) := by
  unfold setElems
  split_ifs with hsealed ht hrest hh hrest
  · exact .stop _
  · exact .stop _
  · dsimp only
    split
    · exact .stop _
    · rename_i val hval
      exact .tag (not_not.mp hrest) (by simpa using hsealed) ht hval
  · exact .stop _
  · dsimp only
    split
    · exact .stop _
    · rename_i m' hset
      exact .leaf hrest (by simpa using hsealed) (by simpa using ht) (by simpa using hh) hset
  dsimp only
  split
  · exact .stop _
  rename_i d hd
  split_ifs with hsub
  · exact .stop _
  split
  · rename_i hens
    rw [(ensureChild_error hens).1]
    exact .stop _
  rename_i hens
  exact .descend (by simpa using hsealed) (by simpa using ht) (by simpa using hh) hrest hd
    (by simpa using hsub) hens rfl

variable {path : List PathElem} {full : FieldPath}

lemma writes_of_setElems
    (h : m.setElems ops arg path full = (m', .ok ())) : Writes ops arg path full m m' := by
  rcases path with _ | ⟨head, rest⟩
  · unfold setElems at h
    split_ifs at h <;> cases h
  have hatt := setElems_attempts ops arg m head rest full
  rw [h] at hatt
  cases hatt with
  | tag hrest hsealed ht hval =>
    subst hrest
    exact .tag hsealed ht hval
  | leaf hrest _ ht hh hset =>
    subst hrest
    exact .leaf ht hh hset
  | descend hsealed ht hh hrest hd hsub hchild hrec =>
    exact .descend hsealed ht hh hrest hd hsub hchild hrec

/-! ## What was written is read -/

/-- The definition at the end of a path, found along the composite values of a message. -/
def defAt (ops : Ops K) (m : Message K) : List PathElem → Option (FieldDef K)
  | [] => none
  | head :: rest =>
    if rest = [] then
      if m.isTLV then m.tagDef head else m.fieldDef head.n.toInt
    else
      match (m.getHead ops head).bind Value.composite with
      | none => none
      | some sub => defAt ops sub rest

lemma defAt_below (hsub : (m.getHead ops head).bind Value.composite = some sub)
    (hrest : rest ≠ []) : m.defAt ops (head :: rest) = sub.defAt ops rest := by
  conv_lhs => unfold defAt
  rw [if_neg hrest, hsub]

lemma getTag_putTag (m : Message K) (tag tag' : Bytes) (v : Value K) :
    (m.putTag tag v).getTag tag' =
      if toUpper tag' = toUpper tag then some v else m.getTag tag' := by
  unfold getTag putTag
  dsimp only
  rw [lookup_mapSet]
  split_ifs with h
  · rfl
  · cases m.tags with
    | none | some tags => rfl

lemma Descends.getHead_putChild (hd : Descends ops m head.n.toInt d m₁ child)
    (ht : m.isTLV = false) (hh : head.isTag = false) (child' : Message K) :
    ∃ v, (m₁.putChild head.n.toInt child').getHead ops head = some v ∧
      v.composite = some child' := by
  obtain ⟨s, hs, hp, hdec, -, -, hkind, -⟩ := hd.slot
  rw [putChild_eq hs]
  refine ⟨{ s.v with sub := some child' }, ?_, composite_eq_some.mpr ⟨hkind, rfl⟩⟩
  refine getHead_decoded (s := { s with v := { s.v with sub := some child' } }) ?_ hh
    (slot?_setSlot_self hs _) hp hdec
  rw [← ht]
  exact congrArg (fun x => (Option.map (·.isTLV) x).getD false) hd.schema

lemma getHead_set (ops : Ops K) (ht : m.isTLV = false) (hh : head.isTag = false)
    (h : m.set head.n.toInt arg = .ok m') : ∃ d v, m'.fieldDef head.n.toInt = some d ∧
    m'.isTLV = false ∧
      makeValue (some d) arg = .ok v ∧ m'.getHead ops head = some (stamp (some d) v) := by
  obtain ⟨d, v, s, -, hd, hv, hs, rfl⟩ := set_ok h
  exact ⟨d, v, hd, ht, hv, getHead_decoded (s := s.edit { v with codec := d.codec }) ht hh
    (slot?_setSlot_self hs _) rfl rfl⟩

lemma getHead_putTag (ht : m.isTLV = true) (head head' : PathElem) :
    getHead ops { m.putTag (tagKey head) v with owned := true } head' =
      if toUpper (tagKey head') = toUpper (tagKey head) then some v else m.getHead ops head' := by
  rw [getHead_tlv ht, getHead_tlv (m := { m.putTag (tagKey head) v with owned := true }) ht]
  exact getTag_putTag m _ _ v

/-- What was written is read back. By induction on the path. -/
theorem getElems_setElems :
    ∀ {m m' : Message K} {full : FieldPath}, m.setElems ops arg path full = (m', .ok ()) →
      ∃ val, makeValue (m'.defAt ops path) arg = .ok val ∧
        (m'.getElems ops path).2 = some (stamp (m'.defAt ops path) val) := by
  induction path with
  | nil =>
    intro m m' full h
    cases writes_of_setElems h
  | cons head rest ih =>
    intro m m' full h
    cases writes_of_setElems h with
    | tag hsealed ht hval =>
      rename_i val
      have hdef : defAt ops
          { m.putTag (tagKey head) (stamp (m.tagDef head) val) with owned := true } [head] =
            m.tagDef head := (if_pos rfl).trans (if_pos ht)
      rw [hdef, getElems_singleton, getHead_putTag ht, if_pos rfl]
      exact ⟨val, hval, rfl⟩
    | leaf ht hh hset =>
      obtain ⟨d, v, hd, ht', hv, hget⟩ := getHead_set ops ht hh hset
      have hdef : m'.defAt ops [head] = some d := by
        unfold defAt
        rw [if_pos rfl, if_neg (by rw [ht']; simp), hd]
      rw [hdef, getElems_singleton, hget]
      exact ⟨v, hv, rfl⟩
    | descend hsealed ht hh hrest hd hsub hchild hrec =>
      rename_i m₁ child child' d
      obtain ⟨v, hv, hcomp⟩ := (ensureChild_ok hchild).getHead_putChild ht hh child'
      obtain ⟨val, hval, hget⟩ := ih hrec
      have hdef := defAt_below (by rw [hv, bind_some, hcomp]) hrest
      refine ⟨val, by rw [hdef]; exact hval, ?_⟩
      rw [hdef, getElems_below _ _ hrest, hv, bind_some, hcomp]
      exact hget

/-! ## What was not written is kept -/

def Branch (p q : List PathElem) : Prop := ¬ p <+: q ∧ ¬ q <+: p

lemma branch_cons {a b : PathElem} {p q : List PathElem} (h : Branch (a :: p) (b :: q)) :
    a ≠ b ∨ a = b ∧ Branch p q := by
  by_cases hab : a = b
  · subst hab
    refine Or.inr ⟨rfl, fun hc => h.1 ?_, fun hc => h.2 ?_⟩
    · exact cons_prefix_cons.mpr ⟨rfl, hc⟩
    · exact cons_prefix_cons.mpr ⟨rfl, hc⟩
  · exact Or.inl hab

lemma getElems_congr_head (h : m'.getHead ops head = m.getHead ops head) :
    (m'.getElems ops (head :: rest)).2 = (m.getElems ops (head :: rest)).2 := by
  rw [getElems_cons, getElems_cons, h]

lemma getHead_congr_slot (hschema : m'.schema = m.schema) (hsrc : m'.src = m.src)
    (ht : m.isTLV = false)
    (hslot : head.isTag = false → m'.slot? head.n.toInt = m.slot? head.n.toInt) :
    m'.getHead ops head = m.getHead ops head := by
  have ht' : m'.isTLV = false := by
    rw [← ht]
    exact congrArg (fun x => (Option.map (·.isTLV) x).getD false) hschema
  by_cases hh : head.isTag = true
  · unfold getHead
    simp only [ht, ht', hh, Bool.false_eq_true, if_false, if_true]
  replace hh := Bool.eq_false_of_not_eq_true hh
  have hdef : m'.fieldDef head.n.toInt = m.fieldDef head.n.toInt :=
    congrArg (fun x => Option.bind x (SchemaOf.field · head.n.toInt)) hschema
  rw [getHead_positional ht' hh, getHead_positional ht hh, decodeSlot_snd, decodeSlot_snd,
    hslot hh, hdef, hsrc]

/-- No other path is affected. A child that is created in place of an unreadable one has
nothing at the other path, as before. -/
theorem getElems_setElems_other (hcan : ∀ e ∈ path, e.Canonical) :
    ∀ {m m' : Message K} {full : FieldPath}, m.setElems ops arg path full = (m', .ok ()) →
      ∀ other, (∀ e ∈ other, e.Canonical) → Branch path other →
        (m'.getElems ops other).2 = (m.getElems ops other).2 := by
  induction path with
  | nil =>
    intro m m' full h
    cases writes_of_setElems h
  | cons head rest ih =>
    intro m m' full h other hother hbr
    rcases other with _ | ⟨head', rest'⟩
    · exact absurd nil_prefix hbr.2
    rw [forall_mem_cons] at hcan hother
    have hne : rest = [] → head ≠ head' := by
      rintro rfl rfl
      exact hbr.1 (cons_prefix_cons.mpr ⟨rfl, nil_prefix⟩)
    -- a slot that was not written, at a head that differs
    have hslot : head.isTag = false → head ≠ head' → head'.isTag = false →
        head'.n.toInt ≠ head.n.toInt :=
      fun hh hd hh' hc => hd (PathElem.eq_of_n hh hh' hc.symm)
    cases writes_of_setElems h with
    | tag hsealed ht hval =>
      apply getElems_congr_head
      rw [getHead_putTag ht, if_neg]
      exact fun hkey => hne rfl (tagKey_inj hcan.1 hother.1 hkey.symm)
    | leaf ht hh hset =>
      obtain ⟨d, v, s, -, -, -, hs, rfl⟩ := set_ok hset
      apply getElems_congr_head
      refine getHead_congr_slot rfl rfl ht fun hh' => ?_
      rw [touch_slot?, slot?_setSlot_of_some hs, if_neg (hslot hh (hne rfl) hh')]
    | descend hsealed ht hh hrest hd hsub hchild hrec =>
      rename_i m₁ child child' d
      have hdesc := ensureChild_ok hchild
      rcases branch_cons hbr with hd' | ⟨rfl, hbr'⟩
      · obtain ⟨s, hs, -⟩ := hdesc.slot
        apply getElems_congr_head
        rw [putChild_eq hs]
        refine getHead_congr_slot hdesc.schema hdesc.src ht fun hh' => ?_
        rw [slot?_setSlot_of_some hs, if_neg (hslot hh hd' hh'),
          hdesc.other _ (hslot hh hd' hh')]
      have hrest' : rest' ≠ [] := by
        rintro rfl
        exact hbr'.2 nil_prefix
      obtain ⟨v, hv, hcomp⟩ := hdesc.getHead_putChild ht hh child'
      rw [getElems_below _ _ hrest', getElems_below _ _ hrest', hv, bind_some, hcomp,
        bind_some, ih hcan.2 hrec rest' hother.2 hbr', getHead_positional ht hh,
        ← get_eq_decodeSlot]
      rcases hdesc.found with hfound | ⟨hnone, rfl⟩
      · rw [hfound, bind_some]
      · rw [hnone, getElems_freshChild]
        rfl

/-! ## Writing twice -/

variable {α β : Type}

lemma mapSet_mapSet [DecidableEq α] (k : α) (u v : β) (l : List (α × β)) :
    mapSet k v (mapSet k u l) = mapSet k v l := by
  induction l with
  | nil => simp [mapSet]
  | cons p l ih =>
    by_cases hk : p.1 = k
    · simp [mapSet, hk]
    · simp [mapSet, hk, ih]

lemma mapSet_self [DecidableEq α] [BEq α] [LawfulBEq α] {k : α} {x : β} :
    ∀ {l : List (α × β)}, l.lookup k = some x → mapSet k x l = l
  | [], hl => nomatch hl
  | (k', y) :: l, hl => by
    unfold mapSet
    by_cases hk : k' = k
    · subst hk
      rw [lookup_cons_self] at hl
      cases hl
      rw [if_pos rfl]
    have hb : (k == k') = false := by
      rw [beq_eq_false_iff_ne]
      exact fun hc => hk hc.symm
    rw [lookup_cons, hb] at hl
    rw [if_neg hk, mapSet_self hl]

lemma putTag_putTag (m : Message K) (tag : Bytes) (u v : Value K) :
    (m.putTag tag u).putTag tag v = m.putTag tag v := by
  have hmem : (List.lookup (toUpper tag)
      (mapSet (toUpper tag) (⟨u, true⟩ : TagSlot K) (m.tags.getD []))).isSome = true := by
    rw [lookup_mapSet, if_pos rfl]
    rfl
  simp [putTag, getD_some, mapSet_mapSet, hmem]

lemma set_set_bitmap (b : Bitmap) (de : ℤ) : (b.set de).set de = b.set de := by
  unfold Bitmap.set
  split_ifs
  · rfl
  obtain ⟨w, mask⟩ := Bitmap.wordBit de.toNat
  match w with
  | 0 => simp [Bitmap.setWord, Bitmap.word, BitVec.or_assoc]
  | 1 => simp [Bitmap.setWord, Bitmap.word, BitVec.or_assoc]
  | _ + 2 => simp [Bitmap.setWord, Bitmap.word, BitVec.or_assoc]

lemma touch_setSlot_touch (m : Message K) (de : ℤ) (a b : Slot K) :
    (((m.setSlot de a).touch de).setSlot de b).touch de = (m.setSlot de b).touch de := by
  unfold touch setSlot
  rw [set_set]
  split_ifs
  · rw [set_set_bitmap, set_set_bitmap]
  · rfl

variable {u : Arg K}

lemma set_set {v : Arg K} {m'' : Message K} (hu : m.set de u = .ok m'') (hv : m.set de v = .ok m') :
    m''.set de v = .ok m' := by
  obtain ⟨d, x, s, hsealed, hd, -, hs, rfl⟩ := set_ok hu
  obtain ⟨d', y, s', -, hd', hy, hs', rfl⟩ := set_ok hv
  rw [hd] at hd'
  cases hd'
  rw [hs] at hs'
  cases hs'
  have hslot := slot?_setSlot_self hs (s.edit { x with codec := d.codec })
  rw [set_eq (m := (m.setSlot de (s.edit { x with codec := d.codec })).touch de) hsealed hd hy
    hslot,
    touch_setSlot_touch]
  rfl

lemma putChild_putChild (hs : m.slot? de = some s) (a b : Message K) :
    (m.putChild de a).putChild de b = m.putChild de b := by
  rw [putChild_eq hs, putChild_eq hs, putChild_eq (slot?_setSlot_self hs _),
    setSlot_setSlot]

lemma owned_self (h : m.owned = true) : { m with owned := true } = m := by
  cases m
  cases h
  rfl

lemma ensureChild_inPlace (hs : m.slot? de = some s) (hp : s.present = true)
    (hdec : s.decoded = true)
    (hdirty : s.dirty = true) (hsrc : s.fromSrc = false) (hcomp : s.v.composite = some child)
    (ho : m.owned = true) (d : FieldDef K) : m.ensureChild ops de d = (m, .ok child) := by
  have hflags : ({ s with decoded := true, dirty := true, fromSrc := false } : Slot K) = s := by
    cases s
    cases hdec
    cases hdirty
    cases hsrc
    rfl
  rw [ensureChild_found hs (by rw [decodeSlot_decoded hs hp hdec]) hcomp, hflags, setSlot_self hs,
    owned_self ho]

lemma Descends.again (hd : Descends ops m de d m₁ child) (child' : Message K) (d' : FieldDef K) :
    (m₁.putChild de child').ensureChild ops de d' = (m₁.putChild de child', .ok child') := by
  obtain ⟨s, hs, hp, hdec, hdirty, hsrc, hkind, -⟩ := hd.slot
  rw [putChild_eq hs]
  exact ensureChild_inPlace (s := { s with v := { s.v with sub := some child' } })
    (slot?_setSlot_self hs _) hp hdec hdirty hsrc
    (composite_eq_some.mpr ⟨hkind, rfl⟩) hd.owned d'

lemma setElems_tag (hsealed : m.sealed = false) (ht : m.isTLV = true) :
    m.setElems ops arg [head] full =
      match makeValue (m.tagDef head) arg with
      | .error e => (m, .error e)
      | .ok val => ({ m.putTag (tagKey head) (stamp (m.tagDef head) val) with owned := true },
          .ok ()) := by
  unfold setElems
  rw [if_neg (by rw [hsealed]; simp), if_pos ht]
  rfl

lemma setElems_leaf (hsealed : m.sealed = false) (ht : m.isTLV = false)
    (hh : head.isTag = false) : m.setElems ops arg [head] full =
      match m.set head.n.toInt arg with
      | .error e => (m, .error e)
      | .ok m' => (m', .ok ()) := by
  unfold setElems
  rw [if_neg (by rw [hsealed]; simp), if_neg (by rw [ht]; simp), if_neg (by rw [hh]; simp)]
  rfl

lemma setElems_descend (hsealed : m.sealed = false) (ht : m.isTLV = false)
    (hh : head.isTag = false) (hrest : rest ≠ []) (hd : m.fieldDef head.n.toInt = some d)
    (hsub : d.sub ≠ none) (hchild : m.ensureChild ops head.n.toInt d = (m₁, .ok child)) :
    m.setElems ops arg (head :: rest) full =
      (m₁.putChild head.n.toInt (child.setElems ops arg rest full.tail).1,
        (child.setElems ops arg rest full.tail).2) := by
  conv_lhs => unfold setElems
  rw [if_neg (by rw [hsealed]; simp), if_neg (by rw [ht]; simp), if_neg (by rw [hh]; simp)]
  rw [if_neg hrest, hd]
  dsimp only
  rw [if_neg (by simpa using hsub), hchild]

lemma setElems_setElems {v : Arg K} :
    ∀ {m m' : Message K} {full : FieldPath}, m.setElems ops v path full = (m', .ok ()) →
      (m.setElems ops u path full).1.setElems ops v path full = (m', .ok ()) := by
  induction path with
  | nil =>
    intro m m' full h
    cases writes_of_setElems h
  | cons head rest ih =>
    intro m m' full h
    cases writes_of_setElems h with
    | tag hsealed ht hval =>
      rename_i val
      rw [setElems_tag hsealed ht]
      rcases makeValue (m.tagDef head) u with e | val'
      · exact h
      rw [setElems_tag (m := { m.putTag (tagKey head) (stamp (m.tagDef head) val') with
        owned := true }) hsealed ht]
      have hdef : tagDef { m.putTag (tagKey head) (stamp (m.tagDef head) val') with owned := true }
          head = m.tagDef head := rfl
      rw [hdef, hval]
      refine Prod.ext ?_ rfl
      have := putTag_putTag m (tagKey head) (stamp (m.tagDef head) val') (stamp (m.tagDef head) val)
      exact congrArg (fun x : Message K => { x with owned := true }) this
    | leaf ht hh hset =>
      obtain ⟨-, -, -, hsealed, -⟩ := set_ok hset
      rw [setElems_leaf hsealed ht hh]
      rcases hu : m.set head.n.toInt u with e | m''
      · exact h
      have hkept : m''.sealed = m.sealed ∧ m''.isTLV = m.isTLV := by
        obtain ⟨_, _, _, _, _, _, _, rfl⟩ := set_ok hu
        exact ⟨rfl, rfl⟩
      rw [setElems_leaf (hkept.1.trans hsealed) (hkept.2.trans ht) hh, set_set hu hset]
    | descend hsealed ht hh hrest hd hsub hchild hrec =>
      rename_i m₁ child child' d
      have hdesc := ensureChild_ok hchild
      obtain ⟨s, hs, -⟩ := hdesc.slot
      rw [setElems_descend hsealed ht hh hrest hd hsub hchild]
      generalize hu : (child.setElems ops u rest full.tail).1 = c
      have hput := putChild_eq hs c
      have hschema : (m₁.putChild head.n.toInt c).schema = m.schema := by
        rw [hput]
        exact hdesc.schema
      have hagain := hdesc.again c d
      have hrec' := ih hrec
      rw [hu] at hrec'
      rw [setElems_descend (m := m₁.putChild head.n.toInt c) (d := d) ?_ ?_ hh hrest ?_ hsub hagain,
        hrec', putChild_putChild hs]
      · rw [hput]
        exact hdesc.sealed.trans hsealed
      · rw [← ht]
        exact congrArg (fun x => (Option.map (·.isTLV) x).getD false) hschema
      · rw [← hd]
        exact congrArg (fun x => Option.bind x (SchemaOf.field · head.n.toInt)) hschema

end MessageOf

end Isopace.Iso8583
