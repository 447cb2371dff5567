import Isopace.Render.XmlioValues

/-!
# Messages through XML

What `Unmarshal` does at an `isomsg` element is a sequence of writes below one path, the `field`
elements first.
-/

namespace Isopace.Render.Xmlio

open Lib Iso8583 FieldCodec MessageOf List

section Paths

variable {K : Codecs} {ops : Ops K} {s sub : Schema K} {base : Bytes} {es : List PathElem}

/-! ## Paths and their texts -/

variable {segs : List Bytes} {sub' : Schema K} {ts : List (Bytes × Value K)} {f : XmlField}
  {P : Schema K → Message K → Prop}

lemma intercalate_concat (sep : Bytes) (id : Bytes) (h : segs ≠ []) :
    sep.intercalate (segs ++ [id]) = sep.intercalate segs ++ sep ++ id := by
  induction segs with
  | nil => exact absurd rfl h
  | cons seg segs ih =>
    rcases segs with _ | ⟨seg', segs⟩
    · simp [intercalate]
    have hrest := ih (cons_ne_nil _ _)
    rw [cons_append] at hrest
    rw [cons_append, cons_append, intercalate_cons_cons, hrest,
      intercalate_cons_cons]
    simp only [append_assoc]

/-- The text of a path from the root, and the schema it leads to. -/
structure At (s sub : Schema K) (base : Bytes) (es : List PathElem) : Prop where
  segs : ∃ segs, Forall₂ (fun seg e => parseElem seg = .ok e) segs es ∧
    base = [0x2E].intercalate segs
  lookup : ∀ e rest, s.lookup (es ++ e :: rest) = sub.lookup (e :: rest)

lemma At.root (s : Schema K) : At s s [] [] := ⟨⟨[], .nil, rfl⟩, fun _ _ => rfl⟩

lemma join_eq (h : Forall₂ (fun seg e => parseElem seg = .ok e) segs es) (id : Bytes) :
    join ([0x2E].intercalate segs) id = [0x2E].intercalate (segs ++ [id]) := by
  unfold join
  cases h with
  | nil => simp [intercalate]
  | @cons seg e segs es hseg hsegs =>
    have hne : [0x2E].intercalate (seg :: segs) ≠ [] := by
      rcases segs with _ | ⟨seg', segs⟩
      · exact fun hnil => parseElem_ne_nil hseg (by simpa using hnil)
      exact fun hnil => parseElem_ne_nil hseg (by simp_all [intercalate_cons_cons])
    rw [if_neg hne, intercalate_concat _ _ (cons_ne_nil _ _)]

variable {e : PathElem} {id : Bytes} {d : FieldDef K} {l : List (ℕ × Value K)}
    {nodes : List XmlNode}
  {m : Message K}

lemma At.parse (h : At s sub base es) (he : parseElem id = .ok e)
    (hdepth : es.length < maxPathDepth) :
    ∃ p : FieldPath, parsePath (join base id) = .ok p ∧ p.elems = es ++ [e] := by
  obtain ⟨segs, hsegs, rfl⟩ := h.segs
  have hlen : (es ++ [e]).length ≤ maxPathDepth := by
    rw [length_append, length_singleton]
    omega
  rw [join_eq hsegs]
  exact ⟨_, parsePath_intercalate (by simp) hlen (rel_append hsegs (.cons he .nil)), rfl⟩

lemma lookup_cons (s : Schema K) (e : PathElem) (rest : List PathElem) :
    s.lookup (e :: rest) = (s.lookupElem e).bind fun d =>
      if rest = [] then some d else d.sub.bind fun sub => sub.lookup rest := by
  rw [SchemaOf.lookup]
  rcases s.lookupElem e with _ | d
  · rfl
  dsimp only [Option.bind_some]
  split_ifs
  · rfl
  · cases d.sub <;> rfl

lemma lookup_singleton (s : Schema K) (e : PathElem) : s.lookup [e] = s.lookupElem e := by
  rw [lookup_cons]
  cases s.lookupElem e <;> rfl

lemma At.descend (h : At s sub base es) (he : parseElem id = .ok e) (hd : sub.lookupElem e = some d)
    (hsub : d.sub = some sub') : At s sub' (join base id) (es ++ [e]) := by
  refine ⟨?_, fun e' rest => ?_⟩
  · obtain ⟨segs, hsegs, rfl⟩ := h.segs
    exact ⟨segs ++ [id], rel_append hsegs (.cons he .nil), join_eq hsegs id⟩
  · rw [append_assoc, singleton_append, h.lookup, lookup_cons, hd, Option.bind_some,
      if_neg (cons_ne_nil _ _), hsub, Option.bind_some]

lemma At.kindAt_eq (h : At s sub base es) {p : FieldPath} (hp : parsePath (join base id) = .ok p)
    (hes : p.elems = es ++ [e]) : kindAt s (join base id) = defKind (sub.lookupElem e) := by
  unfold kindAt
  rw [hp]
  dsimp only
  rw [hes, h.lookup, lookup_singleton]
  rfl

lemma lookupElem_field (ht : sub.isTLV = false) (n : ℕ) (hn : n < 2 ^ 31) :
    sub.lookupElem ⟨Int32.ofInt n, []⟩ = sub.field n := by
  unfold SchemaOf.lookupElem
  rw [if_neg (by simp [ht, PathElem.isTag]), toInt_ofInt_natCast hn]

lemma keyOf_eq (h : e.Canonical) : keyOf e = tagKey e := by
  refine toUpper_of_upperHex fun c hc => ?_
  unfold tagKey at hc
  rcases h with ⟨h0, ht⟩ | ⟨-, ht, x, hx, -⟩
  · rw [if_neg (by simp [PathElem.isTag, ht])] at hc
    rw [show e.n.toInt = ((e.n.toInt.toNat : ℕ) : ℤ) by omega, formatInt_natCast] at hc
    exact Or.inl (formatNat_isDigit _ c hc)
  · rw [if_pos (by simpa [PathElem.isTag] using ne_nil_of_mem hx)] at hc
    exact ht c hc

lemma lookupElem_tag (ht : sub.isTLV = true) (h : e.Canonical) :
    sub.lookupElem e = sub.lookupTag (keyOf e) := by
  unfold SchemaOf.lookupElem
  rw [if_pos (Or.inl ht), keyOf_eq h]

/-! ## What stands in the document -/

def TagNode (p : Bytes × Value K) (node : XmlNode) : Prop :=
  ∃ f, node = .field f ∧ f.id = p.1 ∧ Written p.2 f

def ScalarNode (e : ℕ × Value K) (node : XmlNode) : Prop :=
  ∃ f, node = .field f ∧ f.id = itoa e.1 ∧ Written e.2 f

/-- The element of a data element, with at most `fuel` levels below it. -/
def Node (ops : Ops K) : ℕ → ℕ × Value K → XmlNode → Prop
  | 0, e, node => ScalarNode e node
  | fuel + 1, e, node => ScalarNode e node ∨ ∃ child nodes, e.2.composite = some child ∧
      node = .isomsg (itoa e.1) [] nodes ∧ ∀ sub, child.schema = some sub →
        (sub.isTLV = true → Forall₂ TagNode child.tagSeq nodes) ∧
        (sub.isTLV = false → Forall₂ (Node ops fuel) (child.fields ops).2 nodes)

lemma Node.of_scalar {e : ℕ × Value K} {node : XmlNode} (h : ScalarNode e node) (fuel : ℕ) :
    Node ops fuel e node := by
  cases fuel with
  | zero => exact h
  | succ fuel => exact Or.inl h

lemma writeTags_ok : ∀ {nodes : List XmlNode},
    writeTags sub .none ts = .ok nodes → Forall₂ TagNode ts nodes := by
  induction ts with
  | nil =>
    intro nodes h
    cases h
    exact .nil
  | cons p ts ih =>
    intro nodes h
    unfold writeTags at h
    split at h
    · cases h
    rename_i f hf
    split at h
    · cases h
    rename_i rest hr
    cases h
    obtain ⟨hid, hw⟩ := written_of_writeScalar hf
    exact .cons ⟨f, rfl, hid, hw⟩ (ih hr)

lemma writeFields_ok {write : ℕ → Value K → Except XmlErr XmlNode} :
    ∀ {nodes : List XmlNode}, writeFields write l = .ok nodes →
      Forall₂ (fun e node => write e.1 e.2 = .ok node) l nodes := by
  induction l with
  | nil =>
    intro nodes h
    cases h
    exact .nil
  | cons e l ih =>
    intro nodes h
    unfold writeFields at h
    split at h
    · cases h
    rename_i node hn
    split at h
    · cases h
    rename_i rest hr
    cases h
    exact .cons hn (ih hr)

lemma writeField_ok (fuel : ℕ) :
    ∀ {schema : Option (Schema K)} {de : ℕ} {v : Value K} {node : XmlNode},
    writeField ops .none fuel schema de v = .ok node → Node ops fuel (de, v) node := by
  induction fuel with
  | zero =>
    intro schema de v node h
    unfold writeField at h
    rcases hc : v.composite with _ | child
    · rw [hc] at h
      obtain ⟨f, hf, rfl⟩ := except_map_ok h
      obtain ⟨hid, hw⟩ := written_of_writeScalar hf
      exact ⟨f, rfl, hid, hw⟩
    rw [hc] at h
    cases h
  | succ fuel ih =>
    intro schema de v node h
    unfold writeField at h
    rcases hc : v.composite with _ | child
    · rw [hc] at h
      obtain ⟨f, hf, rfl⟩ := except_map_ok h
      obtain ⟨hid, hw⟩ := written_of_writeScalar hf
      exact Or.inl ⟨f, rfl, hid, hw⟩
    rw [hc] at h
    obtain ⟨nodes, hnodes, rfl⟩ := except_map_ok h
    refine Or.inr ⟨child, nodes, hc, rfl, fun sub hsub => ?_⟩
    rw [hsub] at hnodes
    dsimp only at hnodes
    refine ⟨fun ht => ?_, fun ht => ?_⟩
    · rw [if_pos ht] at hnodes
      exact writeTags_ok hnodes
    · rw [if_neg (by rw [ht]; exact Bool.false_ne_true)] at hnodes
      exact (writeFields_ok hnodes).imp fun e node hn => ih hn

/-! ## What the elements write -/

lemma applyFields_cons (hat : At s sub base es) (hdepth : es.length < maxPathDepth) {arg : Arg K}
    (he : parseElem f.id = .ok e) (harg : argFor f (defKind (sub.lookupElem e)) = .ok arg)
    {M M' : Message K} (hput : PutsAll ops M (under es [([e], arg)]) M') (fs : List XmlField) :
    applyFields ops s base (f :: fs) M = applyFields ops s base fs M' := by
  obtain ⟨p, hp, hes⟩ := hat.parse he hdepth
  obtain ⟨M₁, hput, heq⟩ := hput
  rw [show M' = M₁ from heq]
  have hset : M.setS ops (join base f.id) arg = (M₁, .ok ()) := by
    refine Puts.setS hp ?_
    rw [hes]
    exact hput
  conv_lhs => unfold applyFields
  rw [if_neg (parseElem_ne_nil he), hat.kindAt_eq hp hes, harg]
  dsimp only
  rw [hset]

lemma tags_apply (ops : Ops K) (hat : At s sub base es) (ht : sub.isTLV = true)
    (hdepth : es.length < maxPathDepth) (h : Forall₂ TagNode ts nodes)
    (hsafe : ∀ p ∈ ts, TagSafe p.1 ∧ ScalarFits (sub.lookupTag p.1) p.2) :
    ∃ (ws : List (PathElem × Arg K)) (puts : List (PathElem × Value K)),
      Forall₂ (fun w p => p.1 = w.1 ∧ ∃ val, makeValue (sub.lookupTag (keyOf w.1)) w.2 = .ok val ∧
        p.2 = stamp (sub.lookupTag (keyOf w.1)) val) ws puts ∧
      Forall₂ (fun p q => keyOf q.1 = p.1 ∧ ScalarBack (sub.lookupTag p.1) p.2 q.2) ts puts ∧
      (∀ M M' : Message K, PutsAll ops M (under es (ws.map fun w => ([w.1], w.2))) M' →
        applyFields ops s base (fieldElems nodes) M = .ok M') ∧
      ∀ M : Message K, applySubs ops s base nodes M = .ok M := by
  induction h with
  | nil => exact ⟨[], [], .nil, .nil, fun M M' h => by rw [show M' = M from h]; rfl, fun _ => rfl⟩
  | @cons p node ts nodes hp _ ih =>
    rw [forall_mem_cons] at hsafe
    obtain ⟨ws, puts, hws, hputs, hfields, hsubs⟩ := ih hsafe.2
    obtain ⟨f, rfl, hid, hw⟩ := hp
    obtain ⟨⟨e, he, hkey⟩, hfit⟩ := hsafe.1
    obtain ⟨arg, w, harg, hval, hback⟩ := hw.reads_back hfit
    have hdef : sub.lookupElem e = sub.lookupTag p.1 := by
      rw [lookupElem_tag ht (parseElem_canonical he), hkey]
    rw [← hid] at he
    refine ⟨(e, arg) :: ws, (e, stamp (sub.lookupTag p.1) w) :: puts, .cons ⟨rfl, w, ?_, ?_⟩ hws,
      .cons ⟨hkey, hback.stamp⟩ hputs, fun M M' hM => ?_, hsubs⟩
    · rw [hkey]
      exact hval
    · rw [hkey]
    rw [map_cons, ← singleton_append, under_append, PutsAll.append_iff] at hM
    obtain ⟨M₁, hfirst, hrest⟩ := hM
    show applyFields ops s base (f :: fieldElems nodes) M = .ok M'
    rw [applyFields_cons hat hdepth he (by rw [hdef]; exact harg) hfirst]
    exact hfields M₁ M' hrest

inductive Came (ops : Ops K) : FieldDef K → Value K → Value K → Prop
  | scalar {d : FieldDef K} {v w : Value K} (h : ScalarBack (some d) v w) : Came ops d v w
  | tlv {d : FieldDef K} {v : Value K} {sub : Schema K} {child child' : Message K}
      {l : List (Bytes × Value K)} (hc : v.composite = some child) (hsub : d.sub = some sub)
      (hopen : OpenTLV sub child') (hl : TagList child' l)
      (htags : Forall₂ (fun p q => q.1 = p.1 ∧ ScalarBack (sub.lookupTag p.1) p.2 q.2)
        child.tagSeq l) : Came ops d v (.ofComposite [] (some child'))
  | positional {d : FieldDef K} {v : Value K} {sub : Schema K} {child child' : Message K}
      (hc : v.composite = some child) (hsub : d.sub = some sub) (ht : sub.isTLV = false)
      (hre : Rebuilding sub child')
      (hstored : ∀ de, (child'.stored de).isSome = (child.get ops de).2.isSome)
      (hvalues : ∀ de d' v' w', sub.field de = some d' → (child.get ops de).2 = some v' →
        child'.stored de = some w' → Came ops d' v' w') :
      Came ops d v (.ofComposite [] (some child'))

structure LevelBack (ops : Ops K) (s : Schema K) (m m' : Message K) : Prop where
  rebuilding : Rebuilding s m'
  stored : ∀ de, (m'.stored de).isSome = (m.get ops de).2.isSome
  values : ∀ de d v w, s.field de = some d → (m.get ops de).2 = some v → m'.stored de = some w →
    Came ops d v w

/-- How the element of a data element comes back: `b` are its writes at this level. -/
structure Comes (ops : Ops K) (s sub : Schema K) (base : Bytes) (es : List PathElem)
    (e : ℕ × Value K)
    (node : XmlNode) (b : Store K) : Prop where
  de : b.de = e.1
  paths : b.writes ≠ [] ∧ ∀ w ∈ b.writes, w.1 ≠ []
  stores : Stores ops sub b.de b.writes b.value
  back : ∀ d, sub.field e.1 = some d → Came ops d e.2 b.value
  applies : ∀ M M' : Message K, PutsAll ops M (under es b.writes) M' →
    match node with
    | .field f => ∀ fs, applyFields ops s base (f :: fs) M = applyFields ops s base fs M'
    | node => applySub ops s base node M = .ok M'

/-- The elements of a level are the writes of its fields, then those of its composites. -/
theorem level_applies (h : Forall₂ (fun e node => ∃ b, Comes ops s sub base es e node b) l nodes) :
    ∃ fb sb : List (Store K),
      (∀ b ∈ fb ++ sb, ∃ e ∈ l, ∃ node, Comes ops s sub base es e node b) ∧
      ((fb ++ sb).map Store.de).Perm (l.map fun e => (e.1 : ℤ)) ∧
      (∀ M M' : Message K, PutsAll ops M (under es (fb.flatMap Store.writes)) M' →
        applyFields ops s base (fieldElems nodes) M = .ok M') ∧
      ∀ M M' : Message K, PutsAll ops M (under es (sb.flatMap Store.writes)) M' →
        applySubs ops s base nodes M = .ok M' := by
  induction h with
  | nil =>
    exact ⟨[], [], nofun, Perm.refl _, fun M M' h => by rw [show M' = M from h]; rfl,
      fun M M' h => by rw [show M' = M from h]; rfl⟩
  | @cons e node l nodes he _ ih =>
    obtain ⟨fb, sb, hall, hperm, hfields, hsubs⟩ := ih
    obtain ⟨b, hb⟩ := he
    have hmem : ∀ b' ∈ fb ++ sb, ∃ e' ∈ e :: l, ∃ node, Comes ops s sub base es e' node b' := by
      intro b' hb'
      obtain ⟨e', he', hcomes⟩ := hall b' hb'
      exact ⟨e', mem_cons_of_mem _ he', hcomes⟩
    cases node with
    | field f =>
      refine ⟨b :: fb, sb, ?_, ?_, fun M M' hM => ?_, fun M M' hM => ?_⟩
      · rw [cons_append, forall_mem_cons]
        exact ⟨⟨e, mem_cons_self, _, hb⟩, hmem⟩
      · rw [cons_append, map_cons, map_cons, hb.de]
        exact hperm.cons _
      · rw [flatMap_cons, under_append, PutsAll.append_iff] at hM
        obtain ⟨M₁, hfirst, hrest⟩ := hM
        exact (hb.applies M M₁ hfirst _).trans (hfields M₁ M' hrest)
      · exact hsubs M M' hM
    | isomsg id name children =>
      refine ⟨fb, b :: sb, ?_, ?_, hfields, fun M M' hM => ?_⟩
      · intro b' hb'
        rcases mem_append.mp hb' with hb' | hb'
        · exact hmem b' (mem_append_left _ hb')
        rcases mem_cons.mp hb' with rfl | hb'
        · exact ⟨e, mem_cons_self, _, hb⟩
        · exact hmem b' (mem_append_right _ hb')
      · rw [map_append, map_cons, map_cons, ← hb.de]
        rw [map_append] at hperm
        exact perm_middle.trans (hperm.cons _)
      · rw [flatMap_cons, under_append, PutsAll.append_iff] at hM
        obtain ⟨M₁, hfirst, hrest⟩ := hM
        unfold applySubs
        rw [show applySub ops s base (.isomsg id name children) M =
          .ok M₁ from hb.applies M M₁ hfirst]
        exact hsubs M₁ M' hrest

lemma level_rebuilds (hl : ∀ e ∈ l, (m.get ops e.1).2 = some e.2)
    (hcomplete : ∀ (de : ℤ) v, (m.get ops de).2 = some v → ∃ e ∈ l, (e.1 : ℤ) = de)
    (hnd : (l.map fun e => (e.1 : ℤ)).Nodup)
    (h : Forall₂ (fun e node => ∃ b, Comes ops s sub base es e node b) l nodes) :
    ∃ ws m', PutsAll ops (Message.new sub) ws m' ∧ LevelBack ops sub m m' ∧ (l ≠ [] → ws ≠ []) ∧
      (∀ w ∈ ws, w.1 ≠ []) ∧ ∀ M M' : Message K, PutsAll ops M (under es ws) M' →
        ∃ M₁, applyFields ops s base (fieldElems nodes) M = .ok M₁ ∧
          applySubs ops s base nodes M₁ = .ok M' := by
  obtain ⟨fb, sb, hall, hperm, hfields, hsubs⟩ := level_applies h
  have hstores : ∀ b ∈ fb ++ sb, Stores ops sub b.de b.writes b.value := by
    intro b hb
    obtain ⟨e, -, node, hcomes⟩ := hall b hb
    exact hcomes.stores
  obtain ⟨m', hputs, hre, hvalue, hother⟩ := stores_run (fb ++ sb) hstores (hperm.nodup_iff.mpr hnd)
    (Rebuilding.new sub) fun b _ => stored_new sub b.de
  -- what is stored at a data element is the value of its entry
  have hentry : ∀ x w, m'.stored x = some w → ∃ e ∈ l, (e.1 : ℤ) = x ∧
      ∀ d, sub.field x = some d → Came ops d e.2 w := by
    intro x w hw
    by_cases hx : ∃ b ∈ fb ++ sb, b.de = x
    · obtain ⟨b, hb, rfl⟩ := hx
      rw [hvalue b hb] at hw
      cases hw
      obtain ⟨e, he, node, hcomes⟩ := hall b hb
      refine ⟨e, he, hcomes.de.symm, fun d hd => hcomes.back d ?_⟩
      rw [← hcomes.de]
      exact hd
    · rw [hother x fun b hb heq => hx ⟨b, hb, heq⟩, stored_new] at hw
      cases hw
  refine ⟨_, m', hputs, ⟨hre, fun de => ?_, fun de d v w hd hv hw => ?_⟩, fun hne => ?_,
    fun w hw => ?_,
    fun M M' hM => ?_⟩
  · rw [Bool.eq_iff_iff, Option.isSome_iff_exists, Option.isSome_iff_exists]
    constructor
    · rintro ⟨w, hw⟩
      obtain ⟨e, he, rfl, -⟩ := hentry de w hw
      exact ⟨e.2, hl e he⟩
    rintro ⟨v, hv⟩
    obtain ⟨e, he, rfl⟩ := hcomplete de v hv
    have hmem : (e.1 : ℤ) ∈ (fb ++ sb).map Store.de := hperm.mem_iff.mpr (mem_map.mpr ⟨e, he, rfl⟩)
    obtain ⟨b, hb, hde⟩ := mem_map.mp hmem
    exact ⟨b.value, by rw [← hde, hvalue b hb]⟩
  · obtain ⟨e, he, rfl, hback⟩ := hentry de w hw
    rw [hl e he] at hv
    cases hv
    exact hback d hd
  · obtain ⟨e, he⟩ := exists_mem_of_ne_nil l hne
    have hmem : (e.1 : ℤ) ∈ (fb ++ sb).map Store.de := hperm.mem_iff.mpr (mem_map.mpr ⟨e, he, rfl⟩)
    obtain ⟨b, hb, -⟩ := mem_map.mp hmem
    obtain ⟨e, -, node, hcomes⟩ := hall b hb
    obtain ⟨w, hw⟩ := exists_mem_of_ne_nil _ hcomes.paths.1
    exact ne_nil_of_mem (mem_flatMap.mpr ⟨b, hb, hw⟩)
  · obtain ⟨b, hb, hw⟩ := mem_flatMap.mp hw
    obtain ⟨e, -, node, hcomes⟩ := hall b hb
    exact hcomes.paths.2 w hw
  · rw [flatMap_append, under_append, PutsAll.append_iff] at hM
    obtain ⟨M₁, hM₁, hM'⟩ := hM
    exact ⟨M₁, hfields M M₁ hM₁, hsubs M₁ M' hM'⟩

lemma comes_scalar (hat : At s sub base es) (hs : sub.Built) (ht : sub.isTLV = false)
    (hdepth : es.length < maxPathDepth) {e : ℕ × Value K} (hd : sub.field e.1 = some d)
    (hid : f.id = itoa e.1) (hw : Written e.2 f) (hfit : ScalarFits (some d) e.2) :
    ∃ b, Comes ops s sub base es e (.field f) b := by
  obtain ⟨arg, w, harg, hval, hback⟩ := hw.reads_back hfit
  have hlt := field_lt hs hd
  have hn : (elemOf e.1).n.toInt = e.1 := elemOf_n hlt
  have he : parseElem f.id = .ok (elemOf e.1) := by
    rw [hid]
    exact parseElem_formatNat hlt
  refine ⟨⟨e.1, [([elemOf e.1], arg)], stamp (some d) w⟩, rfl,
    ⟨cons_ne_nil _ _, forall_mem_singleton.mpr (cons_ne_nil _ _)⟩, fun m hre _ => ?_,
    fun d' hd' => ?_, fun M M' hM fs => ?_⟩
  · obtain ⟨m', hset, hre', hst⟩ := hre.set hs hd hval
    exact ⟨m', ⟨m',
      Puts.leaf hre.unsealed (hre.toFresh.isTLV_eq.trans ht) rfl (by rw [hn]; exact hset), rfl⟩,
      hre', hst⟩
  · rw [hd] at hd'
    cases hd'
    exact .scalar hback.stamp
  · refine applyFields_cons hat hdepth he ?_ hM fs
    rw [show elemOf e.1 = ⟨Int32.ofInt e.1, []⟩ from rfl, lookupElem_field ht e.1 hlt, hd]
    exact harg

lemma comes_composite (hs : sub.Built) (ht : sub.isTLV = false) {e : ℕ × Value K}
    (hd : sub.field e.1 = some d) (hsub : d.sub = some sub') (child' : Message K)
    (ws : List (List PathElem × Arg K)) (hne : ws ≠ []) (hpaths : ∀ w ∈ ws, w.1 ≠ [])
    (hputs : PutsAll ops (freshChild d) ws child')
    (hcame : Came ops d e.2 (.ofComposite [] (some child')))
    (happlies : ∀ M M' : Message K, PutsAll ops M (under (es ++ [elemOf e.1]) ws) M' →
      ∃ M₁, applyFields ops s (join base (itoa e.1)) (fieldElems nodes) M = .ok M₁ ∧
      applySubs ops s (join base (itoa e.1)) nodes M₁ = .ok M') :
    ∃ b, Comes ops s sub base es e (.isomsg (itoa e.1) [] nodes) b := by
  have hlt := field_lt hs hd
  have hn : (elemOf e.1).n.toInt = e.1 := elemOf_n hlt
  have he : parseElem (itoa e.1) = .ok (elemOf e.1) := parseElem_formatNat hlt
  refine ⟨⟨e.1, under [elemOf e.1] ws, .ofComposite [] (some child')⟩, rfl, ⟨?_, ?_⟩,
    fun m hre hnone => ?_,
    fun d' hd' => ?_, fun M M' hM => ?_⟩
  · exact fun hnil => hne (map_eq_nil_iff.mp hnil)
  · intro w hw
    obtain ⟨w', -, rfl⟩ := mem_map.mp hw
    exact cons_ne_nil _ _
  · obtain ⟨m', hm', hre', hst⟩ := hre.descendAll hs ht (elemOf e.1) rfl (by rw [hn]; exact hd)
      (by rw [hsub]; exact Option.some_ne_none _) ws hne hpaths
        (by rw [hn]; exact .fresh hnone) hputs
    refine ⟨m', hm', hre', fun x => ?_⟩
    rw [hst, hn]
  · rw [hd] at hd'
    cases hd'
    exact hcame
  · rw [under_under] at hM
    obtain ⟨M₁, hfields, hsubs⟩ := happlies M M' hM
    show applySub ops s base (.isomsg (itoa e.1) [] nodes) M = .ok M'
    unfold applySub
    rw [if_neg (parseElem_ne_nil he), hfields]
    exact hsubs

/-! ## Schemas and messages -/

/-- A property of a message and its schema that holds of every composite below it, too. -/
inductive EveryLevel (ops : Ops K) (P : Schema K → Message K → Prop) : Schema K → Message K → Prop
  | intro {s : Schema K} {m : Message K} (here : P s m)
      (below : ∀ (de : ℤ) d v sub child, s.field de = some d → (m.get ops de).2 = some v →
        v.composite = some child → d.sub = some sub → EveryLevel ops P sub child) : EveryLevel ops
          P s m

lemma EveryLevel.level (h : EveryLevel ops P s m) : P s m := by
  cases h with
  | intro here => exact here

lemma EveryLevel.child (h : EveryLevel ops P s m) {de : ℤ} {v : Value K} {child : Message K}
    (hd : s.field de = some d) (hv : (m.get ops de).2 = some v) (hc : v.composite = some child)
    (hsub : d.sub = some sub) : EveryLevel ops P sub child := by
  cases h with
  | intro _ below => exact below de d v sub child hd hv hc hsub

/-- A well-formed BER tag whose text has a letter or no leading zero. -/
def PlainTag (tag : Bytes) : Prop := BerTag tag ∧ ((∃ c ∈ tag, ¬ IsDigit c) ∨ tag.head? ≠ some 0x30)

/-- What `Marshal` needs of the values of one level for `Unmarshal` to bring them back. -/
structure Renderable (ops : Ops K) (s : Schema K) (m : Message K) : Prop where
  /-- Every present field is decodable. -/
  decodes : ∀ de, m.has de = true → (m.get ops de).2 ≠ none
  /-- Scalars fit their definitions. -/
  scalars : ∀ (de : ℤ) d v, s.field de = some d → (m.get ops de).2 = some v → v.composite = none →
    ScalarFits (some d) v
  /-- Composites stand in composite fields and have at least one child. -/
  composites : ∀ (de : ℤ) d v child, s.field de = some d → (m.get ops de).2 = some v →
    v.composite = some child → ∃ sub, d.sub = some sub ∧
      (sub.isTLV = true → child.tagSeq ≠ []) ∧ (sub.isTLV = false → (child.fields ops).2 ≠ [])
  /-- Tags can be addressed, and their values fit their definitions. -/
  tags : s.isTLV = true → ∀ p ∈ m.tagSeq, PlainTag p.1 ∧ ScalarFits (s.lookupTag p.1) p.2

end Paths

/-- A catalog schema of at most `n` levels, whose positional sub-schemas have no header. -/
inductive CatalogSchema : ℕ → Schema Catalog → Prop
  | intro {n : ℕ} {s : Schema Catalog} (built : s.Built)
      (tags : ∀ tag d, s.lookupTag tag = some d → CatalogDef d)
      (fields : s.isTLV = false → ∀ (de : ℤ) d, s.field de = some d → CatalogDef d)
      (headerless : s.isTLV = false → ∀ (de : ℤ) d sub, s.field de = some d → d.sub = some sub →
        sub.isTLV = false → sub.mti = none)
      (below : s.isTLV = false → ∀ (de : ℤ) d sub, s.field de = some d → d.sub = some sub →
        CatalogSchema n sub) : CatalogSchema (n + 1) s

/-! ## Tags as path elements -/

variable {tag : Bytes}

lemma isUpperHex_berTag (h : BerTag tag) : ∀ c ∈ tag, IsUpperHex c := by
  obtain ⟨tagBytes, -, rfl⟩ := h
  refine forall_mem_upperHex ?_ tagBytes
  unfold IsUpperHex
  decide +kernel

/-- A longer tag begins with an octet whose last digit is F. -/
theorem berTag_digits (h : BerTag tag) (hd : ∀ c ∈ tag, IsDigit c) : ∃ c₁ c₂, tag = [c₁, c₂] := by
  obtain ⟨tagBytes, ht, rfl⟩ := h
  rcases tagBytes with _ | ⟨b0, more⟩
  · exact ht.elim
  unfold TagBytes at ht
  dsimp only at ht
  split_ifs at ht with hlong
  · exfalso
    have hlast : ∀ c : UInt8, c &&& 0x1F = 0x1F → c.toNat % 16 = 15 :=
      forall_byte (by decide +kernel)
    have hmod := hlast b0 hlong
    have hmem : (0x66 : UInt8) ∈ hexEncode (b0 :: more) := by
      unfold hexEncode
      rw [flatMap_cons, hmod]
      exact mem_append_left _ (mem_cons_of_mem _ (mem_singleton.mpr rfl))
    have hF : (0x46 : UInt8) ∈ upperHex (hexEncode (b0 :: more)) := mem_map.mpr ⟨0x66, hmem, rfl⟩
    exact absurd (hd _ hF) (by decide)
  · rw [ht]
    exact ⟨_, _, rfl⟩

lemma berTag_validSeg (h : BerTag tag) : ValidSeg tag := by
  refine ⟨?_, fun c hc => isHex_of_upperHex (isUpperHex_berTag h c hc), fun hd => ?_⟩
  · obtain ⟨_ | ⟨b0, more⟩, ht, rfl⟩ := h
    · exact ht.elim
    · exact cons_ne_nil _ _
  · obtain ⟨c₁, c₂, rfl⟩ := berTag_digits h hd
    exact (decimalValue_lt hd).le.trans (show 10 ^ 2 ≤ 2 ^ 31 - 1 by decide)

lemma keyOf_ofSeg (h : BerTag tag) : PlainTag tag ∧ keyOf (.ofSeg tag) = tag ∨
    ¬PlainTag tag ∧ (keyOf (.ofSeg tag)).length ≤ 1 := by
  have hhex := isUpperHex_berTag h
  unfold keyOf PlainTag PathElem.ofSeg
  by_cases hd : ∀ c ∈ tag, IsDigit c
  · have hle := (berTag_validSeg h).2.2 hd
    obtain ⟨c₁, c₂, rfl⟩ := berTag_digits h hd
    obtain ⟨hlen, hpad⟩ := replicate_formatNat (cons_ne_nil _ _) hd
    have hn : (Int32.ofInt (decimalValue [c₁, c₂])).toInt = (decimalValue [c₁, c₂] : ℤ) :=
      toInt_ofInt_natCast (by omega)
    rw [if_pos hd, tagKey_number (by rw [hn]; omega) rfl, hn, Int.toNat_natCast]
    by_cases h0 : c₁ = 0x30
    · subst h0
      refine Or.inr ⟨?_, (formatNat_length_le_iff _ le_rfl).mpr ?_⟩
      · rintro ⟨-, ⟨c, hc, hnot⟩ | hne⟩
        · exact hnot (hd c hc)
        · exact hne rfl
      rw [decimalValue_cons, decimalValue_cons]
      have := (isDigit_iff c₂).mp (hd c₂ (by simp))
      simp
      omega
    · refine Or.inl ⟨⟨h, Or.inr fun heq => h0 (Option.some.inj heq)⟩, ?_⟩
      obtain hz | hz := Nat.eq_zero_or_pos
        ([c₁, c₂].length - (formatNat (decimalValue [c₁, c₂])).length)
      · rwa [hz] at hpad
      obtain ⟨k, hk⟩ := Nat.exists_eq_add_of_lt hz
      rw [hk, zero_add, replicate_succ, cons_append, cons.injEq] at hpad
      exact absurd hpad.1.symm h0
  · have hletter : ∃ c ∈ tag, ¬IsDigit c := by
      simpa only [not_forall, exists_prop] using hd
    rw [if_neg hd, toUpper_of_upperHex hhex]
    exact Or.inl ⟨⟨h, Or.inl hletter⟩, tagKey_tag hhex hletter⟩

lemma PlainTag.safe (h : PlainTag tag) : TagSafe tag := by
  refine ⟨_, parseElem_iff.mpr ⟨berTag_validSeg h.1, rfl⟩, ?_⟩
  exact (keyOf_ofSeg h.1).elim And.right fun hnot => absurd h hnot.1

/-! ## Level by level -/

section Levels

variable {ops : Ops Catalog} {s sub : Schema Catalog} {m child : Message Catalog}
    {d : FieldDef Catalog}
  {base : Bytes} {es : List PathElem}

variable {n : ℕ}

lemma CatalogSchema.built (h : CatalogSchema n s) : s.Built := by
  cases h with
  | intro built => exact built

lemma CatalogSchema.pos (h : CatalogSchema n s) : 0 < n := by
  cases h with
  | intro => exact Nat.succ_pos _

lemma defined_of_read (hm : TreeOver ops s m) {de : ℤ} {v : Value Catalog}
    (hv : (m.get ops de).2 = some v) : ∃ d, s.field de = some d :=
  Option.ne_none_iff_exists'.mp (hm.level.2 de (has_of_get hv))

lemma fields_nodup (ops : Ops Catalog) (m : Message Catalog) :
    ((m.fields ops).2.map fun e => (e.1 : ℤ)).Nodup := by
  have hnd : ((m.fields ops).2.map Prod.fst).Nodup := (fields_ascending ops m).imp Nat.ne_of_lt
  have hcast := hnd.map (Nat.cast_injective (R := ℤ))
  rwa [map_map] at hcast

/-- A BER-TLV composite comes back, with its tags in their order. -/
theorem comes_tlv (hat : At s sub base es) (hs : sub.Built) (ht : sub.isTLV = false)
    (hdepth : es.length + 1 < maxPathDepth) {e : ℕ × Value Catalog} (hd : sub.field e.1 = some d)
    {sub' : Schema Catalog} (hsub : d.sub = some sub') (ht' : sub'.isTLV = true)
    (hc : e.2.composite = some child) (hchild : TreeOver ops sub' child)
    (hlevel : Renderable ops sub' child) (hne : child.tagSeq ≠ []) {nodes : List XmlNode}
    (hnodes : Forall₂ TagNode child.tagSeq nodes) :
    ∃ b, Comes ops s sub base es e (.isomsg (itoa e.1) [] nodes) b := by
  have hlt := field_lt hs hd
  have hat' : At s sub' (join base (itoa e.1)) (es ++ [elemOf e.1]) :=
    hat.descend (parseElem_formatNat hlt) ((lookupElem_field ht e.1 hlt).trans hd) hsub
  have hlen : (es ++ [elemOf e.1]).length < maxPathDepth := by
    rw [length_append, length_singleton]
    exact hdepth
  obtain ⟨ws, puts, hws, hback, hfields, hsubs⟩ := tags_apply ops hat' ht' hlen hnodes
    fun p hp => ⟨(hlevel.tags ht' p hp).1.safe, (hlevel.tags ht' p hp).2⟩
  obtain ⟨l, hl, -⟩ := hchild.tagList
  have hkeys : (puts.map fun q => keyOf q.1) = child.tagSeq.map Prod.fst := by
    rw [← forall₂_eq_eq_eq, forall₂_map_left_iff, forall₂_map_right_iff]
    exact hback.flip.imp fun q p h => h.1
  have htags : TagList (putAll (Message.newTLV (some sub')) puts)
      ([] ++ puts.map fun q => (keyOf q.1, q.2)) := by
    refine tagSeq_putAll puts (tagList_newTLV _) ?_
    rw [map_nil, nil_append, hkeys, hl.tagSeq_eq]
    exact hl.nodup
  refine comes_composite hs ht hd hsub (putAll (Message.newTLV (some sub')) puts)
    (ws.map fun w => ([w.1], w.2)) ?_ ?_ ?_ ?_ fun M M' hM => ?_
  · intro hnil
    have hlenws := hws.length_eq
    have hlenback := hback.length_eq
    rw [map_eq_nil_iff.mp hnil] at hlenws
    rw [← hlenws] at hlenback
    exact hne (length_eq_zero_iff.mp hlenback)
  · intro w hw
    obtain ⟨w', -, rfl⟩ := mem_map.mp hw
    exact cons_ne_nil _ _
  · rw [freshChild_tlv hsub ht']
    exact OpenTLV.putsAll hws (OpenTLV.newTLV ht')
  · refine .tlv hc hsub ((OpenTLV.newTLV ht').putAll puts) htags ?_
    rw [nil_append, forall₂_map_right_iff]
    exact hback
  · exact ⟨M', hfields M M' hM, hsubs M'⟩

/-- The elements of a message build it again, level by level. -/
theorem rebuilds (fuel : ℕ) : ∀ {n : ℕ} {sub : Schema Catalog} {m : Message Catalog} {base : Bytes}
    {es : List PathElem} {l : List (ℕ × Value Catalog)} {nodes : List XmlNode},
    CatalogSchema n sub → es.length + n ≤ maxPathDepth → At s sub base es → sub.isTLV = false →
    TreeOver ops sub m → EveryLevel ops (Renderable ops) sub m →
    (∀ e ∈ l, (m.get ops e.1).2 = some e.2) →
    (∀ (de : ℤ) v, (m.get ops de).2 = some v → ∃ e ∈ l, (e.1 : ℤ) = de) →
    (l.map fun e => (e.1 : ℤ)).Nodup → Forall₂ (Node ops fuel) l nodes →
    ∃ ws m', PutsAll ops (Message.new sub) ws m' ∧ LevelBack ops sub m m' ∧ (l ≠ [] → ws ≠ []) ∧
      (∀ w ∈ ws, w.1 ≠ []) ∧ ∀ M M' : Message Catalog, PutsAll ops M (under es ws) M' →
        ∃ M₁, applyFields ops s base (fieldElems nodes) M = .ok M₁ ∧
          applySubs ops s base nodes M₁ = .ok M' := by
  -- scalars come back at every depth
  have hscalar : ∀ {n : ℕ} {sub : Schema Catalog} {m : Message Catalog} {base : Bytes}
      {es : List PathElem}
      {e : ℕ × Value Catalog} {node : XmlNode}, CatalogSchema n sub → es.length + n ≤ maxPathDepth →
      At s sub base es → sub.isTLV = false → TreeOver ops sub m →
        EveryLevel ops (Renderable ops) sub m →
      (m.get ops e.1).2 = some e.2 → ScalarNode e node → ∃ b, Comes ops s sub base es e node b := by
    rintro n sub m base es e node hcat hdepth hat ht hm hlevel hv ⟨f, rfl, hid, hw⟩
    obtain ⟨d, hd⟩ := defined_of_read hm hv
    have := hcat.pos
    exact comes_scalar hat hcat.built ht (by omega) hd hid hw
      (hlevel.level.scalars e.1 d e.2 hd hv hw.scalar)
  induction fuel with
  | zero =>
    intro n sub m base es l nodes hcat hdepth hat ht hm hlevel hl hcomplete hnd hnodes
    refine level_rebuilds hl hcomplete hnd ?_
    exact ((forall₂_and_left _ _).mpr ⟨hl, hnodes⟩).imp fun e node h =>
      hscalar hcat hdepth hat ht hm hlevel h.1 h.2
  | succ fuel ih =>
    intro n sub m base es l nodes hcat hdepth hat ht hm hlevel hl hcomplete hnd hnodes
    refine level_rebuilds hl hcomplete hnd ?_
    refine ((forall₂_and_left _ _).mpr ⟨hl, hnodes⟩).imp fun e node h => ?_
    obtain ⟨hv, hs | ⟨child, children, hc, rfl, hchildren⟩⟩ := h
    · exact hscalar hcat hdepth hat ht hm hlevel hv hs
    obtain ⟨d, hd⟩ := defined_of_read hm hv
    obtain ⟨sub', hsub, hne, hne'⟩ := hlevel.level.composites e.1 d e.2 child hd hv hc
    have hchild := hm.child hd hv hc hsub
    have hlevel' := hlevel.child hd hv hc hsub
    obtain ⟨htags, hfields⟩ := hchildren sub' hchild.level.1
    cases hcat with
    | @intro n _ built tags fields headerless below =>
      have hcat' := below ht e.1 d sub' hd hsub
      have hpos := hcat'.pos
      cases ht' : sub'.isTLV with
      | true =>
        exact comes_tlv hat built ht (by omega) hd hsub ht' hc hchild hlevel'.level (hne ht')
          (htags ht')
      | false =>
        have hlt := field_lt built hd
        have hat' : At s sub' (join base (itoa e.1)) (es ++ [elemOf e.1]) :=
          hat.descend (parseElem_formatNat hlt) ((lookupElem_field ht e.1 hlt).trans hd) hsub
        -- a child without a header has no data element 0
        have hzero : (child.get ops 0).2 = none := by
          by_contra hsome
          obtain ⟨v, hv0⟩ := Option.ne_none_iff_exists'.mp hsome
          exact hchild.level.2 0 (has_of_get hv0) (headerless ht e.1 d sub' hd hsub ht')
        have hcomplete' : ∀ (de : ℤ) v, (child.get ops de).2 = some v →
            ∃ x ∈ (child.fields ops).2, (x.1 : ℤ) = de := by
          intro de v hv'
          obtain ⟨sl, hsl, -⟩ := has_eq_true.mp (has_of_get hv')
          obtain ⟨k, rfl⟩ := nat_of_slot? hsl
          have hk : k ≠ 0 := by
            rintro rfl
            rw [show ((0 : ℕ) : ℤ) = 0 from rfl, hzero] at hv'
            cases hv'
          exact ⟨(k, v), mem_fields.mpr ⟨by omega, hv'⟩, rfl⟩
        have hlen : (es ++ [elemOf e.1]).length + n ≤ maxPathDepth := by
          rw [length_append, length_singleton]
          omega
        obtain ⟨ws, child', hputs, hback, hws, hpaths, happlies⟩ :=
          ih hcat' hlen hat' ht' hchild hlevel'
          (fun x hx => (mem_fields.mp hx).2) hcomplete' (fields_nodup ops child) (hfields ht')
        refine comes_composite built ht hd hsub child' ws (hws (hne' ht')) hpaths ?_
          (.positional hc hsub ht' hback.rebuilding hback.stored hback.values) happlies
        rw [freshChild_positional hsub ht']
        exact hputs

end Levels

end Isopace.Render.Xmlio
