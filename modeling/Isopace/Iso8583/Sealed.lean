import Isopace.Iso8583.HeapWire

/-!
# Sealed messages

`Seal` sets a flag of one message. A composite child has a flag of its own, and `Get` and `GetP`
hand out the very child that the parent keeps. Result: `sealed_unchanged`.
-/

namespace Isopace.Iso8583

open Lib FieldCodec MessageOf List Option

variable {K : Codecs} {ops : Ops K} {h h' : Heap K}

/-! ## Calls -/

/-- A call of a read or write method on the message at an address. -/
inductive HeapCall (K : Codecs)
  | set (r : ℕ) (de : ℤ) (arg : Heap.PArg K)
  | setP (r : ℕ) (p : FieldPath) (arg : Heap.PArg K)
  | unset (r : ℕ) (de : ℤ)
  | unsetP (r : ℕ) (p : FieldPath)
  | get (r : ℕ) (de : ℤ)
  | getP (r : ℕ) (p : FieldPath)

namespace HeapCall

def run (ops : Ops K) (h : Heap K) : HeapCall K → Heap K
  | .set r de arg => (h.set r de arg).1
  | .setP r p arg => (h.setP ops r p arg).1
  | .unset r de => h.unset r de
  | .unsetP r p => h.unsetP r p
  | .get r de => (h.decodeSlot ops r de).1
  | .getP r p => (h.getP ops r p).1

def target : HeapCall K → Option ℕ
  | .set r _ _ | .setP r _ _ | .unset r _ | .unsetP r _ => some r
  | .get .. | .getP .. => none

end HeapCall

/-- The value at hand has its child, if any, in the heap. -/
def Heap.PArg.Ok (h : Heap K) : Heap.PArg K → Prop
  | .fresh arg => ∀ v, arg = .value v → v.sub = none
  | .value p => ∀ a, p.sub = some a → a < h.length

def HeapCall.Ok (h : Heap K) : HeapCall K → Prop
  | .set _ _ arg | .setP _ _ arg => arg.Ok h
  | _ => True

inductive Reachable (ops : Ops K) : Heap K → Prop
  | empty : Reachable ops []
  | create {h : Heap K} (s : Schema K) :
      Reachable ops h → Reachable ops (allocMessage (Message.new s) h).1
  | createTLV {h : Heap K} (sub : Option (Schema K)) :
      Reachable ops h → Reachable ops (allocMessage (Message.newTLV sub) h).1
  | unmarshal {h : Heap K} {c : Codec K} {w : Bytes} {m : Message K} :
      Reachable ops h → c.unmarshal ops w = .ok m → Reachable ops (allocMessage m h).1
  | call {h : Heap K} (call : HeapCall K) :
      Reachable ops h → call.Ok h → Reachable ops (call.run ops h)
  | toSealed {h : Heap K} (r : ℕ) : Reachable ops h → Reachable ops (h.toSealed r)
  | clone {h h' : Heap K} {fuel r a : ℕ} :
      Reachable ops h → h.clone fuel r = some (h', a) → Reachable ops h'

/-! ## Reachable heaps are sound -/

variable {m : Message K} {arg : Heap.PArg K} {b : ℕ} {n : Node K}

lemma clean_of_zero (hs : ∀ s ∈ m.slots, s = Slot.zero) (ht : m.tags.getD [] = []) : m.Clean := by
  refine .mk (fun s hmem hfrom => ?_) (fun s hmem c hc => ?_) fun e he => ?_
  · rw [hs s hmem] at hfrom
    cases hfrom
  · rw [hs s hmem] at hc
    cases hc
  · rw [ht] at he
    cases he

lemma Message.new_clean (s : Schema K) : (Message.new s).Clean :=
  clean_of_zero (fun _ hs => eq_of_mem_replicate hs) rfl

lemma Message.newTLV_clean (sub : Option (Schema K)) : (Message.newTLV sub).Clean :=
  clean_of_zero (fun _ hs => absurd hs not_mem_nil) rfl

lemma freshChild_clean (d : FieldDef K) : (freshChild d).Clean := by
  unfold freshChild
  split
  · split_ifs
    · exact Message.newTLV_clean _
    · exact Message.new_clean _
  · exact clean_of_zero (fun _ hs => absurd hs not_mem_nil) rfl

lemma Codec.unmarshal_clean {c : Codec K} {w : Bytes} (hu : c.unmarshal ops w = .ok m) :
    m.Clean := by
  obtain ⟨htags, -⟩ := unmarshal_tags hu
  obtain ⟨⟨m, off⟩, hp, rfl⟩ := except_map_ok hu
  obtain ⟨s, opts⟩ := c
  obtain ⟨hdec, -⟩ := parse_slots hp
  have hplain : ∀ sl ∈ m.slots, (sl.fromSrc = true → sl.dirty = false) ∧
      sl.v.sub = none := fun sl hsl => by
    obtain ⟨k, hk⟩ := mem_iff_getElem?.mp hsl
    rw [← slot?_natCast] at hk
    exact (hdec.slots k sl hk).plain
  refine .mk (fun sl hsl hfrom => ?_) (fun sl hsl c hc => ?_) fun e he => ?_
  · rw [hdec.src]
    exact ⟨(hplain sl hsl).1 hfrom, some_ne_none w⟩
  · rw [(hplain sl hsl).2] at hc
    cases hc
  · rw [htags] at he
    cases he

lemma mem_mapSet {α β : Type} [DecidableEq α] {k : α} {v : β} {l : List (α × β)} {e : α × β}
    (he : e ∈ mapSet k v l) : e = (k, v) ∨ e ∈ l := by
  induction l with
  | nil => exact Or.inl (mem_singleton.mp he)
  | cons p l ih =>
    unfold mapSet at he
    split_ifs at he
    · rcases mem_cons.mp he with rfl | he
      · exact Or.inl rfl
      · exact Or.inr (mem_cons_of_mem p he)
    rcases mem_cons.mp he with rfl | he
    · exact Or.inr mem_cons_self
    · exact (ih he).imp_right (mem_cons_of_mem p)

lemma MessageOf.Clean.putTag (hm : m.Clean) (tag : Bytes) {v : Value K} (hv : v.Clean) :
    (m.putTag tag v).Clean := by
  cases hm with
  | mk source below tags =>
    refine .mk source below fun e he => ?_
    rcases mem_mapSet he with rfl | he
    · exact hv
    · exact tags e he

lemma catalog_clean (n : ℕ) : DecodesClean (catalog n) := by
  have hP : BuiltUp (Clean (K := Catalog)) :=
    ⟨Codec.unmarshal_clean, Message.newTLV_clean, fun tag hm hv => hm.putTag tag hv⟩
  intro c body units d v hv
  exact hP.decodeBody n hv

lemma Heap.PArg.Ok.mono (harg : arg.Ok h) (hlen : h.length ≤ h'.length) : arg.Ok h' := by
  cases arg with
  | fresh arg => exact harg
  | value p => exact fun a ha => (harg a ha).trans_le hlen

lemma makeValue_sound {d : Option (FieldDef K)} {p : PValue K} (harg : arg.Ok h)
    (hv : h.makeValue d arg = .ok (h', p)) : h' = h ∧ ∀ a, p.sub = some a → a < h.length := by
  cases arg with
  | value q =>
    cases hv
    exact ⟨rfl, harg⟩
  | fresh arg =>
    obtain ⟨v, hv, he⟩ := except_map_ok hv
    have hsub : v.sub = none := by
      by_cases hx : ∃ x, arg = .value x
      · obtain ⟨x, rfl⟩ := hx
        cases hv
        exact harg _ rfl
      · exact makeValue_scalar (fun x he => hx ⟨x, he⟩) hv
    obtain ⟨raw, kind, codec, off, sub, dec⟩ := v
    cases hsub
    cases he
    exact ⟨rfl, fun a ha => nomatch ha⟩

lemma Node.Sound.congr {n' : Node K} (hn : Node.Sound b n) (hslots : n'.slots = n.slots)
    (htags : n'.tags = n.tags) (hsrc : n'.src = n.src) : Node.Sound b n' := by
  refine ⟨?_, ?_, ?_⟩
  · rw [hslots]
    exact hn.slots
  · rw [htags]
    exact hn.tags
  · rw [hslots, hsrc]
    exact hn.clean

lemma Node.Sound.edit (hn : Node.Sound b n) (de : ℤ) (s : PSlot K) {v : PValue K}
    (hv : ∀ a, v.sub = some a → a < b) :
    Node.Sound b (Node.touch (Node.setSlot n de (Node.editSlot s v)) de) :=
  (hn.setSlot de hv fun hc => Bool.noConfusion hc).congr rfl rfl rfl

lemma set_sound (hh : h.Sound) (harg : arg.Ok h) (r : ℕ) (de : ℤ) :
    (h.set r de arg).1.Sound ∧ h.length ≤ (h.set r de arg).1.length := by
  unfold Heap.set
  split
  · exact ⟨hh, le_rfl⟩
  rename_i m hm
  split
  · exact ⟨hh, le_rfl⟩
  split
  · exact ⟨hh, le_rfl⟩
  split
  · exact ⟨hh, le_rfl⟩
  split
  · exact ⟨hh, le_rfl⟩
  rename_i h' val hval
  obtain ⟨rfl, hsub⟩ := makeValue_sound harg hval
  split
  · exact ⟨hh, le_rfl⟩
  split
  · exact ⟨hh, le_rfl⟩
  refine ⟨hh.put (Node.Sound.edit (hh m (mem_of_getElem? hm)) de _ ?_) r,
    length_set.ge⟩
  exact hsub

lemma unset_sound (hh : h.Sound) (r : ℕ) (de : ℤ) : (h.unset r de).Sound := by
  unfold Heap.unset
  split
  · exact hh
  rename_i m hm
  split
  · exact hh
  split
  · exact hh
  split
  · exact hh
  have hnode := (hh m (mem_of_getElem? hm)).setSlot (s := Node.zeroSlot) de
    (fun a ha => nomatch ha) fun hc => Bool.noConfusion hc
  refine hh.put (hnode.congr ?_ ?_ ?_) r <;> rfl

lemma decodeSlot_sound (ho : DecodesClean ops) (hh : h.Sound) (r : ℕ) (de : ℤ) :
    (h.decodeSlot ops r de).1.Sound ∧ h.length ≤ (h.decodeSlot ops r de).1.length := by
  rcases hn : h[r]? with _ | n
  · unfold Heap.decodeSlot
    rw [hn]
    exact ⟨hh, le_rfl⟩
  have hst := (decodeSlot_step ops hn de).1
  exact ⟨hst.sound ho hh, hst.length_le⟩

lemma unsetP_sound (hh : h.Sound) (r : ℕ) (p : FieldPath) : (h.unsetP r p).Sound := by
  unfold Heap.unsetP
  split
  · split_ifs
    · exact hh
    · exact unset_sound hh r _
  · exact hh

lemma ensureChild_sound (ho : DecodesClean ops) (hh : h.Sound) (r : ℕ) (de : ℤ) (d : FieldDef K) :
    (h.ensureChild ops r de d).1.Sound ∧ h.length ≤ (h.ensureChild ops r de d).1.length := by
  unfold Heap.ensureChild
  split
  · exact ⟨hh, le_rfl⟩
  rename_i s₀ _
  have hg : ∀ g, g = (if s₀.present = true then h.decodeSlot ops r de else (h, none)) →
      g.1.Sound ∧ h.length ≤ g.1.length := by
    rintro g rfl
    split_ifs
    · exact decodeSlot_sound ho hh r de
    · exact ⟨hh, le_rfl⟩
  dsimp only
  generalize (if s₀.present = true then h.decodeSlot ops r de else (h, none)) = g at hg ⊢
  obtain ⟨hsound, hlen⟩ := hg g rfl
  rcases hslot : (g.1[r]?).bind fun m => (Node.slot? m de).map (m, ·) with _ | q
  · exact ⟨hsound, hlen⟩
  obtain ⟨m, s⟩ := q
  obtain ⟨m₀, hm, hmap⟩ := bind_eq_some_iff.mp hslot
  obtain ⟨s₁, hs, he⟩ := map_eq_some_iff.mp hmap
  cases he
  have hnode := hsound m (mem_of_getElem? hm)
  cases g.2.bind PValue.composite with
  | some child =>
    have hset := hnode.setSlot (s := { s with dirty := true, fromSrc := false }) de
      (hnode.slots s (Node.mem_of_slot? hs)) fun hc => Bool.noConfusion hc
    refine ⟨hsound.put (hset.congr ?_ ?_ ?_) r, hlen.trans length_set.ge⟩ <;> rfl
  | none =>
    obtain ⟨n, f, hn, -, hcreated⟩ := allocMessage_repr (freshChild d) g.1
    have hgrow := hcreated.grows.length_le
    refine ⟨(allocMessage_sound _ (freshChild_clean d) hsound).put
      (Node.Sound.edit (hnode.mono hgrow) de s ?_) r,
      hlen.trans (hgrow.trans length_set.ge)⟩
    intro a ha
    cases ha
    exact (List.getElem?_eq_some_iff.mp hn).1

lemma Node.Sound.putTag (hn : Node.Sound b n) (tag : Bytes) {v : PValue K}
    (hv : ∀ a, v.sub = some a → a < b) : Node.Sound b (Node.putTag n tag v) := by
  refine ⟨hn.slots, fun e he => ?_, hn.clean⟩
  rcases mem_mapSet he with rfl | he
  · exact hv
  · exact hn.tags e he

lemma setElems_sound (ho : DecodesClean ops) (path : List PathElem) :
    ∀ {h : Heap K} {r : ℕ} (full : FieldPath), h.Sound → arg.Ok h →
      (h.setElems ops r arg path full).1.Sound := by
  induction path with
  | nil =>
    intro h r full hh harg
    unfold Heap.setElems
    split
    · exact hh
    split_ifs
    · exact hh
    · exact hh
  | cons head rest ih =>
    intro h r full hh harg
    unfold Heap.setElems
    split
    · exact hh
    rename_i m hm
    have hnode := hh m (mem_of_getElem? hm)
    split
    · exact hh
    split
    · dsimp only
      split
      · exact hh
      split
      · exact hh
      rename_i h' val hval
      obtain ⟨rfl, hsub⟩ := makeValue_sound harg hval
      have hput := hnode.putTag (v := PValue.stamp
        (m.schema.bind (·.lookupTag (toUpper (tagKey head)))) val)
        (tagKey head) ?_
      · refine hh.put (hput.congr ?_ ?_ ?_) r <;> rfl
      unfold PValue.stamp
      split
      · exact hsub
      · exact hsub
    · split
      · exact hh
      dsimp only
      split
      · exact (set_sound hh harg r _).1
      split
      · exact hh
      rename_i d _
      split
      · exact hh
      have hchild := ensureChild_sound ho hh r head.n.toInt d
      split
      · rename_i heq
        rw [heq] at hchild
        exact hchild.1
      rename_i heq
      rw [heq] at hchild
      exact ih full.tail hchild.1 (harg.mono hchild.2)

/-- What `Clone` of one message is known to do, for the loop over the slots. -/
def CloneSound (clone : Heap K → ℕ → Option (Heap K × ℕ)) : Prop :=
  ∀ {h h' : Heap K} {r a : ℕ}, clone h r = some (h', a) → h.Sound →
    h'.Sound ∧ h <+: h' ∧ a < h'.length

lemma cloneSlots_sound {clone : Heap K → ℕ → Option (Heap K × ℕ)} (hc : CloneSound clone)
    (ss : List (PSlot K)) : ∀ {h h' : Heap K} {ss' : List (PSlot K)},
      Heap.cloneSlots clone ss h = some (h', ss') → h.Sound →
      (∀ s ∈ ss, ∀ a, s.v.sub = some a → a < h.length) →
      h'.Sound ∧ h <+: h' ∧ (∀ s ∈ ss', ∀ a, s.v.sub = some a → a < h'.length) ∧
        ∀ s' ∈ ss', ∃ s ∈ ss, s'.fromSrc = s.fromSrc ∧ s'.dirty = s.dirty := by
  induction ss with
  | nil =>
    intro h h' ss' he hh hss
    cases he
    exact ⟨hh, prefix_refl h, by simp,
      by simp⟩
  | cons s ss ih =>
    intro h h' ss' he hh hss
    unfold Heap.cloneSlots at he
    rw [forall_mem_cons] at hss
    rcases hsub : s.v.sub with _ | b
    · rw [hsub] at he
      obtain ⟨⟨h₁, ss₁⟩, hrec, he⟩ := map_eq_some_iff.mp he
      cases he
      obtain ⟨hsound, hgrow, hlt, hflags⟩ := ih hrec hh hss.2
      refine ⟨hsound, hgrow, forall_mem_cons.mpr ⟨fun a ha => ?_, hlt⟩,
        forall_mem_cons.mpr ⟨⟨s, mem_cons_self, rfl, rfl⟩, fun s' hs' => ?_⟩⟩
      · rw [hsub] at ha
        cases ha
      · obtain ⟨t, ht, hf⟩ := hflags s' hs'
        exact ⟨t, mem_cons_of_mem s ht, hf⟩
    rw [hsub] at he
    obtain ⟨⟨h₁, c⟩, hclone, he⟩ := bind_eq_some_iff.mp he
    obtain ⟨⟨h₂, ss₂⟩, hrec, he⟩ := map_eq_some_iff.mp he
    cases he
    obtain ⟨hsound₁, hgrow₁, hlt₁⟩ := hc hclone hh
    obtain ⟨hsound, hgrow, hlt, hflags⟩ := ih hrec hsound₁ fun s hs a ha =>
      (hss.2 s hs a ha).trans_le hgrow₁.length_le
    refine ⟨hsound, hgrow₁.trans hgrow, forall_mem_cons.mpr ⟨fun a ha => ?_, hlt⟩,
      forall_mem_cons.mpr ⟨⟨s, mem_cons_self, rfl, rfl⟩, fun s' hs' => ?_⟩⟩
    · cases ha
      exact hlt₁.trans_le hgrow.length_le
    · obtain ⟨t, ht, hf⟩ := hflags s' hs'
      exact ⟨t, mem_cons_of_mem s ht, hf⟩

lemma clone_sound (fuel : ℕ) : CloneSound (Heap.clone (K := K) fuel) := by
  induction fuel with
  | zero => exact fun he => nomatch he
  | succ fuel ih =>
    intro h h' r a he hh
    unfold Heap.clone at he
    split at he
    · cases he
    rename_i m hm
    obtain ⟨⟨h₁, ss⟩, hslots, he⟩ := map_eq_some_iff.mp he
    cases he
    have hnode := hh m (mem_of_getElem? hm)
    obtain ⟨hsound, hgrow, hlt, hflags⟩ := cloneSlots_sound ih m.slots hslots hh hnode.slots
    refine ⟨hsound.push ⟨fun s hs b hb => ?_, fun e hmem b hb => ?_, fun s hs hfrom => ?_⟩,
      hgrow.trans (prefix_append _ _), by simp⟩
    · rw [length_append]
      exact Nat.lt_add_right _ (hlt s hs b hb)
    · rw [length_append]
      exact Nat.lt_add_right _ ((hnode.tags e hmem b hb).trans_le hgrow.length_le)
    · obtain ⟨t, ht, hf, hd⟩ := hflags s hs
      rw [hd]
      exact hnode.clean t ht (hf.symm.trans hfrom)

lemma getElems_steps (ho : DecodesClean ops) (hh : h.Sound) (r : ℕ) (path : List PathElem) :
    ReadSteps ops h (h.getElems ops r path).1 := by
  by_cases hr : r < h.length
  · exact (getElems_lookAt ho path hh hr).1
  have hn : h[r]? = none := getElem?_eq_none_iff.mpr (not_lt.mp hr)
  rcases path with _ | ⟨head, rest⟩
  · exact .refl
  unfold Heap.getElems
  rw [hn]

lemma HeapCall.run_sound (ho : DecodesClean ops) (hh : h.Sound) (call : HeapCall K)
    (hok : call.Ok h) : (call.run ops h).Sound := by
  cases call with
  | set r de arg => exact (set_sound hh hok r de).1
  | setP r p arg => exact setElems_sound ho p.elems p hh hok
  | unset r de => exact unset_sound hh r de
  | unsetP r p => exact unsetP_sound hh r p
  | get r de => exact (decodeSlot_sound ho hh r de).1
  | getP r p => exact ((getElems_steps ho hh r p.elems).keeps ho hh).1

lemma Reachable.sound (ho : DecodesClean ops) (hr : Reachable ops h) : h.Sound := by
  induction hr with
  | empty => exact fun n hn => absurd hn not_mem_nil
  | create s _ ih => exact allocMessage_sound _ (Message.new_clean s) ih
  | createTLV sub _ ih => exact allocMessage_sound _ (Message.newTLV_clean sub) ih
  | unmarshal _ hu ih => exact allocMessage_sound _ (Codec.unmarshal_clean hu) ih
  | call call _ hok ih => exact call.run_sound ho ih hok
  | toSealed r _ ih =>
    unfold Heap.toSealed
    split
    · exact ih
    rename_i m hm
    have hnode := ih m (mem_of_getElem? hm)
    refine ih.put (hnode.congr ?_ ?_ ?_) r <;> rfl
  | clone _ hc ih => exact (clone_sound _ hc ih).1

/-! ## Calls after sealing -/

def runHeap (ops : Ops K) (h : Heap K) (calls : List (HeapCall K)) : Heap K :=
  calls.foldl (HeapCall.run ops) h

def WritesSealed (ops : Ops K) (r : ℕ) : Heap K → List (HeapCall K) → Prop
  | _, [] => True
  | h, call :: calls =>
    (∀ a, call.target = some a → a = r ∨ ∃ n, h[a]? = some n ∧ n.sealed = true) ∧
      WritesSealed ops r (call.run ops h) calls

lemma ReadStep.sealed (hst : ReadStep ops h h') {a : ℕ} (hn : h[a]? = some n) :
    ∃ n', h'[a]? = some n' ∧ n'.sealed = n.sealed := by
  cases hst with
  | same => exact ⟨n, hn, rfl⟩
  | mark hr hs hp hd hsrc =>
    rename_i r n₀ de s d
    rw [Heap.getElem?_put hr]
    by_cases ha : a = r
    · rw [ha, hr] at hn
      cases hn
      exact ⟨_, if_pos ha, rfl⟩
    · exact ⟨n, (if_neg ha).trans hn, rfl⟩
  | keep hr hs hp hdec hd hsrc hb hv =>
    rename_i r n₀ de s d body v
    obtain ⟨f, -, hcreated⟩ := allocValue_repr v h
    rw [Heap.getElem?_put (getElem?_of_grows hcreated.grows hr)]
    by_cases ha : a = r
    · rw [ha, hr] at hn
      cases hn
      exact ⟨_, if_pos ha, rfl⟩
    · exact ⟨n, (if_neg ha).trans (getElem?_of_grows hcreated.grows hn), rfl⟩

lemma ReadSteps.sealed (hst : ReadSteps ops h h') {a : ℕ} (hn : h[a]? = some n) :
    ∃ n', h'[a]? = some n' ∧ n'.sealed = n.sealed := by
  induction hst with
  | refl => exact ⟨n, hn, rfl⟩
  | tail _ hstep ih =>
    obtain ⟨n₁, hn₁, hs₁⟩ := ih
    obtain ⟨n₂, hn₂, hs₂⟩ := hstep.sealed hn₁
    exact ⟨n₂, hn₂, hs₂.trans hs₁⟩

lemma HeapCall.run_steps (ho : DecodesClean ops) (hh : h.Sound) (call : HeapCall K)
    (hs : ∀ a, call.target = some a → ∃ n, h[a]? = some n ∧ n.sealed = true) :
    ReadSteps ops h (call.run ops h) := by
  have hunset : ∀ {a n} (de : ℤ), h[a]? = some n → n.sealed = true → h.unset a de = h := by
    intro a n de hn hsealed
    simp [Heap.unset, hn, hsealed]
  cases call with
  | set r de arg =>
    obtain ⟨n, hn, hsealed⟩ := hs r rfl
    have hset : (h.set r de arg).1 = h := by
      unfold Heap.set
      rw [hn]
      exact congrArg Prod.fst (if_pos hsealed)
    rw [run, hset]
  | setP r p arg =>
    obtain ⟨n, hn, hsealed⟩ := hs r rfl
    have hset : (h.setP ops r p arg).1 = h := by
      unfold Heap.setP
      cases p.elems with
      | nil | cons head rest =>
        unfold Heap.setElems
        rw [hn]
        exact congrArg Prod.fst (if_pos hsealed)
    rw [run, hset]
  | unset r de =>
    obtain ⟨n, hn, hsealed⟩ := hs r rfl
    rw [run, hunset de hn hsealed]
  | unsetP r p =>
    obtain ⟨n, hn, hsealed⟩ := hs r rfl
    have hset : h.unsetP r p = h := by
      unfold Heap.unsetP
      split
      · rw [hunset _ hn hsealed, ite_self]
      · rfl
    rw [run, hset]
  | get r de =>
    rcases hn : h[r]? with _ | n
    · have hget : (h.decodeSlot ops r de).1 = h := by
        unfold Heap.decodeSlot
        rw [hn]
      rw [run, hget]
    exact .single (decodeSlot_step ops hn de).1
  | getP r p => exact getElems_steps ho hh r p.elems

lemma runHeap_steps (ho : DecodesClean ops) {r : ℕ} (calls : List (HeapCall K)) :
    ∀ {h : Heap K} {n : Node K}, h.Sound → h[r]? = some n → n.sealed = true →
      WritesSealed ops r h calls → ReadSteps ops h (runHeap ops h calls) := by
  induction calls with
  | nil => exact fun _ _ _ _ => .refl
  | cons call calls ih =>
    intro h n hh hn hsealed hw
    have hst := call.run_steps ho hh fun a ha => (hw.1 a ha).elim (fun he => by
      rw [he]
      exact ⟨n, hn, hsealed⟩) id
    obtain ⟨n', hn', hs'⟩ := hst.sealed hn
    exact hst.trans (ih (hst.keeps ho hh).1 hn' (hs'.trans hsealed) hw.2)

lemma ReadSteps.stands (ho : DecodesClean ops) (he : EncodesAlike ops) (hst : ReadSteps ops h h')
    (hh : h.Sound) {r : ℕ} (hm : h.Stands r m) :
    ∃ m', h'.Stands r m' ∧ ∀ (c : Codec K) dst, c.marshal ops m' dst = c.marshal ops m dst := by
  induction hst with
  | refl => exact ⟨m, hm, fun _ _ => rfl⟩
  | tail hsteps hstep ih =>
    obtain ⟨m₁, hm₁, hsame₁⟩ := ih
    obtain ⟨m₂, hm₂, hw⟩ := hstep.stands (ReadSteps.keeps ho hsteps hh).1 hm₁
    exact ⟨m₂, hm₂, fun c dst => (hw.marshal he c dst).trans (hsame₁ c dst)⟩

/-- **A sealed message does not change**, where all writes are to sealed messages. -/
theorem sealed_unchanged (depth : ℕ) {h : Heap Catalog} (hr : Reachable (catalog depth) h) {r : ℕ}
    {n : Node Catalog} (hn : h[r]? = some n) (hsealed : n.sealed = true)
    (calls : List (HeapCall Catalog)) (hw : WritesSealed (catalog depth) r h calls) :
    (∀ p : FieldPath, ((runHeap (catalog depth) h calls).getP (catalog depth) r p).2.map
      PValue.shown =
      (h.getP (catalog depth) r p).2.map PValue.shown) ∧
    ∀ m, h.Stands r m → ∃ m', (runHeap (catalog depth) h calls).Stands r m' ∧
      ∀ (c : Codec Catalog) dst, c.marshal (catalog depth) m' dst = c.marshal
      (catalog depth) m dst := by
  have ho : DecodesClean (catalog depth) := catalog_clean depth
  have hh := hr.sound ho
  have hst := runHeap_steps ho calls hh hn hsealed hw
  obtain ⟨hh', hlen, hlook⟩ := hst.keeps ho hh
  have hlt : r < h.length := (List.getElem?_eq_some_iff.mp hn).1
  refine ⟨fun p => ?_, fun m hm => hst.stands ho (catalog_encodes depth) hh hm⟩
  unfold Heap.getP
  rw [(getElems_lookAt ho p.elems hh' (hlt.trans_le hlen)).2, (getElems_lookAt ho p.elems hh hlt).2]
  exact hlook p.elems hlt

/-! ## A child of a sealed message -/

/-- The value behind a value of the heap, `load` giving the message at an address. -/
def PValue.load (load : ℕ → Option (Message K)) (p : PValue K) : Option (Value K) :=
  match p.sub with
  | none => some ⟨p.raw, p.kind, p.codec, p.off, none, p.dec⟩
  | some a => (load a).map fun m => ⟨p.raw, p.kind, p.codec, p.off, some m, p.dec⟩

def loadSlots (load : ℕ → Option (Message K)) : List (PSlot K) → Option (List (Slot K))
  | [] => some []
  | q :: qs =>
    (q.v.load load).bind fun v => (loadSlots load qs).map fun ss =>
      ⟨v, q.present, q.decoded, q.dirty, q.fromSrc, q.units, q.wireOff, q.bodyOff, q.bodyEnd⟩ :: ss

/-- The message behind one of the heap without tags below it. -/
def Heap.load (h : Heap K) : ℕ → ℕ → Option (Message K)
  | 0, _ => none
  | fuel + 1, r =>
    match h[r]? with
    | some ⟨schema, src, bm, slots, owned, dirty, isSealed, none, tagOrder⟩ =>
      (loadSlots (h.load fuel) slots).map fun ss =>
        ⟨schema, src, bm, ss, owned, dirty, isSealed, none, tagOrder⟩
    | _ => none

lemma PValue.load_repr {load : ℕ → Option (Message K)}
    (hload : ∀ {a m}, load a = some m → h.Stands a m) {p : PValue K} {v : Value K}
    (hv : p.load load = some v) : ∃ f, ReprValue h v p f := by
  obtain ⟨raw, kind, codec, off, sub, dec⟩ := p
  unfold PValue.load at hv
  rcases sub with _ | a
  · cases hv
    exact ⟨[], .leaf rfl⟩
  obtain ⟨m, hm, he⟩ := map_eq_some_iff.mp hv
  cases he
  obtain ⟨n, f, hn, hr⟩ := hload hm
  exact ⟨a :: f, .node rfl hn hr⟩

lemma loadSlots_repr {load : ℕ → Option (Message K)}
    (hload : ∀ {a m}, load a = some m → h.Stands a m) (qs : List (PSlot K)) :
    ∀ {ss : List (Slot K)}, loadSlots load qs = some ss → ∃ f, ReprSlots h ss qs f := by
  induction qs with
  | nil =>
    intro ss hs
    cases hs
    exact ⟨[], .nil⟩
  | cons q qs ih =>
    intro ss hs
    obtain ⟨v, hv, hs⟩ := bind_eq_some_iff.mp hs
    obtain ⟨ss', hs', he⟩ := map_eq_some_iff.mp hs
    cases he
    obtain ⟨f, hval⟩ := PValue.load_repr hload hv
    obtain ⟨g, hrest⟩ := ih hs'
    exact ⟨f ++ g, .cons hval hrest⟩

lemma Heap.load_stands (fuel : ℕ) : ∀ {r : ℕ} {m : Message K}, h.load fuel r = some m →
    h.Stands r m := by
  induction fuel with
  | zero => exact fun hm => nomatch hm
  | succ fuel ih =>
    intro r m hm
    unfold Heap.load at hm
    split at hm
    · rename_i hn
      obtain ⟨ss, hs, he⟩ := map_eq_some_iff.mp hm
      cases he
      obtain ⟨f, hslots⟩ := loadSlots_repr ih _ hs
      exact ⟨_, f, hn, .plain rfl hslots⟩
    · cases hm

def sealedBox : Heap Catalog :=
  ((newBox.1.setP (catalog 1) 0 (textIn 2) (.fresh (.string [0x41]))).1.set 0 0
    (.fresh (.string [0x30, 0x32, 0x30, 0x30]))).1.toSealed 0

def writeChild (h : Heap Catalog) : Heap Catalog :=
  match h.getP (catalog 1) 0 (.de 2) with
  | (h, none) => h
  | (h, some v) =>
    match v.composite with
    | none => h
    | some child => (h.set child 2 (.fresh (.string [0x42]))).1

lemma sealedBox_reachable : Reachable (catalog 1) sealedBox :=
  .toSealed 0 (.call (.set 0 0 (.fresh (.string [0x30, 0x32, 0x30, 0x30])))
    (.call (.setP 0 (textIn 2) (.fresh (.string [0x41]))) (.create boxSchema .empty) nofun) nofun)

/-- A sealed message whose nested text is read and then written to. -/
theorem sealed_unchanged_box :
    (∀ p : FieldPath, ((runHeap (catalog 1) sealedBox [.getP 0 (textIn 2),
      .setP 0 (textIn 2) (.fresh (.string [0x42]))]).getP (catalog 1) 0 p).2.map PValue.shown =
        (sealedBox.getP (catalog 1) 0 p).2.map PValue.shown) ∧
    ∀ m, sealedBox.Stands 0 m → ∃ m', (runHeap (catalog 1) sealedBox [.getP 0 (textIn 2),
      .setP 0 (textIn 2) (.fresh (.string [0x42]))]).Stands 0 m' ∧ ∀ (c : Codec Catalog) dst,
        c.marshal (catalog 1) m' dst = c.marshal (catalog 1) m dst := by
  obtain ⟨n, hn, hsealed⟩ : ∃ n, sealedBox[0]? = some n ∧ n.sealed = true := ⟨_, rfl, rfl⟩
  refine sealed_unchanged 1 sealedBox_reachable hn hsealed _ ⟨nofun, fun a ha => ?_, trivial⟩
  exact Or.inl (some.inj ha).symm

/-- **A write to a child of a sealed message** changes what is read and what it marshals to. -/
theorem child_of_sealed_written : boxBuilder.build = .ok boxSchema ∧
    Reachable (catalog 1) sealedBox ∧ (∃ n, sealedBox[0]? = some n ∧ n.sealed = true) ∧
    (sealedBox.getP (catalog 1) 0 (textIn 2)).2.map (·.raw) = some [0x41] ∧
    ((writeChild sealedBox).getP (catalog 1) 0 (textIn 2)).2.map (·.raw) = some [0x42] ∧
    ∃ m m', sealedBox.Stands 0 m ∧ (writeChild sealedBox).Stands 0 m' ∧
      (Codec.marshal (catalog 1) ⟨boxSchema, ⟨false, false⟩⟩ m []).toOption =
        some [0x30, 0x32, 0x30, 0x30, 0x40, 0, 0, 0, 0, 0, 0, 0, 0x31, 0x31,
          0x40, 0, 0, 0, 0, 0, 0, 0, 0x30, 0x31, 0x41] ∧
      (Codec.marshal (catalog 1) ⟨boxSchema, ⟨false, false⟩⟩ m' []).toOption =
        some [0x30, 0x32, 0x30, 0x30, 0x40, 0, 0, 0, 0, 0, 0, 0, 0x31, 0x31,
          0x40, 0, 0, 0, 0, 0, 0, 0, 0x30, 0x31, 0x42] := by
  have hbefore : ((sealedBox.load 3 0).bind fun m =>
      (Codec.marshal (catalog 1) ⟨boxSchema, ⟨false, false⟩⟩ m []).toOption) =
        some [0x30, 0x32, 0x30, 0x30, 0x40, 0, 0, 0, 0, 0, 0, 0, 0x31, 0x31,
          0x40, 0, 0, 0, 0, 0, 0, 0, 0x30, 0x31, 0x41] := by decide +kernel
  have hafter : (((writeChild sealedBox).load 3 0).bind fun m =>
      (Codec.marshal (catalog 1) ⟨boxSchema, ⟨false, false⟩⟩ m []).toOption) =
        some [0x30, 0x32, 0x30, 0x30, 0x40, 0, 0, 0, 0, 0, 0, 0, 0x31, 0x31,
          0x40, 0, 0, 0, 0, 0, 0, 0, 0x30, 0x31, 0x42] := by decide +kernel
  obtain ⟨m, hm, hw⟩ := bind_eq_some_iff.mp hbefore
  obtain ⟨m', hm', hw'⟩ := bind_eq_some_iff.mp hafter
  refine ⟨rfl, sealedBox_reachable, ⟨_, rfl, rfl⟩, by decide +kernel, by decide +kernel, m, m',
    Heap.load_stands 3 hm, Heap.load_stands 3 hm', hw, hw'⟩

end Isopace.Iso8583
