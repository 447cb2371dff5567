import Isopace.Iso8583.LensLaws
import Isopace.Iso8583.Validate
import Isopace.Render.View

/-!
# What `Validate` does not look at

`Validate` does not look below the data elements. The specification `Fails` is a relation over the
tree of definitions. Result: `validate_exhaustive_iff`.
-/

namespace Isopace.Iso8583

open Lib FieldCodec List

variable {K : Codecs} {ops : Ops K}

/-! ## Checks -/

/-- One step into a message: a data element or a tag. -/
inductive Key
  | de (n : ℕ)
  | tag (t : Bytes)
  deriving DecidableEq, Repr

/-- The definition of a step. The builder gives the MTI no rules. -/
def SchemaOf.defAt (s : Schema K) : Key → Option (FieldDef K)
  | .de n => if n = 0 then none else s.field n
  | .tag t => s.lookupTag t

/-- Whether a step leads to something; in a composite without a child, none does. -/
def presentAt (m : Option (Message K)) : Key → Bool
  | .de n => (m.map fun m => m.has n).getD false
  | .tag t => (m.bind fun m => m.getTag t).isSome

def valueAt (ops : Ops K) (m : Option (Message K)) : Key → Option (Value K)
  | .de n => m.bind fun m => (m.get ops n).2
  | .tag t => m.bind fun m => m.getTag t

/-- What is checked of a message: a required path, or the rule at an index of a path. -/
inductive Check
  | missing (p : List Key)
  | rule (p : List Key) (i : ℕ)
  deriving DecidableEq, Repr

def Check.path : Check → List Key
  | .missing p => p
  | .rule p _ => p

/-- A violation without a path gets that of the definition. -/
def located (d : FieldDef K) (viol : Violation) : Violation :=
  if viol.path.isZero then { viol with path := d.path } else viol

/-- The checks that a message with the definitions `s` fails at and below the path `pre`. -/
inductive Fails (ops : Ops K) (rules : List Key → FieldRules K) (mti : Bytes) :
    (pre : List Key) → Schema K → Option (Message K) → Check → Violation → Prop
  | missing {pre : List Key} {s : Schema K} {m : Option (Message K)} {k : Key} {d : FieldDef K}
    {w : Violation}
      (hd : s.defAt k = some d)
      (hw : w ∈ requiredViolation (rules (pre ++ [k])).required d mti (presentAt m k)) :
      Fails ops rules mti pre s m (.missing (pre ++ [k])) w
  | rule {pre : List Key} {s : Schema K} {m : Option (Message K)} {k : Key} {d : FieldDef K}
    {v : Value K} {i : ℕ}
      {r : Validator K} {w : Violation} (hd : s.defAt k = some d) (hv : valueAt ops m k = some v)
      (hr : (rules (pre ++ [k])).validate[i]? = some r) (hw : r v d = some w) :
      Fails ops rules mti pre s m (.rule (pre ++ [k]) i) (located d w)
  | nested {pre : List Key} {s : Schema K} {m : Option (Message K)} {k : Key} {d : FieldDef K}
    {v : Value K}
      {sub : Schema K} {c : Check} {w : Violation} (hd : s.defAt k = some d)
        (hv : valueAt ops m k = some v)
      (hsub : d.sub = some sub) (h : Fails ops rules mti (pre ++ [k]) sub v.composite c w) :
      Fails ops rules mti pre s m c w

/-- A list of violations that has exactly one for each failing check. -/
structure Exhaustive (fails : Check → Violation → Prop) (vs : List Violation) : Prop where
  nil_iff : vs = [] ↔ ∀ c w, ¬ fails c w
  each : ∃ cs : List (Check × Violation), (cs.map Prod.fst).Nodup ∧
    (∀ c w, (c, w) ∈ cs ↔ fails c w) ∧
    cs.map Prod.snd = vs

/-! ## The loop -/

/-- What the loop of `Validate` reports for one data element. -/
def violationsAt (ops : Ops K) (s : Schema K) (rules : ℤ → FieldRules K) (mti : Bytes)
    (m : Message K) (de : ℕ) : List Violation :=
  match s.field de with
  | none => []
  | some d => fieldViolations (rules de) d mti (m.has de) (m.get ops de).2

lemma has_after_get (ops : Ops K) (m : Message K) (de de' : ℤ) :
    (m.get ops de).1.has de' = m.has de' := by
  rw [MessageOf.get_eq_decodeSlot]
  obtain h | ⟨s, v, hs, hp, h⟩ := m.decodeSlot_cases ops de
  · rw [h]
  rw [h]
  unfold MessageOf.has
  rw [MessageOf.slot?_setSlot_of_some hs]
  by_cases hde : de' = de
  · rw [if_pos hde, hde, hs]
  · rw [if_neg hde]

lemma validateFrom_violations (ops : Ops K) (s : Schema K) (rules : ℤ → FieldRules K) (mti : Bytes)
    (des : List ℕ) : ∀ m : Message K,
      (validateFrom ops s rules mti des m).2 = des.flatMap (violationsAt ops s rules mti m) := by
  induction des with
  | nil => exact fun _ => rfl
  | cons de des ih =>
    intro m
    have hread : ∀ x : ℤ, des.flatMap (violationsAt ops s rules mti (m.get ops x).1) =
        des.flatMap (violationsAt ops s rules mti m) := by
      intro x
      refine congrArg (des.flatMap ·) (funext fun de' => ?_)
      unfold violationsAt
      rw [has_after_get, MessageOf.get_after_get]
    unfold Iso8583.validateFrom
    rw [flatMap_cons]
    rcases hd : s.field de with _ | d
    · have hat : violationsAt ops s rules mti m de = [] := by
        unfold violationsAt
        rw [hd]
      rw [hat]
      exact ih m
    have hat : violationsAt ops s rules mti m de =
        fieldViolations (rules de) d mti (m.has de) (m.get ops de).2 := by
      unfold violationsAt
      rw [hd]
    rw [hat]
    dsimp only
    cases hp : m.has (de : ℤ) with
    | true =>
      rw [if_pos rfl, ih, hread]
    | false =>
      rw [if_neg Bool.false_ne_true, ih]
      rfl

lemma validate_violations (ops : Ops K) (c : Codec K) (rules : ℤ → FieldRules K) (m : Message K) :
    (c.validate ops rules m).2 = (List.range' 1 c.schema.maxDE).flatMap
      (violationsAt ops c.schema rules (mtiText (m.get ops 0).2) m) := by
  unfold Codec.validate
  rw [validateFrom_violations]
  refine congrArg (flatMap · _) (funext fun de => ?_)
  unfold violationsAt
  rw [has_after_get, MessageOf.get_after_get]

/-! ## The checks of a data element -/

def checksAt (rules : FieldRules K) (d : FieldDef K) (mti : Bytes) (k : Key) (present : Bool)
    (read : Option (Value K)) : List (Check × Violation) :=
  (requiredViolation rules.required d mti present).map (fun w => (.missing [k], w)) ++
    match read with
    | none => []
    | some v =>
      rules.validate.zipIdx.filterMap fun p => (p.1 v d).map fun w => (.rule [k] p.2, located d w)

lemma ruleViolations_eq (rules : List (Validator K)) (v : Value K) (d : FieldDef K) (k : Key) :
    ((rules.zipIdx.filterMap fun p => (p.1 v d).map fun w => (Check.rule [k] p.2, located d w)).map
      Prod.snd) =
      ruleViolations rules v d := by
  have hmap : rules = rules.zipIdx.map Prod.fst := (zipIdx_map_fst 0 rules).symm
  conv_rhs => rw [hmap]
  unfold ruleViolations
  rw [map_filterMap, filterMap_map]
  refine filterMap_congr fun p _ => ?_
  rw [Option.map_map]
  rfl

variable {present : Bool} {read : Option (Value K)} {w : Violation} {c : Check}

lemma checksAt_violations (rules : FieldRules K) (d : FieldDef K) (mti : Bytes) (k : Key)
    (h : present = read.isSome) :
    (checksAt rules d mti k present read).map Prod.snd =
    fieldViolations rules d mti present read := by
  subst h
  unfold checksAt fieldViolations
  rw [map_append, map_map]
  have hleft : ∀ vs : List Violation, vs.map (Prod.snd ∘ fun w => (Check.missing [k], w)) = vs :=
    map_id
  rw [hleft]
  refine congrArg _ ?_
  rcases read with _ | v
  · rfl
  exact ruleViolations_eq rules.validate v d k

lemma requiredViolation_length (rule : RequiredRule) (d : FieldDef K) (mti : Bytes)
    (present : Bool) :
    (requiredViolation rule d mti present).length ≤ 1 := by
  unfold requiredViolation
  split
  · exact Nat.zero_le 1
  · split_ifs
    · exact Nat.zero_le 1
    · exact le_rfl
  · split_ifs
    · exact le_rfl
    · exact Nat.zero_le 1

variable {d : FieldDef K} {k : Key} {p : Check × Violation} {om : Option (Message K)}
    {pre : List Key}

lemma mem_checksAt {rules : FieldRules K} {mti : Bytes} :
    (c, w) ∈ checksAt rules d mti k present read ↔
      (c = .missing [k] ∧ w ∈ requiredViolation rules.required d mti present) ∨
      ∃ v i r w', read = some v ∧ rules.validate[i]? = some r ∧ r v d = some w' ∧ c = .rule [k] i ∧
        w = located d w' := by
  unfold checksAt
  rw [mem_append]
  refine or_congr ?_ ?_
  · rw [mem_map]
    constructor
    · rintro ⟨w, hw, heq⟩
      cases heq
      exact ⟨rfl, hw⟩
    · rintro ⟨rfl, hw⟩
      exact ⟨w, hw, rfl⟩
  rcases read with _ | v
  · exact ⟨nofun, nofun⟩
  rw [mem_filterMap]
  constructor
  · rintro ⟨⟨r, i⟩, hmem, heq⟩
    obtain ⟨w', hw', heq⟩ := Option.map_eq_some_iff.mp heq
    cases heq
    exact ⟨v, i, r, w', rfl, mem_zipIdx_iff_getElem?.mp hmem, hw', rfl, rfl⟩
  · rintro ⟨_, i, r, w', ⟨⟩, hr, hw', rfl, rfl⟩
    refine ⟨(r, i), mem_zipIdx_iff_getElem?.mpr hr, ?_⟩
    simp [hw']

lemma checksAt_nodup (rules : FieldRules K) (d : FieldDef K) (mti : Bytes) (k : Key)
    (present : Bool)
    (read : Option (Value K)) : ((checksAt rules d mti k present read).map Prod.fst).Nodup := by
  unfold checksAt
  rw [map_append, nodup_append]
  refine ⟨?_, ?_, ?_⟩
  · have hlen := requiredViolation_length rules.required d mti present
    generalize requiredViolation rules.required d mti present = ws at hlen
    match ws, hlen with
    | [], _ => exact nodup_nil
    | [w], _ => exact nodup_singleton _
  · rcases read with _ | v
    · exact nodup_nil
    have hindex : rules.validate.zipIdx.Pairwise fun p q => p.2 ≠ q.2 := by
      refine pairwise_map.mp ?_
      rw [zipIdx_map_snd]
      exact nodup_range'
    refine pairwise_map.mpr (pairwise_filterMap.mpr (hindex.imp fun {p q} hpq a ha b hb => ?_))
    obtain ⟨w, -, rfl⟩ := Option.map_eq_some_iff.mp ha
    obtain ⟨w', -, rfl⟩ := Option.map_eq_some_iff.mp hb
    exact fun heq => hpq (Check.rule.inj heq).2
  · intro c hc c' hc'
    obtain ⟨⟨_, w⟩, hmem, rfl⟩ := mem_map.mp hc
    obtain ⟨w, -, heq⟩ := mem_map.mp hmem
    cases heq
    rcases read with _ | v
    · cases hc'
    obtain ⟨⟨_, w'⟩, hmem', rfl⟩ := mem_map.mp hc'
    obtain ⟨p, -, heq'⟩ := mem_filterMap.mp hmem'
    obtain ⟨w'', -, heq''⟩ := Option.map_eq_some_iff.mp heq'
    cases heq''
    exact nofun

lemma path_of_mem_checksAt {rules : FieldRules K} {mti : Bytes}
    (h : p ∈ checksAt rules d mti k present read) : p.1.path = [k] := by
  obtain ⟨c, w⟩ := p
  rcases mem_checksAt.mp h with ⟨rfl, -⟩ | ⟨v, i, r, w', -, -, -, rfl, -⟩
  · rfl
  · rfl

/-! ## Exhaustive at the top -/

def topChecks (ops : Ops K) (s : Schema K) (rules : List Key → FieldRules K) (mti : Bytes)
    (m : Message K) : List (Check × Violation) :=
  (List.range' 1 s.maxDE).flatMap fun de : ℕ =>
    match s.field de with
    | none => []
    | some d => checksAt (rules [.de de]) d mti (.de de) (m.has de) (m.get ops de).2

variable {s : Schema K} {rules : List Key → FieldRules K} {mti : Bytes} {m : Message K}

lemma mem_topChecks : p ∈ topChecks ops s rules mti m ↔
    ∃ (de : ℕ) (d : FieldDef K), 1 ≤ de ∧ de ≤ s.maxDE ∧ s.field de = some d ∧
      p ∈ checksAt (rules [.de de]) d mti (.de de) (m.has de) (m.get ops de).2 := by
  unfold topChecks
  rw [mem_flatMap]
  constructor
  · rintro ⟨de, hde, hmem⟩
    have hrange := mem_range'_1.mp hde
    split at hmem
    · cases hmem
    rename_i d hd
    exact ⟨de, d, hrange.1, by omega, hd, hmem⟩
  · rintro ⟨de, d, h1, hle, hd, hmem⟩
    refine ⟨de, mem_range'_1.mpr ⟨h1, by omega⟩, ?_⟩
    rw [hd]
    exact hmem

lemma topChecks_violations (opts : CodecOptions)
    (hdec : ∀ de, m.has de = true → (m.get ops de).2.isSome = true) :
    (topChecks ops s rules (mtiText (m.get ops 0).2) m).map Prod.snd =
      ((Codec.mk s opts).validate ops (fun de => rules [.de de.toNat]) m).2 := by
  have hpresent : ∀ de, m.has de = (m.get ops de).2.isSome := by
    intro de
    cases hp : m.has de with
    | true => exact (hdec de hp).symm
    | false =>
      rcases hv : (m.get ops de).2 with _ | v
      · rfl
      rw [MessageOf.has_of_get hv] at hp
      cases hp
  rw [validate_violations]
  unfold topChecks
  rw [map_flatMap]
  refine congrArg (flatMap · _) (funext fun de => ?_)
  unfold violationsAt
  rcases s.field (de : ℕ) with _ | d
  · rfl
  exact checksAt_violations _ d _ (.de de) (hpresent de)

lemma topChecks_nodup : ((topChecks ops s rules mti m).map Prod.fst).Nodup := by
  unfold topChecks
  rw [map_flatMap, nodup_flatMap]
  constructor
  · intro de _
    rcases s.field (de : ℕ) with _ | d
    · exact nodup_nil
    exact checksAt_nodup _ d mti _ _ _
  refine Pairwise.imp (fun {a b} hab c hc hc' => hab ?_) (nodup_range' (s := 1) (n := s.maxDE))
  have hpath : ∀ {de : ℕ} {c : Check}, c ∈ ((match s.field de with
      | none => []
      | some d =>
        checksAt (rules [.de de]) d mti (.de de) (m.has de) (m.get ops de).2).map Prod.fst) →
      c.path = [.de de] := by
    intro de c hc
    split at hc
    · cases hc
    rename_i d hd
    obtain ⟨p, hp, rfl⟩ := mem_map.mp hc
    exact path_of_mem_checksAt hp
  have heq := (hpath hc).symm.trans (hpath hc')
  exact Key.de.inj (List.cons.inj heq).1

lemma Fails.path_eq (h : Fails ops rules mti pre s om c w) :
    ∃ k rest, c.path = pre ++ k :: rest := by
  induction h with
  | missing | rule => exact ⟨_, [], rfl⟩
  | nested _ _ _ _ ih =>
    obtain ⟨k, rest, hpath⟩ := ih
    rw [hpath, append_assoc]
    exact ⟨_, _, rfl⟩

lemma Fails.ruled (h : Fails ops rules mti pre s om c w) :
    (rules c.path).required.mode ≠ .optional ∨ (rules c.path).validate ≠ [] := by
  induction h with
  | missing hd hw =>
    refine Or.inl fun hmode => ?_
    unfold requiredViolation at hw
    rw [Check.path] at hmode
    rw [hmode] at hw
    cases hw
  | rule hd hv hr hw =>
    refine Or.inr fun hnil => ?_
    rw [Check.path] at hnil
    rw [hnil] at hr
    cases hr
  | nested _ _ _ _ ih => exact ih

lemma mem_topChecks_iff (hs : s.Built) : (c, w) ∈ topChecks ops s rules mti m ↔
      Fails ops rules mti [] s (some m) c w ∧ ∃ n, c.path = [.de n] := by
  rw [mem_topChecks]
  constructor
  · rintro ⟨de, d, h1, hle, hd, hmem⟩
    have hat : s.defAt (.de de) = some d := by
      unfold SchemaOf.defAt
      dsimp only
      rw [if_neg (by omega), hd]
    refine ⟨?_, de, path_of_mem_checksAt hmem⟩
    rcases mem_checksAt.mp hmem with ⟨rfl, hw⟩ | ⟨v, i, r, w', hv, hr, hw, rfl, rfl⟩
    · have h : Fails ops rules mti [] s (some m) (.missing ([] ++ [.de de])) w := .missing hat hw
      exact h
    · have h : Fails ops rules mti [] s (some m) (.rule ([] ++ [.de de]) i) (located d w') :=
          .rule hat hv hr hw
      exact h
  · rintro ⟨h, n, hpath⟩
    -- the definition of a data element is one of those that the loop goes over
    have hrange : ∀ {d}, s.defAt (.de n) = some d → 1 ≤ n ∧ n ≤ s.maxDE ∧ s.field n = some d := by
      intro d hd
      by_cases h0 : n = 0
      · unfold SchemaOf.defAt at hd
        dsimp only at hd
        rw [if_pos h0] at hd
        cases hd
      have hfield : s.field n = some d := by
        unfold SchemaOf.defAt at hd
        dsimp only at hd
        rwa [if_neg h0] at hd
      have hlt := SchemaOf.field_some_lt h0 hfield
      rw [hs.defs_length] at hlt
      exact ⟨by omega, by omega, hfield⟩
    cases h with
    | missing hd hw =>
      obtain rfl := (List.cons.inj hpath).1
      obtain ⟨h1, hle, hfield⟩ := hrange hd
      exact ⟨n, _, h1, hle, hfield, mem_checksAt.mpr (Or.inl ⟨rfl, hw⟩)⟩
    | rule hd hv hr hw =>
      obtain rfl := (List.cons.inj hpath).1
      obtain ⟨h1, hle, hfield⟩ := hrange hd
      exact ⟨n, _, h1, hle, hfield, mem_checksAt.mpr (Or.inr ⟨_, _, _, _, hv, hr, hw, rfl, rfl⟩)⟩
    | nested hd hv hsub h =>
      obtain ⟨k, rest, hdeep⟩ := h.path_eq
      rw [hdeep] at hpath
      cases hpath

/-- **`Validate` is exhaustive at the top only**: iff all failing checks are at data elements of
the message itself. -/
theorem validate_exhaustive_iff (ops : Ops K) {b : SchemaBuilder K} {s : Schema K}
    (hb : b.build = .ok s)
    (opts : CodecOptions) (rules : List Key → FieldRules K) (m : Message K)
    (hdec : ∀ de, m.has de = true → (m.get ops de).2.isSome = true) :
    Exhaustive (Fails ops rules (mtiText (m.get ops 0).2) [] s (some m))
        ((Codec.mk s opts).validate ops (fun de => rules [.de de.toNat]) m).2 ↔
      ∀ c w, Fails ops rules (mtiText (m.get ops 0).2) [] s (some m) c w →
        ∃ n, c.path = [.de n] := by
  have hs := SchemaBuilder.build_built hb
  rw [← topChecks_violations opts hdec]
  constructor
  · -- the reported checks are among the failing ones, and there are as many
    rintro ⟨-, cs, hnodup, hmem, heq⟩ c w hfails
    have hsub : topChecks ops s rules (mtiText (m.get ops 0).2) m ⊆ cs := by
      rintro ⟨c, w⟩ h
      exact (hmem c w).mpr ((mem_topChecks_iff hs).mp h).1
    have hlen : cs.length = (topChecks ops s rules (mtiText (m.get ops 0).2) m).length := by
      have hlength := congrArg List.length heq
      rwa [length_map, length_map] at hlength
    have hperm := (topChecks_nodup.of_map.subperm hsub).perm_of_length_le hlen.le
    exact ((mem_topChecks_iff hs).mp (hperm.mem_iff.mpr ((hmem c w).mpr hfails))).2
  · intro htop
    have hmem : ∀ c w, (c, w) ∈ topChecks ops s rules (mtiText (m.get ops 0).2) m ↔
        Fails ops rules (mtiText (m.get ops 0).2) [] s (some m) c w := by
      intro c w
      rw [mem_topChecks_iff hs]
      exact ⟨And.left, fun h => ⟨h, htop c w h⟩⟩
    refine ⟨?_, _, topChecks_nodup, hmem, rfl⟩
    rw [map_eq_nil_iff, eq_nil_iff_forall_not_mem]
    exact ⟨fun h c w hf => h (c, w) ((hmem c w).mpr hf),
      fun h p hp => h p.1 p.2 ((hmem p.1 p.2).mp hp)⟩

/-! ### A rule of a data element -/

def nestedMessage : Message Catalog :=
  match (Codec.mk nestedSchema ⟨false, false⟩).unmarshal (catalog 2) nestedWire with
  | .error _ => Message.new nestedSchema
  | .ok m => m

lemma nestedMessage_decodes (de : ℤ) (h : nestedMessage.has de = true) :
    (nestedMessage.get (catalog 2) de).2.isSome = true := by
  obtain ⟨sl, hsl, -⟩ := MessageOf.has_eq_true.mp h
  have h0 := MessageOf.nonneg_of_slot? hsl
  have h4 : de < 4 := MessageOf.lt_of_slot? hsl
  interval_cases de
  · rfl
  · cases h
  · rfl
  · cases h

def rulesAt (p : List Key) (r : FieldRules Catalog) : List Key → FieldRules Catalog := fun q =>
  if q = p then r else ⟨[], ⟨.optional, []⟩⟩

theorem validate_exhaustive_required : ∃ vs,
    ((Codec.mk nestedSchema ⟨false, false⟩).validate (catalog 2)
      (fun de => rulesAt [.de 3] ⟨[], ⟨.always, []⟩⟩ [.de de.toNat]) nestedMessage).2 = vs ∧
    vs = [⟨.de 3, -1, "required", "field required but absent"⟩] ∧
    Exhaustive (Fails (catalog 2) (rulesAt [.de 3] ⟨[], ⟨.always, []⟩⟩)
      (mtiText (nestedMessage.get (catalog 2) 0).2) [] nestedSchema (some nestedMessage)) vs := by
  refine ⟨_, rfl, rfl, ?_⟩
  refine (validate_exhaustive_iff (catalog 2) (b := nestedBuilder) rfl ⟨false, false⟩ _
    nestedMessage nestedMessage_decodes).mpr fun c w h => ?_
  have hruled := h.ruled
  unfold rulesAt at hruled
  by_cases hpath : c.path = [.de 3]
  · exact ⟨3, hpath⟩
  rw [if_neg hpath] at hruled
  rcases hruled with hc | hc
  · exact absurd rfl hc
  · exact absurd rfl hc

/-! ### A rule of a tag -/

/-- **A rule of a tag is not evaluated**: the text at 2.E1.9A is no digit, and there is no
violation. -/
theorem nested_rule_ignored : nestedBuilder.build = .ok nestedSchema ∧
    (Codec.mk nestedSchema ⟨false, false⟩).unmarshal (catalog 2) nestedWire = .ok nestedMessage ∧
    (nestedMessage.getP (catalog 2) innerText).2.map Value.raw = some [0x41] ∧
    (∃ w, Fails (catalog 2)
      (rulesAt [.de 2, .tag [0x45, 0x31], .tag [0x39, 0x41]] ⟨[digits], ⟨.optional, []⟩⟩)
      (mtiText (nestedMessage.get (catalog 2) 0).2) [] nestedSchema (some nestedMessage)
      (.rule [.de 2, .tag [0x45, 0x31], .tag [0x39, 0x41]] 0) w ∧ w.rule = "digits") ∧
    ((Codec.mk nestedSchema ⟨false, false⟩).validate (catalog 2)
      (fun de => rulesAt [.de 2, .tag [0x45, 0x31], .tag [0x39, 0x41]] ⟨[digits], ⟨.optional, []⟩⟩
        [.de de.toNat])
      nestedMessage).2 = [] := by
  refine ⟨rfl, rfl, rfl, ?_, rfl⟩
  refine ⟨_, .nested (k := .de 2) rfl rfl rfl
    (.nested (k := .tag [0x45, 0x31]) rfl rfl rfl
      (.rule (k := .tag [0x39, 0x41]) rfl rfl rfl rfl)), rfl⟩

end Isopace.Iso8583
