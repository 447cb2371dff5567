import Isopace.Iso8583.Codec

/-!
# Validation

Model of `Codec.Validate` (codec.go 164-215) and of the rules it reads (schema.go, lines
36-48, 61-62), which are held beside the schema.
-/

namespace Isopace.Iso8583

open Lib

variable {K : Codecs}

/-- `Violation`, errors.go:55. -/
structure Violation where
  path : FieldPath
  offset : ℤ
  rule : String
  msg : String
  deriving DecidableEq, Repr

/-- `RequiredMode`, schema.go:36. -/
inductive RequiredMode
  | optional
  | always
  | onMTI
  deriving DecidableEq, Repr

/-- `RequiredRule`, schema.go:45. -/
structure RequiredRule where
  mode : RequiredMode
  mtiClasses : List Bytes
  deriving DecidableEq, Repr

/-- `Validator`, validate.go:23. -/
abbrev Validator (K : Codecs) := Value K → FieldDef K → Option Violation

/-- `violate`, validate.go:33. -/
def violate (v : Value K) (rule msg : String) : Violation := ⟨.zero, v.off, rule, msg⟩

/-- `Digits`, validate.go:49. -/
def digits : Validator K := fun v _ =>
  if v.raw.any (fun c => decide (c < 0x30 ∨ c > 0x39)) then some
    (violate v "digits" "non-digit byte in value")
  else none

/-- The fields `Validate` and `Required` of a `FieldDef`. -/
structure FieldRules (K : Codecs) where
  validate : List (Validator K)
  required : RequiredRule

/-- `mtiInClasses`, codec.go:313. -/
def mtiInClasses (mti : Bytes) (classes : List Bytes) : Bool :=
  classes.any fun c => c.isPrefixOf mti

/-- The violation of the presence rule. -/
def requiredViolation (rule : RequiredRule) (d : FieldDef K) (mti : Bytes) (present : Bool) :
    List Violation :=
  match rule.mode with
  | .optional => []
  | .always => if present then [] else [⟨d.path, -1, "required", "field required but absent"⟩]
  | .onMTI =>
    if ¬ present ∧ mtiInClasses mti rule.mtiClasses then
      [⟨d.path, -1, "required", "field required for MTI but absent"⟩]
    else []

/-- The violations of the validators. -/
def ruleViolations (rules : List (Validator K)) (v : Value K) (d : FieldDef K) : List Violation :=
  rules.filterMap fun rule => (rule v d).map fun viol =>
    if viol.path.isZero then { viol with path := d.path } else viol

/-- The violations of one data element, `read` being what `Get` returns. -/
def fieldViolations (rules : FieldRules K) (d : FieldDef K) (mti : Bytes) (present : Bool)
    (read : Option (Value K)) : List Violation :=
  requiredViolation rules.required d mti present ++
    if ¬ present then []
    else
      match read with
      | none => [⟨d.path, -1, "decode", "field present but could not be decoded"⟩]
      | some v => ruleViolations rules.validate v d

def validateFrom (ops : Ops K) (s : Schema K) (rules : ℤ → FieldRules K) (mti : Bytes) :
    List ℕ → Message K → Message K × List Violation
  | [], m => (m, [])
  | de :: des, m =>
    match s.field de with
    | none => validateFrom ops s rules mti des m
    | some d =>
      -- `Get` is called for a field that is present only
      let g := if m.has de then m.get ops de else (m, none)
      let r := validateFrom ops s rules mti des g.1
      (r.1, fieldViolations (rules de) d mti (m.has de) g.2 ++ r.2)

/-- The MTI that `Validate` compares. -/
def mtiText (v : Option (Value K)) : Bytes :=
  match v with
  | none => []
  | some v => (v.text.toOption).getD []

/-- `Validate`, codec.go:164. -/
def Codec.validate (ops : Ops K) (c : Codec K) (rules : ℤ → FieldRules K) (m : Message K) :
    Message K × List Violation :=
  let g := m.get ops 0
  validateFrom ops c.schema rules (mtiText g.2) (List.range' 1 c.schema.maxDE) g.1

end Isopace.Iso8583
