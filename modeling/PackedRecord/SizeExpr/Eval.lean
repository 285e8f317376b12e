import PackedRecord.Host.Image
import PackedRecord.Host.Value

/-!
# Values of size expressions

A size expression is evaluated from left to right against the fields of a record. Every partial
sum has to fit into 64 bits. A field counts if it holds an integer, which truth values are not, or
a finite floating-point number, which is cut off at the point.
-/

namespace PackedRecord

-- Powers are those of the core library, whichever others are in scope.
attribute [local instance (high)] instPowNat

/-- The least 64-bit integer. -/
def int64Min : Int := -2 ^ (63 : Nat)

/-- The greatest 64-bit integer. -/
def int64Max : Int := 2 ^ (63 : Nat) - 1

/-- `value`, if it fits into 64 bits. -/
def int64? (value : Int) : Option Int :=
  if int64Min ≤ value ∧ value ≤ int64Max then some value else none

/-- What a value counts in a size expression. -/
def Value.size? (value : Value) : Option Int :=
  match value.target with
  | .scalar (.bool _) => none
  | .scalar number => number.toNumber.integer?.bind int64?
  | _ => none

/-- Why a size expression has no value. -/
inductive EvalError where
  | tag (error : TagError)
  | broken (defect : Defect)
  deriving DecidableEq, Repr

namespace SizeExpr

/-- The value of an operand of the expression with the given text. -/
def operandValue (text : String) (record : Option Record) (operand : Operand) :
    Except EvalError Int :=
  match operand with
  | .literal value => .ok value
  | .field index name =>
      match record with
      | none => .error (.tag (.invalidExpression text (.noRecord name)))
      | some record =>
          match record.field index with
          | .error defect => .error (.broken defect)
          | .ok value =>
              match value.size? with
              | some size => .ok size
              | none => .error (.tag (.invalidExpression text (.notInteger name)))

/-- The sum of `start` and the terms. -/
def sumFrom (text : String) (record : Option Record) : (start : Int) → List Term →
    Except EvalError Int
  | start, [] => .ok start
  | start, term :: terms =>
      match operandValue text record term.operand with
      | .error error => .error error
      | .ok value =>
          match int64? (if term.negative then start - value else start + value) with
          | none => .error (.tag (.invalidExpression text .overflow))
          | some sum => sumFrom text record sum terms

/-- The value of the expression against the fields of `record`. -/
def eval (expr : SizeExpr) (record : Option Record) : Except EvalError Int :=
  sumFrom expr.text record 0 expr.terms

end SizeExpr

end PackedRecord
