/-!
# Size expressions

A size expression is a sum of signed operands, each an integer literal or a field of the same
record. Tags use them for array lengths and buffer lengths. This module holds the expressions and
what can be wrong with them.
-/

namespace PackedRecord

/-- One operand of a size expression. -/
inductive Operand where
  /-- An integer literal. -/
  | literal (value : Nat)
  /-- The field at `index`, which the expression called `name`. -/
  | field (index : Nat) (name : String)
  deriving DecidableEq, Repr

/-- An operand and whether it is subtracted. -/
structure Term where
  negative : Bool
  operand : Operand
  deriving DecidableEq, Repr

/-- A size expression: its terms in order, and its text without blanks at the ends. -/
structure SizeExpr where
  text : String
  terms : List Term
  deriving DecidableEq, Repr

/-- Why a size expression may not name a field. -/
inductive ReferenceFault where
  /-- There is no such field. -/
  | unknown (name : String)
  /-- The expression belongs to the field itself. -/
  | itself (name : String)
  /-- The field is decoded after the one that the expression belongs to. -/
  | notYetAvailable (name : String)
  deriving DecidableEq, Repr

/-- The text that describes the fault. -/
def ReferenceFault.message : ReferenceFault → String
  | .unknown name => s!"unknown field \"{name}\""
  | .itself name => s!"field \"{name}\" refers to itself"
  | .notYetAvailable name => s!"field \"{name}\" is not yet available"

/-- The position of a field that a size expression may name. -/
abbrev Resolver := String → Except ReferenceFault Nat

/-- What is wrong with a size expression, or with a part of a tag that holds one. -/
inductive ExprFault where
  /-- A sign, or the start of the text, has no operand after it. -/
  | missingOperand
  /-- A token that starts with a digit is no integer literal. -/
  | badInteger (token : String)
  /-- A token is neither an integer literal nor a name. -/
  | badOperand (token : String)
  /-- A name may not be used. -/
  | reference (fault : ReferenceFault)
  /-- A field is named, but there is no record to look it up in. -/
  | noRecord (name : String)
  /-- A named field does not hold an integer. -/
  | notInteger (name : String)
  /-- A partial sum does not fit into 64 bits. -/
  | overflow
  /-- A bracket is never closed. -/
  | unterminatedBracket
  /-- A pair of parentheses is empty. -/
  | emptyBufferLength
  /-- Text stands where the tag has to end. -/
  | trailingText
  deriving DecidableEq, Repr

/-- The text that describes the fault. -/
def ExprFault.message : ExprFault → String
  | .missingOperand => "missing operand"
  | .badInteger token => s!"bad integer \"{token}\""
  | .badOperand token => s!"bad operand \"{token}\""
  | .reference fault => fault.message
  | .noRecord name => s!"no record to look \"{name}\" up in"
  | .notInteger name => s!"field \"{name}\" is not an integer"
  | .overflow => "overflow"
  | .unterminatedBracket => "unterminated bracket"
  | .emptyBufferLength => "empty buffer length"
  | .trailingText => "unexpected trailing text"

/-- What is wrong with a tag. -/
inductive TagError where
  /-- The tag names a wire type that does not exist. -/
  | unknownType (name : String)
  /-- A modifier of the tag is not understood. -/
  | unknownModifier (modifier : String)
  /-- A size expression, or the text around one, is at fault. -/
  | invalidExpression (text : String) (fault : ExprFault)
  deriving DecidableEq, Repr

/-- The text that describes the error. -/
def TagError.message : TagError → String
  | .unknownType name => s!"unknown type name \"{name}\""
  | .unknownModifier modifier => s!"unknown tag modifier \"{modifier}\""
  | .invalidExpression text fault =>
      s!"invalid size expression \"{text}\": {fault.message}"

end PackedRecord
