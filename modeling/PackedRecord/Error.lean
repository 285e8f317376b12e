import PackedRecord.Host.Image
import PackedRecord.Path
import PackedRecord.SizeExpr.Eval
import PackedRecord.Text.Encodings

/-!
# Errors

Why a value could not be encoded or decoded. A fault has a place, the path to the value at which
it arose; the end of the input between two values has none.
-/

namespace PackedRecord

/-- What has no binary representation. -/
inductive Unencodable where
  /-- Values of the type, whatever the tag. -/
  | type (name : String)
  /-- Values of the type as the wire type. -/
  | mismatch (name : String) (wire : WireType)
  /-- A string in which the terminator of its wire type occurs. -/
  | ownTerminator (wire : WireType)
  /-- A string with an encoding whose length nothing gives. -/
  | unknownLength (wire : WireType) (encoding : String)
  deriving DecidableEq, Repr

/-- The text that names what cannot be encoded. -/
def Unencodable.toText : Unencodable → String
  | .type name => name
  | .mismatch name wire => s!"{name} as {wire.name}"
  | .ownTerminator wire => s!"{wire.name} containing its own terminator"
  | .unknownLength wire encoding =>
      s!"{wire.name} with encoding={encoding} and no buffer length"

/-- The text of the value that does not convert. -/
def ConversionFault.valueText : ConversionFault → String
  | .outsideWire value _ => value.toText
  | .outsideHost value _ => value.toText
  | .mismatch host _ => host.name

/-- The text of what the value does not convert to. -/
def ConversionFault.targetText : ConversionFault → String
  | .outsideWire _ wire => wire.name
  | .outsideHost _ host => host.name
  | .mismatch _ wire => wire.name

/-- What goes wrong at a place. -/
inductive Fault where
  /-- The tag of the field is at fault. -/
  | tag (error : TagError)
  /-- A length is negative. -/
  | negativeSize (size : Int)
  /-- A buffer length is zero. -/
  | zeroBufferLength
  /-- The value has no representation. -/
  | notEncodable (what : Unencodable)
  /-- A number does not fit where it is to go. -/
  | notFit (value target : String)
  /-- A sequence is longer than its array. -/
  | arrayTooLarge (length greatest : Nat)
  /-- A string is longer than its buffer or its length field allows. -/
  | stringTooLong (length greatest : Nat)
  /-- No codec is registered under the name. -/
  | unknownEncoding (name : String)
  /-- A codec failed. -/
  | textEncoding (fault : TransferFault)
  /-- The bytes of a string are not UTF-8. -/
  | invalidUtf8 (fault : Text.Utf8.Fault)
  /-- The destination is read only. -/
  | cannotSet
  /-- A record is tagged as an array. -/
  | notAnArray
  /-- A reference leads nowhere. -/
  | nullReference
  /-- The value lies too deep. -/
  | recursionLimit
  /-- A sequence would become too long. -/
  | collectLimit (length : Nat)
  /-- A string would become too long. -/
  | blobLimit (length : Nat)
  /-- The input ends within a value. -/
  | unexpectedEnd
  /-- The sink or the source failed. -/
  | transfer (fault : TransferFault)
  deriving DecidableEq, Repr

/-- The text that describes the fault. -/
def Fault.message : Fault → String
  | .tag error => error.message
  | .negativeSize size => s!"the size must not be negative (got {size})"
  | .zeroBufferLength => "element size must not be zero"
  | .notEncodable what => s!"{what.toText} is not encodable"
  | .notFit value target => s!"value {value} not fit in {target}"
  | .arrayTooLarge length greatest =>
      s!"array too large to fit: len {length}, size {greatest}"
  | .stringTooLong length greatest => s!"string too long: len {length}, max {greatest}"
  | .unknownEncoding name => s!"unknown text encoding {name}"
  | .textEncoding fault => s!"text encoding failed: {fault.message}"
  | .invalidUtf8 fault => s!"decoded string is not UTF-8: {fault.message}"
  | .cannotSet => "the value cannot be set"
  | .notAnArray => "must be an array or slice type"
  | .nullReference => "null reference"
  | .recursionLimit => "recursion limit exceeded"
  | .collectLimit length => s!"collection size limit exceeded ({length} elements)"
  | .blobLimit length => s!"blob size limit exceeded ({length} bytes)"
  | .unexpectedEnd => "unexpected end of stream"
  | .transfer fault => fault.message

/-- The text of the error that the fault passes on, if it does. -/
def Fault.cause? : Fault → Option String
  | .tag error => some error.message
  | .textEncoding fault => some fault.message
  | .invalidUtf8 fault => some fault.message
  | .transfer fault => some fault.message
  | _ => none

/-- Why an operation failed. -/
inductive Error where
  /-- The input ends where a value would begin. -/
  | endOfStream
  /-- A fault at a place. -/
  | located (path : Path) (fault : Fault)
  /-- A broken contract. -/
  | broken (defect : Defect)
  deriving DecidableEq, Repr

namespace Error

/-- The text that describes the error. -/
def message : Error → String
  | endOfStream => "end of stream"
  | located path fault => path.toText ++ fault.message
  | broken defect => defect.message

/-- The text of the error that this one passes on, if it does. -/
def cause? : Error → Option String
  | located _ fault => fault.cause?
  | _ => none

/-- Whether the input ended cleanly, between two values. -/
def isEndOfStream (error : Error) : Bool :=
  error = endOfStream

end Error

/-- The fault that a failed conversion is. -/
def ConversionFault.toFault (fault : ConversionFault) : Fault :=
  match fault with
  | .mismatch host wire => .notEncodable (.mismatch host.name wire)
  | fault => .notFit fault.valueText fault.targetText

/-- The error that a failed evaluation at a place is. -/
def EvalError.toError (path : Path) : EvalError → Error
  | .tag error => .located path (.tag error)
  | .broken defect => .broken defect

end PackedRecord
