import PackedRecord.Encode.Value

/-!
# Encoders

An encoder writes any number of values to one sink, each after the other.
-/

namespace PackedRecord

/-- The encoding of a value with a tag that stands outside of any record. -/
def encodeTagged (settings : Settings) (tag : Tag) (value : Value) : Emission Unit := do
  let plan ← .ofExcept (Plan.resolve .top value tag none)
  encodeValue settings .top value plan

/-- An encoder and its sink. -/
structure Encoder where
  settings : Settings
  sink : Sink

namespace Encoder

/-- The number of bytes written so far. -/
def position (encoder : Encoder) : Nat := encoder.sink.position

/-- Carries out an emission on the sink. -/
def run {α : Type} (encoder : Encoder) (emission : Emission α) : Except Error α × Encoder :=
  match Sink.absorb emission.writes encoder.sink with
  | (.error error, sink) => (.error error, { encoder with sink })
  | (.ok (), sink) => (emission.outcome, { encoder with sink })

/-- Encodes a value as its tag says and gives the number of bytes. -/
def encodeAs (encoder : Encoder) (tag : Tag) (value : Value) : Except Error Nat × Encoder :=
  encoder.run (encodeTagged encoder.settings tag value).sized

/-- Encodes a value in its natural representation and gives the number of bytes. -/
def encode (encoder : Encoder) (value : Value) : Except Error Nat × Encoder :=
  encoder.encodeAs .empty value

/-- Flushes the sink. -/
def flush (encoder : Encoder) : Except Error Unit :=
  match encoder.sink.flush with
  | .ok () => .ok ()
  | .error fault => .error (.located .top (.transfer fault))

end Encoder

end PackedRecord
