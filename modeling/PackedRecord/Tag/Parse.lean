import PackedRecord.SizeExpr.Parse
import PackedRecord.Tag.Basic

/-!
# Reading tags

The text of a tag has the form `[LENGTH]TYPE(SIZE),encoding=NAME`, every part of which may be
left out. Commas separate modifiers from the rest before anything else is looked at.
-/

namespace PackedRecord.Tag

open Text

/-- The text up to the first `separator`, and the pieces between the further ones. -/
def splitAt (separator : Char) : List Char → List Char × List (List Char)
  | [] => ([], [])
  | c :: rest =>
      let (piece, pieces) := splitAt separator rest
      if c = separator then ([], piece :: pieces) else (c :: piece, pieces)

/-- The text in front of the first `mark` and the text after it, if there is a mark. -/
def cutAt (mark : Char) : List Char → Option (List Char × List Char)
  | [] => none
  | c :: rest =>
      if c = mark then some ([], rest) else (cutAt mark rest).map fun cut => (c :: cut.1, cut.2)

/-- The brackets at the start of a tag, and the text after them. -/
def parseBrackets (resolve : Resolver) (text : List Char) :
    Except TagError (Brackets × List Char) :=
  match text with
  | '[' :: inner =>
      match cutAt ']' inner with
      | none => .error (.invalidExpression (String.ofList text) .unterminatedBracket)
      | some (lengthText, rest) => do
          match ← SizeExpr.parse resolve lengthText with
          | none => pure (.blank, rest)
          | some expr => pure (.length expr, rest)
  | _ => .ok (.absent, text)

/-- Whether the name of a type ends in front of `c`. -/
def endsTypeName (c : Char) : Bool :=
  isBlank c || c == '(' || c == ')'

/-- The wire type that a name stands for; no name and `any` leave it to the field. -/
def wireOfName (name : List Char) : Except TagError (Option WireType) :=
  if name.isEmpty then .ok none
  else
    match WireType.ofName? (String.ofList name) with
    | none => .error (.unknownType (String.ofList name))
    | some .any => .ok none
    | some wire => .ok (some wire)

/-- The buffer length in parentheses at the start of `text`, and the text after it. -/
def parseBufferLength (resolve : Resolver) (text : List Char) :
    Except TagError (Option SizeExpr × List Char) :=
  match text with
  | '(' :: inner =>
      match cutAt ')' inner with
      | none => .error (.invalidExpression (String.ofList text) .unterminatedBracket)
      | some (sizeText, rest) => do
          match ← SizeExpr.parse resolve sizeText with
          | none => throw (.invalidExpression (String.ofList sizeText) .emptyBufferLength)
          | some expr => pure (some expr, rest)
  | _ => .ok (none, text)

/-- The encoding that a modifier names. -/
def parseModifier (text : List Char) : Except TagError String :=
  match cutAt '=' text with
  | some (key, value) =>
      if String.ofList (trim key) = "encoding" ∧ trim value ≠ [] then
        .ok (String.ofList (trim value))
      else .error (.unknownModifier (String.ofList (trim text)))
  | none => .error (.unknownModifier (String.ofList (trim text)))

/-- The encoding that the last of the modifiers names; all of them have to be understood. -/
def parseModifiers (texts : List (List Char)) : Except TagError (Option String) := do
  let names ← texts.mapM parseModifier
  pure names.getLast?

/-- The tag in `text`, in which size expressions name fields through `resolve`. -/
def parseChars (resolve : Resolver) (text : List Char) : Except TagError Tag := do
  let (head, modifiers) := splitAt ',' text
  let (brackets, afterBrackets) ← parseBrackets resolve (trimStart head)
  let wire ← wireOfName (afterBrackets.takeWhile (!endsTypeName ·))
  let (bufferLength, rest) ←
    parseBufferLength resolve (afterBrackets.dropWhile (!endsTypeName ·))
  unless (trim rest).isEmpty do
    throw (.invalidExpression (String.ofList (trim rest)) .trailingText)
  let encoding ← parseModifiers modifiers
  pure ⟨wire, brackets, bufferLength, encoding⟩

/-- The tag in `text`, in which size expressions name fields through `resolve`. -/
def parse (resolve : Resolver) (text : String) : Except TagError Tag :=
  parseChars resolve text.toList

/-- The resolver that knows no field. -/
def noFields : Resolver := fun name => .error (.unknown name)

/-- The tag in a text that may not name any field. -/
def parseStandalone (text : String) : Except TagError Tag :=
  parse noFields text

end PackedRecord.Tag
