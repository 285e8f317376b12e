import PackedRecord.SizeExpr.Basic
import PackedRecord.SizeExpr.Literal
import PackedRecord.Text.Alphanumeric
import PackedRecord.Text.Blank

/-!
# Reading size expressions

The terms of a size expression stand one after another, each with an optional sign. Blanks may
stand between a sign and its operand and around every term; a term without a sign needs one in
front unless it is the first.
-/

namespace PackedRecord.SizeExpr

open Text

/-- Whether `c` belongs to an operand: no blank and no sign. -/
def isOperandChar (c : Char) : Bool :=
  !(isBlank c || c == '+' || c == '-')

/-- Whether a name may hold `c`. -/
def isNameChar (c : Char) : Bool :=
  c == '_' || isAlphanumeric c

/-- The optional sign in front of a term, and the text after it and the blanks that follow it. -/
def splitSign : List Char → Bool × List Char
  | '+' :: rest => (false, trimStart rest)
  | '-' :: rest => (true, trimStart rest)
  | rest => (false, rest)

/-- The operand that a token stands for. -/
def operandOf (resolve : Resolver) (token : List Char) : Except ExprFault Operand :=
  match token with
  | [] => .error .missingOperand
  | first :: _ =>
      if first.isDigit then
        match Literal.value? token with
        | some value => .ok (.literal value)
        | none => .error (.badInteger (String.ofList token))
      else if token.all isNameChar then
        match resolve (String.ofList token) with
        | .ok index => .ok (.field index (String.ofList token))
        | .error fault => .error (.reference fault)
      else .error (.badOperand (String.ofList token))

/-- Leaving out leading blanks makes no text longer. -/
theorem length_trimStart_le (text : List Char) : (trimStart text).length ≤ text.length :=
  (List.dropWhile_sublist _).length_le

/-- Cutting off a sign makes no text longer. -/
theorem length_splitSign_le (text : List Char) : (splitSign text).2.length ≤ text.length := by
  unfold splitSign
  split
  · have := length_trimStart_le ‹_›
    simp only [List.length_cons]
    omega
  · have := length_trimStart_le ‹_›
    simp only [List.length_cons]
    omega
  · exact Nat.le_refl _

/-- A token that is an operand has at least one character. -/
theorem takeWhile_ne_nil_of_operandOf {resolve : Resolver} {token : List Char} {operand : Operand}
    (h : operandOf resolve token = .ok operand) : token ≠ [] := by
  rintro rfl
  cases h

/-- What follows a token that is not empty is shorter than the text. -/
theorem length_dropWhile_lt {p : Char → Bool} {text : List Char} (h : text.takeWhile p ≠ []) :
    (text.dropWhile p).length < text.length := by
  have hsplit := congrArg List.length (List.takeWhile_append_dropWhile (p := p) (l := text))
  have hpos := List.length_pos_iff.2 h
  rw [List.length_append] at hsplit
  omega

/-- The terms of a text that does not start with a blank. -/
def parseTerms (resolve : Resolver) (text : List Char) : Except ExprFault (List Term) :=
  if text.isEmpty then .ok []
  else
    let signed := splitSign text
    match h : operandOf resolve (signed.2.takeWhile isOperandChar) with
    | .error fault => .error fault
    | .ok operand =>
        have : (trimStart (signed.2.dropWhile isOperandChar)).length < text.length :=
          Nat.lt_of_le_of_lt (length_trimStart_le _)
            (Nat.lt_of_lt_of_le (length_dropWhile_lt (takeWhile_ne_nil_of_operandOf h))
              (length_splitSign_le text))
        (parseTerms resolve (trimStart (signed.2.dropWhile isOperandChar))).map
          (⟨signed.1, operand⟩ :: ·)
termination_by text.length

/-- The size expression in `text`, or nothing if the text is blank. -/
def parse (resolve : Resolver) (text : List Char) : Except TagError (Option SizeExpr) :=
  let trimmed := String.ofList (trim text)
  match parseTerms resolve (trimStart text) with
  | .error fault => .error (.invalidExpression trimmed fault)
  | .ok [] => .ok none
  | .ok terms => .ok (some ⟨trimmed, terms⟩)

end PackedRecord.SizeExpr
