import PackedRecord.Proofs.ExpressionValues
import PackedRecord.Proofs.TagGrammar

/-!
# Integer literals

Which tokens are integer literals, said without the function that reads them: `Literal.Reads` is
the grammar, which takes the marks of a radix from the front of a token and a number in this radix
from the rest, and `Literal.Writes` is how a number is written in a radix, with underscores and in
either case. `Literal.value?_eq_some_iff_reads` says that reading follows the grammar, and
`Literal.reads_back` that what was written reads back. One spelling is left out: behind a zero,
underscores alone make the zero a mark of octal digits that are missing, as
`Literal.value?_bareZero` says.
-/

namespace PackedRecord

namespace Literal

variable {radix value digit : Nat} {c : Char} {token text : List Char} {digits : List Nat}

/-! ## Digits -/

/-- Below sixteen, a digit is written with a decimal digit or a small letter. -/
theorem toNat_digitChar (h : digit < 16) :
    digit.digitChar.toNat = if digit < 10 then '0'.toNat + digit else 'a'.toNat + (digit - 10) := by
  revert digit
  decide

/-- The digits of a radix are the characters that these numbers are written with. -/
theorem digitValue?_eq_some_iff (hradix : radix ≤ 16) :
    digitValue? radix c = some digit ↔ digit < radix ∧ c = digit.digitChar := by
  have hzero : '0'.toNat = 48 := rfl
  have hnine : '9'.toNat = 57 := rfl
  have ha : 'a'.toNat = 97 := rfl
  have hz : 'z'.toNat = 122 := rfl
  have hle (c d : Char) : c ≤ d ↔ c.toNat ≤ d.toNat := UInt32.le_iff_toNat_le
  -- Both sides are compared by the numbers of the characters.
  unfold digitValue?
  simp only [Option.filter_eq_some_iff, decide_eq_true_eq, hle]
  constructor
  · rintro ⟨hvalue, hlt⟩
    refine ⟨hlt, Char.toNat_inj.1 ?_⟩
    rw [toNat_digitChar (by omega)]
    grind
  · rintro ⟨hlt, rfl⟩
    rw [toNat_digitChar (by omega)]
    refine ⟨?_, hlt⟩
    grind

/-- Characters are the digits of a radix exactly if they are how these are written. -/
theorem forall₂_digitValue?_iff (hradix : radix ≤ 16) :
    List.Forall₂ (fun c digit => digitValue? radix c = some digit) text digits ↔
      text = digits.map Nat.digitChar ∧ ∀ digit ∈ digits, digit < radix := by
  simp only [digitValue?_eq_some_iff hradix]
  induction digits generalizing text with
  | nil => simp [List.forall₂_nil_right_iff]
  | cons digit digits ih =>
      simp only [List.forall₂_cons_right_iff, ih, List.map_cons, List.forall_mem_cons]
      constructor
      · rintro ⟨c, text, ⟨hlt, rfl⟩, ⟨rfl, hdigits⟩, rfl⟩
        exact ⟨rfl, hlt, hdigits⟩
      · rintro ⟨rfl, hlt, hdigits⟩
        exact ⟨_, _, ⟨hlt, rfl⟩, ⟨rfl, hdigits⟩, rfl⟩

/-- A text that is, underscores aside, the digits of a radix, of which there is at least one. -/
structure Numeral (radix : Nat) (text : List Char) (digits : List Nat) : Prop where
  ne_nil : digits ≠ []
  lt : ∀ digit ∈ digits, digit < radix
  chars : text.filter (· != '_') = digits.map Nat.digitChar

/-- Every character of a number is an underscore or one of its digits. -/
theorem Numeral.mem (h : Numeral radix text digits) (hc : c ∈ text) :
    c = '_' ∨ ∃ digit < radix, c = digit.digitChar := by
  by_cases hscore : c = '_'
  · exact .inl hscore
  · have hkept : c ∈ text.filter (· != '_') := List.mem_filter.2 ⟨hc, bne_iff_ne.2 hscore⟩
    rw [h.chars] at hkept
    obtain ⟨digit, hdigit, rfl⟩ := List.mem_map.1 hkept
    exact .inr ⟨digit, h.lt digit hdigit, rfl⟩

/-- A numeral has at least one character. -/
theorem Numeral.text_ne_nil (h : Numeral radix text digits) : text ≠ [] := by
  rintro rfl
  exact h.ne_nil (List.map_eq_nil_iff.1 h.chars.symm)

/-! ## The grammar -/

/-- The letters that select a radix behind a zero. -/
inductive Letter : Char → Nat → Prop where
  | hexadecimal : Letter 'x' 16
  | octal : Letter 'o' 8
  | binary : Letter 'b' 2

/-- Every radix that a letter selects is greater than one. -/
theorem Letter.one_lt (h : Letter c radix) : 1 < radix := by
  cases h <;> decide

/-- The marks at the start of a token in lower case, the radix that they select, and the rest. A
zero in front of anything else marks octal digits; without marks, the digits are decimal. -/
inductive Marked : List Char → Nat → List Char → Prop where
  | letter {letter : Char} {radix : Nat} {text : List Char} (hletter : Letter letter radix) :
      Marked ('0' :: letter :: text) radix text
  | zero {text : List Char} (hne : text ≠ []) : Marked ('0' :: text) 8 text
  | unmarked {text : List Char} (hhead : text = ['0'] ∨ text.head? ≠ some '0') :
      Marked text 10 text

/-- The token is, in lower case, a literal of `value`: marks of a radix and a number in this radix,
of which `value` is the positional value and at most `2 ^ 63 - 1`. -/
def Reads (token : List Char) (value : Nat) : Prop :=
  ∃ radix text digits, Marked (token.map Char.toLower) radix text ∧ Numeral radix text digits ∧
    value = Nat.ofDigits radix digits.reverse ∧ value ≤ 2 ^ 63 - 1

/-- Taking the marks off a token follows the grammar of marks. -/
theorem marked_splitRadix (token : List Char) :
    Marked token (splitRadix token).1 (splitRadix token).2 := by
  fun_cases splitRadix token
  case case1 => exact .letter .hexadecimal
  case case2 => exact .letter .octal
  case case3 => exact .letter .binary
  case case4 => exact .zero (List.cons_ne_nil _ _)
  case case5 _ _ _ hlone =>
    refine .unmarked ?_
    rcases token with _ | ⟨first, _ | ⟨second, rest⟩⟩
    · exact .inr (by simp)
    · simp [or_iff_not_imp_left]
    · refine .inr fun hfirst => hlone second rest ?_
      rw [Option.some.inj hfirst]

/-- No radix is greater than sixteen. -/
theorem splitRadix_le (token : List Char) : (splitRadix token).1 ≤ 16 := by
  fun_cases splitRadix token <;> simp

/-- In front of a number in the radix that they select, the marks are found. The letters that select
a radix are no octal digits, so that a zero in front of octal digits is never taken together with
one. -/
theorem Marked.splitRadix (hmarked : Marked token radix text) (h : Numeral radix text digits) :
    splitRadix token = (radix, text) := by
  cases hmarked with
  | letter hletter => cases hletter <;> rfl
  | zero hne =>
      obtain ⟨first, rest, rfl⟩ := List.exists_cons_of_ne_nil hne
      have hfirst : first = '_' ∨ first.isDigit = true := by
        rcases h.mem List.mem_cons_self with rfl | ⟨digit, hlt, rfl⟩
        · exact .inl rfl
        · rw [Nat.isDigit_digitChar, decide_eq_true_eq]
          exact .inr (by omega)
      have hother (letter : Char) (hscore : letter ≠ '_') (hletter : letter.isDigit = false) :
          first ≠ letter := by
        rintro rfl
        simp [hscore, hletter] at hfirst
      simp [Literal.splitRadix, hother 'x', hother 'o', hother 'b']
  | unmarked hhead =>
      rcases hhead with rfl | hhead
      · rfl
      · cases token with
        | nil => rfl
        | cons first rest =>
            have hfirst : first ≠ '0' := by simpa using hhead
            simp [Literal.splitRadix, hfirst]

/-- Exactly the literals of the grammar are read, each as its value. -/
theorem value?_eq_some_iff_reads : value? token = some value ↔ Reads token value := by
  rw [value?_eq_some_iff]
  constructor
  · rintro ⟨digits, hne, hdigits, hvalue, hlt⟩
    obtain ⟨hchars, hdigits⟩ := (forall₂_digitValue?_iff (splitRadix_le _)).1 hdigits
    exact ⟨_, _, digits, marked_splitRadix _, ⟨hne, hdigits, hchars⟩, hvalue, Nat.le_pred_of_lt hlt⟩
  · rintro ⟨radix, text, digits, hmarked, hnumeral, hvalue, hle⟩
    have hsplit := hmarked.splitRadix hnumeral
    have hradix : radix ≤ 16 := by
      have := splitRadix_le (token.map Char.toLower)
      rwa [hsplit] at this
    refine ⟨digits, hnumeral.ne_nil, ?_, ?_, Nat.lt_of_le_pred (by decide) hle⟩
    · rw [hsplit]
      exact (forall₂_digitValue?_iff hradix).2 ⟨hnumeral.chars, hnumeral.lt⟩
    · rwa [hsplit]

/-! ## Writing -/

/-- The text is `value` written in the radix, in either case and with underscores anywhere. -/
def Spelling (radix value : Nat) (text : List Char) : Prop :=
  (text.map Char.toLower).filter (· != '_') = Nat.toDigits radix value

/-- The token is `value` written in one of the radices: behind its marks, in either case, with
underscores anywhere behind the marks or, in a decimal number, behind its first digit. -/
inductive Writes (value : Nat) : List Char → Prop where
  | letter {letter : Char} {radix : Nat} {text : List Char}
      (hletter : Letter letter.toLower radix) (htext : Spelling radix value text) :
      Writes value ('0' :: letter :: text)
  | zero {text : List Char} (htext : Spelling 8 value text) : Writes value ('0' :: text)
  | decimal {first : Char} {rest : List Char} (hfirst : first.isDigit = true)
      (htext : Spelling 10 value (first :: rest)) : Writes value (first :: rest)

/-- A zero with underscores behind it and nothing else. -/
def IsBareZero (token : List Char) : Prop :=
  ∃ count, token = '0' :: List.replicate (count + 1) '_'

/-- The digits of a number, written from the most significant one to the least. -/
theorem toDigits_eq (hradix : 1 < radix) (hvalue : 0 < value) :
    Nat.toDigits radix value = (Nat.digits radix value).reverse.map Nat.digitChar := by
  induction value using Nat.strong_induction_on with
  | _ value ih =>
      rw [Nat.digits_def' hradix hvalue, List.reverse_cons, List.map_append]
      by_cases hlt : value < radix
      · rw [Nat.toDigits_of_lt_base hlt, Nat.mod_eq_of_lt hlt, Nat.div_eq_of_lt hlt]
        simp
      · have hle : radix ≤ value := Nat.le_of_not_lt hlt
        rw [Nat.toDigits_of_base_le hradix hle,
          ih _ (Nat.div_lt_self hvalue hradix) (Nat.div_pos hle (Nat.zero_lt_of_lt hradix))]
        rfl

/-- What is written in a radix is a number in this radix, and the value of the digits. -/
theorem Spelling.exists_numeral (h : Spelling radix value text) (hradix : 1 < radix) :
    ∃ digits, Numeral radix (text.map Char.toLower) digits ∧
      value = Nat.ofDigits radix digits.reverse := by
  rcases Nat.eq_zero_or_pos value with rfl | hvalue
  · have hpos : 0 < radix := Nat.zero_lt_of_lt hradix
    refine ⟨[0], ⟨by simp, by simpa using hpos, h.trans ?_⟩, by simp⟩
    rw [Nat.toDigits_of_lt_base hpos]
    rfl
  · refine ⟨(Nat.digits radix value).reverse, ⟨?_, ?_, h.trans (toDigits_eq hradix hvalue)⟩, ?_⟩
    · simpa [Nat.digits_eq_nil_iff_eq_zero] using hvalue.ne'
    · intro digit hdigit
      exact Nat.digits_lt_base hradix (List.mem_reverse.1 hdigit)
    · rw [List.reverse_reverse, Nat.ofDigits_digits]

/-- Only zero is written with a zero in front. -/
theorem eq_zero_of_toDigits (hradix : 1 < radix) (hle : radix ≤ 16)
    (h : Nat.toDigits radix value = '0' :: text) : value = 0 := by
  by_contra hne
  have hlast : (Nat.digits radix value).getLast? = some ((Nat.digits radix value).getLast
      (Nat.digits_ne_nil_iff_ne_zero.2 hne)) := List.getLast?_eq_some_getLast _
  have hhead : (Nat.toDigits radix value).head? = some '0' := by rw [h]; rfl
  rw [toDigits_eq hradix (Nat.pos_of_ne_zero hne), List.head?_map, List.head?_reverse, hlast,
    Option.map_some, Option.some.injEq] at hhead
  have hlt := Nat.digits_lt_base hradix (List.getLast_mem (Nat.digits_ne_nil_iff_ne_zero.2 hne))
  have hchar : ∀ digit < 16, digit.digitChar = '0' → digit = 0 := by decide
  exact Nat.getLast_digit_ne_zero radix hne (hchar _ (hlt.trans_le hle) hhead)

/-- Only the underscore becomes one in lower case. -/
theorem toLower_eq_underscore (h : c.toLower = '_') : c = '_' := by
  unfold Char.toLower at h
  split at h
  next hupper =>
    have hrange : 'A'.toNat ≤ c.toNat ∧ c.toNat ≤ 'Z'.toNat :=
      hupper.imp UInt32.le_iff_toNat_le.1 UInt32.le_iff_toNat_le.1
    have hsum : (c.toNat + 32) % 2 ^ 32 = '_'.toNat := congrArg Char.toNat h
    have hbounds : 'A'.toNat = 65 ∧ 'Z'.toNat = 90 ∧ '_'.toNat = 95 := ⟨rfl, rfl, rfl⟩
    omega
  next => exact h

/-- A decimal number does not start with a zero unless it is one: what would follow the zero is
underscores, and these make the zero a mark. -/
theorem Spelling.unmarked {first : Char} {rest : List Char} (hfirst : first.isDigit = true)
    (h : Spelling 10 value (first :: rest)) (hbare : ¬IsBareZero (first :: rest)) :
    Marked ((first :: rest).map Char.toLower) 10 ((first :: rest).map Char.toLower) := by
  have hupper : first.isUpper = false := by
    simp only [Char.isDigit, Char.isUpper, Bool.and_eq_true, decide_eq_true_eq,
      decide_eq_false_iff_not] at hfirst ⊢
    grind
  refine .unmarked ?_
  by_cases hzero : first = '0'
  · subst hzero
    have hdigits : Nat.toDigits 10 value = '0' :: (rest.map Char.toLower).filter (· != '_') :=
      h.symm
    rw [eq_zero_of_toDigits (by decide) (by decide) hdigits] at hdigits
    have hnone := (List.cons.inj hdigits).2.symm
    have hscores : rest = List.replicate rest.length '_' := by
      refine List.eq_replicate_of_mem fun c hc => toLower_eq_underscore ?_
      simpa using List.filter_eq_nil_iff.1 hnone _ (List.mem_map_of_mem hc)
    cases rest with
    | nil => exact .inl rfl
    | cons second rest => exact absurd ⟨rest.length, congrArg ('0' :: ·) hscores⟩ hbare
  · refine .inr ?_
    simpa [toLower_eq_self hupper] using hzero

/-- What is written is in the grammar. -/
theorem Writes.reads (h : Writes value token) (hvalue : value ≤ 2 ^ 63 - 1)
    (hbare : ¬IsBareZero token) : Reads token value := by
  cases h with
  | letter hletter htext =>
      obtain ⟨digits, hnumeral, hdigits⟩ := htext.exists_numeral hletter.one_lt
      exact ⟨_, _, digits, .letter hletter, hnumeral, hdigits, hvalue⟩
  | zero htext =>
      obtain ⟨digits, hnumeral, hdigits⟩ := htext.exists_numeral (by decide)
      exact ⟨_, _, digits, .zero hnumeral.text_ne_nil, hnumeral, hdigits, hvalue⟩
  | decimal hfirst htext =>
      obtain ⟨digits, hnumeral, hdigits⟩ := htext.exists_numeral (by decide)
      exact ⟨_, _, digits, htext.unmarked hfirst hbare, hnumeral, hdigits, hvalue⟩

/-- A zero with nothing but underscores behind it is no literal. -/
theorem value?_bareZero (h : IsBareZero token) : value? token = none := by
  obtain ⟨count, rfl⟩ := h
  have hlower : ('0' :: List.replicate (count + 1) '_').map Char.toLower =
      '0' :: List.replicate (count + 1) '_' := by
    simp
  have hsplit : splitRadix ('0' :: List.replicate (count + 1) '_') =
      (8, List.replicate (count + 1) '_') := rfl
  unfold value?
  simp only [hlower, hsplit, List.filter_replicate]
  rfl

/-! ## Tokens -/

/-- A token as it is cut out of an expression, which starts with a digit and holds neither blanks
nor signs. -/
structure IsToken (token : List Char) : Prop where
  head : ∃ first rest, token = first :: rest ∧ first.isDigit = true
  chars : ∀ c ∈ token, SizeExpr.isOperandChar c = true

/-- A written number starts with a decimal digit. -/
theorem Writes.head (h : Writes value token) :
    ∃ first rest, token = first :: rest ∧ first.isDigit = true := by
  cases h with
  | letter => exact ⟨'0', _, rfl, rfl⟩
  | zero => exact ⟨'0', _, rfl, rfl⟩
  | decimal hfirst => exact ⟨_, _, rfl, hfirst⟩

/-- A literal that starts with a digit is a token. -/
theorem isToken_of_value? (hhead : ∃ first rest, token = first :: rest ∧ first.isDigit = true)
    (h : value? token = some value) : IsToken token := by
  refine ⟨hhead, ?_⟩
  obtain ⟨first, rest, rfl, hdigit⟩ := hhead
  have htext : SizeExpr.OperandText Tag.noFields (first :: rest) (.literal value) :=
    .literal hdigit h
  exact htext.isOperandChar

/-- A token has no blanks at its ends. -/
theorem IsToken.isTrimmed (h : IsToken token) : Text.IsTrimmed token :=
  ⟨fun c hc => SizeExpr.isBlank_of_isOperandChar (h.chars c (List.mem_of_mem_head? hc)),
    fun c hc => SizeExpr.isBlank_of_isOperandChar (h.chars c (List.mem_of_mem_getLast? hc))⟩

end Literal

namespace SizeExpr

open Text

variable {resolve : Resolver} {token : List Char} {value : Nat}

/-- A token alone is a term without a sign. -/
theorem parseTerms_of_isToken (h : Literal.IsToken token) :
    parseTerms resolve token =
      (operandOf resolve token).map fun operand => [⟨false, operand⟩] := by
  obtain ⟨first, rest, rfl, -⟩ := h.head
  have hsign : splitSign (first :: rest) = (false, first :: rest) :=
    splitSign_append .absent (h.chars first List.mem_cons_self)
  rw [parseTerms_of_ne_nil (by simp), hsign, List.takeWhile_eq_self_iff.2 h.chars,
    List.dropWhile_eq_nil_iff.2 h.chars]
  cases operandOf resolve (first :: rest) with
  | error fault => rfl
  | ok operand =>
      rw [trimStart, List.dropWhile_nil, parseTerms]
      rfl

/-- A token that starts with a digit is an expression if it is a literal; otherwise it is a bad
integer. -/
theorem parse_of_isToken (h : Literal.IsToken token) :
    parse resolve token =
      match Literal.value? token with
      | some value => .ok (some ⟨String.ofList token, [⟨false, .literal value⟩]⟩)
      | none => .error (.invalidExpression (String.ofList token)
          (.badInteger (String.ofList token))) := by
  have hstart : trimStart token = token :=
    dropWhile_append (List.forall_mem_nil _) h.isTrimmed.1
  have htrim : trim token = token := by
    simpa using trim_append (List.forall_mem_nil _) (List.forall_mem_nil _) h.isTrimmed
  have hoperand : operandOf resolve token =
      match Literal.value? token with
      | some value => .ok (.literal value)
      | none => .error (.badInteger (String.ofList token)) := by
    obtain ⟨first, rest, rfl, hdigit⟩ := h.head
    cases hvalue : Literal.value? (first :: rest) <;>
      simp only [operandOf, hdigit, hvalue, if_true]
  rw [parse, hstart, htrim, parseTerms_of_isToken h, hoperand]
  cases Literal.value? token <;> rfl

end SizeExpr

namespace Literal

/-- A token that starts with a digit is a literal exactly if the grammar reads it, as this number;
every other one is a bad integer. A number that is written in one of the radices reads back, but
for a zero with nothing but underscores behind it, which is no literal. -/
theorem reads_back :
    (∀ token, IsToken token → ∀ value, value? token = some value ↔ Reads token value) ∧
      (∀ token value, value ≤ 2 ^ 63 - 1 → Writes value token →
        (¬IsBareZero token → IsToken token ∧ value? token = some value) ∧
          (IsBareZero token → value? token = none)) ∧
      ∀ token, IsToken token → ∀ resolve,
        (∀ value, Reads token value → SizeExpr.parse resolve token =
          .ok (some ⟨String.ofList token, [⟨false, .literal value⟩]⟩)) ∧
          ((¬∃ value, Reads token value) → SizeExpr.parse resolve token =
            .error (.invalidExpression (String.ofList token)
              (.badInteger (String.ofList token)))) := by
  refine ⟨fun _ _ _ => value?_eq_some_iff_reads, fun token value hvalue hwrites => ⟨?_, ?_⟩,
    fun token htoken resolve => ⟨?_, ?_⟩⟩
  · intro hbare
    have hread := value?_eq_some_iff_reads.2 (hwrites.reads hvalue hbare)
    exact ⟨isToken_of_value? hwrites.head hread, hread⟩
  · exact value?_bareZero
  · intro value hreads
    rw [SizeExpr.parse_of_isToken htoken, value?_eq_some_iff_reads.2 hreads]
  · intro hreads
    have hnone : value? token = none :=
      Option.eq_none_iff_forall_ne_some.2 fun value hvalue =>
        hreads ⟨value, value?_eq_some_iff_reads.1 hvalue⟩
    rw [SizeExpr.parse_of_isToken htoken, hnone]

/-- The greatest literal, in capitals and with an underscore. -/
def greatest : List Char :=
  '0' :: 'X' :: '7' :: '_' :: List.replicate 15 'F'

/-- A zero with an underscore is a token. -/
theorem isToken_zero_underscore : IsToken ['0', '_'] :=
  ⟨⟨'0', ['_'], rfl, rfl⟩,
    List.forall_mem_cons.2 ⟨by decide, List.forall_mem_singleton.2 (by decide)⟩⟩

/-- The greatest number reads back, and a zero with an underscore behind it is a bad integer. -/
theorem reads_back_greatest :
    (Writes (2 ^ 63 - 1) greatest ∧ ¬IsBareZero greatest ∧ IsToken greatest ∧
        Reads greatest (2 ^ 63 - 1) ∧ value? greatest = some (2 ^ 63 - 1) ∧
        SizeExpr.parse Tag.noFields greatest =
          .ok (some ⟨String.ofList greatest, [⟨false, .literal (2 ^ 63 - 1)⟩]⟩)) ∧
      Writes 0 ['0', '_'] ∧ IsBareZero ['0', '_'] ∧ IsToken ['0', '_'] ∧
        (¬∃ value, Reads ['0', '_'] value) ∧ value? ['0', '_'] = none ∧
        SizeExpr.parse Tag.noFields ['0', '_'] =
          .error (.invalidExpression (String.ofList ['0', '_'])
            (.badInteger (String.ofList ['0', '_']))) := by
  have hspelling : Spelling 16 (2 ^ 63 - 1) ('7' :: '_' :: List.replicate 15 'F') := by
    unfold Spelling
    decide +kernel
  have hwrites : Writes (2 ^ 63 - 1) greatest := .letter .hexadecimal hspelling
  have hbare : ¬IsBareZero greatest := by
    rintro ⟨count, hcount⟩
    simp [greatest, List.replicate_succ] at hcount
  obtain ⟨htoken, hvalue⟩ := (reads_back.2.1 greatest _ le_rfl hwrites).1 hbare
  have hreads := (reads_back.1 greatest htoken _).1 hvalue
  have hzero : Writes 0 ['0', '_'] := .decimal rfl rfl
  have hbareZero : IsBareZero ['0', '_'] := ⟨0, rfl⟩
  have hnone := (reads_back.2.1 ['0', '_'] 0 (by decide) hzero).2 hbareZero
  have hnot : ¬∃ value, Reads ['0', '_'] value := by
    rintro ⟨value, hreads⟩
    rw [(reads_back.1 ['0', '_'] isToken_zero_underscore value).2 hreads] at hnone
    cases hnone
  exact ⟨⟨hwrites, hbare, htoken, hreads, hvalue,
      (reads_back.2.2 greatest htoken Tag.noFields).1 _ hreads⟩,
    hzero, hbareZero, isToken_zero_underscore, hnot, hnone,
    (reads_back.2.2 ['0', '_'] isToken_zero_underscore Tag.noFields).2 hnot⟩

/-- Not all that is written reads back: a decimal zero with an underscore behind its digit does
not. -/
theorem zero_underscore_not_read :
    0 ≤ 2 ^ 63 - 1 ∧ Writes 0 ['0', '_'] ∧ IsToken ['0', '_'] ∧ value? ['0', '_'] ≠ some 0 :=
  ⟨by decide, .decimal rfl rfl, isToken_zero_underscore, by decide⟩

end Literal

end PackedRecord
