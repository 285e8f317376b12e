import Mathlib
import PackedRecord.Proofs.References

/-!
# The grammar of size expressions

`SizeExpr.TermsText` says which text stands for which terms: each term has an optional sign, which
blanks may follow, and a term without a sign is set apart by blanks from the one in front of it.
`SizeExpr.parseTerms_eq_ok_iff` says that exactly these texts are read, and as these terms;
`SizeExpr.parse_eq_some_iff` and `SizeExpr.parse_eq_none_iff` say so of whole expressions.
-/

namespace PackedRecord

namespace Text

/-- The text holds nothing but blanks. -/
def IsBlankRun (text : List Char) : Prop :=
  ∀ c ∈ text, isBlank c = true

/-- Ranges of which none touches the other ones have no character in common. -/
theorem inRanges_eq_false_of_disjoint {ranges others : List CodeRange} {c : Char}
    (hdisjoint : (ranges.all fun range => others.all fun other =>
      range.2 < other.1 || other.2 < range.1) = true)
    (h : inRanges ranges c = true) : inRanges others c = false := by
  obtain ⟨range, hrange, hin⟩ := List.any_eq_true.1 h
  rw [inRanges, List.any_eq_false]
  intro other hother hin'
  have hapart := List.all_eq_true.1 (List.all_eq_true.1 hdisjoint range hrange) other hother
  simp only [Bool.and_eq_true, Bool.or_eq_true, decide_eq_true_eq] at hin hin' hapart
  omega

/-- A blank is neither a letter nor a number. -/
theorem isAlphanumeric_of_isBlank {c : Char} (h : isBlank c = true) : isAlphanumeric c = false := by
  rw [isAlphanumeric, inRanges_eq_false_of_disjoint (by decide +kernel) h,
    inRanges_eq_false_of_disjoint (by decide +kernel) h,
    inRanges_eq_false_of_disjoint (by decide +kernel) h]
  rfl

/-- A run of characters of a kind ends where a character of another kind comes. -/
theorem dropWhile_append {p : Char → Bool} {run rest : List Char} (hrun : ∀ c ∈ run, p c = true)
    (hrest : ∀ c ∈ rest.head?, p c = false) : (run ++ rest).dropWhile p = rest := by
  rw [List.dropWhile_append_of_pos hrun]
  cases rest with
  | nil => rfl
  | cons c rest => exact List.dropWhile_cons_of_neg (by simp [hrest c rfl])

/-- A run is taken as a whole if what follows does not belong to it. -/
theorem takeWhile_append {p : Char → Bool} {run rest : List Char} (hrun : ∀ c ∈ run, p c = true)
    (hrest : ∀ c ∈ rest.head?, p c = false) : (run ++ rest).takeWhile p = run := by
  have hsplit := List.takeWhile_append_dropWhile (p := p) (l := run ++ rest)
  rw [dropWhile_append hrun hrest] at hsplit
  exact List.append_cancel_right hsplit

/-- What is left behind a run does not start with a part of it. -/
theorem head?_dropWhile {p : Char → Bool} {text : List Char} :
    ∀ c ∈ (text.dropWhile p).head?, p c = false := by
  intro c hc
  have hnot := List.head?_dropWhile_not p text
  rw [Option.mem_def] at hc
  simpa [hc] using hnot

/-- A run of blanks is what nothing is left of without its leading blanks. -/
theorem isBlankRun_iff {text : List Char} : IsBlankRun text ↔ trimStart text = [] := by
  rw [trimStart, List.dropWhile_eq_nil_iff]
  rfl

/-- The blanks at the start of a text. -/
theorem exists_blanks (text : List Char) :
    ∃ blanks, IsBlankRun blanks ∧ text = blanks ++ trimStart text :=
  ⟨text.takeWhile isBlank, fun _ => List.mem_takeWhile_imp,
    List.takeWhile_append_dropWhile.symm⟩

end Text

namespace Literal

/-- A digit of a number is an ASCII digit or an ASCII letter. -/
theorem isAlphanum_of_digitValue? {radix digit : Nat} {c : Char}
    (h : digitValue? radix c = some digit) : c.isAlphanum = true := by
  obtain ⟨hvalue, -⟩ := Option.filter_eq_some_iff.1 h
  split at hvalue
  next hdigit =>
    simp only [Char.isAlphanum, Char.isDigit, Bool.or_eq_true, Bool.and_eq_true, decide_eq_true_eq]
    exact .inr hdigit
  next =>
    split at hvalue
    next hletter =>
      simp only [Char.isAlphanum, Char.isAlpha, Char.isLower, Bool.or_eq_true, Bool.and_eq_true,
        decide_eq_true_eq]
      exact .inl (.inr hletter)
    next => cases hvalue

/-- Digits that can be read are letters and digits. -/
theorem isAlphanum_of_readDigits {radix value : Nat} {digits : List Char} {leading : Nat}
    (h : readDigits radix leading digits = some value) : ∀ c ∈ digits, c.isAlphanum = true := by
  induction digits generalizing leading with
  | nil => simp
  | cons digit digits ih =>
      obtain ⟨_, hdigit, hrest⟩ := Option.bind_eq_some_iff.1 h
      exact List.forall_mem_cons.2 ⟨isAlphanum_of_digitValue? hdigit, ih hrest⟩

/-- What the marks of the radix leave out is zeros and letters. -/
theorem isAlphanum_of_splitRadix (token : List Char) :
    ∀ c ∈ token, c ∈ (splitRadix token).2 ∨ c.isAlphanum = true := by
  fun_cases splitRadix token <;> intro c hc <;> simp only [List.mem_cons] at hc ⊢
  case case1 => rcases hc with rfl | rfl | hc <;> first | exact .inr rfl | exact .inl hc
  case case2 => rcases hc with rfl | rfl | hc <;> first | exact .inr rfl | exact .inl hc
  case case3 => rcases hc with rfl | rfl | hc <;> first | exact .inr rfl | exact .inl hc
  case case4 => rcases hc with rfl | hc <;> first | exact .inr rfl | exact .inl hc
  case case5 => exact .inl hc

/-- Only a capital letter has another lower case. -/
theorem toLower_eq_self {c : Char} (h : c.isUpper = false) : c.toLower = c := by
  have hrange : ¬(c.val ≥ 'A'.val ∧ c.val ≤ 'Z'.val) := by simpa [Char.isUpper] using h
  rw [Char.toLower, dif_neg hrange]

/-- A literal is made of ASCII letters and digits, and of underscores. -/
theorem isAlphanum_of_value? {token : List Char} {value : Nat} (h : value? token = some value) :
    ∀ c ∈ token, c = '_' ∨ c.isAlphanum = true := by
  intro c hc
  cases hupper : c.isUpper with
  | true => exact .inr (by simp [Char.isAlphanum, Char.isAlpha, hupper])
  | false =>
      have hlower : c ∈ token.map Char.toLower :=
        List.mem_map.2 ⟨c, hc, toLower_eq_self hupper⟩
      rcases isAlphanum_of_splitRadix _ c hlower with hdigits | hmark
      · by_cases hscore : c = '_'
        · exact .inl hscore
        · have hkept : c ∈ List.filter (· != '_') _ :=
            List.mem_filter.2 ⟨hdigits, bne_iff_ne.2 hscore⟩
          unfold value? at h
          simp only at h
          split at h
          · cases h
          · exact .inr (isAlphanum_of_readDigits (Option.filter_eq_some_iff.1 h).1 c hkept)
      · exact .inr hmark

end Literal

namespace SizeExpr

open Text

variable {resolve : Resolver}

/-- No blank and no sign belongs to a name. -/
theorem isOperandChar_of_isNameChar {c : Char} (h : isNameChar c = true) :
    isOperandChar c = true := by
  rw [isNameChar, Bool.or_eq_true, beq_iff_eq] at h
  rw [isOperandChar, Bool.not_eq_true', ← Bool.not_eq_true, Bool.or_eq_true, Bool.or_eq_true,
    beq_iff_eq, beq_iff_eq]
  rcases h with rfl | h
  · decide
  · rintro ((hblank | rfl) | rfl)
    · rw [isAlphanumeric_of_isBlank hblank] at h
      cases h
    · exact absurd h (by decide +kernel)
    · exact absurd h (by decide +kernel)

/-- The text of an operand: a literal, which starts with a digit, or the name of a field. -/
inductive OperandText (resolve : Resolver) : List Char → Operand → Prop where
  | literal {first : Char} {rest : List Char} {value : Nat} (hdigit : first.isDigit = true)
      (hvalue : Literal.value? (first :: rest) = some value) :
      OperandText resolve (first :: rest) (.literal value)
  | name {first : Char} {rest : List Char} {index : Nat} (hdigit : first.isDigit = false)
      (hchars : ∀ c ∈ first :: rest, isNameChar c = true)
      (hresolve : resolve (String.ofList (first :: rest)) = .ok index) :
      OperandText resolve (first :: rest) (.field index (String.ofList (first :: rest)))

/-- A token is read as an operand exactly if it is one by the grammar. -/
theorem operandOf_eq_ok_iff {token : List Char} {operand : Operand} :
    operandOf resolve token = .ok operand ↔ OperandText resolve token operand := by
  constructor
  · intro h
    unfold operandOf at h
    split at h
    · cases h
    next first rest =>
      split at h
      next hdigit =>
        split at h
        next value hvalue =>
          cases h
          exact .literal hdigit hvalue
        next => cases h
      next hdigit =>
        split at h
        next hchars =>
          split at h
          next index hresolve =>
            cases h
            exact .name (Bool.eq_false_iff.2 hdigit) (List.all_eq_true.1 hchars) hresolve
          next => cases h
        next => cases h
  · rintro (⟨hdigit, hvalue⟩ | ⟨hdigit, hchars, hresolve⟩)
    · simp only [operandOf, hdigit, hvalue, if_true]
    · simp only [operandOf, hdigit, List.all_eq_true.2 hchars, hresolve, if_true,
        Bool.false_eq_true, if_false]

namespace OperandText

variable {token : List Char} {operand : Operand}

/-- An operand has at least one character. -/
theorem ne_nil (h : OperandText resolve token operand) : token ≠ [] := by
  cases h <;> exact List.cons_ne_nil _ _

/-- Literals and names are made of the same characters. -/
theorem isNameChar (h : OperandText resolve token operand) :
    ∀ c ∈ token, isNameChar c = true := by
  cases h with
  | literal hdigit hvalue =>
      intro c hc
      rw [SizeExpr.isNameChar, Bool.or_eq_true, beq_iff_eq]
      exact (Literal.isAlphanum_of_value? hvalue c hc).imp_right (isAlphanumeric_of_isAlphanum c)
  | name hdigit hchars hresolve => exact hchars

/-- An operand consists of characters of tokens. -/
theorem isOperandChar (h : OperandText resolve token operand) :
    ∀ c ∈ token, isOperandChar c = true :=
  fun c hc => isOperandChar_of_isNameChar (h.isNameChar c hc)

end OperandText

/-- The optional sign of a term, and whether it subtracts; blanks may follow a sign. -/
inductive SignText : List Char → Bool → Prop where
  | absent : SignText [] false
  | plus {blanks : List Char} (hblanks : IsBlankRun blanks) : SignText ('+' :: blanks) false
  | minus {blanks : List Char} (hblanks : IsBlankRun blanks) : SignText ('-' :: blanks) true

/-- A sign consists of a plus or a minus and blanks. -/
theorem SignText.mem {sign : List Char} {negative : Bool} (h : SignText sign negative) :
    ∀ c ∈ sign, isNameChar c = true ∨ isBlank c = true ∨ c = '+' ∨ c = '-' := by
  cases h with
  | absent => exact List.forall_mem_nil _
  | plus hblanks =>
      exact List.forall_mem_cons.2 ⟨.inr (.inr (.inl rfl)), fun c hc => .inr (.inl (hblanks c hc))⟩
  | minus hblanks =>
      exact List.forall_mem_cons.2 ⟨.inr (.inr (.inr rfl)), fun c hc => .inr (.inl (hblanks c hc))⟩

/-- The sign that a text starts with, and the blanks after it. -/
theorem exists_signText (text : List Char) :
    ∃ sign, SignText sign (splitSign text).1 ∧ text = sign ++ (splitSign text).2 := by
  fun_cases splitSign text
  case case1 rest =>
    obtain ⟨blanks, hblanks, hrest⟩ := exists_blanks rest
    exact ⟨'+' :: blanks, .plus hblanks, congrArg ('+' :: ·) hrest⟩
  case case2 rest =>
    obtain ⟨blanks, hblanks, hrest⟩ := exists_blanks rest
    exact ⟨'-' :: blanks, .minus hblanks, congrArg ('-' :: ·) hrest⟩
  case case3 => exact ⟨[], .absent, rfl⟩

/-- In front of the character of an operand, the sign ends with its blanks. -/
theorem splitSign_append {sign rest : List Char} {negative : Bool} {c : Char}
    (hsign : SignText sign negative) (hc : isOperandChar c = true) :
    splitSign (sign ++ c :: rest) = (negative, c :: rest) := by
  simp only [isOperandChar, Bool.not_eq_true', Bool.or_eq_false_iff, beq_eq_false_iff_ne] at hc
  obtain ⟨⟨hblank, hplus⟩, hminus⟩ := hc
  have hhead : ∀ d ∈ (c :: rest).head?, isBlank d = false := by
    rintro d ⟨⟩
    exact hblank
  cases hsign with
  | absent => simp [splitSign, hplus, hminus]
  | plus hblanks => rw [List.cons_append, splitSign, trimStart, dropWhile_append hblanks hhead]
  | minus hblanks => rw [List.cons_append, splitSign, trimStart, dropWhile_append hblanks hhead]

/-- The text of a sequence of terms. What follows an operand is the end, a blank or a sign. -/
inductive TermsText (resolve : Resolver) : List Char → List Term → Prop where
  | nil {blanks : List Char} (hblanks : IsBlankRun blanks) : TermsText resolve blanks []
  | cons {blanks sign token rest : List Char} {negative : Bool} {operand : Operand}
      {terms : List Term} (hblanks : IsBlankRun blanks) (hsign : SignText sign negative)
      (htoken : OperandText resolve token operand)
      (hapart : ∀ c ∈ rest.head?, isOperandChar c = false)
      (hrest : TermsText resolve rest terms) :
      TermsText resolve (blanks ++ (sign ++ (token ++ rest))) (⟨negative, operand⟩ :: terms)

variable {text : List Char} {terms : List Term}

/-- Blanks in front of the terms change nothing. -/
theorem TermsText.append {blanks : List Char} (hblanks : IsBlankRun blanks)
    (h : TermsText resolve text terms) : TermsText resolve (blanks ++ text) terms := by
  cases h with
  | nil hblanks' => exact .nil (List.forall_mem_append.2 ⟨hblanks, hblanks'⟩)
  | cons hblanks' hsign htoken hapart hrest =>
      rw [← List.append_assoc]
      exact .cons (List.forall_mem_append.2 ⟨hblanks, hblanks'⟩) hsign htoken hapart hrest

/-- A text that is read as terms is a text of these terms. -/
theorem termsText_of_parseTerms (h : parseTerms resolve text = .ok terms) :
    TermsText resolve text terms := by
  fun_induction parseTerms resolve text generalizing terms
  case case1 text hempty =>
    cases h
    rw [List.isEmpty_iff.1 hempty]
    exact .nil (List.forall_mem_nil _)
  case case2 => cases h
  case case3 text hempty signed operand hoperand hlt ih =>
    cases hterms : parseTerms resolve (trimStart (signed.2.dropWhile isOperandChar)) with
    | error fault =>
        rw [hterms] at h
        cases h
    | ok rest =>
        rw [hterms] at h
        cases h
        obtain ⟨sign, hsign, htext⟩ := exists_signText text
        obtain ⟨blanks, hblanks, hrest⟩ := exists_blanks (signed.2.dropWhile isOperandChar)
        have hrest' := (ih hterms).append hblanks
        rw [← hrest] at hrest'
        have hcons := TermsText.cons (List.forall_mem_nil _) hsign
          (operandOf_eq_ok_iff.1 hoperand) head?_dropWhile hrest'
        rwa [List.takeWhile_append_dropWhile, List.nil_append, ← htext] at hcons

/-- A text is read as its first term, and the further ones behind it. -/
theorem parseTerms_of_ne_nil (h : ¬text.isEmpty = true) :
    parseTerms resolve text =
      (operandOf resolve ((splitSign text).2.takeWhile isOperandChar) >>= fun operand =>
        (parseTerms resolve (trimStart ((splitSign text).2.dropWhile isOperandChar))).map
          (⟨(splitSign text).1, operand⟩ :: ·)) := by
  rw [parseTerms, if_neg h]
  simp only
  split
  next fault hfault => rw [hfault]; rfl
  next operand hoperand => rw [hoperand]; rfl

/-- The first term of a text. -/
theorem parseTerms_append {sign token rest : List Char} {negative : Bool} {operand : Operand}
    (hsign : SignText sign negative) (htoken : OperandText resolve token operand)
    (hapart : ∀ c ∈ rest.head?, isOperandChar c = false) :
    parseTerms resolve (sign ++ (token ++ rest)) =
      (parseTerms resolve (trimStart rest)).map (⟨negative, operand⟩ :: ·) := by
  have hsplit : splitSign (sign ++ (token ++ rest)) = (negative, token ++ rest) := by
    obtain ⟨c, token, rfl⟩ := List.exists_cons_of_ne_nil htoken.ne_nil
    exact splitSign_append hsign (htoken.isOperandChar c List.mem_cons_self)
  have hempty : ¬(sign ++ (token ++ rest)).isEmpty = true := by
    simp [List.isEmpty_iff, htoken.ne_nil]
  rw [parseTerms_of_ne_nil hempty, hsplit, takeWhile_append htoken.isOperandChar hapart,
    dropWhile_append htoken.isOperandChar hapart, operandOf_eq_ok_iff.2 htoken]
  rfl

/-- No character of a token is blank. -/
theorem isBlank_of_isOperandChar {c : Char} (h : isOperandChar c = true) : isBlank c = false := by
  simp only [isOperandChar, Bool.not_eq_true', Bool.or_eq_false_iff] at h
  exact h.1.1

/-- A term starts with its sign or with its operand. -/
theorem isBlank_head {sign token rest : List Char} {negative : Bool} {operand : Operand}
    (hsign : SignText sign negative) (htoken : OperandText resolve token operand) :
    ∀ c ∈ (sign ++ (token ++ rest)).head?, isBlank c = false := by
  cases hsign with
  | absent =>
      obtain ⟨first, token, rfl⟩ := List.exists_cons_of_ne_nil htoken.ne_nil
      rintro c ⟨⟩
      exact isBlank_of_isOperandChar (htoken.isOperandChar _ List.mem_cons_self)
  | plus => rintro c ⟨⟩; decide
  | minus => rintro c ⟨⟩; decide

/-- A text of terms is read as these terms. -/
theorem TermsText.parseTerms (h : TermsText resolve text terms) :
    parseTerms resolve (trimStart text) = .ok terms := by
  induction h with
  | nil hblanks =>
      rw [isBlankRun_iff.1 hblanks, SizeExpr.parseTerms]
      rfl
  | @cons blanks sign token rest negative operand terms hblanks hsign htoken hapart hrest ih =>
      rw [trimStart, dropWhile_append hblanks (isBlank_head hsign htoken),
        parseTerms_append hsign htoken hapart, ih]
      rfl

/-- Exactly the texts of terms are read, each as its terms. -/
theorem parseTerms_eq_ok_iff :
    parseTerms resolve (trimStart text) = .ok terms ↔ TermsText resolve text terms := by
  refine ⟨fun h => ?_, TermsText.parseTerms⟩
  obtain ⟨blanks, hblanks, htext⟩ := exists_blanks text
  rw [htext]
  exact (termsText_of_parseTerms h).append hblanks

/-- The text of an expression: that of some terms. The expression keeps it without the blanks at
the ends. -/
structure ExprText (resolve : Resolver) (text : List Char) (expr : SizeExpr) : Prop where
  terms : TermsText resolve text expr.terms
  ne_nil : expr.terms ≠ []
  text : expr.text = String.ofList (trim text)

/-- Exactly the texts of expressions are read, each as its expression. -/
theorem parse_eq_some_iff {expr : SizeExpr} :
    parse resolve text = .ok (some expr) ↔ ExprText resolve text expr := by
  constructor
  · intro h
    unfold parse at h
    split at h
    · cases h
    · cases h
    next terms hne hterms =>
      cases h
      exact ⟨parseTerms_eq_ok_iff.1 hterms, hne, rfl⟩
  · rintro ⟨hterms, hne, htext⟩
    obtain ⟨source, terms⟩ := expr
    cases htext
    unfold parse
    rw [parseTerms_eq_ok_iff.2 hterms]
    obtain ⟨term, terms, rfl⟩ := List.exists_cons_of_ne_nil hne
    rfl

/-- A text without an expression is read exactly if it is blank. -/
theorem parse_eq_none_iff : parse resolve text = .ok none ↔ IsBlankRun text := by
  constructor
  · intro h
    unfold parse at h
    split at h
    · cases h
    next hterms =>
      cases parseTerms_eq_ok_iff.1 hterms with
      | nil hblanks => exact hblanks
    · cases h
  · intro hblanks
    unfold parse
    rw [parseTerms_eq_ok_iff.2 (.nil hblanks)]

/-- An expression is written with names, signs and blanks. -/
theorem TermsText.mem (h : TermsText resolve text terms) :
    ∀ c ∈ text, isNameChar c = true ∨ isBlank c = true ∨ c = '+' ∨ c = '-' := by
  induction h with
  | nil hblanks => exact fun c hc => .inr (.inl (hblanks c hc))
  | cons hblanks hsign htoken hapart hrest ih =>
      intro c hc
      simp only [List.mem_append] at hc
      rcases hc with hc | hc | hc | hc
      · exact .inr (.inl (hblanks c hc))
      · exact hsign.mem c hc
      · exact .inl (htoken.isNameChar c hc)
      · exact ih c hc

/-- A character that belongs neither to a name nor between operands is in no expression. -/
theorem TermsText.not_mem {c : Char} (h : TermsText resolve text terms)
    (hname : isNameChar c = false) (hoperand : isOperandChar c = true) : c ∉ text := by
  simp only [isOperandChar, Bool.not_eq_true', Bool.or_eq_false_iff, beq_eq_false_iff_ne]
    at hoperand
  obtain ⟨⟨hblank, hplus⟩, hminus⟩ := hoperand
  intro hc
  rcases h.mem c hc with hc | hc | hc | hc
  · exact absurd hc (Bool.eq_false_iff.1 hname)
  · exact absurd hc (Bool.eq_false_iff.1 hblank)
  · exact hplus hc
  · exact hminus hc

end SizeExpr

end PackedRecord
