import PackedRecord.Proofs.BinaryRounding
import PackedRecord.Proofs.ExpressionGrammar
import PackedRecord.Proofs.Intact

/-!
# Values of size expressions

What size expressions mean, apart from how they are read and added up. `Literal.Spells` says which
number a literal is, `Value.Counts` what a field counts, and `SizeExpr.Sums` that an expression has
a sum which never leaves the range of 64 bits on the way. `SizeExpr.sumFrom_eq_ok_iff` shows by
induction on the terms that adding up gives exactly these sums, and `SizeExpr.parses_and_sums` puts
this together with the grammar of expressions.
-/

namespace PackedRecord

/-! ## Literals -/

namespace Literal

/-- The digits of a literal in the radix that its marks select are those of `value`, which is less
than `2 ^ 63`. -/
def Spells (token : List Char) (value : Nat) : Prop :=
  ∃ digits : List Nat, digits ≠ [] ∧
    List.Forall₂ (fun c digit => digitValue? (splitRadix (token.map Char.toLower)).1 c = some digit)
      ((splitRadix (token.map Char.toLower)).2.filter (· != '_')) digits ∧
    value = Nat.ofDigits (splitRadix (token.map Char.toLower)).1 digits.reverse ∧
    value < 2 ^ 63

/-- Reading digits behind a leading number gives the value of all of them in the radix. -/
theorem readDigits_eq_some_iff {radix leading value : Nat} {text : List Char} :
    readDigits radix leading text = some value ↔
      ∃ digits, List.Forall₂ (fun c digit => digitValue? radix c = some digit) text digits ∧
        value = leading * radix ^ digits.length + Nat.ofDigits radix digits.reverse := by
  induction text generalizing leading with
  | nil =>
      simp [readDigits, eq_comm]
  | cons c text ih =>
      simp only [readDigits, Option.bind_eq_some_iff, ih, List.forall₂_cons_left_iff]
      constructor
      · rintro ⟨digit, hdigit, digits, hdigits, rfl⟩
        refine ⟨digit :: digits, ⟨digit, digits, hdigit, hdigits, rfl⟩, ?_⟩
        simp only [List.length_cons, List.reverse_cons, Nat.ofDigits_append, Nat.ofDigits_singleton,
          List.length_reverse]
        ring
      · rintro ⟨_, ⟨digit, digits, hdigit, hdigits, rfl⟩, rfl⟩
        refine ⟨digit, hdigit, digits, hdigits, ?_⟩
        simp only [List.length_cons, List.reverse_cons, Nat.ofDigits_append, Nat.ofDigits_singleton,
          List.length_reverse]
        ring

/-- A literal has exactly the value that its digits spell. -/
theorem value?_eq_some_iff {token : List Char} {value : Nat} :
    value? token = some value ↔ Spells token value := by
  unfold value? Spells
  obtain ⟨radix, rest⟩ := splitRadix (token.map Char.toLower)
  simp only
  split
  next hnone =>
    rw [hnone]
    simp
  next hsome =>
    rw [Option.filter_eq_some_iff, readDigits_eq_some_iff, decide_eq_true_eq]
    constructor
    · rintro ⟨⟨digits, hdigits, rfl⟩, hlt⟩
      refine ⟨digits, ?_, hdigits, by simp, hlt⟩
      rintro rfl
      exact hsome (List.forall₂_nil_right_iff.1 hdigits)
    · rintro ⟨digits, -, hdigits, hvalue, hlt⟩
      exact ⟨⟨digits, hdigits, by simpa using hvalue⟩, hlt⟩

end Literal

/-! ## Fields -/

namespace BinaryFormat

variable {format : BinaryFormat} {bits : Nat}

/-- The number that a finite pattern stands for. -/
def value (format : BinaryFormat) (bits : Nat) : ℚ :=
  (if format.isNegative bits then -1 else 1) * ((format.units bits : ℚ) / 2 ^ format.unitExponent)

/-- A number cut off at the point. -/
def integerPart (number : ℚ) : Int :=
  if 0 ≤ number then ⌊number⌋ else ⌈number⌉

/-- A negative number is cut off towards zero. -/
theorem integerPart_neg {number : ℚ} (h : 0 ≤ number) : integerPart (-number) = -⌊number⌋ := by
  rcases h.eq_or_lt with rfl | hpos
  · simp [integerPart]
  · rw [integerPart, if_neg (by linarith), Int.ceil_neg]

/-- The whole part of a magnitude is the quotient of its units. -/
theorem floor_units (format : BinaryFormat) (bits : Nat) :
    ⌊(format.units bits : ℚ) / 2 ^ format.unitExponent⌋ =
      (format.units bits / 2 ^ format.unitExponent : Nat) := by
  have h := Rat.floor_intCast_div_natCast (format.units bits) (2 ^ format.unitExponent)
  push_cast at h ⊢
  exact h

/-- The integer part of a pattern is that of the number that it stands for. -/
theorem truncate?_eq (format : BinaryFormat) (bits : Nat) :
    format.truncate? bits =
      if format.isFinite bits then some (integerPart (format.value bits)) else none := by
  have hnonneg : (0 : ℚ) ≤ format.units bits / 2 ^ format.unitExponent := by positivity
  unfold truncate? value
  split
  · simp only
    split
    · rw [neg_one_mul, integerPart_neg hnonneg, floor_units]
      rfl
    · rw [one_mul, integerPart, if_pos hnonneg, floor_units]
      rfl
  · rfl

end BinaryFormat

open BinaryFormat

/-- The range of 64-bit integers. -/
def InInt64 (value : Int) : Prop :=
  int64Min ≤ value ∧ value ≤ int64Max

instance (value : Int) : Decidable (InInt64 value) :=
  inferInstanceAs (Decidable (_ ∧ _))

/-- A number is taken as an integer of 64 bits exactly if it is in their range. -/
theorem int64?_eq_some_iff {value result : Int} :
    int64? value = some result ↔ InInt64 value ∧ value = result := by
  rw [int64?, Option.ite_none_right_eq_some, Option.some_inj]
  rfl

/-- Bringing a number into the range of 128 bits does not bring it into that of 64 bits. -/
theorem int64?_clamp128 (value : Int) : int64? (clamp128 value) = int64? value := by
  have hleast : int64Min = -0x8000000000000000 := by decide
  have hgreatest : int64Max = 0x7FFFFFFFFFFFFFFF := by decide
  have hclamp : clamp128 value =
      max (-0x80000000000000000000000000000000) (min value 0x7FFFFFFFFFFFFFFFFFFFFFFFFFFFFFFF) :=
    rfl
  rw [int64?, int64?, hleast, hgreatest, hclamp]
  split <;> split
  · congr 1
    omega
  · omega
  · omega
  · rfl

/-- What a field counts in a size expression: an integer counts itself, a finite floating-point
number its integer part, and nothing outside of 64 bits counts. -/
inductive Value.Counts : Value → Int → Prop where
  | int {value : Value} {number : HostInt} (hvalue : value.target = .scalar (.int number))
      (hrange : InInt64 number.value) : Counts value number.value
  | f32 {value : Value} {bits : UInt32} (hvalue : value.target = .scalar (.f32 bits))
      (hfinite : binary32.isFinite bits.toNat = true)
      (hrange : InInt64 (integerPart (binary32.value bits.toNat))) :
      Counts value (integerPart (binary32.value bits.toNat))
  | f64 {value : Value} {bits : UInt64} (hvalue : value.target = .scalar (.f64 bits))
      (hfinite : binary64.isFinite bits.toNat = true)
      (hrange : InInt64 (integerPart (binary64.value bits.toNat))) :
      Counts value (integerPart (binary64.value bits.toNat))

/-- A number in the 64-bit format counts the number that it stands for. -/
theorem float_size_eq_some_iff {bits : UInt64} {size : Int} :
    (Number.float bits).integer?.bind int64? = some size ↔
      ∃ whole, binary64.truncate? bits.toNat = some whole ∧ InInt64 whole ∧ whole = size := by
  simp only [Number.integer?, Option.bind_map, Option.bind_eq_some_iff, Function.comp_apply,
    int64?_clamp128, int64?_eq_some_iff]

/-- A field has a size exactly if it counts. -/
theorem Value.size?_eq_some_iff {value : Value} {size : Int} :
    value.size? = some size ↔ value.Counts size := by
  constructor
  · intro h
    unfold size? at h
    split at h
    · cases h
    next number hbool hvalue =>
      cases number with
      | bool bit => exact absurd rfl (hbool bit)
      | int number =>
          obtain ⟨hrange, rfl⟩ := int64?_eq_some_iff.1 h
          exact .int hvalue hrange
      | f32 bits =>
          obtain ⟨whole, hwhole, hrange, rfl⟩ := float_size_eq_some_iff.1 h
          rw [truncate?_widen, truncate?_eq, Option.ite_none_right_eq_some] at hwhole
          obtain ⟨hfinite, hwhole⟩ := hwhole
          cases hwhole
          exact .f32 hvalue hfinite hrange
      | f64 bits =>
          obtain ⟨whole, hwhole, hrange, rfl⟩ := float_size_eq_some_iff.1 h
          rw [truncate?_eq, Option.ite_none_right_eq_some] at hwhole
          obtain ⟨hfinite, hwhole⟩ := hwhole
          cases hwhole
          exact .f64 hvalue hfinite hrange
    · cases h
  · intro h
    unfold size?
    cases h with
    | int hvalue hrange =>
        rw [hvalue]
        exact int64?_eq_some_iff.2 ⟨hrange, rfl⟩
    | f32 hvalue hfinite hrange =>
        rw [hvalue]
        refine float_size_eq_some_iff.2 ⟨_, ?_, hrange, rfl⟩
        rw [truncate?_widen, truncate?_eq, if_pos hfinite]
    | f64 hvalue hfinite hrange =>
        rw [hvalue]
        refine float_size_eq_some_iff.2 ⟨_, ?_, hrange, rfl⟩
        rw [truncate?_eq, if_pos hfinite]

/-! ## Sums -/

/-- The number that an operand stands for: that of a literal, or what a field of the record
counts. -/
inductive Operand.Counts : Option Record → Operand → Int → Prop where
  | literal (record : Option Record) (value : Nat) : Counts record (.literal value) value
  | field {record : Record} {index : Nat} {value : Value} {size : Int} (name : String)
      (hvalue : record.fields[index]? = some value) (hsize : value.Counts size) :
      Counts (some record) (.field index name) size

/-- The number that a term adds to a sum. -/
def Term.Counts (record : Option Record) (term : Term) (signed : Int) : Prop :=
  ∃ size, term.operand.Counts record size ∧ signed = if term.negative then -size else size

namespace SizeExpr

variable {text : String} {record : Option Record} {start sum : Int} {term : Term}
  {terms : List Term}

/-- The sum of the terms, which stays in the range of 64 bits from the left to the right. -/
def Sums (record : Option Record) (terms : List Term) (sum : Int) : Prop :=
  ∃ signed : List Int, List.Forall₂ (Term.Counts record) terms signed ∧
    (∀ count, InInt64 (signed.take count).sum) ∧ signed.sum = sum

/-- An operand has a value exactly if it counts that much. -/
theorem operandValue_eq_ok_iff {operand : Operand} {size : Int} :
    operandValue text record operand = .ok size ↔ operand.Counts record size := by
  constructor
  · intro h
    cases operand with
    | literal value =>
        cases h
        exact .literal record value
    | field index name =>
        unfold operandValue Record.field at h
        simp only at h
        split at h
        · cases h
        next record =>
          split at h
          · cases h
          next value hvalue =>
            split at h
            next size' hsize =>
              cases h
              split at hvalue
              next hindex =>
                cases hvalue
                exact .field name hindex (Value.size?_eq_some_iff.1 hsize)
              next => cases hvalue
            next => cases h
  · intro h
    cases h with
    | literal => rfl
    | field name hvalue hsize =>
        simp only [operandValue, Record.field, hvalue, Value.size?_eq_some_iff.2 hsize]

/-- One more term is added to a sum if it counts and the new sum fits. -/
theorem sumFrom_cons_eq_ok_iff :
    sumFrom text record start (term :: terms) = .ok sum ↔
      ∃ signed, term.Counts record signed ∧ InInt64 (start + signed) ∧
        sumFrom text record (start + signed) terms = .ok sum := by
  have hstep (size : Int) : (if term.negative then start - size else start + size) =
      start + if term.negative then -size else size := by
    split
    · exact Int.sub_eq_add_neg
    · rfl
  rw [sumFrom]
  constructor
  · intro h
    split at h
    · cases h
    next size hsize =>
      rw [hstep] at h
      split at h
      · cases h
      next next hnext =>
        obtain ⟨hrange, rfl⟩ := int64?_eq_some_iff.1 hnext
        exact ⟨_, ⟨size, operandValue_eq_ok_iff.1 hsize, rfl⟩, hrange, h⟩
  · rintro ⟨_, ⟨size, hsize, rfl⟩, hrange, h⟩
    rw [operandValue_eq_ok_iff.2 hsize]
    simp only [hstep, int64?_eq_some_iff.2 ⟨hrange, rfl⟩, h]

/-- Terms are added up if all of them count and no sum on the way leaves the range. -/
theorem sumFrom_eq_ok_iff (hstart : InInt64 start) :
    sumFrom text record start terms = .ok sum ↔
      ∃ signed : List Int, List.Forall₂ (Term.Counts record) terms signed ∧
        (∀ count, InInt64 (start + (signed.take count).sum)) ∧ start + signed.sum = sum := by
  induction terms generalizing start with
  | nil =>
      rw [sumFrom, Except.ok.injEq]
      constructor
      · rintro rfl
        exact ⟨[], .nil, by simpa using hstart, by simp⟩
      · rintro ⟨signed, hsigned, -, rfl⟩
        rw [List.forall₂_nil_left_iff.1 hsigned, List.sum_nil, Int.add_zero]
  | cons term terms ih =>
      rw [sumFrom_cons_eq_ok_iff]
      constructor
      · rintro ⟨first, hfirst, hrange, hrest⟩
        obtain ⟨signed, hsigned, hpartial, rfl⟩ := (ih hrange).1 hrest
        refine ⟨first :: signed, .cons hfirst hsigned, fun count => ?_, ?_⟩
        · cases count with
          | zero => simpa using hstart
          | succ count =>
              rw [List.take_succ_cons, List.sum_cons, ← Int.add_assoc]
              exact hpartial count
        · rw [List.sum_cons, Int.add_assoc]
      · rintro ⟨_, hsigned, hpartial, rfl⟩
        obtain ⟨first, signed, hfirst, hrest, rfl⟩ := List.forall₂_cons_left_iff.1 hsigned
        have hrange : InInt64 (start + first) := by simpa using hpartial 1
        refine ⟨first, hfirst, hrange, (ih hrange).2 ⟨signed, hrest, fun count => ?_, ?_⟩⟩
        · have hnext := hpartial (count + 1)
          rwa [List.take_succ_cons, List.sum_cons, ← Int.add_assoc] at hnext
        · rw [List.sum_cons, Int.add_assoc]

/-- An expression has a value exactly if its terms have that sum within the range of 64 bits. -/
theorem eval_eq_ok_iff {expr : SizeExpr} :
    expr.eval record = .ok sum ↔ Sums record expr.terms sum := by
  rw [eval, sumFrom_eq_ok_iff (by decide)]
  simp only [Int.zero_add]
  rfl

/-- What keeps an operand from having a value is told with the text of the expression. -/
theorem error_of_operandValue {operand : Operand} {error : TagError}
    (h : operandValue text record operand = .error (.tag error)) :
    ∃ fault, error = .invalidExpression text fault := by
  unfold operandValue at h
  split at h
  · cases h
  · split at h
    · cases h
      exact ⟨_, rfl⟩
    · split at h
      · cases h
      · split at h
        · cases h
        · cases h
          exact ⟨_, rfl⟩

/-- An error while adding up says that this expression is invalid. -/
theorem error_of_sumFrom {error : TagError}
    (h : sumFrom text record start terms = .error (.tag error)) :
    ∃ fault, error = .invalidExpression text fault := by
  induction terms generalizing start with
  | nil => cases h
  | cons term terms ih =>
      rw [sumFrom] at h
      split at h
      next herror =>
        cases h
        exact error_of_operandValue herror
      next =>
        split at h
        · cases h
          exact ⟨_, rfl⟩
        · exact ih h

/-- An expression over the fields of a record that has no sum is invalid. -/
theorem eval_eq_error {expr : SizeExpr}
    (hfields : ∀ whole ∈ record, ∀ index, expr.Names index → index < whole.fields.length)
    (h : ¬∃ sum, Sums record expr.terms sum) :
    ∃ fault, expr.eval record = .error (.tag (.invalidExpression expr.text fault)) := by
  cases heval : expr.eval record with
  | ok sum => exact absurd ⟨sum, eval_eq_ok_iff.1 heval⟩ h
  | error error =>
      cases error with
      | broken defect => exact absurd heval (eval_ne_broken hfields)
      | tag error =>
          obtain ⟨fault, rfl⟩ := error_of_sumFrom heval
          exact ⟨fault, rfl⟩

open Text

variable {resolve : Resolver} {source : List Char}

/-- What is wrong with a text is told with the text, without the blanks at its ends. -/
theorem error_of_parse {error : TagError} (h : parse resolve source = .error error) :
    ∃ fault, error = .invalidExpression (String.ofList (trim source)) fault := by
  unfold parse at h
  split at h
  · cases h
    exact ⟨_, rfl⟩
  · cases h
  · cases h

/-- A text that is neither blank nor an expression is an invalid expression. -/
theorem parse_eq_error (hblank : ¬IsBlankRun source) (h : ¬∃ expr, ExprText resolve source expr) :
    ∃ fault, parse resolve source =
      .error (.invalidExpression (String.ofList (trim source)) fault) := by
  cases hparse : parse resolve source with
  | error error =>
      obtain ⟨fault, rfl⟩ := error_of_parse hparse
      exact ⟨fault, rfl⟩
  | ok parsed =>
      cases parsed with
      | none => exact absurd (parse_eq_none_iff.1 hparse) hblank
      | some expr => exact absurd ⟨expr, parse_eq_some_iff.1 hparse⟩ h

/-- Texts of expressions, and no other ones, are read as expressions, blank texts as none, and all
the others are invalid; a literal in them is the number that its digits spell. An expression has the
exact sum of its signed operands as its value if every operand counts and no sum on the way leaves
the range of 64 bits; otherwise it is invalid. A field of the record is looked up by its index,
which has to exist. -/
theorem parses_and_sums :
    (∀ token value, Literal.value? token = some value ↔ Literal.Spells token value) ∧
      (∀ (resolve : Resolver) (text : List Char),
        (∀ expr, parse resolve text = .ok (some expr) ↔ ExprText resolve text expr) ∧
          (parse resolve text = .ok none ↔ IsBlankRun text) ∧
          (¬IsBlankRun text → (¬∃ expr, ExprText resolve text expr) →
            ∃ fault, parse resolve text =
              .error (.invalidExpression (String.ofList (trim text)) fault))) ∧
      ∀ (expr : SizeExpr) (record : Option Record),
        (∀ sum, expr.eval record = .ok sum ↔ Sums record expr.terms sum) ∧
          ((∀ whole ∈ record, ∀ index, expr.Names index → index < whole.fields.length) →
            (¬∃ sum, Sums record expr.terms sum) →
            ∃ fault, expr.eval record = .error (.tag (.invalidExpression expr.text fault))) :=
  ⟨fun _ _ => Literal.value?_eq_some_iff,
    fun _ _ => ⟨fun _ => parse_eq_some_iff, parse_eq_none_iff, parse_eq_error⟩,
    fun _ _ => ⟨fun _ => eval_eq_ok_iff, eval_eq_error⟩⟩

/-- The sum of the greatest integer of 64 bits and of a field. -/
def beyond : SizeExpr :=
  ⟨"0x7fffffffffffffff + n", [⟨false, .literal 0x7fffffffffffffff⟩, ⟨false, .field 0 "n"⟩]⟩

/-- A record of one byte, which is one. -/
def oneByte : Record :=
  ⟨⟨"Small", [⟨"n", true, .ok .empty⟩]⟩, [.ofByte 1]⟩

/-- A product is no expression, and a field that is one takes the greatest integer out of range. -/
theorem parses_and_sums_refused :
    (¬IsBlankRun "3*4".toList ∧ (¬∃ expr, ExprText Tag.noFields "3*4".toList expr) ∧
      ∃ fault, parse Tag.noFields "3*4".toList = .error (.invalidExpression "3*4" fault)) ∧
      (∀ whole ∈ some oneByte, ∀ index, beyond.Names index → index < whole.fields.length) ∧
      (¬∃ sum, Sums (some oneByte) beyond.terms sum) ∧
      ∃ fault, beyond.eval (some oneByte) =
        .error (.tag (.invalidExpression "0x7fffffffffffffff + n" fault)) := by
  have hblank : ¬IsBlankRun "3*4".toList := by
    intro h
    exact absurd (h '3' (by decide)) (by decide)
  have hexpr : ¬∃ expr, ExprText Tag.noFields "3*4".toList expr := by
    rintro ⟨expr, hexpr⟩
    have hparse := parse_eq_some_iff.2 hexpr
    have herror : parse Tag.noFields "3*4".toList =
        .error (.invalidExpression "3*4" (.badInteger "3*4")) := by cbv
    rw [herror] at hparse
    cases hparse
  have hfields : ∀ whole ∈ some oneByte, ∀ index, beyond.Names index →
      index < whole.fields.length := by
    rintro whole ⟨⟩ index ⟨term, hterm, name, hoperand⟩
    simp only [beyond, List.mem_cons, List.not_mem_nil, or_false] at hterm
    rcases hterm with rfl | rfl
    · cases hoperand
    · cases hoperand
      decide
  have hsum : ¬∃ sum, Sums (some oneByte) beyond.terms sum := by
    rintro ⟨sum, hsum⟩
    have heval := eval_eq_ok_iff.2 hsum
    have herror : beyond.eval (some oneByte) =
        .error (.tag (.invalidExpression beyond.text .overflow)) := by decide
    rw [herror] at heval
    cases heval
  exact ⟨⟨hblank, hexpr, (parses_and_sums.2.1 Tag.noFields "3*4".toList).2.2 hblank hexpr⟩,
    hfields, hsum, (parses_and_sums.2.2 beyond (some oneByte)).2 hfields hsum⟩

end SizeExpr

end PackedRecord
