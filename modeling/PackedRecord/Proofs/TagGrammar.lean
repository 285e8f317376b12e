import PackedRecord.Proofs.ExpressionGrammar

/-!
# The grammar of tags

`TagText` says which text stands for which tag, part by part: the brackets, the name of the type
and the parentheses follow one another without blanks, and modifiers come last, each behind a
comma. `Tag.parse_eq_ok_iff` says that exactly these texts are read, and as these tags.
-/

namespace PackedRecord

namespace Text

/-- The text neither starts nor ends with a blank. -/
def IsTrimmed (text : List Char) : Prop :=
  (∀ c ∈ text.head?, isBlank c = false) ∧ ∀ c ∈ text.getLast?, isBlank c = false

variable {text front token back : List Char}

/-- A run of blanks is one from behind as well. -/
theorem isBlankRun_reverse : IsBlankRun text.reverse ↔ IsBlankRun text := by
  simp [IsBlankRun]

/-- A character that is not blank is in no run of blanks. -/
theorem isBlankRun_not_mem {c : Char} (h : IsBlankRun text) (hc : isBlank c = false) : c ∉ text :=
  fun hmem => absurd (h c hmem) (Bool.eq_false_iff.1 hc)

/-- Behind a token that ends without a blank, blanks are cut off and nothing else. -/
theorem trimEnd_append (hback : IsBlankRun back)
    (htoken : ∀ c ∈ token.getLast?, isBlank c = false) : trimEnd (token ++ back) = token := by
  rw [trimEnd, List.reverse_append, dropWhile_append (isBlankRun_reverse.2 hback),
    List.reverse_reverse]
  rwa [List.head?_reverse]

/-- The blanks at the end of a text. -/
theorem exists_blanks_end (text : List Char) :
    ∃ blanks, IsBlankRun blanks ∧ text = trimEnd text ++ blanks ∧
      ∀ c ∈ (trimEnd text).getLast?, isBlank c = false := by
  obtain ⟨blanks, hblanks, htext⟩ := exists_blanks text.reverse
  refine ⟨blanks.reverse, isBlankRun_reverse.2 hblanks, ?_, ?_⟩
  · rw [trimEnd, ← List.reverse_append]
    exact List.reverse_eq_iff.1 htext
  · rw [trimEnd, List.getLast?_reverse]
    exact head?_dropWhile

/-- A trimmed token is found between blanks. -/
theorem trim_append (hfront : IsBlankRun front) (hback : IsBlankRun back)
    (htoken : IsTrimmed token) : trim (front ++ (token ++ back)) = token := by
  cases token with
  | nil =>
      have hblank : trimStart (front ++ back) = [] :=
        isBlankRun_iff.1 (List.forall_mem_append.2 ⟨hfront, hback⟩)
      rw [List.nil_append, trim, hblank]
      rfl
  | cons c token =>
      have hhead : ∀ d ∈ (c :: token ++ back).head?, isBlank d = false := htoken.1
      rw [trim, trimStart, dropWhile_append hfront hhead, trimEnd_append hback htoken.2]

/-- A text is what is left of it without the blanks at its ends, between these blanks. -/
theorem exists_trim (text : List Char) :
    ∃ front back, IsBlankRun front ∧ IsBlankRun back ∧ text = front ++ (trim text ++ back) ∧
      IsTrimmed (trim text) := by
  obtain ⟨front, hfront, htext⟩ := exists_blanks text
  obtain ⟨back, hback, hrest, hlast⟩ := exists_blanks_end (trimStart text)
  refine ⟨front, back, hfront, hback, htext.trans (congrArg (front ++ ·) hrest), ?_, hlast⟩
  intro c hc
  have hhead : c ∈ (trimStart text).head? := by
    rw [hrest]
    exact List.mem_head?_append_of_mem_head? hc
  exact head?_dropWhile c hhead

/-- Nothing is left of a text exactly if all of it is blank. -/
theorem trim_eq_nil_iff : trim text = [] ↔ IsBlankRun text := by
  constructor
  · intro h
    obtain ⟨front, back, hfront, hback, htext, -⟩ := exists_trim text
    rw [htext, h]
    exact List.forall_mem_append.2 ⟨hfront, hback⟩
  · intro h
    rw [trim, isBlankRun_iff.1 h]
    rfl

end Text

namespace WireType

/-- A name stands for the wire type whose name it is in small letters. -/
theorem ofName?_eq_some_iff {name : String} {wire : WireType} :
    ofName? name = some wire ↔ name.toLower = wire.name := by
  constructor
  · intro h
    have hname := List.find?_some h
    exact (beq_iff_eq.1 hname).symm
  · intro h
    rw [ofName?, h]
    cases wire <;> rfl

end WireType

namespace Tag

open Text

variable {resolve : Resolver} {text rest : List Char}

/-- A piece without a separator goes in front of the first piece of the rest. -/
theorem splitAt_append {separator : Char} {piece : List Char} (hpiece : separator ∉ piece)
    (rest : List Char) : splitAt separator (piece ++ rest) =
      (piece ++ (splitAt separator rest).1, (splitAt separator rest).2) := by
  induction piece with
  | nil => rfl
  | cons c piece ih =>
      simp only [List.mem_cons, not_or] at hpiece
      rw [List.cons_append, splitAt, ih hpiece.2]
      exact if_neg (Ne.symm hpiece.1)

/-- The pieces of a text are those that it joins with separators. -/
theorem splitAt_flatMap {separator : Char} {piece : List Char} {pieces : List (List Char)}
    (hpiece : separator ∉ piece) (hpieces : ∀ p ∈ pieces, separator ∉ p) :
    splitAt separator (piece ++ pieces.flatMap (separator :: ·)) = (piece, pieces) := by
  induction pieces generalizing piece with
  | nil =>
      rw [List.flatMap_nil, splitAt_append hpiece, splitAt, List.append_nil]
  | cons next pieces ih =>
      obtain ⟨hnext, hpieces⟩ := List.forall_mem_cons.1 hpieces
      rw [splitAt_append hpiece, List.flatMap_cons, List.cons_append, splitAt, ih hnext hpieces]
      simp

/-- Joining the pieces with separators gives the text back, and no piece has a separator. -/
theorem flatMap_splitAt (separator : Char) (text : List Char) :
    text = (splitAt separator text).1 ++ (splitAt separator text).2.flatMap (separator :: ·) ∧
      separator ∉ (splitAt separator text).1 ∧
      ∀ p ∈ (splitAt separator text).2, separator ∉ p := by
  induction text with
  | nil => simp [splitAt]
  | cons c rest ih =>
      obtain ⟨hrest, hpiece, hpieces⟩ := ih
      by_cases hc : c = separator
      · subst hc
        simp only [splitAt, if_true]
        exact ⟨congrArg (c :: ·) hrest, List.not_mem_nil,
          List.forall_mem_cons.2 ⟨hpiece, hpieces⟩⟩
      · simp only [splitAt, if_neg hc]
        exact ⟨congrArg (c :: ·) hrest, List.not_mem_cons_of_ne_of_not_mem (Ne.symm hc) hpiece,
          hpieces⟩

/-- A text is cut at the first mark in it. -/
theorem cutAt_eq_some_iff {mark : Char} {front rest : List Char} :
    cutAt mark text = some (front, rest) ↔ text = front ++ mark :: rest ∧ mark ∉ front := by
  induction text generalizing front with
  | nil => simp [cutAt]
  | cons c text ih =>
      rw [cutAt]
      by_cases hc : c = mark
      · subst hc
        rw [if_pos rfl]
        constructor
        · rintro ⟨⟩
          exact ⟨rfl, List.not_mem_nil⟩
        · rintro ⟨htext, hfront⟩
          cases front with
          | nil =>
              cases htext
              rfl
          | cons d front =>
              cases htext
              exact absurd List.mem_cons_self hfront
      · rw [if_neg hc, Option.map_eq_some_iff]
        constructor
        · rintro ⟨⟨front', rest'⟩, hcut, heq⟩
          cases heq
          obtain ⟨htext, hfront⟩ := ih.1 hcut
          exact ⟨congrArg (c :: ·) htext, List.not_mem_cons_of_ne_of_not_mem (Ne.symm hc) hfront⟩
        · rintro ⟨htext, hfront⟩
          cases front with
          | nil =>
              cases htext
              exact absurd rfl hc
          | cons d front =>
              cases htext
              have hbehind := fun hmem => hfront (List.mem_cons_of_mem _ hmem)
              exact ⟨(front, rest), ih.2 ⟨rfl, hbehind⟩, rfl⟩

/-- The text of the brackets of a tag. -/
inductive BracketsText (resolve : Resolver) : List Char → Brackets → Prop where
  | absent : BracketsText resolve [] .absent
  | blank {inner : List Char} (hinner : IsBlankRun inner) :
      BracketsText resolve ('[' :: (inner ++ [']'])) .blank
  | length {inner : List Char} {expr : SizeExpr} (hinner : SizeExpr.ExprText resolve inner expr) :
      BracketsText resolve ('[' :: (inner ++ [']'])) (.length expr)

/-- What is read as brackets is brackets by the grammar, with the rest behind. -/
theorem bracketsText_of_parseBrackets {brackets : Brackets}
    (h : parseBrackets resolve text = .ok (brackets, rest)) :
    ∃ front, BracketsText resolve front brackets ∧ text = front ++ rest := by
  unfold parseBrackets at h
  split at h
  next inner =>
    split at h
    · cases h
    next lengthText after hcut =>
      obtain ⟨rfl, -⟩ := cutAt_eq_some_iff.1 hcut
      obtain ⟨parsed, hparsed, h⟩ := ok_of_bind h
      cases parsed with
      | none =>
          cases h
          exact ⟨_, .blank (SizeExpr.parse_eq_none_iff.1 hparsed), by simp⟩
      | some expr =>
          cases h
          exact ⟨_, .length (SizeExpr.parse_eq_some_iff.1 hparsed), by simp⟩
  next =>
    cases h
    exact ⟨[], .absent, rfl⟩

/-- Brackets by the grammar are read as such, in front of anything but a bracket. -/
theorem BracketsText.parseBrackets {front : List Char} {brackets : Brackets}
    (h : BracketsText resolve front brackets) (hrest : ∀ c ∈ rest.head?, c ≠ '[') :
    parseBrackets resolve (front ++ rest) = .ok (brackets, rest) := by
  cases h with
  | absent =>
      rw [List.nil_append]
      unfold Tag.parseBrackets
      split
      · exact absurd rfl (hrest _ rfl)
      · rfl
  | @blank inner hinner =>
      have hcut : cutAt ']' (inner ++ [']'] ++ rest) = some (inner, rest) :=
        cutAt_eq_some_iff.2 ⟨by simp, isBlankRun_not_mem hinner (by decide)⟩
      simp only [Tag.parseBrackets, List.cons_append, hcut, SizeExpr.parse_eq_none_iff.2 hinner]
      rfl
  | @length inner expr hinner =>
      have hcut : cutAt ']' (inner ++ [']'] ++ rest) = some (inner, rest) :=
        cutAt_eq_some_iff.2 ⟨by simp, hinner.terms.not_mem (by decide +kernel) (by decide +kernel)⟩
      simp only [Tag.parseBrackets, List.cons_append, hcut, SizeExpr.parse_eq_some_iff.2 hinner]
      rfl

/-- The text of the buffer length of a tag. -/
inductive BufferText (resolve : Resolver) : List Char → Option SizeExpr → Prop where
  | absent : BufferText resolve [] none
  | length {inner : List Char} {expr : SizeExpr} (hinner : SizeExpr.ExprText resolve inner expr) :
      BufferText resolve ('(' :: (inner ++ [')'])) (some expr)

/-- What is read as a buffer length is one by the grammar, with the rest behind. -/
theorem bufferText_of_parseBufferLength {size : Option SizeExpr}
    (h : parseBufferLength resolve text = .ok (size, rest)) :
    ∃ front, BufferText resolve front size ∧ text = front ++ rest := by
  unfold parseBufferLength at h
  split at h
  next inner =>
    split at h
    · cases h
    next sizeText after hcut =>
      obtain ⟨rfl, -⟩ := cutAt_eq_some_iff.1 hcut
      obtain ⟨parsed, hparsed, h⟩ := ok_of_bind h
      cases parsed with
      | none => cases h
      | some expr =>
          cases h
          exact ⟨_, .length (SizeExpr.parse_eq_some_iff.1 hparsed), by simp⟩
  next =>
    cases h
    exact ⟨[], .absent, rfl⟩

/-- A buffer length by the grammar is read as such, in front of anything but a parenthesis. -/
theorem BufferText.parseBufferLength {front : List Char} {size : Option SizeExpr}
    (h : BufferText resolve front size) (hrest : ∀ c ∈ rest.head?, c ≠ '(') :
    parseBufferLength resolve (front ++ rest) = .ok (size, rest) := by
  cases h with
  | absent =>
      rw [List.nil_append]
      unfold Tag.parseBufferLength
      split
      · exact absurd rfl (hrest _ rfl)
      · rfl
  | @length inner expr hinner =>
      have hcut : cutAt ')' (inner ++ [')'] ++ rest) = some (inner, rest) :=
        cutAt_eq_some_iff.2 ⟨by simp, hinner.terms.not_mem (by decide +kernel) (by decide +kernel)⟩
      simp only [Tag.parseBufferLength, List.cons_append, hcut, SizeExpr.parse_eq_some_iff.2 hinner]
      rfl

/-- The name of a wire type, in which the case of letters does not matter. The field decides if
there is no name, or if the name is that of `any`. -/
inductive NameText : List Char → Option WireType → Prop where
  | absent : NameText [] none
  | any {name : List Char} (hname : name.map Char.toLower = WireType.any.name.toList) :
      NameText name none
  | wire {name : List Char} {wire : WireType} (hname : name.map Char.toLower = wire.name.toList)
      (hwire : wire ≠ .any) : NameText name (some wire)

/-- A name, character by character, stands for the wire type that it spells in small letters. -/
theorem ofName?_ofList {name : List Char} {wire : WireType} :
    WireType.ofName? (String.ofList name) = some wire ↔
      name.map Char.toLower = wire.name.toList := by
  rw [WireType.ofName?_eq_some_iff, ← String.toList_inj]
  simp [String.toLower]

/-- The names in the catalogue are made of letters and digits. -/
theorem isAlphanum_of_catalogue {name : List Char} {wire : WireType}
    (h : name.map Char.toLower = wire.name.toList) :
    name.isEmpty = false ∧ ∀ c ∈ name, c.isAlphanum = true := by
  have hcatalogue : wire.name.toList ≠ [] ∧ wire.name.toList.all Char.isAlphanum = true := by
    cases wire <;> decide
  rw [← h, List.all_eq_true] at hcatalogue
  constructor
  · cases name with
    | nil => exact absurd rfl hcatalogue.1
    | cons c name => rfl
  · intro c hc
    have hlower := hcatalogue.2 c.toLower (List.mem_map_of_mem hc)
    cases hupper : c.isUpper with
    | true => simp [Char.isAlphanum, Char.isAlpha, hupper]
    | false => rwa [Literal.toLower_eq_self hupper] at hlower

/-- A name is read as a wire type, or as none, exactly as the grammar says. -/
theorem wireOfName_eq_ok_iff {name : List Char} {wire : Option WireType} :
    wireOfName name = .ok wire ↔ NameText name wire := by
  constructor
  · intro h
    unfold wireOfName at h
    split at h
    next hempty =>
      cases h
      rw [List.isEmpty_iff.1 hempty]
      exact .absent
    next =>
      split at h
      · cases h
      next hname =>
        cases h
        exact .any (ofName?_ofList.1 hname)
      next found hwire hname =>
        cases h
        exact .wire (ofName?_ofList.1 hname) hwire
  · intro h
    cases h with
    | absent => rfl
    | any hname =>
        simp only [wireOfName, (isAlphanum_of_catalogue hname).1, Bool.false_eq_true, if_false,
          ofName?_ofList.2 hname]
    | wire hname hwire =>
        simp only [wireOfName, (isAlphanum_of_catalogue hname).1, Bool.false_eq_true, if_false,
          ofName?_ofList.2 hname]

/-- The name of a type consists of letters and digits of ASCII. -/
theorem NameText.isAlphanum {name : List Char} {wire : Option WireType} (h : NameText name wire) :
    ∀ c ∈ name, c.isAlphanum = true := by
  cases h with
  | absent => exact List.forall_mem_nil _
  | any hname => exact (isAlphanum_of_catalogue hname).2
  | wire hname hwire => exact (isAlphanum_of_catalogue hname).2

/-- No letter and no digit ends the name of a type. -/
theorem endsTypeName_of_isAlphanum {c : Char} (h : c.isAlphanum = true) :
    endsTypeName c = false := by
  rw [endsTypeName, Bool.or_eq_false_iff, Bool.or_eq_false_iff, beq_eq_false_iff_ne,
    beq_eq_false_iff_ne]
  refine ⟨⟨Bool.eq_false_iff.2 fun hblank => ?_, ?_⟩, ?_⟩
  · have hletter := isAlphanumeric_of_isAlphanum c h
    rw [isAlphanumeric_of_isBlank hblank] at hletter
    cases hletter
  · rintro rfl
    exact absurd h (by decide)
  · rintro rfl
    exact absurd h (by decide)

/-- The text of a modifier, which names an encoding. Blanks may stand around its parts. -/
inductive ModifierText : List Char → String → Prop where
  | encoding {before after front value back : List Char} (hbefore : IsBlankRun before)
      (hafter : IsBlankRun after) (hfront : IsBlankRun front) (hback : IsBlankRun back)
      (hvalue : IsTrimmed value) (hne : value ≠ []) (hcomma : ',' ∉ value) :
      ModifierText (before ++ ("encoding".toList ++ after) ++ '=' :: (front ++ (value ++ back)))
        (String.ofList value)

/-- A key names the encoding exactly if it does so character by character. -/
theorem trim_eq_encoding {key : List Char} :
    String.ofList (trim key) = "encoding" ↔ trim key = "encoding".toList := by
  rw [← String.toList_inj, String.toList_ofList]

/-- What is read as a modifier is one by the grammar. -/
theorem modifierText_of_parseModifier {encoding : String} (hcomma : ',' ∉ text)
    (h : parseModifier text = .ok encoding) : ModifierText text encoding := by
  unfold parseModifier at h
  split at h
  next key value hcut =>
    obtain ⟨rfl, -⟩ := cutAt_eq_some_iff.1 hcut
    split at h
    next hmodifier =>
      cases h
      obtain ⟨hkey, hne⟩ := hmodifier
      obtain ⟨before, after, hbefore, hafter, hkeytext, -⟩ := exists_trim key
      obtain ⟨front, back, hfront, hback, hvaluetext, hvalue⟩ := exists_trim value
      rw [trim_eq_encoding.1 hkey] at hkeytext
      have hcomma' : ',' ∉ trim value := by
        intro hmem
        refine hcomma (List.mem_append_right _ (List.mem_cons_of_mem _ ?_))
        rw [hvaluetext]
        exact List.mem_append_right _ (List.mem_append_left _ hmem)
      have hmodifier := ModifierText.encoding hbefore hafter hfront hback hvalue hne hcomma'
      rwa [← hkeytext, ← hvaluetext] at hmodifier
    next => cases h
  next => cases h

/-- The key of the encoding has no blanks at its ends. -/
theorem isTrimmed_encoding : IsTrimmed "encoding".toList := by
  constructor <;> rintro c ⟨⟩ <;> decide

/-- A modifier by the grammar is read as such. -/
theorem ModifierText.parseModifier {encoding : String} (h : ModifierText text encoding) :
    parseModifier text = .ok encoding := by
  obtain ⟨hbefore, hafter, hfront, hback, hvalue, hne, -⟩ := h
  rename_i before after front value back
  have hcut : cutAt '='
        (before ++ ("encoding".toList ++ after) ++ '=' :: (front ++ (value ++ back))) =
      some (before ++ ("encoding".toList ++ after), front ++ (value ++ back)) := by
    refine cutAt_eq_some_iff.2 ⟨rfl, ?_⟩
    simp only [List.mem_append, not_or]
    exact ⟨isBlankRun_not_mem hbefore (by decide), by decide,
      isBlankRun_not_mem hafter (by decide)⟩
  have hkey := trim_append hbefore hafter isTrimmed_encoding
  have htrim := trim_append hfront hback hvalue
  simp only [Tag.parseModifier, hcut, trim_eq_encoding.2 hkey, htrim, true_and, if_pos hne]

/-- A modifier has no comma in it. -/
theorem ModifierText.not_mem {encoding : String} (h : ModifierText text encoding) :
    ',' ∉ text := by
  obtain ⟨hbefore, hafter, hfront, hback, -, -, hcomma⟩ := h
  simp only [List.mem_append, List.mem_cons, not_or]
  exact ⟨⟨isBlankRun_not_mem hbefore (by decide), by decide,
    isBlankRun_not_mem hafter (by decide)⟩, by decide, isBlankRun_not_mem hfront (by decide),
    hcomma, isBlankRun_not_mem hback (by decide)⟩

/-- What is read as modifiers is modifiers by the grammar, one by one. -/
theorem modifierTexts_of_mapM {texts : List (List Char)} {encodings : List String}
    (hcomma : ∀ text ∈ texts, ',' ∉ text) (h : texts.mapM parseModifier = .ok encodings) :
    List.Forall₂ ModifierText texts encodings := by
  induction texts generalizing encodings with
  | nil =>
      cases h
      exact .nil
  | cons text texts ih =>
      obtain ⟨htext, htexts⟩ := List.forall_mem_cons.1 hcomma
      rw [List.mapM_cons] at h
      obtain ⟨encoding, hencoding, h⟩ := ok_of_bind h
      obtain ⟨encodings, hencodings, h⟩ := ok_of_bind h
      cases h
      exact .cons (modifierText_of_parseModifier htext hencoding) (ih htexts hencodings)

/-- Modifiers by the grammar are read as such, and none of them has a comma in it. -/
theorem mapM_parseModifier {texts : List (List Char)} {encodings : List String}
    (h : List.Forall₂ ModifierText texts encodings) :
    texts.mapM parseModifier = .ok encodings ∧ ∀ text ∈ texts, ',' ∉ text := by
  induction h with
  | nil => exact ⟨rfl, List.forall_mem_nil _⟩
  | cons htext _ ih =>
      rw [List.mapM_cons, htext.parseModifier, ih.1]
      exact ⟨rfl, List.forall_mem_cons.2 ⟨htext.not_mem, ih.2⟩⟩

section Head

variable {brackets name size : List Char} {parsedBrackets : Brackets} {wire : Option WireType}
  {bufferLength : Option SizeExpr}

/-- Brackets are empty or start with a bracket. -/
theorem BracketsText.head (h : BracketsText resolve brackets parsedBrackets) :
    ∀ c ∈ brackets.head?, c = '[' := by
  intro c hc
  cases h with
  | absent => cases hc
  | blank => exact (Option.mem_some_iff.1 hc).symm
  | length => exact (Option.mem_some_iff.1 hc).symm

/-- A buffer length is empty or starts with a parenthesis. -/
theorem BufferText.head (h : BufferText resolve size bufferLength) :
    ∀ c ∈ size.head?, c = '(' := by
  intro c hc
  cases h with
  | absent => cases hc
  | length => exact (Option.mem_some_iff.1 hc).symm

/-- Brackets have no comma in them. -/
theorem BracketsText.not_mem (h : BracketsText resolve brackets parsedBrackets) :
    ',' ∉ brackets := by
  cases h with
  | absent => exact List.not_mem_nil
  | blank hinner =>
      have hcomma := isBlankRun_not_mem (c := ',') hinner (by decide)
      simp [hcomma]
  | length hinner =>
      have hcomma := hinner.terms.not_mem (c := ',') (by decide +kernel) (by decide)
      simp [hcomma]

/-- A buffer length has no comma in it. -/
theorem BufferText.not_mem (h : BufferText resolve size bufferLength) : ',' ∉ size := by
  cases h with
  | absent => exact List.not_mem_nil
  | length hinner =>
      have hcomma := hinner.terms.not_mem (c := ',') (by decide +kernel) (by decide)
      simp [hcomma]

/-- The name of a type has no comma in it. -/
theorem NameText.not_mem (h : NameText name wire) : ',' ∉ name :=
  fun hmem => absurd (h.isAlphanum ',' hmem) (by decide)

/-- A joined text starts as its front does, or as the rest does. -/
theorem mem_or_head?_of_append {c : Char} {front : List Char} (h : c ∈ (front ++ rest).head?) :
    c ∈ front.head? ∨ c ∈ rest.head? := by
  cases front with
  | nil => exact .inr h
  | cons d front => exact .inl h

end Head

/-- The text of a tag. -/
inductive TagText (resolve : Resolver) : List Char → Tag → Prop where
  | tag {front brackets name size back : List Char} {modifiers : List (List Char)}
      {parsedBrackets : Brackets} {wire : Option WireType} {bufferLength : Option SizeExpr}
      {encodings : List String} (hfront : IsBlankRun front)
      (hbrackets : BracketsText resolve brackets parsedBrackets) (hname : NameText name wire)
      (hsize : BufferText resolve size bufferLength) (hback : IsBlankRun back)
      (hmodifiers : List.Forall₂ ModifierText modifiers encodings) :
      TagText resolve
        (front ++ (brackets ++ (name ++ (size ++ back))) ++ modifiers.flatMap (',' :: ·))
        ⟨wire, parsedBrackets, bufferLength, encodings.getLast?⟩

/-- A text that is read as a tag is a text of this tag. -/
theorem tagText_of_parseChars {tag : Tag} (h : parseChars resolve text = .ok tag) :
    TagText resolve text tag := by
  obtain ⟨htext, -, hcommas⟩ := flatMap_splitAt ',' text
  unfold parseChars at h
  obtain ⟨⟨brackets, afterBrackets⟩, hbrackets, h⟩ := ok_of_bind h
  obtain ⟨wire, hwire, h⟩ := ok_of_bind h
  obtain ⟨⟨bufferLength, rest⟩, hsize, h⟩ := ok_of_bind h
  simp only at h
  split at h
  case isFalse =>
    obtain ⟨_, hthrow, -⟩ := ok_of_bind h
    cases hthrow
  rename_i hblank
  obtain ⟨encoding, hencoding, h⟩ := ok_of_bind h
  obtain ⟨encodings, hmodifiers, hlast⟩ := ok_of_bind hencoding
  cases hlast
  cases h
  obtain ⟨front, hfront, hhead⟩ := exists_blanks (splitAt ',' text).1
  obtain ⟨bracketsText, hbrackets, hafter⟩ := bracketsText_of_parseBrackets hbrackets
  obtain ⟨sizeText, hsize, hrest⟩ := bufferText_of_parseBufferLength hsize
  have hback : IsBlankRun rest := trim_eq_nil_iff.1 (List.isEmpty_iff.1 hblank)
  have htag := TagText.tag hfront hbrackets (wireOfName_eq_ok_iff.1 hwire) hsize hback
    (modifierTexts_of_mapM hcommas hmodifiers)
  rwa [← hrest, List.takeWhile_append_dropWhile, ← hafter, ← hhead, ← htext] at htag

/-- Blanks at the start of a tag change nothing, not even if no part of it comes after them. -/
theorem exists_trimStart_head {front brackets name size back : List Char}
    {parsedBrackets : Brackets} {wire : Option WireType} {bufferLength : Option SizeExpr}
    (hfront : IsBlankRun front) (hbrackets : BracketsText resolve brackets parsedBrackets)
    (hname : NameText name wire) (hsize : BufferText resolve size bufferLength)
    (hback : IsBlankRun back) :
    ∃ back', IsBlankRun back' ∧ trimStart (front ++ (brackets ++ (name ++ (size ++ back)))) =
      brackets ++ (name ++ (size ++ back')) := by
  have hhead : ∀ c ∈ (brackets ++ (name ++ size)).head?, isBlank c = false := by
    intro c hc
    rcases mem_or_head?_of_append hc with hc | hc
    · rw [hbrackets.head c hc]
      decide
    · rcases mem_or_head?_of_append hc with hc | hc
      · have hend := endsTypeName_of_isAlphanum (hname.isAlphanum c (List.mem_of_mem_head? hc))
        rw [endsTypeName, Bool.or_eq_false_iff, Bool.or_eq_false_iff] at hend
        exact hend.1.1
      · rw [hsize.head c hc]
        decide
  by_cases hnil : brackets ++ (name ++ size) = []
  · simp only [List.append_eq_nil_iff] at hnil
    obtain ⟨rfl, rfl, rfl⟩ := hnil
    refine ⟨[], List.forall_mem_nil _, ?_⟩
    exact isBlankRun_iff.1 (List.forall_mem_append.2 ⟨hfront, hback⟩)
  · refine ⟨back, hback, ?_⟩
    have hhead' : ∀ c ∈ (brackets ++ (name ++ (size ++ back))).head?, isBlank c = false := by
      intro c hc
      refine hhead c ?_
      obtain ⟨d, body, hbody⟩ := List.exists_cons_of_ne_nil hnil
      rw [← List.append_assoc name, ← List.append_assoc brackets, hbody] at hc
      rwa [hbody]
    exact dropWhile_append hfront hhead'

/-- A text of a tag is read as this tag. -/
theorem TagText.parseChars {tag : Tag} (h : TagText resolve text tag) :
    parseChars resolve text = .ok tag := by
  obtain ⟨hfront, hbrackets, hname, hsize, hback, hmodifiers⟩ := h
  rename_i front brackets name size back modifiers parsedBrackets wire bufferLength encodings
  obtain ⟨hencodings, hcommas⟩ := mapM_parseModifier hmodifiers
  have hcomma : ',' ∉ front ++ (brackets ++ (name ++ (size ++ back))) := by
    simp only [List.mem_append, not_or]
    exact ⟨isBlankRun_not_mem hfront (by decide), hbrackets.not_mem, hname.not_mem,
      hsize.not_mem, isBlankRun_not_mem hback (by decide)⟩
  obtain ⟨back', hback', htrim⟩ := exists_trimStart_head hfront hbrackets hname hsize hback
  -- What follows each part cannot be taken for more of it, nor for the start of the part.
  have hafterSize : ∀ c ∈ back'.head?, isBlank c = true :=
    fun c hc => hback' c (List.mem_of_mem_head? hc)
  have hafterName : ∀ c ∈ (size ++ back').head?, endsTypeName c = true := by
    intro c hc
    rcases mem_or_head?_of_append hc with hc | hc
    · rw [hsize.head c hc]
      decide
    · simp [endsTypeName, hafterSize c hc]
  have hnameChars : ∀ c ∈ name, (!endsTypeName c) = true :=
    fun c hc => by rw [endsTypeName_of_isAlphanum (hname.isAlphanum c hc)]; rfl
  have hbracket : ∀ c ∈ (name ++ (size ++ back')).head?, c ≠ '[' := by
    rintro c hc rfl
    rcases mem_or_head?_of_append hc with hc | hc
    · exact absurd (hname.isAlphanum _ (List.mem_of_mem_head? hc)) (by decide)
    · exact absurd (hafterName _ hc) (by decide)
  have hparenthesis : ∀ c ∈ back'.head?, c ≠ '(' := by
    rintro c hc rfl
    exact absurd (hafterSize _ hc) (by decide)
  have hafterName' : ∀ c ∈ (size ++ back').head?, (!endsTypeName c) = false :=
    fun c hc => by rw [hafterName c hc]; rfl
  simp only [Tag.parseChars, splitAt_flatMap hcomma hcommas, htrim,
    hbrackets.parseBrackets hbracket, bind, Except.bind, takeWhile_append hnameChars hafterName',
    dropWhile_append hnameChars hafterName', wireOfName_eq_ok_iff.2 hname,
    hsize.parseBufferLength hparenthesis, trim_eq_nil_iff.2 hback', parseModifiers, hencodings]
  rfl

/-- A text stands for one tag at most. -/
theorem TagText.unique {tag tag' : Tag} (h : TagText resolve text tag)
    (h' : TagText resolve text tag') : tag = tag' :=
  Except.ok.inj (h.parseChars.symm.trans h'.parseChars)

/-- Exactly the texts of tags are read, each as its tag. -/
theorem parse_eq_ok_iff {text : String} {tag : Tag} :
    parse resolve text = .ok tag ↔ TagText resolve text.toList tag :=
  ⟨tagText_of_parseChars, TagText.parseChars⟩

end Tag

end PackedRecord
