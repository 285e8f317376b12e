import PackedRecord.Plan

/-!
# What size expressions refer to

A size expression names fields of the record that its tag belongs to. `Layout.resolver_eq_ok_iff`
says which names the tag of a field may use, `Layout.available_of_names` that the tag of an exported
field names only private fields and fields in front of it, and `Plan.resolve_congr` that the plan of
a field depends on its natural representation and the named fields only. Together they make the
decoder, which sees a half-filled record, find the plans of the encoder.
-/

namespace PackedRecord

/-- The expression has the field at `index` as an operand. -/
def SizeExpr.Names (expr : SizeExpr) (index : Nat) : Prop :=
  ∃ term ∈ expr.terms, ∃ name, term.operand = .field index name

/-- The array length or the buffer length of the tag names the field at `index`. -/
def Tag.Names (tag : Tag) (index : Nat) : Prop :=
  (∃ expr, tag.brackets = .length expr ∧ expr.Names index) ∨
    ∃ expr, tag.bufferLength = some expr ∧ expr.Names index

/-- The steps of a computation that ends well end well. -/
theorem ok_of_bind {ε α β : Type} {first : Except ε α} {next : α → Except ε β} {result : β}
    (h : first >>= next = .ok result) :
    ∃ middle, first = .ok middle ∧ next middle = .ok result := by
  cases first with
  | error error => cases h
  | ok middle => exact ⟨middle, rfl, h⟩

/-- A computation that fails does so in its first step, or in what follows. -/
theorem error_of_bind {ε α β : Type} {first : Except ε α} {next : α → Except ε β} {error : ε}
    (h : first >>= next = .error error) :
    first = .error error ∨ ∃ middle, first = .ok middle ∧ next middle = .error error := by
  cases first with
  | error error' =>
      cases h
      exact .inl rfl
  | ok middle => exact .inr ⟨middle, rfl, h⟩

/-- Mapping the result does not change an error. -/
theorem error_of_map {ε α β : Type} {result : Except ε α} {f : α → β} {error : ε}
    (h : result.map f = .error error) : result = .error error := by
  cases result with
  | error error' =>
      cases h
      rfl
  | ok value => cases h

namespace SizeExpr

variable {resolve : Resolver} {text : List Char} {index : Nat}

/-- An operand that names a field does so as the resolver says. -/
theorem resolves_of_operandOf {name : String}
    (h : operandOf resolve text = .ok (.field index name)) : resolve name = .ok index := by
  unfold operandOf at h
  split at h
  · cases h
  · split at h
    · split at h <;> cases h
    · split at h
      · split at h
        next hresolve =>
          cases h
          exact hresolve
        next => cases h
      · cases h

/-- A parsed term names a field that the resolver gave. -/
theorem resolves_of_parseTerms {terms : List Term} (h : parseTerms resolve text = .ok terms)
    {term : Term} (hterm : term ∈ terms) {name : String}
    (hfield : term.operand = .field index name) : resolve name = .ok index := by
  fun_induction parseTerms resolve text generalizing terms
  case case1 =>
    cases h
    cases hterm
  case case2 => cases h
  case case3 text hempty signed operand hoperand hlt ih =>
    cases hrest : parseTerms resolve (Text.trimStart (signed.2.dropWhile isOperandChar)) with
    | error fault =>
        rw [hrest] at h
        cases h
    | ok rest =>
        rw [hrest] at h
        cases h
        rcases List.mem_cons.1 hterm with rfl | hterm
        · exact resolves_of_operandOf (hoperand.trans (congrArg Except.ok hfield))
        · exact ih hrest hterm

/-- A parsed expression names fields that the resolver gave. -/
theorem resolves_of_parse {expr : SizeExpr} (h : parse resolve text = .ok (some expr))
    (hnames : expr.Names index) : ∃ name, resolve name = .ok index := by
  obtain ⟨term, hterm, name, hfield⟩ := hnames
  unfold parse at h
  split at h
  · cases h
  · cases h
  next terms _ hterms =>
    cases h
    exact ⟨name, resolves_of_parseTerms hterms hterm hfield⟩

end SizeExpr

namespace Tag

variable {resolve : Resolver} {text rest : List Char} {index : Nat}

/-- Every field that parsed brackets name was resolved. -/
theorem resolves_of_parseBrackets {expr : SizeExpr}
    (h : parseBrackets resolve text = .ok (.length expr, rest)) (hnames : expr.Names index) :
    ∃ name, resolve name = .ok index := by
  unfold parseBrackets at h
  split at h
  · split at h
    · cases h
    next inner lengthText _ hcut =>
      cases hparse : SizeExpr.parse resolve lengthText with
      | error error =>
          rw [hparse] at h
          cases h
      | ok parsed =>
          rw [hparse] at h
          cases parsed with
          | none => cases h
          | some expr =>
              cases h
              exact SizeExpr.resolves_of_parse hparse hnames
  · cases h

/-- Every field that a parsed buffer length names was resolved. -/
theorem resolves_of_parseBufferLength {expr : SizeExpr}
    (h : parseBufferLength resolve text = .ok (some expr, rest)) (hnames : expr.Names index) :
    ∃ name, resolve name = .ok index := by
  unfold parseBufferLength at h
  split at h
  · split at h
    · cases h
    next inner sizeText _ hcut =>
      cases hparse : SizeExpr.parse resolve sizeText with
      | error error =>
          rw [hparse] at h
          cases h
      | ok parsed =>
          rw [hparse] at h
          cases parsed with
          | none => cases h
          | some expr =>
              cases h
              exact SizeExpr.resolves_of_parse hparse hnames
  · cases h

/-- The brackets and the buffer length of a parsed tag were parsed with the same resolver. -/
theorem parts_of_parse {source : String} {tag : Tag} (h : parse resolve source = .ok tag) :
    (∃ text rest, parseBrackets resolve text = .ok (tag.brackets, rest)) ∧
      ∃ text rest, parseBufferLength resolve text = .ok (tag.bufferLength, rest) := by
  unfold parse parseChars at h
  obtain ⟨⟨brackets, after⟩, hbrackets, h⟩ := ok_of_bind h
  obtain ⟨wire, -, h⟩ := ok_of_bind h
  obtain ⟨⟨bufferLength, rest⟩, hbuffer, h⟩ := ok_of_bind h
  have htag : tag.brackets = brackets ∧ tag.bufferLength = bufferLength := by
    simp only at h
    split at h
    · obtain ⟨encoding, -, h⟩ := ok_of_bind h
      cases h
      exact ⟨rfl, rfl⟩
    · obtain ⟨_, hthrow, -⟩ := ok_of_bind h
      cases hthrow
  rw [htag.1, htag.2]
  exact ⟨⟨_, _, hbrackets⟩, _, _, hbuffer⟩

/-- A parsed tag names fields that the resolver gave. -/
theorem resolves_of_parse {source : String} {tag : Tag} (h : parse resolve source = .ok tag)
    (hnames : tag.Names index) : ∃ name, resolve name = .ok index := by
  obtain ⟨⟨text, rest, hbrackets⟩, text', rest', hbuffer⟩ := parts_of_parse h
  rcases hnames with ⟨expr, hexpr, hnames⟩ | ⟨expr, hexpr, hnames⟩
  · rw [hexpr] at hbrackets
    exact resolves_of_parseBrackets hbrackets hnames
  · rw [hexpr] at hbuffer
    exact resolves_of_parseBufferLength hbuffer hnames

end Tag

namespace Layout

variable {declared : List FieldDescriptor} {index target : Nat} {own : FieldDescriptor}
  {called : String}

/-- The field at `index` takes no part in encoding and decoding. -/
def IsPrivate (declared : List FieldDescriptor) (index : Nat) : Prop :=
  ∃ field, declared[index]? = some field ∧ field.exported = false

/-- In the tag of the field at `index`, the name `called` stands for the field at `target`: the
first one of this name, another one than the own, and if both are exported one in front of it. -/
structure MayName (declared : List FieldDescriptor) (index : Nat) (called : String)
    (target : Nat) : Prop where
  named : ∃ field, declared[target]? = some field ∧ field.name = called
  first : ∀ other < target, ∀ field, declared[other]? = some field → field.name ≠ called
  other : target ≠ index
  available : IsPrivate declared target ∨ IsPrivate declared index ∨ target < index

/-- A declared field is private exactly if it is not exported. -/
theorem isPrivate_iff (hown : declared[index]? = some own) :
    IsPrivate declared index ↔ own.exported = false := by
  simp [IsPrivate, hown]

/-- A name is found where the first field of that name stands. -/
theorem findIdx?_name_eq_some_iff :
    (declared.findIdx? fun field => field.name == called) = some target ↔
      (∃ field, declared[target]? = some field ∧ field.name = called) ∧
        ∀ other < target, ∀ field, declared[other]? = some field → field.name ≠ called := by
  rw [List.findIdx?_eq_some_iff_getElem]
  constructor
  · rintro ⟨htarget, hnamed, hfirst⟩
    refine ⟨⟨_, List.getElem?_eq_getElem htarget, beq_iff_eq.1 hnamed⟩, ?_⟩
    intro other hother field hfield hname
    obtain ⟨_, rfl⟩ := List.getElem?_eq_some_iff.1 hfield
    exact hfirst other hother (beq_iff_eq.2 hname)
  · rintro ⟨⟨field, hfield, hname⟩, hfirst⟩
    obtain ⟨htarget, rfl⟩ := List.getElem?_eq_some_iff.1 hfield
    refine ⟨htarget, beq_iff_eq.2 hname, fun other hother hnamed => ?_⟩
    exact hfirst other hother _ (List.getElem?_eq_getElem _) (beq_iff_eq.1 hnamed)

/-- The tag of a field may use a name exactly if it stands for a field. -/
theorem resolver_eq_ok_iff (hown : declared[index]? = some own) :
    resolver declared index own called = .ok target ↔ MayName declared index called target := by
  -- The resolver refuses a field behind the own one only if both are exported.
  have hpermitted {field : FieldDescriptor} (hother : target ≠ index) :
      ¬(own.exported = true ∧ field.exported = true ∧ index < target) ↔
        field.exported = false ∨ own.exported = false ∨ target < index := by
    have horder : ¬index < target ↔ target < index := by omega
    cases own.exported <;> cases field.exported <;> simp [horder]
  unfold resolver
  constructor
  · intro h
    split at h
    · cases h
    next found hfound =>
      split at h
      · cases h
      next hother =>
        split at h
        · cases h
        next havailable =>
          cases h
          obtain ⟨⟨field, hfield, hname⟩, hfirst⟩ := findIdx?_name_eq_some_iff.1 hfound
          rw [hfield, Option.any_some, hpermitted hother] at havailable
          refine ⟨⟨field, hfield, hname⟩, hfirst, hother, ?_⟩
          rwa [isPrivate_iff hown, isPrivate_iff hfield]
  · rintro ⟨hnamed, hfirst, hother, havailable⟩
    rw [findIdx?_name_eq_some_iff.2 ⟨hnamed, hfirst⟩]
    obtain ⟨field, hfield, -⟩ := hnamed
    rw [isPrivate_iff hown, isPrivate_iff hfield, ← hpermitted hother] at havailable
    simp only [if_neg hother, hfield, Option.any_some, if_neg havailable]

/-- The tag of an exported field names private fields and fields in front of it only. -/
theorem available_of_names {name : String} {field : FieldLayout} {tag : Tag}
    (hfield : (build name declared).fields[index]? = some field)
    (hexported : field.exported = true) (htag : field.tag = .ok tag) (hnames : tag.Names target) :
    target < index ∨
      ∃ named, (build name declared).fields[target]? = some named ∧ named.exported = false := by
  simp only [build, List.getElem?_mapIdx, Option.map_eq_some_iff] at hfield ⊢
  obtain ⟨own, hown, rfl⟩ := hfield
  obtain ⟨called, hresolve⟩ := Tag.resolves_of_parse htag hnames
  rcases ((resolver_eq_ok_iff hown).1 hresolve).available with
    ⟨named, hnamed, hprivate⟩ | hprivate | hbefore
  · exact .inr ⟨_, ⟨named, hnamed, rfl⟩, hprivate⟩
  · rw [isPrivate_iff hown, show own.exported = true from hexported] at hprivate
    cases hprivate
  · exact .inl hbefore

end Layout

namespace SizeExpr

/-- The value of an expression depends on the values of its operands. -/
theorem eval_of_operands {expr : SizeExpr} {record record' : Option Record}
    (h : ∀ term ∈ expr.terms, operandValue expr.text record' term.operand =
      operandValue expr.text record term.operand) : expr.eval record' = expr.eval record := by
  have hsum (terms : List Term) (hterms : terms ⊆ expr.terms) (start : Int) :
      sumFrom expr.text record' start terms = sumFrom expr.text record start terms := by
    induction terms generalizing start with
    | nil => rfl
    | cons term terms ih =>
        obtain ⟨hterm, hterms⟩ := List.cons_subset.1 hterms
        rw [sumFrom, sumFrom, h term hterm]
        simp only [ih hterms]
  exact hsum _ (List.Subset.refl _) 0

/-- The value of an expression depends on the fields that it names. -/
theorem eval_congr {expr : SizeExpr} {layout : Layout} {fields fields' : List Value}
    (h : ∀ index, expr.Names index → fields'[index]? = fields[index]?) :
    expr.eval (some ⟨layout, fields'⟩) = expr.eval (some ⟨layout, fields⟩) := by
  refine eval_of_operands ?_
  intro term hterm
  cases hoperand : term.operand with
  | literal value => rfl
  | field index name =>
      simp only [operandValue, Record.field, h index ⟨term, hterm, name, hoperand⟩]

end SizeExpr

/-- The representation without the length of an array, which values of one type may differ in. -/
def Natural.unsized (natural : Natural) : Natural :=
  { natural with length := none }

/-- Apart from their lengths, representations agree if their wire types, their forms and their
references do. -/
theorem Natural.unsized_inj {natural natural' : Natural} :
    natural.unsized = natural'.unsized ↔ natural.wire = natural'.wire ∧
      natural.isArray = natural'.isArray ∧ natural.indirection = natural'.indirection := by
  simp [unsized]

namespace Plan

variable {path path' : Path} {value value' : Value} {plan : Plan}

/-- The value of an expression depends on the fields that it names only. -/
theorem evalSize_congr {expr : SizeExpr} {layout : Layout} {fields fields' : List Value}
    (h : ∀ index, expr.Names index → fields'[index]? = fields[index]?) :
    evalSize path expr (some ⟨layout, fields'⟩) = evalSize path expr (some ⟨layout, fields⟩) := by
  rw [evalSize, evalSize, SizeExpr.eval_congr h]

/-- The wire type of a plan depends on that of the value, and its error on the name of the type. -/
theorem resolveWire_congr (hwire : value'.natural.wire = value.natural.wire)
    (hname : value'.typeName = value.typeName) (path : Path) (tagged : Option WireType) :
    resolveWire path value' tagged = resolveWire path value tagged := by
  unfold resolveWire
  rw [hwire, hname]

/-- The length of an array is given by the tag only. -/
theorem resolveArray_congr (h : value'.natural.isArray = value.natural.isArray) (path : Path)
    (brackets : Brackets) (record : Option Record) :
    resolveArray path value' brackets record = resolveArray path value brackets record := by
  unfold resolveArray
  rw [h]

/-- The plan of an element depends on its natural representation and the name of its type only. -/
theorem element_congr (hnatural : value'.natural = value.natural)
    (hname : value'.typeName = value.typeName) (plan : Plan) (path : Path) :
    plan.element path value' = plan.element path value := by
  unfold element elementWire
  rw [hnatural, hname]

/-- A plan depends on the natural representation of the value, without the length of an array. -/
theorem resolve_of_natural {tag : Tag} {record : Option Record}
    (hnatural : value'.natural.unsized = value.natural.unsized)
    (h : resolve path value tag record = .ok plan) : resolve path value' tag record = .ok plan := by
  obtain ⟨wire, hwire, h⟩ := ok_of_bind h
  obtain ⟨hsame, hsameArray, hindirection⟩ := Natural.unsized_inj.1 hnatural
  have hwire' : resolveWire path value' tag.wire = .ok wire := by
    unfold resolveWire at hwire ⊢
    rw [hsame]
    split at hwire
    all_goals simp_all
  unfold resolve
  rw [hwire', resolveArray_congr hsameArray, hindirection]
  exact h

/-- The plan of a field depends on the natural representation of its value, without the length of
an array, and on the fields that the tag names. -/
theorem resolve_congr {tag : Tag} {layout : Layout} {fields fields' : List Value}
    (hnatural : value'.natural.unsized = value.natural.unsized)
    (hnamed : ∀ index, tag.Names index → fields'[index]? = fields[index]?)
    (h : resolve path value tag (some ⟨layout, fields⟩) = .ok plan) :
    resolve path value' tag (some ⟨layout, fields'⟩) = .ok plan := by
  have harray : resolveArray path value tag.brackets (some ⟨layout, fields'⟩) =
      resolveArray path value tag.brackets (some ⟨layout, fields⟩) := by
    unfold resolveArray
    split
    · rfl
    · rfl
    next expr hexpr =>
      rw [evalSize_congr fun index hindex => hnamed index (.inl ⟨expr, hexpr, hindex⟩)]
  have hbuffer : resolveBuffer path tag.bufferLength (some ⟨layout, fields'⟩) =
      resolveBuffer path tag.bufferLength (some ⟨layout, fields⟩) := by
    unfold resolveBuffer
    split
    · rfl
    next expr hexpr =>
      rw [evalSize_congr fun index hindex => hnamed index (.inr ⟨expr, hexpr, hindex⟩)]
  refine resolve_of_natural hnatural ?_
  unfold resolve
  rw [harray, hbuffer]
  exact h

end Plan

end PackedRecord
