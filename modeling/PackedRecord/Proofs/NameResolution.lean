import PackedRecord.Proofs.TagGrammar

/-!
# Resolution of names

Which fields the tags of a layout refer to. A text that some resolver reads as a tag is read by any
other one as the same tag, with its names looked up anew: `Tag.parseChars_lookUp` follows the
reading of a tag part by part. `Tag.lookedUp` says how looking them up ends, and
`Layout.references_sound_and_complete` what this means for the names that the tags of a layout may
use.
-/

namespace PackedRecord

/-! ## Looking names up -/

/-- The operand with its name looked up. -/
def Operand.lookUp (resolve : Resolver) : Operand → Except ReferenceFault Operand
  | .literal value => .ok (.literal value)
  | .field _ name => (resolve name).map (.field · name)

/-- The term with its name looked up. -/
def Term.lookUp (resolve : Resolver) (term : Term) : Except ReferenceFault Term :=
  (term.operand.lookUp resolve).map (⟨term.negative, ·⟩)

/-- The expression with its names looked up. -/
def SizeExpr.lookUp (resolve : Resolver) (expr : SizeExpr) : Except TagError SizeExpr :=
  match expr.terms.mapM (Term.lookUp resolve) with
  | .error fault => .error (.invalidExpression expr.text (.reference fault))
  | .ok terms => .ok ⟨expr.text, terms⟩

/-- The brackets with their names looked up. -/
def Brackets.lookUp (resolve : Resolver) : Brackets → Except TagError Brackets
  | .absent => .ok .absent
  | .blank => .ok .blank
  | .length expr => (expr.lookUp resolve).map .length

/-- The tag with its names looked up from the left to the right. -/
def Tag.lookUp (resolve : Resolver) (tag : Tag) : Except TagError Tag := do
  let brackets ← tag.brackets.lookUp resolve
  let bufferLength ← tag.bufferLength.mapM (SizeExpr.lookUp resolve)
  pure { tag with brackets, bufferLength }

variable {accept : Resolver} {text rest : List Char}

namespace SizeExpr

open Text

/-- A token that is an operand for one resolver is, for any other, that operand looked up anew. -/
theorem operandOf_lookUp {operand : Operand} (h : operandOf accept text = .ok operand)
    (resolve : Resolver) :
    operandOf resolve text = (operand.lookUp resolve).mapError .reference := by
  cases operandOf_eq_ok_iff.1 h with
  | literal hdigit hvalue =>
      simp only [operandOf, hdigit, hvalue, if_true]
      rfl
  | name hdigit hchars _ =>
      simp only [operandOf, hdigit, List.all_eq_true.2 hchars, if_true, Bool.false_eq_true,
        if_false, Operand.lookUp]
      split
      next hresolve => rw [hresolve]; rfl
      next hresolve => rw [hresolve]; rfl

/-- Terms that one resolver reads are read by another one with their names looked up anew. -/
theorem parseTerms_lookUp {terms : List Term} (h : parseTerms accept text = .ok terms)
    (resolve : Resolver) :
    parseTerms resolve text = (terms.mapM (Term.lookUp resolve)).mapError .reference := by
  fun_induction parseTerms accept text generalizing terms
  case case1 text hempty =>
    cases h
    rw [parseTerms, if_pos hempty]
    rfl
  case case2 => cases h
  case case3 text hempty signed operand hoperand hlt ih =>
    cases hterms : parseTerms accept (trimStart (signed.2.dropWhile isOperandChar)) with
    | error fault =>
        rw [hterms] at h
        cases h
    | ok rest =>
        rw [hterms] at h
        cases h
        rw [parseTerms_of_ne_nil hempty, operandOf_lookUp hoperand, ih hterms, List.mapM_cons,
          Term.lookUp]
        cases operand.lookUp resolve with
        | error fault => rfl
        | ok operand' => cases rest.mapM (Term.lookUp resolve) <;> rfl

/-- A text that is an expression for one resolver is, for any other, that expression looked
up anew. -/
theorem parse_lookUp {parsed : Option SizeExpr} (h : parse accept text = .ok parsed)
    (resolve : Resolver) : parse resolve text = parsed.mapM (lookUp resolve) := by
  unfold parse at h ⊢
  split at h
  · cases h
  next hterms =>
    cases h
    rw [parseTerms_lookUp hterms resolve]
    rfl
  next terms hne hterms =>
    cases h
    rw [parseTerms_lookUp hterms resolve]
    obtain ⟨term, terms, rfl⟩ := List.exists_cons_of_ne_nil hne
    rw [Option.mapM_some, lookUp, List.mapM_cons]
    cases term.lookUp resolve with
    | error fault => rfl
    | ok term' => cases terms.mapM (Term.lookUp resolve) <;> rfl

end SizeExpr

namespace Tag

open Text

/-- Brackets that one resolver accepts are read by any other as those with their names looked up. -/
theorem parseBrackets_lookUp {brackets : Brackets}
    (h : parseBrackets accept text = .ok (brackets, rest)) (resolve : Resolver) :
    parseBrackets resolve text = (brackets.lookUp resolve).map (·, rest) := by
  unfold parseBrackets at h ⊢
  split at h
  next inner =>
    split at h
    · cases h
    next lengthText after hcut =>
      obtain ⟨parsed, hparsed, h⟩ := ok_of_bind h
      simp only [SizeExpr.parse_lookUp hparsed resolve]
      cases parsed with
      | none =>
          cases h
          rfl
      | some expr =>
          cases h
          rw [Option.mapM_some, Brackets.lookUp]
          cases expr.lookUp resolve <;> rfl
  next =>
    cases h
    rfl

/-- A buffer length that one resolver accepts is read by any other as that with its names
looked up. -/
theorem parseBufferLength_lookUp {size : Option SizeExpr}
    (h : parseBufferLength accept text = .ok (size, rest)) (resolve : Resolver) :
    parseBufferLength resolve text = (size.mapM (SizeExpr.lookUp resolve)).map (·, rest) := by
  unfold parseBufferLength at h ⊢
  split at h
  next inner =>
    split at h
    · cases h
    next sizeText after hcut =>
      obtain ⟨parsed, hparsed, h⟩ := ok_of_bind h
      simp only [SizeExpr.parse_lookUp hparsed resolve]
      cases parsed with
      | none => cases h
      | some expr =>
          cases h
          rw [Option.mapM_some]
          cases expr.lookUp resolve <;> rfl
  next =>
    cases h
    rfl

/-- A tag that one resolver reads is read by another one with its names looked up anew. -/
theorem parseChars_lookUp {tag : Tag} (h : parseChars accept text = .ok tag)
    (resolve : Resolver) : parseChars resolve text = tag.lookUp resolve := by
  unfold parseChars at h ⊢
  generalize splitAt ',' text = parts at h ⊢
  obtain ⟨head, modifiers⟩ := parts
  obtain ⟨⟨brackets, afterBrackets⟩, hbrackets, h⟩ := ok_of_bind h
  obtain ⟨wire, hwire, h⟩ := ok_of_bind h
  obtain ⟨⟨bufferLength, rest⟩, hsize, h⟩ := ok_of_bind h
  simp only at h
  split at h
  case isFalse =>
    obtain ⟨_, hthrow, -⟩ := ok_of_bind h
    cases hthrow
  rename_i hblank
  obtain ⟨encoding, hencoding, h⟩ := ok_of_bind h
  cases h
  simp only [parseBrackets_lookUp hbrackets resolve, lookUp]
  cases brackets.lookUp resolve with
  | error error => rfl
  | ok brackets' =>
      simp only [Except.map, bind, Except.bind, hwire, parseBufferLength_lookUp hsize resolve]
      cases bufferLength.mapM (SizeExpr.lookUp resolve) with
      | error error => rfl
      | ok bufferLength' =>
          simp only [hblank, hencoding, if_true]

end Tag

/-! ## Names in tags -/

/-- The expression names the field at `target` as `called`. -/
def SizeExpr.Refers (expr : SizeExpr) (target : Nat) (called : String) : Prop :=
  ∃ term ∈ expr.terms, term.operand = .field target called

/-- The array length or the buffer length of the tag names the field at `target` as `called`. -/
def Tag.Refers (tag : Tag) (target : Nat) (called : String) : Prop :=
  (∃ expr, tag.brackets = .length expr ∧ expr.Refers target called) ∨
    ∃ expr, tag.bufferLength = some expr ∧ expr.Refers target called

/-- The names of a parsed expression stand for the fields that the resolver gave. -/
theorem SizeExpr.ExprText.resolves {resolve : Resolver} {expr : SizeExpr} {target : Nat}
    {called : String} (h : ExprText resolve text expr) (hrefers : expr.Refers target called) :
    resolve called = .ok target := by
  obtain ⟨term, hterm, hoperand⟩ := hrefers
  exact resolves_of_parseTerms h.terms.parseTerms hterm hoperand

/-- The names of a parsed tag stand for the fields that the resolver gave. -/
theorem Tag.TagText.resolves {resolve : Resolver} {tag : Tag} {target : Nat} {called : String}
    (h : TagText resolve text tag) (hrefers : tag.Refers target called) :
    resolve called = .ok target := by
  obtain ⟨-, hbrackets, -, hsize, -, -⟩ := h
  rcases hrefers with ⟨expr, rfl, hrefers⟩ | ⟨expr, rfl, hrefers⟩
  · cases hbrackets with
    | length hinner => exact hinner.resolves hrefers
  · cases hsize with
    | length hinner => exact hinner.resolves hrefers

/-- How looking names up ends: all of them are found, or the error blames one that is not. -/
inductive LookedUp {ε α : Type} (resolve : Resolver) (blames : ε → ReferenceFault → Prop)
    (names : String → Prop) : Except ε α → Prop where
  | found {value : α} (h : ∀ called, names called → ∃ target, resolve called = .ok target) :
      LookedUp resolve blames names (.ok value)
  | missing {error : ε} {called : String} {fault : ReferenceFault} (hname : names called)
      (hresolve : resolve called = .error fault) (hblames : blames error fault) :
      LookedUp resolve blames names (.error error)

namespace LookedUp

variable {ε α β : Type} {resolve : Resolver} {blames : ε → ReferenceFault → Prop}
  {names names' : String → Prop}

/-- Where no name is looked up, all of them are found. -/
theorem nothing (value : α) : LookedUp resolve blames (fun _ => False) (.ok value) :=
  .found fun _ h => h.elim

/-- Only which names are looked up matters. -/
theorem congr {result : Except ε α} (h : LookedUp resolve blames names result)
    (hnames : ∀ called, names called ↔ names' called) : LookedUp resolve blames names' result := by
  obtain rfl : names = names' := funext fun called => propext (hnames called)
  exact h

/-- What is made of the result does not matter for the names. -/
theorem map {result : Except ε α} (h : LookedUp resolve blames names result) (f : α → β) :
    LookedUp resolve blames names (result.map f) := by
  cases h with
  | found h => exact .found h
  | missing hname hresolve hblames => exact .missing hname hresolve hblames

/-- One after another, the names of both parts are looked up. -/
theorem bind {first : Except ε α} {next : α → Except ε β}
    (hfirst : LookedUp resolve blames names first)
    (hnext : ∀ value, LookedUp resolve blames names' (next value)) :
    LookedUp resolve blames (fun called => names called ∨ names' called) (first >>= next) := by
  cases hfirst with
  | missing hname hresolve hblames => exact .missing (.inl hname) hresolve hblames
  | @found value hfound =>
      show LookedUp resolve blames _ (next value)
      have hvalue := hnext value
      generalize next value = result at hvalue ⊢
      cases hvalue with
      | found hfound' =>
          exact .found fun called hname => hname.elim (hfound called) (hfound' called)
      | missing hname hresolve hblames => exact .missing (.inr hname) hresolve hblames

/-- In a list, the names of all its members are looked up. -/
theorem mapM {f : α → Except ε β} {names : α → String → Prop}
    (h : ∀ value, LookedUp resolve blames (names value) (f value)) (values : List α) :
    LookedUp resolve blames (fun called => ∃ value ∈ values, names value called)
      (values.mapM f) := by
  induction values with
  | nil => exact (nothing []).congr (by simp)
  | cons value values ih =>
      rw [List.mapM_cons]
      exact ((h value).bind fun _ => ih.bind fun _ => nothing _).congr (by simp)

/-- Where there may be nothing, the names of what is there are looked up. -/
theorem mapM_option {f : α → Except ε β} {names : α → String → Prop}
    (h : ∀ value, LookedUp resolve blames (names value) (f value)) (value? : Option α) :
    LookedUp resolve blames (fun called => ∃ value, value? = some value ∧ names value called)
      (value?.mapM f) := by
  cases value? with
  | none => exact (nothing none).congr (by simp)
  | some value =>
      rw [Option.mapM_some]
      exact ((h value).map some).congr (by simp)

end LookedUp

/-- The error says that an expression is invalid because of the fault. -/
def TagError.Blames (error : TagError) (fault : ReferenceFault) : Prop :=
  ∃ text, error = .invalidExpression text (.reference fault)

/-- A term looks up the name of its operand, if that is a field. -/
theorem Term.lookedUp (resolve : Resolver) (term : Term) :
    LookedUp resolve Eq (fun called => ∃ target, term.operand = .field target called)
      (term.lookUp resolve) := by
  refine LookedUp.map ?_ _
  cases term.operand with
  | literal value => exact (LookedUp.nothing _).congr (by simp)
  | field target called =>
      have hnames (called' : String) :
          (∃ target', Operand.field target called = .field target' called') ↔ called' = called := by
        simp [eq_comm]
      simp only [hnames, Operand.lookUp]
      cases hresolve : resolve called with
      | ok target' =>
          refine .found ?_
          rintro _ rfl
          exact ⟨target', hresolve⟩
      | error fault => exact .missing rfl hresolve rfl

/-- An expression looks up the names of all its terms and blames the one that is missing. -/
theorem SizeExpr.lookedUp (resolve : Resolver) (expr : SizeExpr) :
    LookedUp resolve TagError.Blames (fun called => ∃ target, expr.Refers target called)
      (expr.lookUp resolve) := by
  have hterms := LookedUp.mapM (Term.lookedUp resolve) expr.terms
  have hnames (called : String) :
      (∃ term ∈ expr.terms, ∃ target, term.operand = .field target called) ↔
        ∃ target, expr.Refers target called := by
    simp only [Refers]
    grind
  replace hterms := hterms.congr hnames
  unfold lookUp
  generalize expr.terms.mapM (Term.lookUp resolve) = result at hterms ⊢
  cases hterms with
  | found h => exact .found h
  | missing hname hresolve hblames => exact .missing hname hresolve ⟨_, by rw [hblames]⟩

/-- A tag with a name that is not found is an invalid expression, and only such a tag is. -/
theorem Tag.lookedUp (resolve : Resolver) (tag : Tag) :
    LookedUp resolve TagError.Blames (fun called => ∃ target, tag.Refers target called)
      (tag.lookUp resolve) := by
  have hbrackets : LookedUp resolve TagError.Blames
      (fun called => ∃ expr, tag.brackets = .length expr ∧ ∃ target, expr.Refers target called)
      (tag.brackets.lookUp resolve) := by
    cases tag.brackets with
    | absent => exact (LookedUp.nothing _).congr (by simp)
    | blank => exact (LookedUp.nothing _).congr (by simp)
    | length expr => exact ((expr.lookedUp resolve).map _).congr (by simp)
  have hsize := LookedUp.mapM_option (SizeExpr.lookedUp resolve) tag.bufferLength
  refine (hbrackets.bind fun _ => hsize.bind fun _ => LookedUp.nothing _).congr fun called => ?_
  simp only [Refers]
  grind

/-! ## Layouts -/

namespace Layout

variable {declared declared' : List FieldDescriptor} {index target : Nat} {called : String}
  {own : FieldDescriptor}

/-- What the tags of the other fields see of a field. -/
def visible (field : FieldDescriptor) : String × Bool :=
  (field.name, field.exported)

/-- A field keeps its name and whether it is exported. -/
theorem map_fields_build (name : String) (declared : List FieldDescriptor) :
    (build name declared).fields.map (fun field => (field.name, field.exported)) =
      declared.map visible := by
  refine List.ext_getElem? fun index => ?_
  simp only [build, List.getElem?_map, List.getElem?_mapIdx]
  cases declared[index]? <;> rfl

/-- Which names a tag may use does not depend on the tags. -/
theorem resolver_congr (h : declared.map visible = declared'.map visible) :
    resolver declared index own = resolver declared' index own := by
  have hfind (declared : List FieldDescriptor) (called : String) :
      (declared.findIdx? fun field => field.name == called) =
        (declared.map visible).findIdx? fun seen => seen.1 == called := by
    rw [List.findIdx?_map]
    rfl
  have hexported (declared : List FieldDescriptor) (target : Nat) :
      declared[target]?.any (·.exported) = (declared.map visible)[target]?.any (·.2) := by
    rw [List.getElem?_map, Option.any_map]
    rfl
  funext called
  simp only [resolver, hfind, hexported, h]

/-- The layout finds the first field of a name. -/
theorem indexOf?_build (name : String) (declared : List FieldDescriptor) (called : String) :
    (build name declared).indexOf? called =
      declared.findIdx? fun field => field.name == called := by
  have hfields := congrArg (·.findIdx? fun seen => seen.1 == called)
    (map_fields_build name declared)
  simp only [List.findIdx?_map] at hfields
  exact hfields

/-- A field of a built layout has the tag that its text is read as among the declared fields. -/
theorem getElem?_build {name : String} {field : FieldLayout}
    (hown : declared[index]? = some own)
    (hfield : (build name declared).fields[index]? = some field) :
    field.tag = Tag.parse (resolver declared index own) own.tag := by
  rw [build, List.getElem?_mapIdx, hown] at hfield
  cases hfield
  rfl

/-- A field is laid out the same whatever the tag of another field is. -/
theorem getElem?_build_set (name other : String) {place : Nat} (hown : declared[index]? = some own)
    (hplace : place ≠ index) :
    (build name (declared.set index { own with tag := other })).fields[place]? =
      (build name declared).fields[place]? := by
  obtain ⟨hindex, rfl⟩ := List.getElem?_eq_some_iff.1 hown
  have hvisible : (declared.set index { declared[index] with tag := other }).map visible =
      declared.map visible := by
    have hlength : index < (declared.map visible).length := by simpa using hindex
    have hsame : visible { declared[index] with tag := other } = (declared.map visible)[index] :=
      (List.getElem_map visible).symm
    rw [List.map_set, hsame, List.set_getElem_self]
  simp only [build, List.getElem?_mapIdx, List.getElem?_set_ne hplace.symm,
    resolver_congr hvisible]

/-- A layout has the names and the exported fields of the declaration. Whatever name a tag uses
stands for the first field of this name, and for one that its own field may name; a tag is read if
all its names are such names, and is an invalid expression for its own field alone if one is not. -/
theorem references_sound_and_complete (name : String) (declared : List FieldDescriptor) :
    (build name declared).fields.map (fun field => (field.name, field.exported)) =
        declared.map (fun field => (field.name, field.exported)) ∧
      ∀ index own field, declared[index]? = some own →
        (build name declared).fields[index]? = some field →
        (∀ tag, field.tag = .ok tag → ∀ target called, tag.Refers target called →
          target < (build name declared).fields.length ∧
            (build name declared).indexOf? called = some target ∧
            MayName declared index called target) ∧
        (∀ accept tag, Tag.TagText accept own.tag.toList tag →
          ((∀ target called, tag.Refers target called →
              ∃ target', MayName declared index called target') →
            ∃ tag', field.tag = .ok tag') ∧
          ((∃ target called, tag.Refers target called ∧
              ¬∃ target', MayName declared index called target') →
            ∃ text fault, field.tag = .error (.invalidExpression text (.reference fault)))) ∧
        ∀ other place, place ≠ index →
          (build name (declared.set index { own with tag := other })).fields[place]? =
            (build name declared).fields[place]? := by
  refine ⟨map_fields_build name declared, fun index own field hown hfield => ?_⟩
  have htag := getElem?_build hown hfield
  refine ⟨fun tag hparsed target called hrefers => ?_, fun accept tag htext => ?_,
    fun other place => getElem?_build_set name other hown⟩
  · have hnames := resolver_eq_ok_iff hown |>.1
      ((Tag.tagText_of_parseChars (htag.symm.trans hparsed)).resolves hrefers)
    obtain ⟨field', hfield', -⟩ := hnames.named
    refine ⟨?_, ?_, hnames⟩
    · rw [build, List.length_mapIdx]
      exact (List.getElem?_eq_some_iff.1 hfield').1
    · rw [indexOf?_build, findIdx?_name_eq_some_iff]
      exact ⟨hnames.named, hnames.first⟩
  · have hparse : field.tag = tag.lookUp (resolver declared index own) :=
      htag.trans (Tag.parseChars_lookUp htext.parseChars _)
    have hlookedUp := tag.lookedUp (resolver declared index own)
    rw [← hparse] at hlookedUp
    constructor
    · intro hnames
      generalize field.tag = result at hlookedUp ⊢
      cases hlookedUp with
      | @found tag' _ => exact ⟨tag', rfl⟩
      | missing hname hfault _ =>
          obtain ⟨target, hrefers⟩ := hname
          obtain ⟨target', hname⟩ := hnames target _ hrefers
          rw [(resolver_eq_ok_iff hown).2 hname] at hfault
          cases hfault
    · rintro ⟨target, called, hrefers, hno⟩
      generalize field.tag = result at hlookedUp ⊢
      cases hlookedUp with
      | found h =>
          obtain ⟨target', hfound⟩ := h called ⟨target, hrefers⟩
          exact absurd ⟨target', (resolver_eq_ok_iff hown).1 hfound⟩ hno
      | missing _ _ hblames =>
          obtain ⟨text, rfl⟩ := hblames
          exact ⟨text, _, rfl⟩

/-- Two arrays, one of which has its length in front of it and the other behind it. -/
def crates : List FieldDescriptor :=
  [⟨"n", "byte", true⟩, ⟨"front", "[n]byte", true⟩, ⟨"back", "[m]byte", true⟩, ⟨"m", "byte", true⟩]

/-- The tag of an array of bytes whose length is the first field. -/
def countedBytes (called : String) : Tag :=
  ⟨some .byte, .length ⟨called, [⟨false, .field 0 called⟩]⟩, none, none⟩

/-- The tag of counted bytes refers to the first field and to nothing else. -/
theorem countedBytes_refers_iff {name : String} :
    (countedBytes name).Refers target called ↔ target = 0 ∧ called = name := by
  simp [Tag.Refers, SizeExpr.Refers, countedBytes, eq_comm]

/-- The length in front is found, and the one behind is not. -/
theorem references_sound_and_complete_crates :
    (MayName crates 1 "n" 0 ∧
      ∃ tag, (build "Crates" crates).fields[1]?.map (·.tag) = some (.ok tag)) ∧
    (¬∃ target, MayName crates 2 "m" target) ∧
      ∃ text fault, (build "Crates" crates).fields[2]?.map (·.tag) =
        some (.error (.invalidExpression text (.reference fault))) := by
  obtain ⟨-, hfields⟩ := references_sound_and_complete "Crates" crates
  have hown : crates[2]? = some ⟨"back", "[m]byte", true⟩ := rfl
  obtain ⟨hsound, hread, -⟩ := hfields 1 ⟨"front", "[n]byte", true⟩ _ rfl rfl
  obtain ⟨-, hread', -⟩ := hfields 2 _ _ hown rfl
  have hfront : Tag.parse (resolver crates 1 ⟨"front", "[n]byte", true⟩) "[n]byte" =
      .ok (countedBytes "n") := by cbv
  have hback : Tag.TagText (fun _ => .ok 0) "[m]byte".toList (countedBytes "m") :=
    Tag.tagText_of_parseChars (by cbv)
  have hn : MayName crates 1 "n" 0 :=
    (hsound _ hfront 0 "n" (countedBytes_refers_iff.2 ⟨rfl, rfl⟩)).2.2
  have hm : ¬∃ target, MayName crates 2 "m" target := by
    rintro ⟨target, hname⟩
    have hok := (resolver_eq_ok_iff hown).2 hname
    have hfault : resolver crates 2 ⟨"back", "[m]byte", true⟩ "m" =
        .error (.notYetAvailable "m") := by decide
    rw [hfault] at hok
    cases hok
  refine ⟨⟨hn, ?_⟩, hm, ?_⟩
  · obtain ⟨tag, htag⟩ := (hread _ _ (Tag.tagText_of_parseChars hfront)).1 fun target called h =>
      ⟨0, by rwa [(countedBytes_refers_iff.1 h).2]⟩
    exact ⟨tag, congrArg some htag⟩
  · obtain ⟨text, fault, hfault⟩ := (hread' _ _ hback).2
      ⟨0, "m", countedBytes_refers_iff.2 ⟨rfl, rfl⟩, hm⟩
    exact ⟨text, fault, congrArg some hfault⟩

end Layout

end PackedRecord
