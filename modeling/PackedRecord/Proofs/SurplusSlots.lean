import PackedRecord.Proofs.Calls
import PackedRecord.Proofs.ScratchDecoding

/-!
# Slots without places

A destination may have fewer places than an array has slots. `decodeAt_array` says what the surplus
slots come to: an array of any fixed length takes as many bytes as a vector takes, and it has the
same elements as far as it goes. The surplus slots are decoded into one scratch value over and over,
which takes the bytes that fresh elements would take; where they are of a fixed size they are
skipped instead, which is the same. `decodeAt_array_slots` shows a record type for which it is not,
since what a slot leaves in the scratch value counts for the next one.
-/

namespace PackedRecord

section elements

variable {schema : Schema} {settings : Settings} {room : Nat} {child : Option ChildDecoder}
  {path : Path} {plan itemPlan : Plan} {element : HostType} {bytes : Bytes}

/-- The elements behind the first ones do not change these. -/
theorem prefix_of_accepts_decodeElements {index : Nat} {decoded items result : List Value}
    (h : (decodeElements child path plan index decoded items).Accepts bytes result) :
    decoded.reverse <+: result := by
  induction items generalizing index decoded bytes with
  | nil =>
      obtain ⟨-, rfl⟩ := h
      exact List.prefix_refl _
  | cons item items ih =>
      obtain ⟨_, item', _, -, -, hback⟩ := accepts_decodeElements_cons.1 h
      have hlonger := ih hback
      rw [List.reverse_cons] at hlonger
      exact (List.prefix_append _ _).trans hlonger

/-- A scratch value takes slot by slot what fresh elements take. -/
theorem accepts_discardElements {fresh scratch : Value} (hpad : plan.wire ≠ .pad)
    (hignore : plan.wire ≠ .ignore) (hscratch : fresh.ServesIn schema plan scratch)
    {count index : Nat} {decoded result : List Value}
    (h : (decodeElements (decodeBelow schema settings room) path plan index decoded
      (List.replicate count fresh)).Accepts bytes result) :
    (discardElements (decodeBelow schema settings room) path plan count index scratch).Accepts bytes
      () := by
  induction count generalizing index decoded scratch bytes with
  | zero => exact ⟨h.1, rfl⟩
  | succ count ih =>
      obtain ⟨front, item, back, rfl, hfront, hback⟩ := accepts_decodeElements_cons.1 h
      obtain ⟨scratch', hfront', itemPlan, hplan, hrefilled⟩ :=
        tracks_decodeElement (servesBelow schema settings room) hpad hignore hscratch index front
          item hfront
      exact (hfront'.leaving ()).bind (ih (servesIn_of_element hplan hrefilled.serves) hback)

/-- An element of a fixed size takes as many bytes. -/
theorem length_of_accepts_fixed {path' : Path} {index : Nat} {item result : Value}
    (hpad : plan.wire ≠ .pad) (hignore : plan.wire ≠ .ignore)
    (hplan : plan.element path' item = .ok itemPlan)
    (hfixed : itemPlan.isFixedSize = true)
    (h : (decodeElement (decodeBelow schema settings room) path plan index item).Accepts bytes
      result) : bytes.length = itemPlan.wire.byteSize := by
  obtain ⟨room', itemPlan', hplan', haccepts⟩ := planned_of_accepts_decodeElement h
  cases (Plan.element_of_natural rfl hplan').symm.trans hplan
  obtain ⟨hpad', hignore', -⟩ := Plan.parts_of_element hpad hignore hplan
  simp only [Plan.isFixedSize, Bool.and_eq_true, decide_eq_true_eq, Bool.not_eq_true',
    beq_iff_eq] at hfixed
  obtain ⟨⟨hsize, hsingle⟩, hdirect⟩ := hfixed
  have hnumeric : itemPlan.wire.isNumeric = true := by
    revert hsize
    cases itemPlan.wire <;> decide
  exact (accepts_decodeIn_number ⟨hpad', hignore', hdirect⟩ hsingle (.inl hnumeric) haccepts).2

/-- Elements of a fixed size take as many bytes as they are times that size. -/
theorem length_of_accepts_fixeds {path' : Path} {fresh : Value} (hpad : plan.wire ≠ .pad)
    (hignore : plan.wire ≠ .ignore) (hplan : plan.element path' fresh = .ok itemPlan)
    (hfixed : itemPlan.isFixedSize = true) {count index : Nat} {decoded result : List Value}
    (h : (decodeElements (decodeBelow schema settings room) path plan index decoded
      (List.replicate count fresh)).Accepts bytes result) :
    bytes.length = itemPlan.wire.byteSize * count := by
  induction count generalizing index decoded bytes with
  | zero => rw [h.1, List.length_nil, Nat.mul_zero]
  | succ count ih =>
      obtain ⟨front, item, back, rfl, hfront, hback⟩ := accepts_decodeElements_cons.1 h
      rw [List.length_append, length_of_accepts_fixed hpad hignore hplan hfixed hfront, ih hback,
        Nat.mul_succ, Nat.add_comm]

/-- A product that is no more than the greatest size is exact. -/
theorem sizeMul_of_le {m n : Nat} (h : m * n ≤ sizeMax) : sizeMul m n = m * n :=
  Nat.min_eq_right h

/-- The surplus slots are passed over as fresh elements would be decoded. -/
theorem accepts_discardSlots {fresh : Value} (hpad : plan.wire ≠ .pad)
    (hignore : plan.wire ≠ .ignore)
    (hserves : fresh.ServesIn schema plan fresh) {stored slots : Nat}
    {decoded result : List Value} (hsize : bytes.length ≤ sizeMax)
    (h : (decodeElements (decodeBelow schema settings room) path plan stored decoded
      (List.replicate (slots - stored) fresh)).Accepts bytes result) :
    (discardSlots (decodeBelow schema settings room) path plan fresh stored slots).Accepts bytes
      () := by
  unfold discardSlots
  split
  next hfull =>
    rw [Nat.sub_eq_zero_of_le hfull] at h
    exact ⟨h.1, rfl⟩
  next hfew =>
    obtain ⟨surplus, hsurplus⟩ := Nat.exists_eq_add_one_of_ne_zero (Nat.sub_ne_zero_iff_lt.2
      (Nat.lt_of_not_le hfew))
    have hfirst := h
    rw [hsurplus] at hfirst
    obtain ⟨front, item, back, -, hfront, -⟩ := accepts_decodeElements_cons.1 hfirst
    obtain ⟨-, itemPlan, hplan, -⟩ := planned_of_accepts_decodeElement hfront
    have hroom : (decodeBelow schema settings room).isNone = false := by
      cases room with
      | zero => exact hfront.elim
      | succ room => rfl
    simp only [hroom, Bool.false_eq_true, if_false, hplan]
    split
    next hfixed =>
      have hlength := length_of_accepts_fixeds hpad hignore hplan hfixed h
      rw [sizeMul_of_le (hlength ▸ hsize), ← hlength]
      exact Intake.accepts_skip
    next => exact accepts_discardElements hpad hignore hserves h

/-- Slots that are bytes are skipped. -/
theorem accepts_discardBytes (hdirect : plan.IsDirect)
    (hwire : plan.wire = .byte ∨ plan.wire = .uint8) {stored slots : Nat}
    (hlength : bytes.length = slots - stored) (hsize : bytes.length ≤ sizeMax) :
    (discardSlots (decodeBelow schema settings (room + 1)) path plan (schema.default .byte) stored
      slots).Accepts bytes () := by
  unfold discardSlots
  split
  next hfull =>
    rw [Nat.sub_eq_zero_of_le hfull] at hlength
    exact ⟨List.eq_nil_of_length_eq_zero hlength, rfl⟩
  next hfew =>
    have hplan : plan.element (.index stored :: path) (schema.default .byte) =
        .ok (plan.ofElement .byte) :=
      Plan.element_eq hdirect.not_pad hdirect.not_ignore rfl nofun
    obtain ⟨hnumeric, hone⟩ := WireType.size_of_bulk hwire
    obtain ⟨hitem, hsingle, hsame⟩ := Plan.ofElement_byte hdirect hnumeric
    have hfixed : (plan.ofElement .byte).isFixedSize = true := by
      simp [Plan.isFixedSize, hsame, hone, hsingle, hitem.indirection_eq]
    simp only [decodeBelow, Option.isNone_some, Bool.false_eq_true, if_false, hplan, hfixed,
      if_true, hsame, hone]
    rw [sizeMul_of_le (by omega), Nat.one_mul, ← hlength]
    exact Intake.accepts_skip

/-- The elements of an array, taken apart behind the last place of the destination. -/
theorem accepts_decodeItems_split (hdirect : plan.IsDirect) (hsteady : element.Steady schema)
    {slots : Nat} {items : List Value}
    (hsize : bytes.length ≤ sizeMax)
    (h : (decodeItems (decodeBelow schema settings (room + 1)) path plan element
      (List.replicate slots (schema.default element))).Accepts bytes items) (stored : Nat) :
    ∃ front back, bytes = front ++ back ∧
      (decodeItems (decodeBelow schema settings (room + 1)) path plan element
        (List.replicate (min slots stored) (schema.default element))).Accepts front
          (items.take stored) ∧
      (discardSlots (decodeBelow schema settings (room + 1)) path plan (schema.default element)
        stored slots).Accepts back () := by
  unfold decodeItems at *
  by_cases hbulk : element = .byte ∧ (plan.wire = .byte ∨ plan.wire = .uint8)
  · rw [if_pos hbulk] at h ⊢
    obtain ⟨data, _, rfl, hcount, rfl, rfl⟩ := h
    obtain ⟨rfl, hwire⟩ := hbulk
    rw [List.append_nil] at hsize ⊢
    rw [List.length_replicate] at hcount ⊢
    refine ⟨data.take stored, data.drop stored, (List.take_append_drop stored data).symm, ?_, ?_⟩
    · refine ⟨data.take stored, [], (List.append_nil _).symm, ?_, rfl, List.map_take⟩
      rw [List.length_take, hcount, Nat.min_comm]
    · have hrest : (data.drop stored).length = slots - stored := by rw [List.length_drop, hcount]
      exact accepts_discardBytes hdirect hwire hrest (by rw [List.length_drop]; omega)
  · rw [if_neg hbulk] at h ⊢
    have hsplit : List.replicate slots (schema.default element) =
        List.replicate (min slots stored) (schema.default element) ++
          List.replicate (slots - stored) (schema.default element) := by
      rw [← List.replicate_add]
      congr 1
      omega
    rw [hsplit] at h
    obtain ⟨front, middle, back, rfl, hfront, hback⟩ := accepts_decodeElements_append.1 h
    have hcount := length_of_accepts_decodeElements hfront
    have hprefix := prefix_of_accepts_decodeElements hback
    simp only [List.length_nil, Nat.zero_add, List.length_replicate, List.reverse_reverse] at *
    rw [List.length_append] at hsize
    have hserves : (schema.default element).ServesIn schema plan (schema.default element) :=
      fun _ itemPlan _ => schema.serves_default hsteady itemPlan
    have hlength := length_of_accepts_decodeElements hback
    rw [List.length_reverse, List.length_replicate, hcount] at hlength
    refine ⟨front, back, rfl, ?_, ?_⟩
    · have hitems : items.take stored = middle := by
        rw [List.prefix_iff_eq_take.1 hprefix, hcount, List.take_eq_take_iff]
        omega
      rwa [hitems]
    · by_cases hfull : slots ≤ stored
      · rw [Nat.sub_eq_zero_of_le hfull] at hback
        rw [discardSlots, if_pos hfull]
        exact ⟨hback.1, rfl⟩
      · rw [Nat.min_eq_right (Nat.le_of_not_le hfull)] at hback
        exact accepts_discardSlots hdirect.not_pad hdirect.not_ignore hserves (by omega) hback

/-- A vector has a place for every slot. -/
theorem items_of_accepts_vector {slots : Nat} (hslots : plan.arrayLength = some slots)
    {items : List Value}
    (h : (decodeSequence schema settings child path plan .growable element []).Accepts bytes
      items) :
    settings.limits.checkCollect path slots = .ok () ∧
      (decodeItems child path plan element (List.replicate slots (schema.default element))).Accepts
        bytes items := by
  rw [decodeSequence_eq] at h
  simp only [hslots, Option.getD_some, if_true, resized_nil] at h
  split at h
  next => exact h.elim
  next hcheck =>
    obtain ⟨front, decoded, back, rfl, hwithin, hback⟩ := Intake.accepts_bind.1 h
    obtain ⟨items', hitems, rfl⟩ := Intake.accepts_bimap.1 hwithin
    rw [discardSlots, if_pos (Nat.le_of_eq List.length_replicate.symm)] at hback
    obtain ⟨rfl, rfl⟩ := hback
    rw [List.take_of_length_le (Nat.le_of_eq List.length_replicate)] at hitems
    rw [List.drop_of_length_le (Nat.le_of_eq List.length_replicate), List.append_nil,
      List.append_nil]
    exact ⟨hcheck, hitems⟩

/-- An array of any fixed length accepts the bytes of a vector, and has the same elements as far as
it goes. -/
theorem accepts_decodeSequence_fixed (hdirect : plan.IsDirect) (hsteady : element.Steady schema)
    {slots : Nat} (hslots : plan.arrayLength = some slots)
    (hcheck : settings.limits.checkCollect path slots = .ok ()) {items : List Value}
    (hsize : bytes.length ≤ sizeMax)
    (h : (decodeItems (decodeBelow schema settings (room + 1)) path plan element
      (List.replicate slots (schema.default element))).Accepts bytes items) (length : Nat) :
    (decodeSequence schema settings (decodeBelow schema settings (room + 1)) path plan .fixed
      element (List.replicate length (schema.default element))).Accepts bytes
        (items.take length ++ List.replicate (length - slots) (schema.default element)) := by
  obtain ⟨front, back, rfl, hfront, hback⟩ :=
    accepts_decodeItems_split hdirect hsteady hsize h length
  rw [decodeSequence_eq]
  simp only [hslots, Option.getD_some, hcheck, reduceCtorEq, if_false]
  unfold decodePlaces
  rw [List.take_replicate, List.drop_replicate, List.length_replicate]
  exact (hfront.bimap _ _).bind ((hback.leaving _).bind_done ⟨rfl, rfl⟩)

end elements

/-- Above the limit there is room for a step. -/
theorem Limits.exists_room {limits : Limits} {path : Path} (h : path.depth < limits.recursion) :
    ∃ room, limits.room path = room + 1 :=
  Nat.exists_eq_add_one_of_ne_zero (Nat.sub_ne_zero_of_lt h)

section arrays

variable {schema : Schema} {settings : Settings} {path : Path} {record : Option Record} {tag : Tag}
  {expr : SizeExpr} {element : HostType} {bytes : Bytes} {left : Value}

/-- A sequence that can be written to, under a tag that gives the length of the array. -/
theorem decodeAt_sequence {kind : SequenceKind} {items : List Value} (hkind : kind ≠ .borrowed)
    (hbrackets : tag.brackets = .length expr) (hpad : tag.wire ≠ some .pad)
    (hignore : tag.wire ≠ some .ignore) {plan : Plan}
    (hplan : Plan.resolve path (.sequence kind element items) tag record = .ok plan) :
    decodeAt schema settings path record tag (.sequence kind element items) =
      (decodeSequence schema settings (decodeBelow schema settings (settings.limits.room path)) path
        plan kind element items).within (.sequence kind element) := by
  obtain ⟨hpad_iff, hignore_iff⟩ := Plan.skipped_iff_of_resolve hplan
  have hindirection := (Plan.parts_of_resolve hplan).2.2.2.1
  have hdirect : plan.IsDirect := ⟨mt hpad_iff.1 hpad, mt hignore_iff.1 hignore, hindirection⟩
  rw [decodeAt, hplan]
  show decodeIn schema settings (settings.limits.room path) path _ plan = _
  rw [decodeIn_eq, hdirect.decodeWith_eq, if_pos (Plan.eval_of_resolve_length hplan hbrackets).1]
  cases kind with
  | borrowed => exact absurd rfl hkind
  | growable | fixed => rfl

/-- How an empty vector was decoded by a tag that gives the length of the array. -/
theorem accepts_decodeAt_vector (hbrackets : tag.brackets = .length expr)
    (hpad : tag.wire ≠ some .pad) (hignore : tag.wire ≠ some .ignore)
    (h : (decodeAt schema settings path record tag (schema.default (.vector element))).Accepts bytes
      left) :
    ∃ plan items, left = .sequence .growable element items ∧
      Plan.resolve path (.sequence .growable element []) tag record = .ok plan ∧ plan.IsDirect ∧
      plan.arrayLength = some items.length ∧ Plan.evalSize path expr record = .ok items.length ∧
      settings.limits.checkCollect path items.length = .ok () ∧
      (decodeItems (decodeBelow schema settings (settings.limits.room path)) path plan element
        (List.replicate items.length (schema.default element))).Accepts bytes items := by
  have hempty : schema.default (.vector element) = .sequence .growable element [] := rfl
  rw [hempty] at h
  cases hplan : Plan.resolve path (.sequence .growable element []) tag record with
  | error error =>
      rw [decodeAt, hplan] at h
      exact h.elim
  | ok plan =>
      rw [decodeAt_sequence (by decide) hbrackets hpad hignore hplan] at h
      obtain ⟨items, hitems, rfl⟩ := Intake.accepts_bimap.1 h
      obtain ⟨hpad_iff, hignore_iff⟩ := Plan.skipped_iff_of_resolve hplan
      obtain ⟨-, slots, hslots, hlength⟩ := Plan.eval_of_resolve_length hplan hbrackets
      have hcount := length_of_accepts_decodeSequence hitems
      rw [hslots, Option.getD_some] at hcount
      rw [← hcount] at hslots hlength
      obtain ⟨hcheck, hdecoded⟩ := items_of_accepts_vector hslots hitems
      refine ⟨plan, items, rfl, rfl, ⟨mt hpad_iff.1 hpad, mt hignore_iff.1 hignore, ?_⟩, hslots, ?_,
        hcheck, hdecoded⟩
      · exact (Plan.parts_of_resolve hplan).2.2.2.1
      · rw [Plan.evalSize, hlength]
        exact if_neg (Int.not_lt.2 (Int.natCast_nonneg _))

/-- An array of any length is decoded from the bytes that an empty vector is decoded from. -/
theorem accepts_decodeAt_array (hdepth : path.depth < settings.limits.recursion)
    (hbrackets : tag.brackets = .length expr) (hpad : tag.wire ≠ some .pad)
    (hignore : tag.wire ≠ some .ignore) (hsteady : element.Steady schema)
    (hsize : bytes.length ≤ sizeMax)
    (h : (decodeAt schema settings path record tag (schema.default (.vector element))).Accepts bytes
      left) :
    ∃ items, left = .sequence .growable element items ∧
      Plan.evalSize path expr record = .ok items.length ∧
      ∀ length, (decodeAt schema settings path record tag
          (schema.default (.array length element))).Accepts bytes
        (.sequence .fixed element
          (items.take length ++
            List.replicate (length - items.length) (schema.default element))) := by
  obtain ⟨plan, items, rfl, hplan, hdirect, hslots, hlength, hcheck, hitems⟩ :=
    accepts_decodeAt_vector hbrackets hpad hignore h
  obtain ⟨room, hroom⟩ := Limits.exists_room hdepth
  refine ⟨items, rfl, hlength, fun length => ?_⟩
  have hfresh : schema.default (.array length element) =
      .sequence .fixed element (List.replicate length (schema.default element)) := rfl
  have hplan' : Plan.resolve path
      (.sequence .fixed element (List.replicate length (schema.default element))) tag record =
        .ok plan := by
    refine Plan.resolve_of_natural ?_ hplan
    rfl
  rw [hfresh, decodeAt_sequence (by decide) hbrackets hpad hignore hplan']
  refine Intake.Accepts.bimap _ _ ?_
  rw [hroom] at hitems ⊢
  exact accepts_decodeSequence_fixed hdirect hsteady hslots hcheck hsize hitems length

/-- What an empty vector is decoded from by a tag with the length of the array, an array of any
length is decoded from as well: it consumes as many bytes, gets the elements of the vector as far as
it has places for them, and keeps the default in the places behind them. The elements must be of
types none of whose coded fields counts for other fields while it may be an array without
elements. -/
theorem decodeAt_array {data : Bytes} {start boundary count : Nat}
    (hdepth : path.depth < settings.limits.recursion) (hbrackets : tag.brackets = .length expr)
    (hpad : tag.wire ≠ some .pad) (hignore : tag.wire ≠ some .ignore)
    (hsteady : element.Steady schema) (hsize : count ≤ sizeMax)
    (h : ((⟨schema, settings, .steady data start, boundary⟩ : Decoder).decodeAt path record tag
      (schema.default (.vector element))).1 = ⟨left, .ok count⟩) :
    ∃ items, left = .sequence .growable element items ∧
      Plan.evalSize path expr record = .ok items.length ∧
      ∀ length, (⟨schema, settings, .steady data start, boundary⟩ : Decoder).decodeAt path record
          tag (schema.default (.array length element)) =
        (⟨.sequence .fixed element (items.take length ++
            List.replicate (length - items.length) (schema.default element)), .ok count⟩,
          ⟨schema, settings, .steady (data.drop count) (start + count), boundary⟩) := by
  obtain ⟨bytes, rest, rfl, rfl, haccepts⟩ := Decoder.accepts_of_decodeAt h
  obtain ⟨items, rfl, hlength, harray⟩ :=
    accepts_decodeAt_array hdepth hbrackets hpad hignore hsteady hsize haccepts
  refine ⟨items, rfl, hlength, fun length => ?_⟩
  rw [Decoder.decodeAt_of_accepts boundary start rest (harray length), List.drop_left]

end arrays

section entries

/-- A number of bytes, the bytes, and a note that may be missing. -/
def entryType : RecordType where
  layout := .build "Entry"
    [⟨"count", "", true⟩, ⟨"data", "[count]", true⟩, ⟨"note", "zstring", true⟩]
  types := [.byte, .vector .byte, .optional .text]

/-- An entry has a count, as many bytes and a terminated note. -/
theorem fields_entryType :
    entryType.layout.fields = [⟨"count", true, .ok .empty⟩,
      ⟨"data", true, .ok ⟨none, .length ⟨"count", [⟨false, .field 0 "count"⟩]⟩, none, none⟩⟩,
      ⟨"note", true, .ok ⟨some .zstring, .absent, none, none⟩⟩] := by cbv

/-- Only the count counts, and it is no array. -/
theorem fillsCounts_entryType : entryType.layout.FillsCounts := by
  rintro target tag expr values ⟨index, tag', hvisited, hnames⟩ hcoded hbrackets
  have htarget : target = 0 := by
    unfold Layout.visitedTag? at hvisited
    rw [fields_entryType] at hvisited
    match index, hvisited with
    | 0, rfl => simp [Tag.Names, Tag.empty] at hnames
    | 1, rfl => simpa [Tag.Names, SizeExpr.Names, eq_comm] using hnames
    | 2, rfl => simp [Tag.Names] at hnames
  rw [htarget, Layout.codedTag?, fields_entryType] at hcoded
  cases hcoded
  cases hbrackets

/-- Entries leave nothing in a scratch value that counts for the next one. -/
theorem steady_entry : (HostType.record "Entry").Steady [("Entry", entryType)] := by
  intro key hoccurs
  have hkey : key = "Entry" := by
    cases hoccurs with
    | refl => rfl
    | @record _ type fieldType hlookup hfield h =>
        obtain rfl : entryType = type := Option.some.inj hlookup
        simp only [entryType, HostType.byte, List.mem_cons, List.not_mem_nil, or_false] at hfield
        obtain rfl | rfl | rfl := hfield
        · cases h
        · cases h with
          | vector h => cases h
        · cases h with
          | optional h => cases h
  rw [hkey]
  exact ⟨entryType, "Entry", _, rfl, rfl, fillsCounts_entryType⟩

/-- An entry with a note. -/
def entry (count : UInt8) (data : Bytes) (note : String) : Value :=
  .record entryType.layout [.ofByte count, .sequence .growable .byte (data.map Value.ofByte),
    .optional .text (some (.text note))]

/-- A decoder in front of three entries and one more byte. -/
def entryStream : Decoder where
  schema := [("Entry", entryType)]
  settings := ⟨.bigEndian, {}, .empty⟩
  source := .steady [2, 7, 8, 65, 0, 0, 0, 1, 9, 66, 0, 3] 5
  boundary := 5

/-- As a vector, the three entries of the stream take eleven bytes. -/
theorem decodeAt_entries :
    (entryStream.decodeAt .top none ⟨none, .length (.ofNat 3), none, none⟩
      (entryStream.schema.default (.vector (.record "Entry")))).1 =
    ⟨.sequence .growable (.record "Entry") [entry 2 [7, 8] "A", entry 0 [] "", entry 1 [9] "B"],
      .ok 11⟩ := by cbv

/-- An array has a place for the first one of the entries, and the other two are passed over. -/
theorem decodeAt_array_entries :
    (Path.depth .top < entryStream.settings.limits.recursion ∧
      (HostType.record "Entry").Steady entryStream.schema ∧
      ∃ left, (entryStream.decodeAt .top none ⟨none, .length (.ofNat 3), none, none⟩
        (entryStream.schema.default (.vector (.record "Entry")))).1 = ⟨left, .ok 11⟩) ∧
    entryStream.decodeAt .top none ⟨none, .length (.ofNat 3), none, none⟩
        (entryStream.schema.default (.array 1 (.record "Entry"))) =
      (⟨.sequence .fixed (.record "Entry") [entry 2 [7, 8] "A"], .ok 11⟩,
        ⟨entryStream.schema, entryStream.settings, .steady [3] 16, 5⟩) := by
  have hdepth : Path.depth .top < entryStream.settings.limits.recursion := by decide
  obtain ⟨items, hitems, -, harray⟩ := decodeAt_array hdepth rfl (by decide) (by decide)
    steady_entry (by decide) decodeAt_entries
  cases hitems
  exact ⟨⟨hdepth, steady_entry, _, decodeAt_entries⟩, harray 1⟩

end entries

section slots

/-- A number that is the element of an array of no or one element, and as many bytes. -/
def slotType : RecordType where
  layout := .build "Slot" [⟨"n", "", true⟩, ⟨"m", "[n]uint8", true⟩, ⟨"data", "[m]", true⟩]
  types := [.byte, .byte, .vector .byte]

/-- A decoder in front of three slots. Only the second one has a number. -/
def slotStream : Decoder where
  schema := [("Slot", slotType)]
  settings := ⟨.bigEndian, {}, .empty⟩
  source := .steady [0, 1, 2, 0xAA, 0xBB, 0] 0
  boundary := 0

/-- The number of the second slot is left in the scratch value, and the third slot, which has none,
counts with it: a vector is decoded from bytes that are too few for an array. -/
theorem decodeAt_array_slots :
    (∃ items, (slotStream.decodeAt .top none ⟨none, .length (.ofNat 3), none, none⟩
      (slotStream.schema.default (.vector (.record "Slot")))).1 =
        ⟨.sequence .growable (.record "Slot") items, .ok 6⟩) ∧
    (slotStream.decodeAt .top none ⟨none, .length (.ofNat 3), none, none⟩
      (slotStream.schema.default (.array 1 (.record "Slot")))).1.outcome =
        .error (.located [.field "data", .index 2] .unexpectedEnd) := by
  constructor
  · exact ⟨[.record slotType.layout [.ofByte 0, .ofByte 0, .sequence .growable .byte []],
      .record slotType.layout [.ofByte 1, .ofByte 2, .sequence .growable .byte
        [.ofByte 0xAA, .ofByte 0xBB]],
      .record slotType.layout [.ofByte 0, .ofByte 0, .sequence .growable .byte []]], by cbv⟩
  · cbv

end slots

end PackedRecord
