import PackedRecord.Proofs.RoundTrip

/-!
# Streams of records

Any number of records can be written to one sink and read back from one source, and nothing marks
where a record ends but its own bytes. `decodeEach_take` says what a decoder makes of a stream that
was cut anywhere: it gives the records in front of the cut, and tells a cut between two records from
a cut through one.
-/

namespace PackedRecord

/-- Encodes values one after the other. -/
def Encoder.encodeEach (encoder : Encoder) : List Value → List (Except Error Nat) × Encoder
  | [] => ([], encoder)
  | value :: values =>
      let (outcome, encoder) := encoder.encode value
      let (outcomes, encoder) := encoder.encodeEach values
      (outcome :: outcomes, encoder)

/-- Decodes into values one after the other, up to the first one that fails. -/
def Decoder.decodeEach (decoder : Decoder) : List Value → List Decoded × Decoder
  | [] => ([], decoder)
  | value :: values =>
      let (decoded, decoder) := decoder.decode value
      match decoded.outcome with
      | .error _ => ([decoded], decoder)
      | .ok _ =>
          let (others, decoder) := decoder.decodeEach values
          (decoded :: others, decoder)

namespace Decoder

variable {decoder next : Decoder} {value left : Value}

/-- A record that cannot be decoded is the last result. -/
theorem decodeEach_of_failed {error : Error}
    (h : decoder.decode value = (⟨left, .error error⟩, next)) (values : List Value) :
    decoder.decodeEach (value :: values) = ([⟨left, .error error⟩], next) := by
  simp only [decodeEach, h]

/-- Behind a record that was decoded come the results of the other ones. -/
theorem decodeEach_of_decoded {last : Decoder} {values : List Value} {count : Nat}
    {others : List Decoded} (h : decoder.decode value = (⟨left, .ok count⟩, next))
    (hothers : next.decodeEach values = (others, last)) :
    decoder.decodeEach (value :: values) = (⟨left, .ok count⟩ :: others, last) := by
  simp only [decodeEach, h, hothers]

end Decoder

/-- A plan for a value without a tag is that of its type. -/
theorem Plan.eq_untagged_of_resolve {path : Path} {value : Value} {type : HostType}
    {record : Option Record} {plan : Plan} (hnatural : value.natural.unsized = type.natural.unsized)
    (h : Plan.resolve path value .empty record = .ok plan) :
    type.natural.wire ≠ none ∧ plan = .untagged type := by
  have hwire : type.natural.wire ≠ none := by
    intro hnone
    obtain ⟨wire, hwire, -⟩ := ok_of_bind h
    unfold Tag.empty Plan.resolveWire at hwire
    rw [(Natural.unsized_inj.1 hnatural).1, hnone] at hwire
    cases hwire
  rw [Plan.resolve_empty hnatural hwire] at h
  cases h
  exact ⟨hwire, rfl⟩

/-- A record on its way through a stream: what is encoded, into which bytes, and what these are
decoded into. -/
structure Shipment where
  type : HostType
  value : Value
  bytes : Bytes
  destination : Value

namespace Shipment

/-- The record can be restored from its bytes, of which there is at least one. -/
structure Travels (packer : Packer) (schema : Schema) (order : ByteOrder) (shipment : Shipment) :
    Prop where
  portable : Value.Portable schema packer.limits shipment.type (.untagged shipment.type)
    shipment.value
  agrees : Value.Agrees schema (.untagged shipment.type) shipment.value shipment.destination
  packed : packer.pack order shipment.value = .ok shipment.bytes
  nonempty : shipment.bytes ≠ []

/-- What decoding makes of the record. -/
def arrived (shipment : Shipment) : Decoded := ⟨shipment.value, .ok shipment.bytes.length⟩

/-- The bytes of records, one after the other. -/
def stream (shipments : List Shipment) : Bytes := shipments.flatMap (·.bytes)

/-- The first `kept` bytes of the stream end where a record ends, or where the first one begins. -/
def IsBoundary (shipments : List Shipment) (kept : Nat) : Prop :=
  ∃ count, (stream (shipments.take count)).length = kept

variable {packer : Packer} {schema : Schema} {order : ByteOrder} {shipment further : Shipment}
  {shipments : List Shipment}

/-- No records are a stream without bytes. -/
@[simp] theorem stream_nil : stream [] = [] := rfl

/-- A stream starts with the bytes of its first record. -/
@[simp] theorem stream_cons (shipment : Shipment) (shipments : List Shipment) :
    stream (shipment :: shipments) = shipment.bytes ++ stream shipments := rfl

/-- More records take no fewer bytes. -/
theorem length_stream_take_le (shipments : List Shipment) {count more : Nat} (h : count ≤ more) :
    (stream (shipments.take count)).length ≤ (stream (shipments.take more)).length := by
  have hprefix : shipments.take count <+: shipments.take more :=
    List.take_prefix_take_left h
  obtain ⟨others, hothers⟩ := hprefix
  rw [← hothers, stream, stream, List.flatMap_append, List.length_append]
  exact Nat.le_add_right _ _

/-- Behind `whole` records and in front of the end of the next one, there is a single boundary. -/
theorem isBoundary_iff {whole kept : Nat}
    (hwhole : (stream (shipments.take whole)).length ≤ kept)
    (hnext : whole < shipments.length → kept < (stream (shipments.take (whole + 1))).length)
    (hkept : kept ≤ (stream shipments).length) :
    IsBoundary shipments kept ↔ kept = (stream (shipments.take whole)).length := by
  constructor
  · rintro ⟨count, rfl⟩
    refine Nat.le_antisymm ?_ hwhole
    rcases Nat.lt_or_ge whole count with hbehind | hbefore
    · -- All records lie in front of the cut, for the next one would have to as well.
      rcases Nat.lt_or_ge whole shipments.length with hleft | hnone
      · exact absurd (hnext hleft) (Nat.not_lt.2 (length_stream_take_le shipments hbehind))
      · rwa [List.take_of_length_le hnone]
    · exact length_stream_take_le shipments hbefore
  · rintro rfl
    exact ⟨whole, rfl⟩

/-- A record that travels is encoded to its bytes, behind those that the sink holds. -/
theorem Travels.encode_eq (h : shipment.Travels packer schema order) (held : Array UInt8) :
    (packer.encoder order (.willing held)).encode shipment.value =
      (.ok shipment.bytes.length, packer.encoder order (.willing (held ++ shipment.bytes))) := by
  have hyields : (encodeTagged (packer.settings order) .empty shipment.value).Yields
      shipment.bytes () := Packer.yields_of_packAs h.packed
  obtain ⟨houtcome, hbytes⟩ := hyields
  simp only [Packer.encoder, Encoder.encode, Encoder.encodeAs, Encoder.run, Sink.absorb_willing,
    Emission.sized, houtcome, Except.map, Emission.size_of_yields ⟨houtcome, hbytes⟩]
  rw [← hbytes]
  rfl

/-- Records that travel are encoded to their bytes, one after the other. -/
theorem encodeEach_eq (h : ∀ shipment ∈ shipments, shipment.Travels packer schema order)
    (held : Array UInt8) :
    (packer.encoder order (.willing held)).encodeEach (shipments.map (·.value)) =
      (shipments.map fun shipment => .ok shipment.bytes.length,
        packer.encoder order (.willing (held ++ stream shipments))) := by
  induction shipments generalizing held with
  | nil => simp [Encoder.encodeEach]
  | cons shipment shipments ih =>
      have hfirst := (h shipment List.mem_cons_self).encode_eq held
      have hothers := ih (fun shipment hmem => h shipment (List.mem_cons_of_mem _ hmem))
        (held ++ shipment.bytes)
      have hheld : held ++ shipment.bytes ++ stream shipments =
          held ++ stream (shipment :: shipments) := Array.toList_inj.1 (by simp)
      simp only [List.map_cons, Encoder.encodeEach, hfirst, hothers, hheld]

/-- The destination of a record that travels accepts its bytes. -/
theorem Travels.accepts (h : shipment.Travels packer schema order) :
    (decodeTagged schema (packer.settings order) .empty shipment.destination).Accepts
      shipment.bytes shipment.value := by
  have hyields : (encodeTagged (packer.settings order) .empty shipment.value).Yields
      shipment.bytes () := Packer.yields_of_packAs h.packed
  obtain ⟨_, plan, back, hbytes, hresolve, hencode⟩ := Emission.yields_bind.1 hyields
  obtain ⟨rfl, hplan⟩ := Emission.yields_ofExcept.1 hresolve
  obtain rfl : shipment.bytes = back := hbytes
  obtain ⟨hwire, rfl⟩ := Plan.eq_untagged_of_resolve h.portable.natural_eq hplan
  rw [decodeTagged, Plan.resolve_empty (h.agrees.natural_eq h.portable) hwire]
  exact (restores_in schema (packer.settings order) _).accepts h.portable h.agrees
    (Plan.untagged_suits shipment.type) hencode

/-- A record that travels is decoded from its bytes, whatever stands behind them. -/
theorem Travels.decode_eq (h : shipment.Travels packer schema order) (rest : Bytes)
    (start boundary : Nat) :
    (Decoder.mk schema (packer.settings order) (.steady (shipment.bytes ++ rest) start)
        boundary).decode shipment.destination =
      (shipment.arrived, ⟨schema, packer.settings order,
        .steady rest (start + shipment.bytes.length), start⟩) :=
  Decoder.decodeAs_of_accepts start start rest h.accepts

/-- A record of which only a part is there is not decoded. If the part is empty, the input ends
cleanly. -/
theorem Travels.decode_take (h : shipment.Travels packer schema order) {kept : Nat}
    (hkept : kept < shipment.bytes.length) (start boundary : Nat) :
    ∃ path left, (Decoder.mk schema (packer.settings order)
        (.steady (shipment.bytes.take kept) start) boundary).decode shipment.destination =
      (⟨left, .error (if kept = 0 then .endOfStream else .located path .unexpectedEnd)⟩,
        ⟨schema, packer.settings order, .steady [] (start + kept), start⟩) := by
  obtain ⟨path, left, hdecode⟩ := Decoder.decodeAs_take_of_accepts start start h.accepts hkept
  have hclean : start + kept = start ↔ kept = 0 := by omega
  simp only [hclean] at hdecode
  exact ⟨path, left, hdecode⟩

/-- A decoder of the first `kept` bytes of a stream gives the records that lie within them, and
then ends at the next one, or at a further one if there is none. -/
theorem decodeEach_stream (h : ∀ shipment ∈ shipments, shipment.Travels packer schema order)
    (hfurther : further.Travels packer schema order) {kept : Nat}
    (hkept : kept ≤ (stream shipments).length) (start boundary : Nat) :
    ∃ whole ≤ shipments.length,
      (stream (shipments.take whole)).length ≤ kept ∧
      (whole < shipments.length → kept < (stream (shipments.take (whole + 1))).length) ∧
      ∃ path left last,
        (Decoder.mk schema (packer.settings order) (.steady ((stream shipments).take kept) start)
            boundary).decodeEach ((shipments ++ [further]).map (·.destination)) =
          ((shipments.take whole).map arrived ++
            [⟨left, .error (if kept = (stream (shipments.take whole)).length then .endOfStream
              else .located path .unexpectedEnd)⟩], last) ∧
        last.position = start + kept := by
  induction shipments generalizing kept start boundary with
  | nil =>
      obtain rfl : kept = 0 := Nat.le_zero.1 hkept
      obtain ⟨path, left, hdecode⟩ :=
        hfurther.decode_take (List.length_pos_iff.2 hfurther.nonempty) start boundary
      rw [List.take_zero] at hdecode
      refine ⟨0, Nat.le_refl 0, Nat.le_refl 0, nofun, path, left,
        ⟨schema, packer.settings order, .steady [] start, start⟩, ?_, rfl⟩
      exact Decoder.decodeEach_of_failed hdecode []
  | cons shipment shipments ih =>
      have hfirst := h shipment List.mem_cons_self
      rcases Nat.lt_or_ge kept shipment.bytes.length with hcut | hcomplete
      · obtain ⟨path, left, hdecode⟩ := hfirst.decode_take hcut start boundary
        have hbytes : (stream (shipment :: shipments)).take kept = shipment.bytes.take kept :=
          List.take_append_of_le_length (Nat.le_of_lt hcut)
        refine ⟨0, Nat.zero_le _, Nat.zero_le _, ?_, path, left,
          ⟨schema, packer.settings order, .steady [] (start + kept), start⟩, ?_, rfl⟩
        · intro _
          simpa using hcut
        · rw [hbytes]
          exact Decoder.decodeEach_of_failed hdecode _
      · -- The first record is complete, so the cut goes through what stands behind it.
        rw [stream_cons, List.length_append] at hkept
        obtain ⟨whole, hwhole, hbefore, hnext, path, left, last, hdecode, hposition⟩ :=
          ih (fun shipment hmem => h shipment (List.mem_cons_of_mem _ hmem))
            (show kept - shipment.bytes.length ≤ (stream shipments).length by omega)
            (start + shipment.bytes.length) start
        refine ⟨whole + 1, Nat.succ_le_succ hwhole, ?_, ?_, path, left, last, ?_, ?_⟩
        · rw [List.take_succ_cons, stream_cons, List.length_append]
          omega
        · intro hless
          have hcut := hnext (Nat.lt_of_succ_lt_succ hless)
          rw [List.take_succ_cons, stream_cons, List.length_append]
          omega
        · have hsame : kept = (stream ((shipment :: shipments).take (whole + 1))).length ↔
              kept - shipment.bytes.length = (stream (shipments.take whole)).length := by
            rw [List.take_succ_cons, stream_cons, List.length_append]
            omega
          have hbytes : (stream (shipment :: shipments)).take kept =
              shipment.bytes ++ (stream shipments).take (kept - shipment.bytes.length) := by
            rw [stream_cons, List.take_append, List.take_of_length_le hcomplete]
          simp only [hsame, hbytes]
          exact Decoder.decodeEach_of_decoded (hfirst.decode_eq _ _ _) hdecode
        · omega

end Shipment

open Shipment in
/-- Records that one encoder writes one after the other make up the concatenation of what each of
them is packed to. A decoder of the first `kept` bytes of that gives the records that lie
completely within them, each with its number of bytes. Then it ends, at the place of the cut and
cleanly only if the cut is between two records; at the end of the stream, it ends at any further
record. -/
theorem decodeEach_take {packer : Packer} {schema : Schema} {order : ByteOrder}
    {shipments : List Shipment} {further : Shipment} {kept : Nat}
    (h : ∀ shipment ∈ shipments, shipment.Travels packer schema order)
    (hfurther : further.Travels packer schema order) (hkept : kept ≤ (stream shipments).length) :
    (packer.encoder order .unbounded).encodeEach (shipments.map (·.value)) =
      (shipments.map fun shipment => .ok shipment.bytes.length,
        packer.encoder order (.willing (stream shipments).toArray)) ∧
    ∃ whole ≤ shipments.length,
      (stream (shipments.take whole)).length ≤ kept ∧
      (whole < shipments.length → kept < (stream (shipments.take (whole + 1))).length) ∧
      ∃ error left decoder,
        (packer.decoder schema order (.ofData ((stream shipments).take kept))).decodeEach
            ((shipments ++ [further]).map (·.destination)) =
          ((shipments.take whole).map arrived ++ [⟨left, .error error⟩], decoder) ∧
        decoder.position = kept ∧
        (IsBoundary shipments kept → error = .endOfStream) ∧
        (¬ IsBoundary shipments kept → ∃ path, error = .located path .unexpectedEnd) := by
  constructor
  · have hencoded := encodeEach_eq h #[]
    rw [show #[] ++ stream shipments = (stream shipments).toArray from
      Array.toList_inj.1 (by simp)] at hencoded
    exact hencoded
  · obtain ⟨whole, hwhole, hbefore, hnext, path, left, decoder, hdecode, hposition⟩ :=
      decodeEach_stream h hfurther hkept 0 0
    refine ⟨whole, hwhole, hbefore, hnext, _, left, decoder, hdecode, ?_, ?_, ?_⟩
    · rw [hposition, Nat.zero_add]
    · intro hboundary
      rw [if_pos ((isBoundary_iff hbefore hnext hkept).1 hboundary)]
    · intro hinside
      rw [if_neg (fun h => hinside ((isBoundary_iff hbefore hnext hkept).2 h))]
      exact ⟨path, rfl⟩

section parcels

/-- A parcel with two weights, a label and a seal, and an empty one to decode into. -/
def sealedParcel : Shipment where
  type := .record "Parcel"
  value := parcel [.ofByte 3, .ofByte 4] "ab" (some (waxSeal true))
  bytes := [0, 3, 0, 4, 0, 0, 0, 2, 97, 98, 0, 0, 1]
  destination := parcel [] "" none

/-- An intact seal, and a broken one to decode into. -/
def intactSeal : Shipment where
  type := .record "Seal"
  value := waxSeal true
  bytes := [1]
  destination := waxSeal false

/-- A sealed parcel can be restored from its bytes. -/
theorem sealedParcel_travels :
    sealedParcel.Travels (Packer.mk {} .empty) parcelSchema .bigEndian :=
  ⟨portable_parcel, agrees_parcel, by cbv, List.cons_ne_nil _ _⟩

/-- A seal can be restored from its byte. -/
theorem intactSeal_travels :
    intactSeal.Travels (Packer.mk {} .empty) parcelSchema .bigEndian :=
  ⟨portable_waxSeal _ _, agrees_waxSeal _ _, by cbv, List.cons_ne_nil _ _⟩

/-- A parcel and two seals, cut behind the first seal: the decoder gives the parcel and that seal
and then ends cleanly. -/
theorem decodeEach_parcel_seals :
    ∃ left decoder,
      ((Packer.mk {} .empty).decoder parcelSchema .bigEndian
          (.ofData [0, 3, 0, 4, 0, 0, 0, 2, 97, 98, 0, 0, 1, 1])).decodeEach
        [parcel [] "" none, waxSeal false, waxSeal false, waxSeal false] =
      ([⟨parcel [.ofByte 3, .ofByte 4] "ab" (some (waxSeal true)), .ok 13⟩, ⟨waxSeal true, .ok 1⟩,
        ⟨left, .error .endOfStream⟩], decoder) := by
  have htravel : ∀ shipment ∈ [sealedParcel, intactSeal, intactSeal],
      shipment.Travels (Packer.mk {} .empty) parcelSchema .bigEndian := by
    simp [sealedParcel_travels, intactSeal_travels]
  obtain ⟨whole, hwhole, hbefore, hnext, error, left, decoder, hdecode, -, hclean, -⟩ :=
    (decodeEach_take htravel intactSeal_travels (show 14 ≤ _ by decide)).2
  -- Two records end at the cut, and a third one would end behind it.
  obtain rfl : whole = 2 := by
    rcases Nat.lt_trichotomy whole 2 with hless | hsame | hmore
    · have hcut := hnext (Nat.lt_trans hless (by decide))
      have hshort := Shipment.length_stream_take_le [sealedParcel, intactSeal, intactSeal]
        (show whole + 1 ≤ 2 from hless)
      exact absurd (Nat.lt_of_lt_of_le hcut hshort) (by decide)
    · exact hsame
    · have hlong := Shipment.length_stream_take_le [sealedParcel, intactSeal, intactSeal]
        (show 3 ≤ whole from hmore)
      exact absurd (Nat.le_trans hlong hbefore) (by decide)
  obtain rfl := hclean ⟨2, by decide⟩
  exact ⟨left, decoder, hdecode⟩

end parcels

end PackedRecord
