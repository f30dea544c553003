import Hurray.Descriptor.Roundtrip

/-!
The codec as its callers see it: which descriptors survive a round trip, what is
left of an input once it has been decoded, and how far into its input the decoder
may look.
-/
namespace Hurray.Descriptor
open Hurray.Base Hurray.Core

/-- The descriptors that `new` returns, with or without a member section added later. -/
def Constructed (d : TensorDescriptor) : Prop :=
  ∃ base, TensorDescriptor.new d.versionMajor d.versionMinor d.elementType d.shape d.byteOffset
      d.layout d.buffers d.quantization d.shard d.statistics d.extensionType = .ok base ∧
    (d = base ∨ ∃ cm, d = base.withCompositeMember cm)

/-- Each part passes the checks of its own constructor. The fields are public, so `new` may be
given a part that does not. -/
structure PartsValid (d : TensorDescriptor) : Prop where
  elementType : d.elementType.WellTagged
  layout : d.layout.WellFormed
  extensionType : ∀ e, d.extensionType = some e → e.WellPacked

/-- The descriptor is written, under its own length, and read back. -/
def RoundTrips (d : TensorDescriptor) : Prop :=
  ∃ b, encode d = .ok b ∧ lengthField b = b.length ∧ decode b = .ok d

section Constructed
variable {d : TensorDescriptor}

theorem constructed_iff : Constructed d ↔ d.CrossSection := by
  obtain ⟨major, minor, ty, shape, off, layout, buffers, q, shard, st, ext, cm⟩ := d
  simp only [Constructed, TensorDescriptor.new_eq_ok]
  constructor
  · intro h
    obtain ⟨base, ⟨hbase, hcross⟩, -⟩ := h
    rw [hbase] at hcross
    exact ⟨hcross.1, hcross.2, hcross.3, hcross.4, hcross.5⟩
  · intro hcross
    refine ⟨_, ⟨rfl, hcross.1, hcross.2, hcross.3, hcross.4, hcross.5⟩, ?_⟩
    cases cm with
    | none => exact .inl rfl
    | some m => exact .inr ⟨m, rfl⟩

/-- On a type the decoder can return, the variant and the range of the tag agree. -/
theorem isExtension_eq {ty : ElementType} (h : ty.WellTagged) :
    isExtension ty = decide (ElementType.IsExtensionTag ty.tag) := by
  cases ty with
  | extension t => exact (decide_eq_true (ElementType.wellTagged_extension.mp h)).symm
  | _ => rfl

theorem isVirtual_of_buffers_nil (h : d.CrossSection) (hnil : d.buffers = []) :
    d.layout.isVirtual = true := by
  have hcheck := h.buffers
  unfold TensorDescriptor.checkBuffers at hcheck
  split at hcheck
  · assumption
  · exact absurd hnil (Exec.reject_eq_ok.mp hcheck)

theorem quantization_lt (hlen : (descriptorCells d 0).length ≤ 0xFFFFFFFF) {q : Bytes}
    (hq : d.quantization = some q) : q.length < UInt32.size := by
  have hsize : UInt32.size = 0xFFFFFFFF + 1 := rfl
  simp only [descriptorCells, fieldCells, hq, Option.elim_some, encodeQuantization,
    List.length_append, length_fixed] at hlen
  omega

theorem extensionData_lt (hlen : (descriptorCells d 0).length ≤ 0xFFFFFFFF)
    {l : PrivateExtensionLayout} (hl : d.layout = .privateExtension l) :
    l.extensionData.length < UInt32.size := by
  have hsize : UInt32.size = 0xFFFFFFFF + 1 := rfl
  simp only [descriptorCells, fieldCells, hl, layoutCells, encodePrivateExtension,
    List.length_append, length_fixed] at hlen
  omega

end Constructed

/-- The descriptors whose vectors have the lengths the decoder reads, and whose optional
values have a wire form of their own. -/
structure RoundTripInput (d : TensorDescriptor) : Prop where
  constructed : Constructed d
  member : d.compositeMember.isSome → d.layout.isVirtual = false
  version : d.versionMajor = 1 ∧ d.versionMinor = 0
  known : ∀ l, d.layout ≠ .unknown l
  rankFramed : RankFramed d.shape.rank d.layout
  layerIndex : ∀ l, d.layout = .blockPaged l → l.layerIndex ≠ some LAYER_INDEX_NONE
  modeOrder : ∀ l, d.layout = .csf l → ModeOrderValid d.shape.rank l
  shard : ∀ s, d.shard = some s → s.FitsShape d.shape
  statistics : ∀ s, d.statistics = some s → s.MaskValid
  length : ∀ buf, encodeUnpatched d = .ok buf → buf.length ≤ 0xFFFFFFFF

section RoundTrip
variable {d : TensorDescriptor}

theorem RoundTripInput.layoutEncodable (h : RoundTripInput d) (hwf : d.layout.WellFormed) :
    LayoutEncodable (UInt32.ofNat d.shape.rank) d.layout := by
  cases hl : d.layout with
  | tiled l =>
    rw [hl] at hwf
    exact (writtenLevels_of_wellFormed hwf.1).trans_le hwf.2
  | csf l =>
    have hframed := h.rankFramed
    rw [hl] at hframed
    exact congrArg UInt32.ofNat hframed
  | unknown l => exact h.known l hl
  | _ => trivial

theorem RoundTripInput.encodable (h : RoundTripInput d) (hparts : PartsValid d) :
    Encodable d := by
  have hcross := constructed_iff.mp h.constructed
  have hlayout := h.layoutEncodable hparts.layout
  have hbuf := encodeUnpatched_eq_ok.mpr ⟨⟨hlayout, hcross.bufferCount, h.member⟩, rfl⟩
  exact ⟨hlayout, hcross.bufferCount, h.member, by simpa using h.length _ hbuf⟩

theorem RoundTripInput.representable (h : RoundTripInput d)
    (hlen : (descriptorCells d 0).length ≤ 0xFFFFFFFF) :
    Representable d.shape.rank d.layout := by
  cases hl : d.layout with
  | csf l => exact h.modeOrder l hl
  | blockPaged l => exact h.layerIndex l hl
  | privateExtension l => exact extensionData_lt hlen hl
  | unknown l => exact absurd hl (h.known l)
  | _ => trivial

theorem RoundTripInput.decodable (h : RoundTripInput d) (hparts : PartsValid d) :
    Decodable d := by
  have hcross := constructed_iff.mp h.constructed
  have hlen := (h.encodable hparts).length
  refine ⟨by rw [h.version.1]; decide, ?_, hcross, h.member⟩
  exact {
    wellTagged := hparts.elementType
    layout := ⟨hparts.layout, h.rankFramed, h.representable hlen⟩
    extension := (isExtension_eq hparts.elementType).trans hcross.extension.symm
    bufferCount := hcross.bufferCount
    buffers := isVirtual_of_buffers_nil hcross
    quantization := fun _ => quantization_lt hlen
    shard := h.shard
    statistics := h.statistics
    extensionType := hparts.extensionType }

/-- A descriptor survives the round trip exactly when its parts pass the checks of their
constructors: `new` and `encode` do not repeat these, and the decoder does. -/
theorem roundTrips_iff_partsValid (h : RoundTripInput d) : RoundTrips d ↔ PartsValid d := by
  constructor
  · intro h
    obtain ⟨b, -, -, hdec⟩ := h
    obtain ⟨hd, -⟩ := decode_eq_ok_iff.mp hdec
    exact ⟨hd.fields.wellTagged, hd.fields.layout.wellFormed, hd.fields.extensionType⟩
  · intro hparts
    have henc := h.encodable hparts
    refine ⟨_, encode_eq_ok_iff.mpr ⟨henc, rfl⟩, ?_, decode_wireBytes henc (h.decodable hparts)⟩
    rw [lengthField_wireBytes, length_wireBytes, encodedLength_toNat henc]

end RoundTrip

/-- The worked example of the specification: a row-major `float32` tensor of shape 3 by 4. -/
def workedExample : TensorDescriptor where
  versionMajor := 1
  versionMinor := 0
  elementType := .float32
  shape := ⟨[3, 4], two_le_maxRank⟩
  byteOffset := 0
  layout := .rowMajor
  buffers := [⟨192, 64, .cpu, .producerSynced, .standard, BufferHandle.pow_least,
    BufferHandle.least_le _, BufferHandle.producer_synced⟩]
  quantization := none
  shard := none
  statistics := none
  extensionType := none
  compositeMember := none

/-- The example under another element type. -/
def workedExampleOf (ty : ElementType) : TensorDescriptor := { workedExample with elementType := ty }

theorem roundTripInput_workedExampleOf {ty : ElementType}
    (hty : ¬ ElementType.IsExtensionTag ty.tag) : RoundTripInput (workedExampleOf ty) where
  constructed := by
    refine ⟨_, TensorDescriptor.new_eq_ok.mpr ⟨rfl, rfl, Nat.le_of_ble_eq_true rfl, ?_, rfl, rfl⟩, .inl rfl⟩
    exact (decide_eq_false hty).symm
  member := by simp [workedExampleOf, workedExample]
  version := ⟨rfl, rfl⟩
  known := by simp [workedExampleOf, workedExample]
  rankFramed := trivial
  layerIndex := by simp [workedExampleOf, workedExample]
  modeOrder := by simp [workedExampleOf, workedExample]
  shard := by simp [workedExampleOf, workedExample]
  statistics := by simp [workedExampleOf, workedExample]
  length := by
    intro buf hbuf
    rw [(encodeUnpatched_eq_ok.mp hbuf).2, length_wireBytes]
    simp [descriptorCells, fieldCells, workedExampleOf, workedExample, layoutCells,
      bufferTableCells, encodeBufferHandle]

theorem roundTrips_workedExample :
    RoundTripInput (workedExampleOf .float32) ∧
      (RoundTrips (workedExampleOf .float32) ↔ PartsValid (workedExampleOf .float32)) :=
  ⟨roundTripInput_workedExampleOf (by decide),
    roundTrips_iff_partsValid (roundTripInput_workedExampleOf (by decide))⟩

/-- An extension type may be built over the tag of a named type, and comes back as that type. -/
theorem extension_of_named_tag_not_roundTrips :
    RoundTripInput (workedExampleOf (.extension 0x03)) ∧
      ¬ RoundTrips (workedExampleOf (.extension 0x03)) := by
  have hinput : RoundTripInput (workedExampleOf (.extension 0x03)) :=
    roundTripInput_workedExampleOf (by decide)
  refine ⟨hinput, ?_⟩
  intro h
  obtain ⟨b, -, -, hdec⟩ := h
  obtain ⟨hd, -⟩ := decode_eq_ok_iff.mp hdec
  exact absurd hd.fields.wellTagged (by decide)

section Decoded
variable {d : TensorDescriptor} {b : Bytes}

theorem lengthField_of_matches {len : UInt32} {w : Bytes} (hw : Matches (descriptorCells d len) w)
    (hpre : w <+: b) : lengthField b = len.toNat := by
  obtain ⟨p, v, hp, -, rfl⟩ := matches_append.mp hw
  obtain rfl := matches_fixed.mp hp
  exact lengthField_of_prefix ((List.prefix_append _ v).trans hpre)

/-- A decoded descriptor is encoded without error, to bytes that decode to it again. In the
known version, an input whose truth bytes are 0 or 1 begins with exactly these bytes. -/
theorem encode_of_decode (h : decode b = .ok d) :
    ∃ b', encode d = .ok b' ∧ decode b' = .ok d ∧
      (d.versionMinor = DESCRIPTOR_VERSION_MINOR →
        BooleansCanonical (descriptorCells d (encodedLength d)) b →
        b' = b.take (lengthField b)) := by
  have henc := encodable_of_decode h
  obtain ⟨hd, len, w, hw, hpre, -, heq⟩ := decode_eq_ok_iff.mp h
  refine ⟨_, encode_eq_ok_iff.mpr ⟨henc, rfl⟩, decode_wireBytes henc hd, ?_⟩
  intro hminor hbool
  have hwlen := heq hminor
  have hlen : encodedLength d = len := by
    rw [encodedLength, length_descriptorCells, ← length_descriptorCells d len, ← hw.length_eq,
      hwlen, UInt32.ofNat_toNat]
  rw [hlen] at hbool ⊢
  rw [lengthField_of_matches hw hpre, ← hwlen, ← List.prefix_iff_eq_take.mp hpre]
  exact (hw.eq_wireBytes (hbool.of_prefix hpre)).symm

/-- The decoder looks at nothing past the declared length. -/
theorem decode_take (h : decode b = .ok d) : decode (b.take (lengthField b)) = .ok d := by
  obtain ⟨hd, len, w, hw, hpre, hle, heq⟩ := decode_eq_ok_iff.mp h
  refine decode_eq_ok_iff.mpr ⟨hd, len, w, hw, ?_, hle, heq⟩
  rw [lengthField_of_matches hw hpre]
  exact List.prefix_take_iff.mpr ⟨hpre, hle⟩

theorem lengthField_le_of_known (h : decode b = .ok d)
    (hminor : b[5]? = some DESCRIPTOR_VERSION_MINOR) : lengthField b ≤ b.length := by
  obtain ⟨-, len, w, hw, hpre, -, heq⟩ := decode_eq_ok_iff.mp h
  obtain ⟨p, v, hp, -, rfl⟩ := matches_append.mp hw
  obtain rfl := matches_fixed.mp hp
  have hbyte := (prefix_iff.mp ((List.prefix_append _ v).trans hpre)).2.2.2.1
  have hknown : d.versionMinor = DESCRIPTOR_VERSION_MINOR := by
    rw [hminor] at hbyte
    exact (Option.some.inj hbyte).symm
  rw [lengthField_of_matches hw hpre, ← heq hknown]
  exact hpre.length_le

/-- An accepted input holds its whole frame exactly when its minor version is the known one or
its length field stays within the input: under another minor version nothing compares the two. -/
theorem decode_within_frame_iff (h : decode b = .ok d) :
    (lengthField b ≤ b.length ∧ decode (b.take (lengthField b)) = .ok d) ↔
      (b[5]? = some DESCRIPTOR_VERSION_MINOR ∨ lengthField b ≤ b.length) := by
  constructor
  · intro h
    obtain ⟨hle, -⟩ := h
    exact .inr hle
  · intro hcond
    refine ⟨?_, decode_take h⟩
    rcases hcond with hminor | hle
    · exact lengthField_le_of_known h hminor
    · exact hle

end Decoded

/-- The bytes of the worked example, with a minor version and a length field of choice. -/
def workedExampleBytes (minor : UInt8) (length : UInt32) : Bytes :=
  prefixBytes 1 minor length ++ [0, 0, 0, 0, 0x03, 0x01, 2, 0, 0, 0] ++
    [3, 0, 0, 0, 0, 0, 0, 0] ++ [4, 0, 0, 0, 0, 0, 0, 0] ++ [0, 0, 0, 0, 0, 0, 0, 0] ++
    [1, 192, 0, 0, 0, 0, 0, 0, 0, 64, 0, 0, 0, 0, 0, 0, 0]

theorem decode_workedExampleBytes :
    decode (workedExampleBytes 0 61) = .ok workedExample ∧
      (∃ b', encode workedExample = .ok b' ∧ decode b' = .ok workedExample ∧
        (workedExample.versionMinor = DESCRIPTOR_VERSION_MINOR →
          BooleansCanonical (descriptorCells workedExample (encodedLength workedExample))
            (workedExampleBytes 0 61) →
          b' = (workedExampleBytes 0 61).take (lengthField (workedExampleBytes 0 61)))) := by
  have hdec : decode (workedExampleBytes 0 61) = .ok workedExample := by decide +kernel
  exact ⟨hdec, encode_of_decode hdec⟩

theorem decode_within_frame_workedExample :
    (lengthField (workedExampleBytes 0 61) ≤ (workedExampleBytes 0 61).length ∧
      decode ((workedExampleBytes 0 61).take (lengthField (workedExampleBytes 0 61))) =
        .ok workedExample) ↔
      ((workedExampleBytes 0 61)[5]? = some DESCRIPTOR_VERSION_MINOR ∨
        lengthField (workedExampleBytes 0 61) ≤ (workedExampleBytes 0 61).length) := by
  have hdec : decode (workedExampleBytes 0 61) = .ok workedExample := by decide +kernel
  exact decode_within_frame_iff hdec

/-- Under minor version 1 the decoder takes the worked example for a whole descriptor although
it declares 1000 bytes and has 61. -/
theorem decode_accepts_truncated :
    decode (workedExampleBytes 1 1000) = .ok { workedExample with versionMinor := 1 } ∧
      ¬ lengthField (workedExampleBytes 1 1000) ≤ (workedExampleBytes 1 1000).length := by
  constructor
  · decide +kernel
  · decide +kernel

end Hurray.Descriptor
