import Hurray.Descriptor.Format

/-!
The two directions of the codec. A decoded descriptor is encoded to bytes that
decode to it again; an encoded descriptor decodes to itself exactly when it
passes the decoder's checks.
-/
namespace Hurray.Descriptor
open Hurray.Base Hurray.Core

/-- The length field of an input, bytes 6 to 9. -/
def lengthField (b : Bytes) : ℕ := (u32OfBytes ((b.drop 6).take 4)).toNat

/-- Everything the encoder checks. -/
structure Encodable (d : TensorDescriptor) : Prop where
  layout : LayoutEncodable (UInt32.ofNat d.shape.rank) d.layout
  bufferCount : d.buffers.length ≤ 255
  member : d.compositeMember.isSome → d.layout.isVirtual = false
  length : (descriptorCells d 0).length ≤ 0xFFFFFFFF

/-- The length the encoder patches in. -/
def encodedLength (d : TensorDescriptor) : UInt32 := UInt32.ofNat (descriptorCells d 0).length

section Encode
variable {d : TensorDescriptor} {b : Bytes}

private theorem wireBytes_optional {α : Type} (o : Option α) (f : α → List Cell) :
    wireBytes (o.elim [] f) = o.elim [] fun a => wireBytes (f a) := by cases o <;> rfl

private theorem wireBytes_bufferTable (buffers : List BufferHandle) :
    wireBytes (bufferTableCells buffers) =
      [UInt8.ofNat buffers.length] ++ buffers.flatMap encodeBufferHandle := by
  rw [bufferTableCells, ← fixed_flatMap, wireBytes_append, wireBytes_fixed, wireBytes_fixed]

theorem encodeUnpatched_eq_ok : encodeUnpatched d = .ok b ↔
    (LayoutEncodable (UInt32.ofNat d.shape.rank) d.layout ∧ d.buffers.length ≤ 255 ∧
      (d.compositeMember.isSome → d.layout.isVirtual = false)) ∧
      b = wireBytes (descriptorCells d 0) := by
  have hbytes : wireBytes (descriptorCells d 0) = MAGIC ++ [d.versionMajor, d.versionMinor] ++
      u32Bytes 0 ++ u32Bytes d.flags ++ [d.elementType.tag, d.layout.tag] ++
      u32Bytes (UInt32.ofNat d.shape.rank) ++ d.shape.dims.flatMap u64Bytes ++
      u64Bytes d.byteOffset ++ wireBytes (layoutCells d.layout) ++
      [UInt8.ofNat d.buffers.length] ++ d.buffers.flatMap encodeBufferHandle ++
      d.quantization.elim [] encodeQuantization ++ d.shard.elim [] ShardDescriptor.encode ++
      d.statistics.elim [] Statistics.encode ++
      d.extensionType.elim [] ExtensionTypeDescriptor.encode ++
      d.compositeMember.elim [] CompositeMemberDescriptor.encode := by
    simp only [descriptorCells, fieldCells, prefixBytes, wireBytes_append, wireBytes_fixed,
      wireBytes_bufferTable, wireBytes_optional, ShardDescriptor.wireBytes_cells,
      Statistics.wireBytes_cells, ExtensionTypeDescriptor.wireBytes_cells,
      CompositeMemberDescriptor.wireBytes_cells, List.append_assoc, List.singleton_append]
    rfl
  simp only [encodeUnpatched, Exec.bind_eq_ok, encodeLayoutPayload_eq_ok, Exec.reject_eq_ok,
    exists_const, pure, Except.pure, Except.ok.injEq, hbytes]
  constructor
  · rintro ⟨payload, ⟨hlayout, rfl⟩, hcount, hmember, rfl⟩
    exact ⟨⟨hlayout, by omega, by simpa using hmember⟩, rfl⟩
  · rintro ⟨⟨hlayout, hcount, hmember⟩, rfl⟩
    exact ⟨_, ⟨hlayout, rfl⟩, by omega, by simpa using hmember, rfl⟩

/-- What the encoder returns: the format of the descriptor under its own length. -/
theorem encode_eq_ok_iff : encode d = .ok b ↔
    Encodable d ∧ b = wireBytes (descriptorCells d (encodedLength d)) := by
  have hpatch (len : UInt32) : (wireBytes (descriptorCells d 0)).take 6 ++ u32Bytes len ++
      (wireBytes (descriptorCells d 0)).drop 10 = wireBytes (descriptorCells d len) := by
    obtain ⟨l₀, l₁, l₂, l₃, hzero⟩ : ∃ l₀ l₁ l₂ l₃, u32Bytes 0 = [l₀, l₁, l₂, l₃] :=
      List.length_eq_four.mp (length_u32Bytes 0)
    simp only [descriptorCells, prefixBytes, wireBytes_append, wireBytes_fixed, MAGIC, hzero]
    simp
  simp only [encode, Exec.bind_eq_ok, encodeUnpatched_eq_ok, Exec.reject_eq_ok, exists_const,
    pure, Except.pure, Except.ok.injEq]
  constructor
  · rintro ⟨_, ⟨⟨hlayout, hcount, hmember⟩, rfl⟩, hlen, rfl⟩
    rw [length_wireBytes] at hlen
    refine ⟨⟨hlayout, hcount, hmember, by omega⟩, ?_⟩
    rw [hpatch, length_wireBytes]
    rfl
  · rintro ⟨⟨hlayout, hcount, hmember, hlen⟩, rfl⟩
    refine ⟨_, ⟨⟨hlayout, hcount, hmember⟩, rfl⟩, ?_, ?_⟩
    · rw [length_wireBytes]
      omega
    · rw [hpatch, length_wireBytes]
      rfl

theorem encode_ne_nil (h : encode d = .ok b) : b ≠ [] := by
  obtain ⟨-, rfl⟩ := encode_eq_ok_iff.mp h
  intro hnil
  have hlen := congrArg List.length hnil
  rw [length_wireBytes, length_descriptorCells] at hlen
  simp at hlen

theorem encode_length_lt (h : encode d = .ok b) : b.length < UInt32.size := by
  obtain ⟨henc, rfl⟩ := encode_eq_ok_iff.mp h
  have hlen := henc.length
  have hsize : UInt32.size = 0xFFFFFFFF + 1 := rfl
  rw [length_wireBytes, length_descriptorCells]
  rw [length_descriptorCells] at hlen
  omega

theorem encodedLength_toNat (h : Encodable d) :
    (encodedLength d).toNat = (descriptorCells d (encodedLength d)).length := by
  have hlen := h.length
  rw [encodedLength, UInt32.toNat_ofNat_of_lt' (by simp only [UInt32.size]; omega),
    length_descriptorCells, length_descriptorCells]

theorem lengthField_of_prefix {major minor : UInt8} {len : UInt32}
    (h : prefixBytes major minor len <+: b) : lengthField b = len.toNat := by
  rw [lengthField, (prefix_iff.mp h).2.2.2.2, u32OfBytes_u32Bytes]

theorem lengthField_wireBytes (len : UInt32) :
    lengthField (wireBytes (descriptorCells d len)) = len.toNat := by
  have hpre : prefixBytes d.versionMajor d.versionMinor len <+: wireBytes (descriptorCells d len) := by
    rw [descriptorCells, wireBytes_append, wireBytes_fixed]
    exact List.prefix_append _ _
  exact lengthField_of_prefix hpre

/-- The encoder's own bytes decode to the descriptor as soon as it passes the decoder's checks. -/
theorem decode_wireBytes (henc : Encodable d) (hdec : Decodable d) :
    decode (wireBytes (descriptorCells d (encodedLength d))) = .ok d := by
  have hlen := encodedLength_toNat henc
  refine decode_eq_ok_iff.mpr ⟨hdec, _, _, matches_wireBytes _, List.prefix_refl _, ?_, ?_⟩
  · rw [length_wireBytes, hlen]
  · intro _
    rw [length_wireBytes, hlen]

/-- A decoded descriptor passes every check of the encoder, its length included. -/
theorem encodable_of_decode (h : decode b = .ok d) : Encodable d := by
  obtain ⟨hd, len, w, hw, -, hle, -⟩ := decode_eq_ok_iff.mp h
  have hrank : (UInt32.ofNat d.shape.rank).toNat = d.shape.rank :=
    UInt32.toNat_ofNat_of_lt' d.shape.rank_lt_size
  refine ⟨LayoutFits.encodable (by rw [hrank]; exact hd.fields.layout), hd.fields.bufferCount,
    hd.member, ?_⟩
  have hlt := len.toNat_lt
  rw [hw.length_eq, length_descriptorCells] at hle
  rw [length_descriptorCells]
  omega

end Encode
end Hurray.Descriptor
