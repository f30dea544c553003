import Hurray.Core.Quantization

/-!
The constructors and the encoder of quantization descriptors, against the decoder. The
constructors check less than the decoder does, so that some of what they build does not
decode.
-/
namespace Hurray.Core
open Hurray.Base

section Constructors

def INVALID_BUF_SENTINEL : UInt32 := 0xFFFFFFFF
def VALID_SCALE_TYPE_TAGS : Bytes := [0x01, 0x02, 0x03]

/-- The name of the variant, as it is printed for debugging. -/
def ElementType.debugName : ElementType → String
  | float16 => "Float16" | bFloat16 => "BFloat16" | float32 => "Float32" | float64 => "Float64"
  | int8 => "Int8" | uint8 => "Uint8" | int16 => "Int16" | uint16 => "Uint16"
  | int32 => "Int32" | uint32 => "Uint32" | int64 => "Int64" | uint64 => "Uint64"
  | bool => "Bool"
  | float8E4M3 => "Float8E4M3" | float8E5M2 => "Float8E5M2" | float8E8M0 => "Float8E8M0"
  | float4E2M1 => "Float4E2M1" | float6E2M3 => "Float6E2M3" | float6E3M2 => "Float6E3M2"
  | float128 => "Float128"
  | int4 => "Int4" | uint4 => "Uint4" | int2 => "Int2" | uint2 => "Uint2"
  | complex64 => "Complex64" | complex128 => "Complex128"
  | extension t => s!"Extension({t})"

namespace PerChannelAffine

/-- The check of both constructors. -/
def checkScaleBuffer (scaleBufferIndex : UInt32) : Result Unit :=
  Exec.reject (scaleBufferIndex = ZP_SENTINEL)
    (.invalidQuantization "scale_buffer_index must not be 0xFFFFFFFF (reserved sentinel)")

def newAsymmetric (axis scaleBufferIndex zeroPointBufferIndex : UInt32) :
    Result PerChannelAffine := do
  checkScaleBuffer scaleBufferIndex
  pure ⟨axis, scaleBufferIndex, some zeroPointBufferIndex, .float32⟩

def newSymmetric (axis scaleBufferIndex : UInt32) : Result PerChannelAffine := do
  checkScaleBuffer scaleBufferIndex
  pure ⟨axis, scaleBufferIndex, none, .float32⟩

end PerChannelAffine

namespace PerBlockAffine

def validateBlockSize (blockSize : UInt32) : Result Unit :=
  Exec.reject (¬ isPowerOfTwo blockSize ∨ blockSize < PER_BLOCK_AFFINE_MIN_BLOCK_SIZE)
    (.invalidBlockSize 0x03 blockSize PER_BLOCK_AFFINE_MIN_BLOCK_SIZE 0xFFFFFFFF)

def validateScaleType (scaleType : ElementType) : Result Unit :=
  Exec.reject (scaleType.tag ∉ VALID_SCALE_TYPE_TAGS) (.invalidQuantization
    ("per-block affine scale_type must be Float16, BFloat16, or Float32, got " ++
      scaleType.debugName))

def newAsymmetric (axis blockSize scaleBufferIndex zeroPointBufferIndex : UInt32)
    (scaleType : ElementType) : Result PerBlockAffine := do
  validateBlockSize blockSize
  validateScaleType scaleType
  pure ⟨axis, blockSize, scaleBufferIndex, some zeroPointBufferIndex, scaleType⟩

def newSymmetric (axis blockSize scaleBufferIndex : UInt32) (scaleType : ElementType) :
    Result PerBlockAffine := do
  validateBlockSize blockSize
  validateScaleType scaleType
  pure ⟨axis, blockSize, scaleBufferIndex, none, scaleType⟩

end PerBlockAffine

def Nf4.new (axis blockSize scaleBufferIndex : UInt32) : Result Nf4 := do
  Nf4.validateBlockSize blockSize
  pure ⟨axis, blockSize, scaleBufferIndex⟩

def Mxfp.new (axis blockSize scaleBufferIndex : UInt32) : Result Mxfp := do
  Mxfp.validateBlockSize blockSize
  pure ⟨axis, blockSize, scaleBufferIndex⟩

end Constructors

section Encoder

/-- The copy of some bytes to a place of the buffer, which panics past its end. -/
def copyTo (out : Bytes) (offset : ℕ) (bytes : Bytes) : Result Bytes :=
  if offset + bytes.length ≤ out.length then
    .ok (out.take offset ++ bytes ++ out.drop (offset + bytes.length))
  else Exec.panic

/-- The flag of the two schemes that can leave the zero point out. -/
def symmetricFlags (zeroPointBufferIndex : Option UInt32) : UInt16 :=
  if zeroPointBufferIndex.isNone then FLAG_SYMMETRIC else 0

def PerTensorAffine.encodePayload (q : PerTensorAffine) (out : Bytes) : Result Bytes := do
  let out ← copyTo out 4 (u32Bytes q.scale.bits)
  let out ← copyTo out 8 (u32Bytes q.zeroPoint.toUInt32)
  copyTo out 12 [0, 0, 0, 0]

def PerChannelAffine.encodePayload (q : PerChannelAffine) (out : Bytes) : Result Bytes := do
  let out ← copyTo out 4 (u32Bytes q.axis)
  let out ← copyTo out 8 (u32Bytes q.scaleBufferIndex)
  let out ← copyTo out 12 (u32Bytes (q.zeroPointBufferIndex.getD ZP_SENTINEL))
  let out ← copyTo out 16 [0x03]
  copyTo out 17 [0, 0, 0]

def PerChannelAffine.flags (q : PerChannelAffine) : UInt16 := symmetricFlags q.zeroPointBufferIndex

def PerBlockAffine.encodePayload (q : PerBlockAffine) (out : Bytes) : Result Bytes := do
  let out ← copyTo out 4 (u32Bytes q.axis)
  let out ← copyTo out 8 (u32Bytes q.blockSize)
  let out ← copyTo out 12 (u32Bytes q.scaleBufferIndex)
  let out ← copyTo out 16 (u32Bytes (q.zeroPointBufferIndex.getD ZP_SENTINEL))
  let out ← copyTo out 20 [q.scaleType.tag]
  copyTo out 21 [0, 0, 0]

def PerBlockAffine.flags (q : PerBlockAffine) : UInt16 := symmetricFlags q.zeroPointBufferIndex

/-- The payload that the two block formats without a zero point share. -/
def encodeBlocks (axis blockSize scaleBufferIndex : UInt32) (out : Bytes) : Result Bytes := do
  let out ← copyTo out 4 (u32Bytes axis)
  let out ← copyTo out 8 (u32Bytes blockSize)
  copyTo out 12 (u32Bytes scaleBufferIndex)

def Nf4.encodePayload (q : Nf4) (out : Bytes) : Result Bytes :=
  encodeBlocks q.axis q.blockSize q.scaleBufferIndex out

def Mxfp.encodePayload (q : Mxfp) (out : Bytes) : Result Bytes :=
  encodeBlocks q.axis q.blockSize q.scaleBufferIndex out

namespace QuantizationDescriptor

/-- Every scheme is at version 1. -/
def headerVersionAndFlags : QuantizationDescriptor → UInt8 × UInt16
  | perTensorAffine _ => (0x01, 0)
  | perChannelAffine inner => (0x01, inner.flags)
  | perBlockAffine inner => (0x01, inner.flags)
  | nf4 _ => (0x01, 0)
  | mxfp _ => (0x01, 0)

def writeHeader (tag : QuantizationSchemeTag) (version : UInt8) (flags : UInt16) (out : Bytes) :
    Result Bytes := do
  let out ← copyTo out 0 [tag.tag]
  let out ← copyTo out 1 [version]
  copyTo out 2 (u16Bytes flags)

/-- The buffer after the call, and the number of bytes that were written. -/
def encodeInto (q : QuantizationDescriptor) (out : Bytes) : Result (Bytes × ℕ) := do
  let len := q.encodedLen
  Exec.reject (out.length < len) (.invalidQuantization
    s!"output buffer too short: need {len} bytes, have {out.length}")
  let out ← writeHeader q.schemeTag q.headerVersionAndFlags.1 q.headerVersionAndFlags.2 out
  let out ← match q with
    | perTensorAffine inner => inner.encodePayload out
    | perChannelAffine inner => inner.encodePayload out
    | perBlockAffine inner => inner.encodePayload out
    | nf4 inner => inner.encodePayload out
    | mxfp inner => inner.encodePayload out
  pure (out, len)

end QuantizationDescriptor

end Encoder

/-- The descriptors that the public constructors build. -/
inductive Constructed : QuantizationDescriptor → Prop
  | perTensorAffine {scale : F32} {zeroPoint : Int32} {q : PerTensorAffine}
      (h : PerTensorAffine.new scale zeroPoint = .ok q) : Constructed (.perTensorAffine q)
  | perChannelAsymmetric {axis scaleBuf zpBuf : UInt32} {q : PerChannelAffine}
      (h : PerChannelAffine.newAsymmetric axis scaleBuf zpBuf = .ok q) :
      Constructed (.perChannelAffine q)
  | perChannelSymmetric {axis scaleBuf : UInt32} {q : PerChannelAffine}
      (h : PerChannelAffine.newSymmetric axis scaleBuf = .ok q) : Constructed (.perChannelAffine q)
  | perBlockAsymmetric {axis blockSize scaleBuf zpBuf : UInt32} {t : ElementType}
      {q : PerBlockAffine}
      (h : PerBlockAffine.newAsymmetric axis blockSize scaleBuf zpBuf t = .ok q) :
      Constructed (.perBlockAffine q)
  | perBlockSymmetric {axis blockSize scaleBuf : UInt32} {t : ElementType} {q : PerBlockAffine}
      (h : PerBlockAffine.newSymmetric axis blockSize scaleBuf t = .ok q) :
      Constructed (.perBlockAffine q)
  | nf4 {axis blockSize scaleBuf : UInt32} {q : Nf4} (h : Nf4.new axis blockSize scaleBuf = .ok q) :
      Constructed (.nf4 q)
  | mxfp {axis blockSize scaleBuf : UInt32} {q : Mxfp}
      (h : Mxfp.new axis blockSize scaleBuf = .ok q) : Constructed (.mxfp q)

/-- Into a buffer with room the encoder writes just its bytes, and they decode to the descriptor,
whatever follows. -/
def RoundTrips (q : QuantizationDescriptor) : Prop :=
  ∀ out trailing : Bytes, q.encodedLen ≤ out.length → ∃ bytes : Bytes,
    bytes.length = q.encodedLen ∧
      q.encodeInto out = .ok (bytes ++ out.drop q.encodedLen, q.encodedLen) ∧
        QuantizationDescriptor.decode (bytes ++ trailing) = .ok (q, q.encodedLen)

/-! ### The bytes that are written -/

section Image
variable {out pre rest trailing : Bytes} {offset : ℕ}

def headerImage (tag : QuantizationSchemeTag) (flags : UInt16) : Bytes :=
  [tag.tag] ++ [0x01] ++ u16Bytes flags

/-- The bytes of a descriptor. -/
def QuantizationDescriptor.image : QuantizationDescriptor → Bytes
  | perTensorAffine q => headerImage .perTensorAffine 0 ++ u32Bytes q.scale.bits ++
      u32Bytes q.zeroPoint.toUInt32 ++ [0, 0, 0, 0]
  | perChannelAffine q => headerImage .perChannelAffine q.flags ++ u32Bytes q.axis ++
      u32Bytes q.scaleBufferIndex ++ u32Bytes (q.zeroPointBufferIndex.getD ZP_SENTINEL) ++ [0x03] ++
      [0, 0, 0]
  | perBlockAffine q => headerImage .perBlockAffine q.flags ++ u32Bytes q.axis ++
      u32Bytes q.blockSize ++ u32Bytes q.scaleBufferIndex ++
      u32Bytes (q.zeroPointBufferIndex.getD ZP_SENTINEL) ++ [q.scaleType.tag] ++ [0, 0, 0]
  | nf4 q => headerImage .nf4 0 ++ u32Bytes q.axis ++ u32Bytes q.blockSize ++
      u32Bytes q.scaleBufferIndex
  | mxfp q => headerImage .mxfp 0 ++ u32Bytes q.axis ++ u32Bytes q.blockSize ++
      u32Bytes q.scaleBufferIndex

theorem QuantizationDescriptor.length_image (q : QuantizationDescriptor) :
    q.image.length = q.encodedLen := by
  cases q <;> rfl

/-- One write after those before it; `next` is where it ends. -/
theorem copyTo_step (next : ℕ) {bytes : Bytes} (hpre : pre.length = offset)
    (hnext : offset + bytes.length = next) (h : next ≤ out.length) :
    copyTo (pre ++ out.drop offset) offset bytes = .ok (pre ++ bytes ++ out.drop next) := by
  have hlen : (pre ++ out.drop offset).length = out.length := by
    rw [List.length_append, List.length_drop]
    omega
  rw [copyTo, if_pos (by omega), hnext, List.take_append_of_le_length hpre.ge,
    List.take_of_length_le hpre.le, List.drop_append, List.drop_drop]
  rw [List.drop_eq_nil_of_le (by omega), List.nil_append]
  congr 3
  omega

theorem QuantizationDescriptor.writeHeader_eq {tag : QuantizationSchemeTag} {flags : UInt16}
    (h : 4 ≤ out.length) :
    writeHeader tag 0x01 flags out =
      .ok (headerImage tag flags ++ out.drop 4) := by
  have hfirst : copyTo ([] ++ out.drop 0) 0 [tag.tag] = .ok ([] ++ [tag.tag] ++ out.drop 1) :=
    copyTo_step 1 rfl rfl (by omega)
  rw [List.nil_append, List.drop_zero] at hfirst
  rw [writeHeader, hfirst, Exec.ok_bind,
    copyTo_step 2 (show _ = 1 from rfl) rfl (by omega), Exec.ok_bind,
    copyTo_step 4 (show _ = 2 from rfl) rfl h]
  rfl

theorem encodeBlocks_eq {axis blockSize scaleBufferIndex : UInt32} (hpre : pre.length = 4)
    (h : 16 ≤ out.length) : encodeBlocks axis blockSize scaleBufferIndex (pre ++ out.drop 4) =
      .ok (pre ++ u32Bytes axis ++ u32Bytes blockSize ++ u32Bytes scaleBufferIndex ++
        out.drop 16) := by
  rw [encodeBlocks, copyTo_step 8 hpre rfl (by omega), Exec.ok_bind,
    copyTo_step 12 (by simp [hpre]) rfl (by omega), Exec.ok_bind,
    copyTo_step 16 (by simp [hpre]) rfl h]

theorem PerTensorAffine.encodePayload_eq (q : PerTensorAffine) (hpre : pre.length = 4)
    (h : 16 ≤ out.length) : q.encodePayload (pre ++ out.drop 4) =
      .ok (pre ++ u32Bytes q.scale.bits ++ u32Bytes q.zeroPoint.toUInt32 ++ [0, 0, 0, 0] ++
        out.drop 16) := by
  rw [encodePayload, copyTo_step 8 hpre rfl (by omega), Exec.ok_bind,
    copyTo_step 12 (by simp [hpre]) rfl (by omega), Exec.ok_bind,
    copyTo_step 16 (by simp [hpre]) rfl h]

theorem PerChannelAffine.encodePayload_eq (q : PerChannelAffine) (hpre : pre.length = 4)
    (h : 20 ≤ out.length) : q.encodePayload (pre ++ out.drop 4) =
      .ok (pre ++ u32Bytes q.axis ++ u32Bytes q.scaleBufferIndex ++
        u32Bytes (q.zeroPointBufferIndex.getD ZP_SENTINEL) ++ [0x03] ++ [0, 0, 0] ++
        out.drop 20) := by
  rw [encodePayload, copyTo_step 8 hpre rfl (by omega), Exec.ok_bind,
    copyTo_step 12 (by simp [hpre]) rfl (by omega), Exec.ok_bind,
    copyTo_step 16 (by simp [hpre]) rfl (by omega), Exec.ok_bind,
    copyTo_step 17 (by simp [hpre]) rfl (by omega), Exec.ok_bind,
    copyTo_step 20 (by simp [hpre]) rfl h]

theorem PerBlockAffine.encodePayload_eq (q : PerBlockAffine) (hpre : pre.length = 4)
    (h : 24 ≤ out.length) : q.encodePayload (pre ++ out.drop 4) =
      .ok (pre ++ u32Bytes q.axis ++ u32Bytes q.blockSize ++ u32Bytes q.scaleBufferIndex ++
        u32Bytes (q.zeroPointBufferIndex.getD ZP_SENTINEL) ++ [q.scaleType.tag] ++ [0, 0, 0] ++
        out.drop 24) := by
  rw [encodePayload, copyTo_step 8 hpre rfl (by omega), Exec.ok_bind,
    copyTo_step 12 (by simp [hpre]) rfl (by omega), Exec.ok_bind,
    copyTo_step 16 (by simp [hpre]) rfl (by omega), Exec.ok_bind,
    copyTo_step 20 (by simp [hpre]) rfl (by omega), Exec.ok_bind,
    copyTo_step 21 (by simp [hpre]) rfl (by omega), Exec.ok_bind,
    copyTo_step 24 (by simp [hpre]) rfl h]

/-- The encoder writes the bytes of the descriptor, and leaves what is after them. -/
theorem QuantizationDescriptor.encodeInto_eq (q : QuantizationDescriptor)
    (h : q.encodedLen ≤ out.length) :
    q.encodeInto out = .ok (q.image ++ out.drop q.encodedLen, q.encodedLen) := by
  have hroom : ¬ out.length < q.encodedLen := Nat.not_lt.mpr h
  have hfour : 4 ≤ q.encodedLen := by
    cases q <;> exact Nat.le_add_left 4 _
  have hheader := hfour.trans h
  simp only [encodeInto, Exec.reject_of_not hroom, Exec.ok_bind]
  cases q with
  | perTensorAffine q =>
    simp only [headerVersionAndFlags, writeHeader_eq hheader, Exec.ok_bind,
      q.encodePayload_eq (show (headerImage _ _).length = 4 from rfl) h]
    rfl
  | perChannelAffine q =>
    simp only [headerVersionAndFlags, writeHeader_eq hheader, Exec.ok_bind,
      q.encodePayload_eq (show (headerImage _ _).length = 4 from rfl) h]
    rfl
  | perBlockAffine q =>
    simp only [headerVersionAndFlags, writeHeader_eq hheader, Exec.ok_bind,
      q.encodePayload_eq (show (headerImage _ _).length = 4 from rfl) h]
    rfl
  | nf4 q =>
    simp only [headerVersionAndFlags, writeHeader_eq hheader, Exec.ok_bind, Nf4.encodePayload,
      encodeBlocks_eq (show (headerImage _ _).length = 4 from rfl) h]
    rfl
  | mxfp q =>
    simp only [headerVersionAndFlags, writeHeader_eq hheader, Exec.ok_bind, Mxfp.encodePayload,
      encodeBlocks_eq (show (headerImage _ _).length = 4 from rfl) h]
    rfl

end Image

/-! ### The bytes that are read -/

section Decode
open QuantizationDescriptor (image)
variable {bytes rest trailing : Bytes} {offset : ℕ} {flags : UInt16}

theorem u32At_eq {x : UInt32} (hlen : offset + 4 ≤ bytes.length)
    (h : (bytes.drop offset).take 4 = u32Bytes x) : u32At bytes offset = .ok x := by
  rw [u32At, Exec.slice_eq_ok.mpr ⟨hlen, h.symm⟩, Exec.ok_bind, u32OfBytes_u32Bytes]
  rfl

theorem QuantizationSchemeTag.fromByte_tag (t : QuantizationSchemeTag) :
    fromByte t.tag = .ok t := by
  cases t <;> rfl

theorem checkPayload_eq {encodedLen : ℕ} {mask : UInt16} (hlen : encodedLen ≤ bytes.length)
    (hflags : flags &&& mask = 0) : checkPayload flags bytes encodedLen mask = .ok () := by
  rw [checkPayload, Exec.reject_of_not (Nat.not_lt.mpr hlen), Exec.ok_bind,
    Exec.reject_of_not (not_not.mpr hflags)]

theorem QuantizationDescriptor.parseHeader_image (tag : QuantizationSchemeTag) :
    parseHeader (headerImage tag flags ++ rest) 0x01 = .ok flags := by
  have hlen : 4 ≤ (headerImage tag flags ++ rest).length := by
    rw [List.length_append]
    exact Nat.le_add_right 4 _
  have hslice : (Exec.slice (headerImage tag flags ++ rest) 2 2 : Result Bytes) =
      .ok (u16Bytes flags) := Exec.slice_eq_ok.mpr ⟨hlen, rfl⟩
  have htag : (Exec.index (headerImage tag flags ++ rest) 0 : Result UInt8) = .ok tag.tag := rfl
  have hversion : (Exec.index (headerImage tag flags ++ rest) 1 : Result UInt8) = .ok 0x01 := rfl
  have hsupported : ¬ (0x01 : UInt8) > 0x01 := by decide
  simp only [parseHeader, Exec.reject_of_not (Nat.not_lt.mpr hlen), Exec.ok_bind, htag, hversion,
    hslice, QuantizationSchemeTag.fromByte_tag, Exec.reject_of_not hsupported,
    u16OfBytes_u16Bytes]
  rfl

/-- After the header the decoder is that of the scheme. -/
theorem QuantizationDescriptor.decode_image {tag : QuantizationSchemeTag}
    (hbytes : bytes = headerImage tag flags ++ rest) :
    decode bytes = (match tag with
      | .perTensorAffine => do
          pure (perTensorAffine (← PerTensorAffine.decodePayload flags bytes), 16)
      | .perChannelAffine => do
          pure (perChannelAffine (← PerChannelAffine.decodePayload flags bytes), 20)
      | .perBlockAffine => do
          pure (perBlockAffine (← PerBlockAffine.decodePayload flags bytes), 24)
      | .nf4 => do pure (nf4 (← Nf4.decodePayload flags bytes), 16)
      | .mxfp => do pure (mxfp (← Mxfp.decodePayload flags bytes), 16)) := by
  subst hbytes
  have hne : headerImage tag flags ++ rest ≠ [] := List.cons_ne_nil _ _
  have htag : (Exec.index (headerImage tag flags ++ rest) 0 : Result UInt8) = .ok tag.tag := rfl
  rw [decode, Exec.reject_of_not hne, Exec.ok_bind, htag, Exec.ok_bind,
    QuantizationSchemeTag.fromByte_tag, Exec.ok_bind, parseHeader_image, Exec.ok_bind]
  cases tag <;> rfl

theorem symmetricFlags_and (zp : Option UInt32) : symmetricFlags zp &&& ~~~FLAG_SYMMETRIC = 0 := by
  cases zp with
  | none => decide
  | some zp =>
    show 0 &&& ~~~FLAG_SYMMETRIC = 0
    decide

theorem symmetricFlags_ne_zero (zp : Option UInt32) :
    symmetricFlags zp &&& FLAG_SYMMETRIC ≠ 0 ↔ zp = none := by
  cases zp with
  | none => exact iff_of_true (by decide) rfl
  | some zp =>
    apply iff_of_false _ (Option.some_ne_none zp)
    show ¬ 0 &&& FLAG_SYMMETRIC ≠ 0
    decide

theorem length_image_append (q : QuantizationDescriptor) :
    q.encodedLen ≤ (q.image ++ trailing).length := by
  rw [List.length_append, q.length_image]
  exact Nat.le_add_right _ _

/-- The three words of the two block formats without a zero point. -/
theorem encodeBlocks_read {tag : QuantizationSchemeTag} {axis blockSize scaleBuf : UInt32}
    (hbytes : bytes = headerImage tag flags ++ u32Bytes axis ++ u32Bytes blockSize ++
      u32Bytes scaleBuf ++ trailing) :
    u32At bytes 4 = .ok axis ∧ u32At bytes 8 = .ok blockSize ∧ u32At bytes 12 = .ok scaleBuf := by
  have hlen : 16 ≤ bytes.length := by
    rw [hbytes, List.length_append]
    exact Nat.le_add_right 16 _
  subst hbytes
  exact ⟨u32At_eq (by omega) rfl, u32At_eq (by omega) rfl, u32At_eq hlen rfl⟩

theorem Nf4.decodePayload_image (q : Nf4) :
    decodePayload 0 (image (.nf4 q) ++ trailing) = (do
      validateBlockSize q.blockSize
      Exec.reject (q.scaleBufferIndex = 0xFFFFFFFF)
        (.invalidQuantization "NF4 scale_buffer_index must not be 0xFFFFFFFF")
      pure q) := by
  have hlen : ENCODED_LEN ≤ (image (.nf4 q) ++ trailing).length :=
    length_image_append (.nf4 q)
  obtain ⟨haxis, hblock, hscale⟩ :=
    encodeBlocks_read (rfl : image (.nf4 q) ++ trailing = _)
  rw [decodePayload, checkPayload_eq hlen (by decide), Exec.ok_bind, haxis,
    Exec.ok_bind, hblock, Exec.ok_bind, hscale, Exec.ok_bind]

theorem Mxfp.decodePayload_image (q : Mxfp) :
    decodePayload 0 (image (.mxfp q) ++ trailing) = (do
      validateBlockSize q.blockSize
      Exec.reject (q.scaleBufferIndex = 0xFFFFFFFF)
        (.invalidQuantization "MXFP scale_buffer_index must not be 0xFFFFFFFF")
      pure q) := by
  have hlen : ENCODED_LEN ≤ (image (.mxfp q) ++ trailing).length :=
    length_image_append (.mxfp q)
  obtain ⟨haxis, hblock, hscale⟩ :=
    encodeBlocks_read (rfl : image (.mxfp q) ++ trailing = _)
  rw [decodePayload, checkPayload_eq hlen (by decide), Exec.ok_bind,
    haxis, Exec.ok_bind, hblock, Exec.ok_bind, hscale, Exec.ok_bind]

theorem PerTensorAffine.decodePayload_image (q : PerTensorAffine) :
    decodePayload 0 (image (.perTensorAffine q) ++ trailing) =
      new q.scale q.zeroPoint := by
  have hlen : ENCODED_LEN ≤ (image (.perTensorAffine q) ++ trailing).length :=
    length_image_append (.perTensorAffine q)
  have hroom : 16 ≤ (image (.perTensorAffine q) ++ trailing).length := hlen
  have hscale : u32At (image (.perTensorAffine q) ++ trailing) 4 =
    .ok q.scale.bits := u32At_eq (by omega) rfl
  have hzero : u32At (image (.perTensorAffine q) ++ trailing) 8 =
    .ok q.zeroPoint.toUInt32 := u32At_eq (by omega) rfl
  have hreserved : (Exec.slice (image (.perTensorAffine q) ++ trailing) 12 4 :
    Result Bytes) = .ok [0, 0, 0, 0] := Exec.slice_eq_ok.mpr ⟨hroom, rfl⟩
  rw [decodePayload, checkPayload_eq hlen (by decide), Exec.ok_bind, hscale, Exec.ok_bind, hzero,
    Exec.ok_bind, hreserved, Exec.ok_bind, Exec.reject_of_not (by decide), Exec.ok_bind,
    Int32.toInt32_toUInt32]

theorem PerChannelAffine.decodePayload_image (q : PerChannelAffine)
    (hscale : q.scaleBufferIndex ≠ ZP_SENTINEL) (htype : q.scaleType = .float32) :
    decodePayload q.flags (image (.perChannelAffine q) ++ trailing) = (do
      Exec.reject (q.zeroPointBufferIndex = some ZP_SENTINEL) (.invalidQuantization
        "SYMMETRIC flag is not set but zero_point_buffer_index is 0xFFFFFFFF")
      pure q) := by
  have hlen : ENCODED_LEN ≤ (image (.perChannelAffine q) ++ trailing).length :=
    length_image_append (.perChannelAffine q)
  have hflags : q.flags &&& ~~~FLAG_SYMMETRIC = 0 := symmetricFlags_and q.zeroPointBufferIndex
  have hroom : 20 ≤ (image (.perChannelAffine q) ++ trailing).length := hlen
  have haxis : u32At (image (.perChannelAffine q) ++ trailing) 4 =
    .ok q.axis := u32At_eq (by omega) rfl
  have hscaleBuf : u32At (image (.perChannelAffine q) ++ trailing) 8 =
    .ok q.scaleBufferIndex := u32At_eq (by omega) rfl
  have hzpBuf : u32At (image (.perChannelAffine q) ++ trailing) 12 =
    .ok (q.zeroPointBufferIndex.getD ZP_SENTINEL) := u32At_eq (by omega) rfl
  have htag : (Exec.index (image (.perChannelAffine q) ++ trailing) 16 :
    Result UInt8) = .ok 0x03 := rfl
  have hreserved : (Exec.slice (image (.perChannelAffine q) ++ trailing) 17 3 :
    Result Bytes) = .ok [0, 0, 0] := Exec.slice_eq_ok.mpr ⟨hroom, rfl⟩
  rw [decodePayload, checkPayload_eq hlen hflags, Exec.ok_bind, haxis, Exec.ok_bind,
    hscaleBuf, Exec.ok_bind, hzpBuf, Exec.ok_bind, htag, Exec.ok_bind, Exec.reject_of_not hscale,
    Exec.ok_bind, Exec.reject_of_not (by decide), Exec.ok_bind, hreserved, Exec.ok_bind,
    Exec.reject_of_not (by decide), Exec.ok_bind]
  simp only [flags, symmetricFlags_ne_zero]
  obtain ⟨axis, scaleBuf, zp, scaleType⟩ := q
  obtain rfl : scaleType = .float32 := htype
  cases zp with
  | none => rfl
  | some zp => simp only [reduceCtorEq, if_false, Option.getD_some, Option.some.injEq]

theorem PerBlockAffine.decodePayload_image (q : PerBlockAffine)
    (hblock : ¬ (¬ isPowerOfTwo q.blockSize ∨ q.blockSize < PER_BLOCK_AFFINE_MIN_BLOCK_SIZE))
    (htype : q.scaleType.tag ∈ VALID_SCALE_TYPE_TAGS) :
    decodePayload q.flags (image (.perBlockAffine q) ++ trailing) = (do
      let scaleType ← ElementType.fromTag q.scaleType.tag
      pure { q with scaleType := scaleType }) := by
  have hlen : ENCODED_LEN ≤ (image (.perBlockAffine q) ++ trailing).length :=
    length_image_append (.perBlockAffine q)
  have hflags : q.flags &&& ~~~FLAG_SYMMETRIC = 0 := symmetricFlags_and q.zeroPointBufferIndex
  have hroom : 24 ≤ (image (.perBlockAffine q) ++ trailing).length := hlen
  have haxis : u32At (image (.perBlockAffine q) ++ trailing) 4 =
    .ok q.axis := u32At_eq (by omega) rfl
  have hsize : u32At (image (.perBlockAffine q) ++ trailing) 8 =
    .ok q.blockSize := u32At_eq (by omega) rfl
  have hscaleBuf : u32At (image (.perBlockAffine q) ++ trailing) 12 =
    .ok q.scaleBufferIndex := u32At_eq (by omega) rfl
  have hzpBuf : u32At (image (.perBlockAffine q) ++ trailing) 16 =
    .ok (q.zeroPointBufferIndex.getD ZP_SENTINEL) := u32At_eq (by omega) rfl
  have htag : (Exec.index (image (.perBlockAffine q) ++ trailing) 20 :
    Result UInt8) = .ok q.scaleType.tag := rfl
  have hreserved : (Exec.slice (image (.perBlockAffine q) ++ trailing) 21 3 :
    Result Bytes) = .ok [0, 0, 0] := Exec.slice_eq_ok.mpr ⟨hroom, rfl⟩
  have hzeros : ¬ ∃ b ∈ ([0, 0, 0] : Bytes), b ≠ 0 := by decide
  have hnamed : q.scaleType.tag ∈ ([0x01, 0x02, 0x03] : Bytes) := htype
  rw [decodePayload, checkPayload_eq hlen hflags, Exec.ok_bind, haxis, Exec.ok_bind,
    hsize, Exec.ok_bind, hscaleBuf, Exec.ok_bind, hzpBuf, Exec.ok_bind, htag, Exec.ok_bind,
    Exec.reject_of_not hblock, Exec.ok_bind, Exec.reject_of_not (not_not.mpr hnamed), Exec.ok_bind]
  apply bind_congr
  intro scaleType
  rw [hreserved, Exec.ok_bind, Exec.reject_of_not hzeros, Exec.ok_bind]
  simp only [flags, symmetricFlags_ne_zero]
  obtain ⟨axis, blockSize, scaleBuf, zp, _⟩ := q
  cases zp with
  | none => rfl
  | some zp => rfl

end Decode

/-! ### The round trip -/

section RoundTrip
open QuantizationDescriptor (image)
variable {q : QuantizationDescriptor} {trailing : Bytes}

theorem roundTrips_iff_decode : RoundTrips q ↔ ∀ trailing : Bytes,
    QuantizationDescriptor.decode (q.image ++ trailing) = .ok (q, q.encodedLen) := by
  constructor
  · intro h trailing
    obtain ⟨bytes, hlen, hencode, hdecode⟩ :=
      h (List.replicate q.encodedLen 0) trailing (List.length_replicate ..).ge
    rw [q.encodeInto_eq (List.length_replicate ..).ge] at hencode
    obtain ⟨hbytes, -⟩ := Prod.mk.inj (Except.ok.inj hencode)
    obtain rfl : q.image = bytes := List.append_cancel_right hbytes
    exact hdecode
  · intro h out trailing hroom
    exact ⟨q.image, q.length_image, q.encodeInto_eq hroom, h trailing⟩

/-- What the bytes have room for: no index is the reserved one, and a scale type is one of the
named types. -/
def QuantizationDescriptor.Representable : QuantizationDescriptor → Prop
  | perTensorAffine _ => True
  | perChannelAffine q => q.zeroPointBufferIndex ≠ some ZP_SENTINEL
  | perBlockAffine q => ∀ t, q.scaleType ≠ .extension t
  | nf4 q => q.scaleBufferIndex ≠ INVALID_BUF_SENTINEL
  | mxfp q => q.scaleBufferIndex ≠ INVALID_BUF_SENTINEL

/-- The decoder of a scheme, as the decoder of descriptors calls it. -/
theorem ofPayload_eq_ok {α : Type} {f : α → QuantizationDescriptor} {n : ℕ} {payload : Result α}
    {inner : α} (hf : Function.Injective f) :
    (do pure (f (← payload), n) : Result (QuantizationDescriptor × ℕ)) = .ok (f inner, n) ↔
      payload = .ok inner := by
  constructor
  · intro h
    obtain ⟨decoded, hpayload, hpair⟩ := Exec.bind_eq_ok.mp h
    obtain rfl : decoded = inner := hf (Prod.mk.inj (Except.ok.inj hpair)).1
    exact hpayload
  · intro h
    rw [h]
    rfl

theorem reject_pure_eq_ok {α : Type} {c : Prop} [Decidable c] {e : Error} {a : α} :
    (do Exec.reject c e; pure a : Result α) = .ok a ↔ ¬ c := by
  constructor
  · intro h
    obtain ⟨_, hreject, -⟩ := Exec.bind_eq_ok.mp h
    exact Exec.reject_eq_ok.mp hreject
  · intro h
    rw [Exec.reject_of_not h]
    rfl

theorem decode_perTensorAffine {q : PerTensorAffine} {scale : F32} {zeroPoint : Int32}
    (h : PerTensorAffine.new scale zeroPoint = .ok q) :
    QuantizationDescriptor.decode (image (.perTensorAffine q) ++ trailing) =
      .ok (.perTensorAffine q, PerTensorAffine.ENCODED_LEN) := by
  have hnew : PerTensorAffine.new q.scale q.zeroPoint = .ok q := by
    obtain ⟨_, _, hq⟩ := Exec.bind_eq_ok.mp h
    obtain rfl := Except.ok.inj hq
    exact h
  rw [@QuantizationDescriptor.decode_image _ _ 0 .perTensorAffine
    (rfl : image (.perTensorAffine q) ++ trailing = _)]
  apply (ofPayload_eq_ok fun _ _ => QuantizationDescriptor.perTensorAffine.inj).mpr
  rw [q.decodePayload_image, hnew]

theorem decode_perChannelAffine {q : PerChannelAffine} (hscale : q.scaleBufferIndex ≠ ZP_SENTINEL)
    (htype : q.scaleType = .float32) :
    QuantizationDescriptor.decode (image (.perChannelAffine q) ++ trailing) =
      .ok (.perChannelAffine q, PerChannelAffine.ENCODED_LEN) ↔
    q.zeroPointBufferIndex ≠ some ZP_SENTINEL := by
  rw [@QuantizationDescriptor.decode_image _ _ q.flags .perChannelAffine
    (rfl : image (.perChannelAffine q) ++ trailing = _)]
  apply (ofPayload_eq_ok fun _ _ => QuantizationDescriptor.perChannelAffine.inj).trans
  rw [q.decodePayload_image hscale htype]
  exact reject_pure_eq_ok

theorem decode_perBlockAffine {q : PerBlockAffine}
    (hblock : ¬ (¬ isPowerOfTwo q.blockSize ∨ q.blockSize < PER_BLOCK_AFFINE_MIN_BLOCK_SIZE))
    (htype : q.scaleType.tag ∈ VALID_SCALE_TYPE_TAGS) :
    QuantizationDescriptor.decode (image (.perBlockAffine q) ++ trailing) =
      .ok (.perBlockAffine q, PerBlockAffine.ENCODED_LEN) ↔ q.scaleType.WellTagged := by
  rw [@QuantizationDescriptor.decode_image _ _ q.flags .perBlockAffine
    (rfl : image (.perBlockAffine q) ++ trailing = _)]
  apply (ofPayload_eq_ok fun _ _ => QuantizationDescriptor.perBlockAffine.inj).trans
  rw [q.decodePayload_image hblock htype]
  constructor
  · intro h
    obtain ⟨scaleType, hfrom, hq⟩ := Exec.bind_eq_ok.mp h
    have hsame : scaleType = q.scaleType := congrArg PerBlockAffine.scaleType (Except.ok.inj hq)
    rw [ElementType.WellTagged, hfrom, hsame]
  · intro h
    rw [show ElementType.fromTag q.scaleType.tag = .ok q.scaleType from h]
    rfl

theorem decode_nf4 {q : Nf4} (hblock : Nf4.validateBlockSize q.blockSize = .ok ()) :
    QuantizationDescriptor.decode (image (.nf4 q) ++ trailing) =
      .ok (.nf4 q, Nf4.ENCODED_LEN) ↔ q.scaleBufferIndex ≠ INVALID_BUF_SENTINEL := by
  rw [@QuantizationDescriptor.decode_image _ _ 0 .nf4
    (rfl : image (.nf4 q) ++ trailing = _)]
  apply (ofPayload_eq_ok fun _ _ => QuantizationDescriptor.nf4.inj).trans
  rw [q.decodePayload_image, hblock]
  exact reject_pure_eq_ok

theorem decode_mxfp {q : Mxfp} (hblock : Mxfp.validateBlockSize q.blockSize = .ok ()) :
    QuantizationDescriptor.decode (image (.mxfp q) ++ trailing) =
      .ok (.mxfp q, Mxfp.ENCODED_LEN) ↔ q.scaleBufferIndex ≠ INVALID_BUF_SENTINEL := by
  rw [@QuantizationDescriptor.decode_image _ _ 0 .mxfp
    (rfl : image (.mxfp q) ++ trailing = _)]
  apply (ofPayload_eq_ok fun _ _ => QuantizationDescriptor.mxfp.inj).trans
  rw [q.decodePayload_image, hblock]
  exact reject_pure_eq_ok

theorem wellTagged_iff_named {ty : ElementType} (h : ty.tag ∈ VALID_SCALE_TYPE_TAGS) :
    ty.WellTagged ↔ ∀ t, ty ≠ .extension t := by
  cases ty with
  | extension t =>
    have hnot : ¬ ElementType.IsExtensionTag t := by
      have hlow : ∀ t ∈ VALID_SCALE_TYPE_TAGS, ¬ ElementType.IsExtensionTag t := by
        rw [VALID_SCALE_TYPE_TAGS]
        simp only [List.forall_mem_cons]
        exact ⟨by decide, by decide, by decide, List.forall_mem_nil _⟩
      exact hlow t h
    apply iff_of_false
    · exact fun hw => hnot (ElementType.wellTagged_extension.mp hw)
    · exact fun hall => hall t rfl
  | _ => exact iff_of_true (by decide) (by simp)

theorem roundTrips_iff_of_decode {c : Prop} (h : ∀ trailing : Bytes,
    QuantizationDescriptor.decode (q.image ++ trailing) = .ok (q, q.encodedLen) ↔ c) :
    RoundTrips q ↔ c := by
  rw [roundTrips_iff_decode]
  constructor
  · intro hall
    exact (h []).mp (hall [])
  · intro hc trailing
    exact (h trailing).mpr hc

theorem roundTrips_perChannelAffine {q : PerChannelAffine}
    (hscale : PerChannelAffine.checkScaleBuffer q.scaleBufferIndex = .ok ())
    (htype : q.scaleType = .float32) :
    RoundTrips (.perChannelAffine q) ↔ q.zeroPointBufferIndex ≠ some ZP_SENTINEL :=
  roundTrips_iff_of_decode fun _ =>
    decode_perChannelAffine (Exec.reject_eq_ok.mp hscale) htype

theorem roundTrips_perBlockAffine {q : PerBlockAffine}
    (hblock : PerBlockAffine.validateBlockSize q.blockSize = .ok ())
    (htype : PerBlockAffine.validateScaleType q.scaleType = .ok ()) :
    RoundTrips (.perBlockAffine q) ↔ ∀ t, q.scaleType ≠ .extension t := by
  have hnamed : q.scaleType.tag ∈ VALID_SCALE_TYPE_TAGS :=
    not_not.mp (Exec.reject_eq_ok.mp htype)
  rw [← wellTagged_iff_named hnamed]
  exact roundTrips_iff_of_decode fun _ =>
    decode_perBlockAffine (Exec.reject_eq_ok.mp hblock) hnamed

/-- Which of the descriptors that the constructors build come back from their bytes. -/
theorem constructed_roundTrips_iff (h : Constructed q) : RoundTrips q ↔ q.Representable := by
  cases h with
  | perTensorAffine h =>
    exact roundTrips_iff_of_decode fun _ => iff_of_true (decode_perTensorAffine h) trivial
  | perChannelAsymmetric h =>
    obtain ⟨_, hscale, hq⟩ := Exec.bind_eq_ok.mp h
    obtain rfl := Except.ok.inj hq
    exact roundTrips_perChannelAffine hscale rfl
  | perChannelSymmetric h =>
    obtain ⟨_, hscale, hq⟩ := Exec.bind_eq_ok.mp h
    obtain rfl := Except.ok.inj hq
    exact roundTrips_perChannelAffine hscale rfl
  | perBlockAsymmetric h =>
    obtain ⟨_, hblock, hrest⟩ := Exec.bind_eq_ok.mp h
    obtain ⟨_, htype, hq⟩ := Exec.bind_eq_ok.mp hrest
    obtain rfl := Except.ok.inj hq
    exact roundTrips_perBlockAffine hblock htype
  | perBlockSymmetric h =>
    obtain ⟨_, hblock, hrest⟩ := Exec.bind_eq_ok.mp h
    obtain ⟨_, htype, hq⟩ := Exec.bind_eq_ok.mp hrest
    obtain rfl := Except.ok.inj hq
    exact roundTrips_perBlockAffine hblock htype
  | nf4 h =>
    obtain ⟨_, hblock, hq⟩ := Exec.bind_eq_ok.mp h
    obtain rfl := Except.ok.inj hq
    exact roundTrips_iff_of_decode fun _ => decode_nf4 hblock
  | mxfp h =>
    obtain ⟨_, hblock, hq⟩ := Exec.bind_eq_ok.mp h
    obtain rfl := Except.ok.inj hq
    exact roundTrips_iff_of_decode fun _ => decode_mxfp hblock

theorem constructed_roundTrips_small :
    Constructed (.perBlockAffine ⟨1, 32, 4, some 5, .bFloat16⟩) ∧
      RoundTrips (.perBlockAffine ⟨1, 32, 4, some 5, .bFloat16⟩) := by
  have h : Constructed (.perBlockAffine ⟨1, 32, 4, some 5, .bFloat16⟩) :=
    .perBlockAsymmetric (by decide : PerBlockAffine.newAsymmetric 1 32 4 5 .bFloat16 = .ok _)
  exact ⟨h, (constructed_roundTrips_iff h).mpr (by simp [QuantizationDescriptor.Representable])⟩

/-- A zero-point index of the reserved value is written, and then read as a missing one. -/
theorem sentinel_zero_point_lost :
    Constructed (.perChannelAffine ⟨0, 1, some 0xFFFFFFFF, .float32⟩) ∧
      ¬ RoundTrips (.perChannelAffine ⟨0, 1, some 0xFFFFFFFF, .float32⟩) := by
  constructor
  · exact .perChannelAsymmetric
      (by decide : PerChannelAffine.newAsymmetric 0 1 0xFFFFFFFF = .ok _)
  · intro h
    exact (roundTrips_perChannelAffine (by decide) rfl).mp h rfl

end RoundTrip

end Hurray.Core
