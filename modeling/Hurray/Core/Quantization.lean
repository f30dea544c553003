import Hurray.Core.Buffer
import Hurray.Core.ElementType
import Hurray.Base.LittleEndian

/-!
Quantization descriptors and their decoder. The descriptor codec carries this
section as opaque bytes; the decoder runs only where a constructor has to know
the scheme.
-/
namespace Hurray.Core
open Hurray.Base

inductive QuantizationSchemeTag where
  | perTensorAffine | perChannelAffine | perBlockAffine | nf4 | mxfp
  deriving DecidableEq, Repr

namespace QuantizationSchemeTag

def tag : QuantizationSchemeTag → UInt8
  | perTensorAffine => 0x01
  | perChannelAffine => 0x02
  | perBlockAffine => 0x03
  | nf4 => 0x04
  | mxfp => 0x05

def fromByte (b : UInt8) : Result QuantizationSchemeTag :=
  match b with
  | 0x00 | 0xFF => Exec.fail (.invalidQuantizationSchemeTag b)
  | 0x01 => .ok perTensorAffine
  | 0x02 => .ok perChannelAffine
  | 0x03 => .ok perBlockAffine
  | 0x04 => .ok nf4
  | 0x05 => .ok mxfp
  | _ =>
      if 0x06 ≤ b ∧ b ≤ 0x3F then Exec.fail (.unknownQuantizationSchemeTag b)
      else if 0x40 ≤ b ∧ b ≤ 0x5F then Exec.fail (.unknownQuantizationSchemeTag b)
      else if 0x60 ≤ b ∧ b ≤ 0xEF then Exec.fail (.reservedQuantizationSchemeTag b)
      else if 0xF0 ≤ b ∧ b ≤ 0xFE then Exec.fail (.privateQuantizationSchemeTag b)
      else Exec.fail (.unknownQuantizationSchemeTag b)

end QuantizationSchemeTag

/-- An IEEE 754 binary32 value by its bits. -/
structure F32 where
  bits : UInt32
  deriving DecidableEq

namespace F32

def isFinite (x : F32) : Prop := (x.bits >>> 23) &&& 0xFF ≠ 0xFF

def isZero (x : F32) : Prop := x.bits &&& 0x7FFFFFFF = 0

instance : DecidablePred isFinite := fun x =>
  inferInstanceAs (Decidable ((x.bits >>> 23) &&& 0xFF ≠ 0xFF))

instance : DecidablePred isZero := fun x => inferInstanceAs (Decidable (x.bits &&& 0x7FFFFFFF = 0))

/-- The text of a value that is zero or not finite. -/
def displaySpecial (x : F32) : String :=
  let magnitude := x.bits &&& 0x7FFFFFFF
  if magnitude > 0x7F800000 then "NaN"
  else (if x.bits &&& 0x80000000 = 0 then "" else "-") ++ if magnitude = 0 then "0" else "inf"

end F32

structure PerTensorAffine where
  scale : F32
  zeroPoint : Int32
  deriving DecidableEq

structure PerChannelAffine where
  axis : UInt32
  scaleBufferIndex : UInt32
  zeroPointBufferIndex : Option UInt32
  scaleType : ElementType
  deriving DecidableEq

structure PerBlockAffine where
  axis : UInt32
  blockSize : UInt32
  scaleBufferIndex : UInt32
  zeroPointBufferIndex : Option UInt32
  scaleType : ElementType
  deriving DecidableEq

structure Nf4 where
  axis : UInt32
  blockSize : UInt32
  scaleBufferIndex : UInt32
  deriving DecidableEq

structure Mxfp where
  axis : UInt32
  blockSize : UInt32
  scaleBufferIndex : UInt32
  deriving DecidableEq

inductive QuantizationDescriptor where
  | perTensorAffine (inner : PerTensorAffine)
  | perChannelAffine (inner : PerChannelAffine)
  | perBlockAffine (inner : PerBlockAffine)
  | nf4 (inner : Nf4)
  | mxfp (inner : Mxfp)
  deriving DecidableEq

def ZP_SENTINEL : UInt32 := 0xFFFFFFFF
def PER_BLOCK_AFFINE_MIN_BLOCK_SIZE : UInt32 := 2
def NF4_MIN_BLOCK_SIZE : UInt32 := 8
def MXFP_MIN_BLOCK_SIZE : UInt32 := 16
def MXFP_MAX_BLOCK_SIZE : UInt32 := 2048
def FLAG_SYMMETRIC : UInt16 := 1

def u32At (bytes : Bytes) (offset : ℕ) : Result UInt32 := do
  let w ← Exec.slice bytes offset 4
  pure (u32OfBytes w)

/-- The length and flag checks that open every payload decoder. -/
def checkPayload (flags : UInt16) (bytes : Bytes) (encodedLen : ℕ) (mask : UInt16) :
    Result Unit := do
  Exec.reject (bytes.length < encodedLen)
    (.quantizationDescriptorTooShort bytes.length encodedLen)
  Exec.reject (flags &&& mask ≠ 0) (.reservedQuantizationFlagsBits flags mask)

namespace PerTensorAffine

def ENCODED_LEN : ℕ := 16

def new (scale : F32) (zeroPoint : Int32) : Result PerTensorAffine := do
  Exec.reject (¬ scale.isFinite ∨ scale.isZero) (.invalidQuantization
    s!"per-tensor affine scale must be finite and non-zero, got {scale.displaySpecial}")
  pure ⟨scale, zeroPoint⟩

def decodePayload (flags : UInt16) (bytes : Bytes) : Result PerTensorAffine := do
  checkPayload flags bytes ENCODED_LEN 0xFFFF
  let scale ← u32At bytes 4
  let zeroPoint ← u32At bytes 8
  let reserved ← Exec.slice bytes 12 4
  Exec.reject (∃ b ∈ reserved, b ≠ 0)
    (.invalidQuantization "per-tensor affine reserved bytes [12..16] must be 0x00")
  new ⟨scale⟩ zeroPoint.toInt32

end PerTensorAffine

namespace PerChannelAffine

def ENCODED_LEN : ℕ := 20

def decodePayload (flags : UInt16) (bytes : Bytes) : Result PerChannelAffine := do
  checkPayload flags bytes ENCODED_LEN (~~~FLAG_SYMMETRIC)
  let axis ← u32At bytes 4
  let scaleBuf ← u32At bytes 8
  let zpBufRaw ← u32At bytes 12
  let scaleTypeByte ← Exec.index bytes 16
  Exec.reject (scaleBuf = ZP_SENTINEL)
    (.invalidQuantization "scale_buffer_index must not be 0xFFFFFFFF")
  Exec.reject (scaleTypeByte ≠ 0x03) (.invalidQuantization
    s!"per-channel affine scale_type_tag must be 0x03 (float32) in v1, got 0x{hexByte scaleTypeByte}")
  let reserved ← Exec.slice bytes 17 3
  Exec.reject (∃ b ∈ reserved, b ≠ 0)
    (.invalidQuantization "per-channel affine reserved bytes [17..20] must be 0x00")
  if flags &&& FLAG_SYMMETRIC ≠ 0 then
    Exec.reject (zpBufRaw ≠ ZP_SENTINEL) (.invalidQuantization
      "SYMMETRIC flag is set but zero_point_buffer_index is not 0xFFFFFFFF")
    pure ⟨axis, scaleBuf, none, .float32⟩
  else
    Exec.reject (zpBufRaw = ZP_SENTINEL) (.invalidQuantization
      "SYMMETRIC flag is not set but zero_point_buffer_index is 0xFFFFFFFF")
    pure ⟨axis, scaleBuf, some zpBufRaw, .float32⟩

end PerChannelAffine

namespace PerBlockAffine

def ENCODED_LEN : ℕ := 24

def decodePayload (flags : UInt16) (bytes : Bytes) : Result PerBlockAffine := do
  checkPayload flags bytes ENCODED_LEN (~~~FLAG_SYMMETRIC)
  let axis ← u32At bytes 4
  let blockSize ← u32At bytes 8
  let scaleBuf ← u32At bytes 12
  let zpBufRaw ← u32At bytes 16
  let scaleTypeByte ← Exec.index bytes 20
  Exec.reject (¬ isPowerOfTwo blockSize ∨ blockSize < PER_BLOCK_AFFINE_MIN_BLOCK_SIZE)
    (.invalidBlockSize 0x03 blockSize PER_BLOCK_AFFINE_MIN_BLOCK_SIZE 0xFFFFFFFF)
  Exec.reject (scaleTypeByte ∉ ([0x01, 0x02, 0x03] : Bytes)) (.invalidQuantization
    s!"per-block affine scale_type_tag must be 0x01, 0x02, or 0x03, got 0x{hexByte scaleTypeByte}")
  let scaleType ← ElementType.fromTag scaleTypeByte
  let reserved ← Exec.slice bytes 21 3
  Exec.reject (∃ b ∈ reserved, b ≠ 0)
    (.invalidQuantization "per-block affine reserved bytes [21..24] must be 0x00")
  if flags &&& FLAG_SYMMETRIC ≠ 0 then
    Exec.reject (zpBufRaw ≠ ZP_SENTINEL) (.invalidQuantization
      "SYMMETRIC flag is set but zero_point_buffer_index is not 0xFFFFFFFF")
    pure ⟨axis, blockSize, scaleBuf, none, scaleType⟩
  else
    -- Unlike per-channel, the sentinel is not rejected here when the flag is clear.
    pure ⟨axis, blockSize, scaleBuf, some zpBufRaw, scaleType⟩

end PerBlockAffine

namespace Nf4

def ENCODED_LEN : ℕ := 16

def validateBlockSize (blockSize : UInt32) : Result Unit :=
  Exec.reject (¬ isPowerOfTwo blockSize ∨ blockSize < NF4_MIN_BLOCK_SIZE)
    (.invalidBlockSize 0x04 blockSize NF4_MIN_BLOCK_SIZE 0xFFFFFFFF)

def decodePayload (flags : UInt16) (bytes : Bytes) : Result Nf4 := do
  checkPayload flags bytes ENCODED_LEN 0xFFFF
  let axis ← u32At bytes 4
  let blockSize ← u32At bytes 8
  let scaleBuf ← u32At bytes 12
  validateBlockSize blockSize
  Exec.reject (scaleBuf = 0xFFFFFFFF)
    (.invalidQuantization "NF4 scale_buffer_index must not be 0xFFFFFFFF")
  pure ⟨axis, blockSize, scaleBuf⟩

end Nf4

namespace Mxfp

def ENCODED_LEN : ℕ := 16

def validateBlockSize (blockSize : UInt32) : Result Unit :=
  Exec.reject (¬ isPowerOfTwo blockSize ∨
      ¬ (MXFP_MIN_BLOCK_SIZE ≤ blockSize ∧ blockSize ≤ MXFP_MAX_BLOCK_SIZE))
    (.invalidBlockSize 0x05 blockSize MXFP_MIN_BLOCK_SIZE MXFP_MAX_BLOCK_SIZE)

def decodePayload (flags : UInt16) (bytes : Bytes) : Result Mxfp := do
  checkPayload flags bytes ENCODED_LEN 0xFFFF
  let axis ← u32At bytes 4
  let blockSize ← u32At bytes 8
  let scaleBuf ← u32At bytes 12
  validateBlockSize blockSize
  Exec.reject (scaleBuf = 0xFFFFFFFF)
    (.invalidQuantization "MXFP scale_buffer_index must not be 0xFFFFFFFF")
  pure ⟨axis, blockSize, scaleBuf⟩

end Mxfp

namespace QuantizationDescriptor

def schemeTag : QuantizationDescriptor → QuantizationSchemeTag
  | perTensorAffine _ => .perTensorAffine
  | perChannelAffine _ => .perChannelAffine
  | perBlockAffine _ => .perBlockAffine
  | nf4 _ => .nf4
  | mxfp _ => .mxfp

def encodedLen : QuantizationDescriptor → ℕ
  | perTensorAffine _ => PerTensorAffine.ENCODED_LEN
  | perChannelAffine _ => PerChannelAffine.ENCODED_LEN
  | perBlockAffine _ => PerBlockAffine.ENCODED_LEN
  | nf4 _ => Nf4.ENCODED_LEN
  | mxfp _ => Mxfp.ENCODED_LEN

/-- The header parser. Every scheme supports version 1 only; the result is the flags field. -/
def parseHeader (bytes : Bytes) (supportedVersion : UInt8) : Result UInt16 := do
  Exec.reject (bytes.length < 4) (.quantizationDescriptorTooShort bytes.length 4)
  let schemeTagByte ← Exec.index bytes 0
  let schemeVersion ← Exec.index bytes 1
  let flags ← Exec.slice bytes 2 2
  let _ ← QuantizationSchemeTag.fromByte schemeTagByte
  Exec.reject (schemeVersion > supportedVersion)
    (.unsupportedSchemeVersion schemeTagByte schemeVersion supportedVersion)
  pure (u16OfBytes flags)

def decode (bytes : Bytes) : Result (QuantizationDescriptor × ℕ) := do
  Exec.reject (bytes = []) (.quantizationDescriptorTooShort 0 4)
  let tagByte ← Exec.index bytes 0
  let tag ← QuantizationSchemeTag.fromByte tagByte
  let flags ← parseHeader bytes 0x01
  let descriptor ← match tag with
    | .perTensorAffine => do pure (perTensorAffine (← PerTensorAffine.decodePayload flags bytes))
    | .perChannelAffine => do pure (perChannelAffine (← PerChannelAffine.decodePayload flags bytes))
    | .perBlockAffine => do pure (perBlockAffine (← PerBlockAffine.decodePayload flags bytes))
    | .nf4 => do pure (nf4 (← Nf4.decodePayload flags bytes))
    | .mxfp => do pure (mxfp (← Mxfp.decodePayload flags bytes))
  pure (descriptor, descriptor.encodedLen)

end QuantizationDescriptor
end Hurray.Core
