import Hurray.Core.Shape
import Hurray.Descriptor.Cursor

/-!
The optional sections of a descriptor. Each has its value type, its writer, its
reader, and the theorem that the reader recognises exactly what is written.
-/
namespace Hurray.Descriptor
open Hurray.Base Hurray.Core

structure ExtensionTypeDescriptor where
  bitWidth : UInt32
  packingFactor : UInt8
  isFloat : Bool
  isSigned : Bool
  signBits : UInt8
  exponentBits : UInt8
  mantissaBits : UInt8
  exponentBias : UInt32
  hasNan : Bool
  hasInf : Bool
  deriving DecidableEq

namespace ExtensionTypeDescriptor

def validatePacking (bitWidth : UInt32) (packingFactor : UInt8) : Result Unit := do
  Exec.reject (bitWidth = 0) (.extensionTypePackingInvalid bitWidth packingFactor)
  if bitWidth ≥ 8 then
    Exec.reject (packingFactor ≠ 1) (.extensionTypePackingInvalid bitWidth packingFactor)
  else
    let expectedPacking : Option UInt8 :=
      if bitWidth = 1 then some 8
      else if bitWidth = 2 then some 4
      else if bitWidth = 4 then some 2
      else none
    Exec.reject (some packingFactor ≠ expectedPacking)
      (.extensionTypePackingInvalid bitWidth packingFactor)

def validateFields (isFloat isSigned : Bool) (signBits exponentBits mantissaBits : UInt8)
    (exponentBias : UInt32) : Result Unit := do
  Exec.reject (signBits > 1) (.extensionTypeFieldInvalid "sign_bits must be 0 or 1")
  if isFloat then
    Exec.reject (isSigned = true) (.extensionTypeFieldInvalid
      ("is_signed must be false for float types; a float's sign is carried " ++ "by sign_bits"))
  else
    Exec.reject (signBits ≠ 0 ∨ exponentBits ≠ 0 ∨ mantissaBits ≠ 0 ∨ exponentBias ≠ 0)
      (.extensionTypeFieldInvalid
        ("sign_bits, exponent_bits, mantissa_bits and exponent_bias must be 0 " ++
          "for integer types"))

def new (bitWidth : UInt32) (packingFactor : UInt8) (isFloat isSigned : Bool)
    (signBits exponentBits mantissaBits : UInt8) (exponentBias : UInt32) (hasNan hasInf : Bool) :
    Result ExtensionTypeDescriptor := do
  validatePacking bitWidth packingFactor
  validateFields isFloat isSigned signBits exponentBits mantissaBits exponentBias
  pure ⟨bitWidth, packingFactor, isFloat, isSigned, signBits, exponentBits, mantissaBits,
    exponentBias, hasNan, hasInf⟩

/-- The packing rule, which both the constructor and the decoder enforce. -/
def WellPacked (e : ExtensionTypeDescriptor) : Prop :=
  validatePacking e.bitWidth e.packingFactor = .ok ()

instance : DecidablePred WellPacked := fun e =>
  inferInstanceAs (Decidable (validatePacking e.bitWidth e.packingFactor = .ok ()))

def cells (e : ExtensionTypeDescriptor) : List Cell :=
  fixed (u32Bytes e.bitWidth) ++ fixed [e.packingFactor] ++ [.truth e.isFloat] ++
    [.truth e.isSigned] ++ fixed [e.signBits] ++ fixed [e.exponentBits] ++
    fixed [e.mantissaBits] ++ fixed [0, 0] ++ fixed (u32Bytes e.exponentBias) ++
    [.truth e.hasNan] ++ [.truth e.hasInf] ++ fixed [0, 0]

def encode (e : ExtensionTypeDescriptor) : Bytes :=
  u32Bytes e.bitWidth ++ [e.packingFactor, if e.isFloat then 1 else 0,
    if e.isSigned then 1 else 0, e.signBits, e.exponentBits, e.mantissaBits, 0, 0] ++
    u32Bytes e.exponentBias ++ [if e.hasNan then 1 else 0, if e.hasInf then 1 else 0, 0, 0]

def decode : Decoder ExtensionTypeDescriptor := do
  let bitWidth ← readU32
  let packingFactor ← readU8
  let isFloat ← readBool
  let isSigned ← readBool
  let signBits ← readU8
  let exponentBits ← readU8
  let mantissaBits ← readU8
  let reserved1 ← readBytes 2
  let exponentBias ← readU32
  let hasNan ← readBool
  let hasInf ← readBool
  let reserved2 ← readBytes 2
  Reader.lift (validatePacking bitWidth packingFactor)
  Reader.reject (reserved1 ≠ [0, 0]) (.reservedBytesNonZero "ext_type._reserved")
  Reader.reject (reserved2 ≠ [0, 0]) (.reservedBytesNonZero "ext_type._reserved2")
  pure ⟨bitWidth, packingFactor, isFloat, isSigned, signBits, exponentBits, mantissaBits,
    exponentBias, hasNan, hasInf⟩

theorem wireBytes_cells (e : ExtensionTypeDescriptor) : wireBytes e.cells = e.encode := by
  simp [cells, encode, wireBytes, fixed, Cell.toByte, Function.comp_def]

theorem length_cells (e : ExtensionTypeDescriptor) : e.cells.length = 20 := by simp [cells]

theorem decode_recognises : Recognises decode WellPacked cells := by
  intro s e t
  simp only [decode, Reader.bind_eq_ok, readU32_eq_ok, readU8_eq_ok, readBool_eq_ok,
    readBytes_eq_ok, Reader.lift_eq_ok, Reader.reject_eq_ok, Reader.pure_eq_ok, not_not,
    cells, List.append_assoc, reads_append]
  constructor
  · intro h
    obtain ⟨bitWidth, m₁, r₁, packing, m₂, r₂, isFloat, m₃, r₃, isSigned, m₄, r₄, h⟩ := h
    obtain ⟨sign, m₅, r₅, exp, m₆, r₆, mant, m₇, r₇, reserved1, m₈, ⟨-, r₈⟩, h⟩ := h
    obtain ⟨bias, m₉, r₉, hasNan, m₁₀, r₁₀, hasInf, m₁₁, r₁₁, reserved2, m₁₂, ⟨-, r₁₂⟩, h⟩ := h
    obtain ⟨_, _, ⟨hpacking, rfl⟩, _, _, ⟨rfl, rfl⟩, _, _, ⟨rfl, rfl⟩, rfl, rfl⟩ := h
    exact ⟨hpacking, m₁, r₁, m₂, r₂, m₃, r₃, m₄, r₄, m₅, r₅, m₆, r₆, m₇, r₇, m₈, r₈, m₉, r₉,
      m₁₀, r₁₀, m₁₁, r₁₁, r₁₂⟩
  · rintro ⟨hpacking, m₁, r₁, m₂, r₂, m₃, r₃, m₄, r₄, m₅, r₅, m₆, r₆, m₇, r₇, m₈, r₈, m₉, r₉,
      m₁₀, r₁₀, m₁₁, r₁₁, r₁₂⟩
    exact ⟨_, m₁, r₁, _, m₂, r₂, _, m₃, r₃, _, m₄, r₄, _, m₅, r₅, _, m₆, r₆, _, m₇, r₇,
      _, m₈, ⟨rfl, r₈⟩, _, m₉, r₉, _, m₁₀, r₁₀, _, m₁₁, r₁₁, _, t, ⟨rfl, r₁₂⟩,
      (), t, ⟨hpacking, rfl⟩, (), t, ⟨rfl, rfl⟩, (), t, ⟨rfl, rfl⟩, rfl, rfl⟩

end ExtensionTypeDescriptor

structure ShardDescriptor where
  parentShape : List UInt64
  shardOffset : List UInt64
  deriving DecidableEq

/-- Unsigned addition that stops at the largest value, the source's `saturating_add`. -/
def saturatingAdd (a b : UInt64) : UInt64 :=
  if a.toNat + b.toNat < UInt64.size then a + b else 0xFFFFFFFFFFFFFFFF

namespace ShardDescriptor

def new (parentShape shardOffset : List UInt64) : Result ShardDescriptor := do
  Exec.reject (parentShape.length ≠ shardOffset.length) (.invalidShape
    (s!"shard: parent_shape.len() ({parentShape.length}) != shard_offset.len() " ++
      s!"({shardOffset.length})"))
  pure ⟨parentShape, shardOffset⟩

/-- The check of one dimension. Each slice read panics past its end. -/
def validateDim (s : ShardDescriptor) (shape : Shape) (k : ℕ) : Result Unit := do
  let dim ← Exec.index shape.dims k
  let offset ← Exec.index s.shardOffset k
  let parent ← Exec.index s.parentShape k
  Exec.reject (saturatingAdd offset dim > parent) (.shardOutOfBounds k offset dim parent)

def validateAgainstShape (s : ShardDescriptor) (shape : Shape) : Result Unit :=
  (List.range s.parentShape.length).forM (s.validateDim shape)

/-- The vectors have the tensor's rank and the shard lies in its parent. -/
structure FitsShape (s : ShardDescriptor) (shape : Shape) : Prop where
  parent_length : s.parentShape.length = shape.rank
  offset_length : s.shardOffset.length = shape.rank
  inBounds : s.validateAgainstShape shape = .ok ()

instance (s : ShardDescriptor) (shape : Shape) : Decidable (s.FitsShape shape) :=
  decidable_of_iff (s.parentShape.length = shape.rank ∧ s.shardOffset.length = shape.rank ∧
    s.validateAgainstShape shape = .ok ())
    ⟨fun h => ⟨h.1, h.2.1, h.2.2⟩, fun h => ⟨h.1, h.2, h.3⟩⟩

def cells (s : ShardDescriptor) : List Cell :=
  s.parentShape.flatMap (fun v => fixed (u64Bytes v)) ++
    s.shardOffset.flatMap fun v => fixed (u64Bytes v)

def encode (s : ShardDescriptor) : Bytes :=
  s.parentShape.flatMap u64Bytes ++ s.shardOffset.flatMap u64Bytes

def decode (rank : UInt32) : Decoder ShardDescriptor := do
  let parentShape ← Reader.many readU64 rank.toNat
  let shardOffset ← Reader.many readU64 rank.toNat
  pure ⟨parentShape, shardOffset⟩

theorem wireBytes_cells (s : ShardDescriptor) : wireBytes s.cells = s.encode := by
  simp only [cells, encode, wireBytes_append, ← fixed_flatMap, wireBytes_fixed]

theorem decode_recognises (rank : UInt32) : Recognises (decode rank)
    (fun s => s.parentShape.length = rank.toNat ∧ s.shardOffset.length = rank.toNat) cells := by
  intro s d t
  have hmany := Recognises.many readU64_recognises rank.toNat
  simp only [decode, Reader.bind_eq_ok, hmany _, Reader.pure_eq_ok, cells, reads_append,
    implies_true, and_true]
  constructor
  · rintro ⟨parent, m, ⟨hp, rp⟩, offset, m', ⟨ho, ro⟩, rfl, rfl⟩
    exact ⟨⟨hp, ho⟩, m, rp, ro⟩
  · rintro ⟨⟨hp, ho⟩, m, rp, ro⟩
    exact ⟨_, m, ⟨hp, rp⟩, _, t, ⟨ho, ro⟩, rfl, rfl⟩

end ShardDescriptor

/-- An IEEE 754 binary64 value by its bits. -/
structure F64 where
  bits : UInt64
  deriving DecidableEq

def readF64 : Decoder F64 := do
  let bits ← readU64
  pure ⟨bits⟩

def f64Bytes (x : F64) : Bytes := u64Bytes x.bits

@[simp] theorem length_f64Bytes (x : F64) : (f64Bytes x).length = 8 := length_u64Bytes _

theorem readF64_eq_ok {c d : ByteCursor} {x : F64} :
    readF64 c = .ok (x, d) ↔ Reads c (fixed (f64Bytes x)) d := by
  simp only [readF64, Reader.bind_eq_ok, readU64_eq_ok, Reader.pure_eq_ok, f64Bytes]
  constructor
  · rintro ⟨bits, m, hr, rfl, rfl⟩
    exact hr
  · intro hr
    exact ⟨_, d, hr, rfl, rfl⟩

structure Statistics where
  computedMask : UInt32
  nnz : UInt64
  sparsityRatio : F64
  valueMin : F64
  valueMax : F64
  valueAbsMax : F64
  valueMean : F64
  valueStddev : F64
  nmN : UInt8
  nmM : UInt8
  hasNan : Bool
  hasInf : Bool
  deriving DecidableEq

namespace Statistics

/-- The bits of `computed_mask` above the six assigned ones. -/
def RESERVED_MASK : UInt32 := ~~~0x3F

def MaskValid (s : Statistics) : Prop := s.computedMask &&& RESERVED_MASK = 0

instance : DecidablePred MaskValid := fun s =>
  inferInstanceAs (Decidable (s.computedMask &&& RESERVED_MASK = 0))

def cells (s : Statistics) : List Cell :=
  fixed (u32Bytes s.computedMask) ++ fixed (u32Bytes 0) ++ fixed (u64Bytes s.nnz) ++
    fixed (f64Bytes s.sparsityRatio) ++ fixed (f64Bytes s.valueMin) ++
    fixed (f64Bytes s.valueMax) ++ fixed (f64Bytes s.valueAbsMax) ++
    fixed (f64Bytes s.valueMean) ++ fixed (f64Bytes s.valueStddev) ++ fixed [s.nmN] ++
    fixed [s.nmM] ++ [.truth s.hasNan] ++ [.truth s.hasInf] ++ fixed [0, 0, 0, 0]

def encode (s : Statistics) : Bytes :=
  u32Bytes s.computedMask ++ u32Bytes 0 ++ u64Bytes s.nnz ++ f64Bytes s.sparsityRatio ++
    f64Bytes s.valueMin ++ f64Bytes s.valueMax ++ f64Bytes s.valueAbsMax ++
    f64Bytes s.valueMean ++ f64Bytes s.valueStddev ++
    [s.nmN, s.nmM, if s.hasNan then 1 else 0, if s.hasInf then 1 else 0, 0, 0, 0, 0]

def decode : Decoder Statistics := do
  let computedMask ← readU32
  let reserved1 ← readU32
  let nnz ← readU64
  let sparsityRatio ← readF64
  let valueMin ← readF64
  let valueMax ← readF64
  let valueAbsMax ← readF64
  let valueMean ← readF64
  let valueStddev ← readF64
  let nmN ← readU8
  let nmM ← readU8
  let hasNan ← readBool
  let hasInf ← readBool
  let reserved2 ← readBytes 4
  Reader.reject (computedMask &&& RESERVED_MASK ≠ 0) (.statisticsReservedMaskBitsSet computedMask)
  Reader.reject (reserved1 ≠ 0) (.reservedBytesNonZero "statistics._reserved")
  Reader.reject (reserved2 ≠ [0, 0, 0, 0]) (.reservedBytesNonZero "statistics._reserved2")
  pure ⟨computedMask, nnz, sparsityRatio, valueMin, valueMax, valueAbsMax, valueMean, valueStddev,
    nmN, nmM, hasNan, hasInf⟩

theorem wireBytes_cells (s : Statistics) : wireBytes s.cells = s.encode := by
  simp [cells, encode, wireBytes, fixed, Cell.toByte, Function.comp_def]

theorem length_cells (s : Statistics) : s.cells.length = 72 := by simp [cells]

theorem decode_recognises : Recognises decode MaskValid cells := by
  intro s x t
  simp only [decode, Reader.bind_eq_ok, readU32_eq_ok, readU64_eq_ok, readF64_eq_ok, readU8_eq_ok,
    readBool_eq_ok, readBytes_eq_ok, Reader.reject_eq_ok, Reader.pure_eq_ok, not_not,
    cells, List.append_assoc, reads_append]
  constructor
  · intro h
    obtain ⟨mask, m₁, r₁, reserved1, m₂, r₂, nnz, m₃, r₃, ratio, m₄, r₄, h⟩ := h
    obtain ⟨min, m₅, r₅, max, m₆, r₆, absMax, m₇, r₇, mean, m₈, r₈, dev, m₉, r₉, h⟩ := h
    obtain ⟨n, m₁₀, r₁₀, m, m₁₁, r₁₁, hasNan, m₁₂, r₁₂, hasInf, m₁₃, r₁₃, h⟩ := h
    obtain ⟨reserved2, m₁₄, ⟨-, r₁₄⟩, _, _, ⟨hmask, rfl⟩, h⟩ := h
    obtain ⟨_, _, ⟨rfl, rfl⟩, _, _, ⟨rfl, rfl⟩, rfl, rfl⟩ := h
    exact ⟨hmask, m₁, r₁, m₂, r₂, m₃, r₃, m₄, r₄, m₅, r₅, m₆, r₆, m₇, r₇, m₈, r₈, m₉, r₉,
      m₁₀, r₁₀, m₁₁, r₁₁, m₁₂, r₁₂, m₁₃, r₁₃, r₁₄⟩
  · rintro ⟨hmask, m₁, r₁, m₂, r₂, m₃, r₃, m₄, r₄, m₅, r₅, m₆, r₆, m₇, r₇, m₈, r₈, m₉, r₉,
      m₁₀, r₁₀, m₁₁, r₁₁, m₁₂, r₁₂, m₁₃, r₁₃, r₁₄⟩
    exact ⟨_, m₁, r₁, _, m₂, r₂, _, m₃, r₃, _, m₄, r₄, _, m₅, r₅, _, m₆, r₆, _, m₇, r₇, _, m₈, r₈,
      _, m₉, r₉, _, m₁₀, r₁₀, _, m₁₁, r₁₁, _, m₁₂, r₁₂, _, m₁₃, r₁₃, _, t, ⟨rfl, r₁₄⟩,
      (), t, ⟨hmask, rfl⟩, (), t, ⟨rfl, rfl⟩, (), t, ⟨rfl, rfl⟩, rfl, rfl⟩

end Statistics

inductive MemberRole where
  | correction | base
  deriving DecidableEq

namespace MemberRole

def wireByte : MemberRole → UInt8
  | correction => 0x00
  | base => 0x01

def fromWire (byte : UInt8) : Result MemberRole :=
  if byte = 0x00 then .ok correction
  else if byte = 0x01 then .ok base
  else Exec.fail (.invalidMemberRole byte)

theorem fromWire_eq_ok {b : UInt8} {r : MemberRole} : fromWire b = .ok r ↔ b = r.wireByte := by
  constructor
  · intro h
    unfold fromWire at h
    split_ifs at h with h0 h1 <;> cases h
    · exact h0
    · exact h1
  · rintro rfl
    cases r <;> rfl

end MemberRole

structure CompositeMemberDescriptor where
  memberRole : MemberRole
  deriving DecidableEq

namespace CompositeMemberDescriptor

def cells (m : CompositeMemberDescriptor) : List Cell :=
  fixed [m.memberRole.wireByte] ++ fixed (List.replicate 15 0)

def encode (m : CompositeMemberDescriptor) : Bytes :=
  [m.memberRole.wireByte] ++ List.replicate 15 0

def decode : Decoder CompositeMemberDescriptor := do
  let roleByte ← readU8
  let memberRole ← Reader.lift (MemberRole.fromWire roleByte)
  let reserved ← readBytes 15
  Reader.reject (∃ b ∈ reserved, b ≠ 0) (.reservedBytesNonZero "composite_member._reserved")
  pure ⟨memberRole⟩

theorem wireBytes_cells (m : CompositeMemberDescriptor) : wireBytes m.cells = m.encode := by
  simp only [cells, encode, wireBytes_append, wireBytes_fixed]

theorem length_cells (m : CompositeMemberDescriptor) : m.cells.length = 16 := by simp [cells]

theorem decode_recognises : Recognises decode (fun _ => True) cells := by
  intro s x t
  simp only [decode, Reader.bind_eq_ok, readU8_eq_ok, readBytes_eq_ok, Reader.lift_eq_ok,
    MemberRole.fromWire_eq_ok, Reader.reject_eq_ok, Reader.pure_eq_ok, cells, reads_append,
    true_and]
  constructor
  · rintro ⟨b, _, r₁, role, m₁, ⟨rfl, rfl⟩, w, m₂, ⟨hlen, r₂⟩, _, _, ⟨hzero, rfl⟩, rfl, rfl⟩
    rw [reserved_iff.mp ⟨hlen, hzero⟩] at r₂
    exact ⟨m₁, r₁, r₂⟩
  · rintro ⟨m₁, r₁, r₂⟩
    have hzero := reserved_iff.mpr (rfl : List.replicate 15 (0 : UInt8) = List.replicate 15 0)
    exact ⟨_, m₁, r₁, _, m₁, ⟨rfl, rfl⟩, _, t, ⟨hzero.1, r₂⟩, (), t, ⟨hzero.2, rfl⟩, rfl, rfl⟩

end CompositeMemberDescriptor
end Hurray.Descriptor
