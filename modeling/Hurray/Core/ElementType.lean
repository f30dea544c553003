import Hurray.Core.Error

/-! Element types and their wire tags. -/
namespace Hurray.Core
open Hurray.Base

/-- The wire tag is the discriminant, except that an extension type carries its own tag. -/
inductive ElementType where
  | float16 | bFloat16 | float32 | float64
  | int8 | uint8 | int16 | uint16 | int32 | uint32 | int64 | uint64
  | bool
  | float8E4M3 | float8E5M2 | float8E8M0
  | float4E2M1 | float6E2M3 | float6E3M2
  | float128
  | int4 | uint4 | int2 | uint2
  | complex64 | complex128
  | extension (tag : UInt8)
  deriving DecidableEq, Repr

namespace ElementType

def tag : ElementType → UInt8
  | float16 => 0x01 | bFloat16 => 0x02 | float32 => 0x03 | float64 => 0x04
  | int8 => 0x10 | uint8 => 0x11 | int16 => 0x12 | uint16 => 0x13
  | int32 => 0x14 | uint32 => 0x15 | int64 => 0x16 | uint64 => 0x17
  | bool => 0x20
  | float8E4M3 => 0x40 | float8E5M2 => 0x41 | float8E8M0 => 0x42
  | float4E2M1 => 0x43 | float6E2M3 => 0x44 | float6E3M2 => 0x45
  | float128 => 0x46
  | int4 => 0x48 | uint4 => 0x49 | int2 => 0x4A | uint2 => 0x4B
  | complex64 => 0x50 | complex128 => 0x51
  | extension t => t

def fromTag (tag : UInt8) : Result ElementType :=
  match tag with
  | 0x00 | 0xFF => Exec.fail (.invalidTypeTag tag)
  | 0x01 => .ok float16
  | 0x02 => .ok bFloat16
  | 0x03 => .ok float32
  | 0x04 => .ok float64
  | 0x10 => .ok int8
  | 0x11 => .ok uint8
  | 0x12 => .ok int16
  | 0x13 => .ok uint16
  | 0x14 => .ok int32
  | 0x15 => .ok uint32
  | 0x16 => .ok int64
  | 0x17 => .ok uint64
  | 0x20 => .ok bool
  | 0x40 => .ok float8E4M3
  | 0x41 => .ok float8E5M2
  | 0x42 => .ok float8E8M0
  | 0x43 => .ok float4E2M1
  | 0x44 => .ok float6E2M3
  | 0x45 => .ok float6E3M2
  | 0x46 => .ok float128
  | 0x47 => Exec.fail (.reservedTypeTag tag)
  | 0x48 => .ok int4
  | 0x49 => .ok uint4
  | 0x4A => .ok int2
  | 0x4B => .ok uint2
  | 0x50 => .ok complex64
  | 0x51 => .ok complex128
  | _ =>
      if 0x80 ≤ tag ∧ tag ≤ 0xEF then Exec.fail (.reservedTypeTag tag)
      else if 0xF0 ≤ tag ∧ tag ≤ 0xFE then .ok (extension tag)
      else Exec.fail (.unknownTypeTag tag)

/-- Bits of one element. Extension types declare theirs in a section of the descriptor; 0 stands for
that. -/
def bitWidth : ElementType → UInt32
  | bool => 1
  | int2 | uint2 => 2
  | int4 | uint4 | float4E2M1 => 4
  | float6E2M3 | float6E3M2 => 6
  | int8 | uint8 | float8E4M3 | float8E5M2 | float8E8M0 => 8
  | float16 | bFloat16 | int16 | uint16 => 16
  | float32 | int32 | uint32 => 32
  | float64 | int64 | uint64 | complex64 => 64
  | float128 | complex128 => 128
  | extension _ => 0

/-- The private-extension range of type tags. -/
def IsExtensionTag (tag : UInt8) : Prop := 0xF0 ≤ tag ∧ tag ≤ 0xFE

instance : DecidablePred IsExtensionTag := fun tag =>
  inferInstanceAs (Decidable (0xF0 ≤ tag ∧ tag ≤ 0xFE))

/-- What the documentation of `extension` asks of its payload. -/
def WellTagged (ty : ElementType) : Prop := fromTag ty.tag = .ok ty

instance : DecidablePred WellTagged := fun ty =>
  inferInstanceAs (Decidable (fromTag ty.tag = .ok ty))

theorem fromTag_eq_ok {t : UInt8} {ty : ElementType} :
    fromTag t = .ok ty ↔ ty.WellTagged ∧ ty.tag = t := by
  constructor
  · intro h
    have htag : ty.tag = t := by
      unfold fromTag at h
      split at h <;> first | (cases h; rfl) | skip
      · simp at h
      · simp at h
      · simp at h
      · split_ifs at h <;> cases h
        rfl
    exact ⟨by rw [WellTagged, htag, h], htag⟩
  · intro h
    obtain ⟨h, rfl⟩ := h
    exact h

theorem wellTagged_extension {t : UInt8} : WellTagged (extension t) ↔ IsExtensionTag t := by
  constructor
  · intro h
    change fromTag t = .ok (extension t) at h
    unfold fromTag at h
    split at h <;> try cases h
    split_ifs at h with _ hrange <;> try cases h
    exact hrange
  · intro h
    change fromTag t = .ok (extension t)
    unfold fromTag
    split <;> try exact absurd h (by decide)
    have hlow : ¬ (0x80 ≤ t ∧ t ≤ 0xEF) := by
      intro h
      obtain ⟨-, hle⟩ := h
      exact absurd (UInt8.le_trans h.1 hle) (by decide)
    rw [if_neg hlow]
    exact if_pos h

/-- The widths of the element types. -/
theorem bitWidth_mem (ty : ElementType) :
    ty.bitWidth.toNat ∈ [0, 1, 2, 4, 6, 8, 16, 32, 64, 128] := by
  cases ty with
  | extension _ =>
    rw [bitWidth]
    decide
  | _ => decide

end ElementType
end Hurray.Core
