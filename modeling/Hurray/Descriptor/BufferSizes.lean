import Hurray.Core.ByteAddress
import Hurray.Descriptor.Sections

/-!
The size of a buffer against the bits of its elements, for the built-in types and for
those that a descriptor declares. A declared width of a byte or more need not be a
multiple of 8, though the size is computed as if it were.
-/
namespace Hurray.Descriptor
open Hurray.Base Hurray.Core

namespace ExtensionTypeDescriptor

def bufferSizeBytes (e : ExtensionTypeDescriptor) (elementCount : UInt64) : Result UInt64 :=
  if e.bitWidth ≥ 8 then Exec.mulU64 elementCount (e.bitWidth.toUInt64 / 8)
  else Exec.divCeil elementCount e.packingFactor.toUInt64

/-- The descriptor comes from the constructor or from the decoder. -/
def Accepted (e : ExtensionTypeDescriptor) : Prop :=
  new e.bitWidth e.packingFactor e.isFloat e.isSigned e.signBits e.exponentBits e.mantissaBits
      e.exponentBias e.hasNan e.hasInf = .ok e ∨
    ∃ s t, decode s = .ok (e, t)

variable {e : ExtensionTypeDescriptor} {n : UInt64}

theorem Accepted.wellPacked (h : e.Accepted) : e.WellPacked := by
  rcases h with h | ⟨s, t, h⟩
  · obtain ⟨_, hpacking, -⟩ := Exec.bind_eq_ok.mp h
    exact hpacking
  · exact ((decode_recognises s e t).mp h).1

/-- A type is wide, or its elements fill their byte. -/
theorem WellPacked.cases (h : e.WellPacked) : 8 ≤ e.bitWidth.toNat ∨ e.bitWidth.toNat < 8 ∧
    0 < e.packingFactor.toNat ∧ e.bitWidth.toNat * e.packingFactor.toNat = 8 := by
  rw [WellPacked, validatePacking, Exec.bind_eq_ok] at h
  obtain ⟨_, -, h⟩ := h
  by_cases hwide : e.bitWidth ≥ 8
  · exact .inl (UInt32.le_iff_toNat_le.mp hwide)
  rw [if_neg hwide, Exec.reject_eq_ok, not_not] at h
  have hlt : e.bitWidth.toNat < 8 := by
    rw [ge_iff_le, UInt32.not_le] at hwide
    exact UInt32.lt_iff_toNat_lt.mp hwide
  refine .inr ⟨hlt, ?_⟩
  split_ifs at h with h1 h2 h4
  · rw [h1, Option.some_inj.mp h]
    decide
  · rw [h2, Option.some_inj.mp h]
    decide
  · rw [h4, Option.some_inj.mp h]
    decide

/-- The size of a narrow type has room for every bit. -/
theorem bufferSizeBytes_narrow (hlt : e.bitWidth.toNat < 8) (hpos : 0 < e.packingFactor.toNat)
    (hfull : e.bitWidth.toNat * e.packingFactor.toNat = 8) :
    ∃ s, e.bufferSizeBytes n = .ok s ∧ n.toNat * e.bitWidth.toNat ≤ s.toNat * 8 := by
  have hnarrow : ¬ e.bitWidth ≥ 8 := by
    rw [ge_iff_le, UInt32.not_le]
    exact UInt32.lt_iff_toNat_lt.mpr hlt
  have hpacking : e.packingFactor.toUInt64.toNat = e.packingFactor.toNat := UInt8.toNat_toUInt64 _
  have hne : e.packingFactor.toUInt64 ≠ 0 := by
    intro hzero
    rw [hzero, UInt64.toNat_zero] at hpacking
    omega
  obtain ⟨s, hs, hvalue⟩ := Exec.exists_divCeil (ε := Error) (a := n) hne
  rw [hpacking] at hvalue
  refine ⟨s, by rw [bufferSizeBytes, if_neg hnarrow, hs], ?_⟩
  -- A byte has room for as many elements as the packing says, and the sizes round up.
  have hcover : n.toNat ≤ s.toNat * e.packingFactor.toNat := by
    have hlt := Nat.lt_div_mul_add hpos (a := n.toNat + e.packingFactor.toNat - 1)
    rw [← hvalue] at hlt
    omega
  calc n.toNat * e.bitWidth.toNat ≤ s.toNat * e.packingFactor.toNat * e.bitWidth.toNat :=
        Nat.mul_le_mul_right _ hcover
    _ = s.toNat * 8 := by rw [mul_assoc, mul_comm e.packingFactor.toNat, hfull]

/-- The size of a wide type, which leaves the bits of a broken byte out. -/
theorem bufferSizeBytes_wide (hle : 8 ≤ e.bitWidth.toNat) :
    e.bufferSizeBytes n = wordOf (n.toNat * (e.bitWidth.toNat / 8)) := by
  have hwide : e.bitWidth ≥ 8 := UInt32.le_iff_toNat_le.mpr (by exact hle)
  rw [bufferSizeBytes, if_pos hwide, mulU64_eq, UInt64.toNat_div, UInt32.toNat_toUInt64]
  rfl

/-- Whole bytes hold the elements just when the width is one of whole bytes. -/
theorem covers_wide (n width : ℕ) : n * width ≤ n * (width / 8) * 8 ↔ 8 ∣ width ∨ n = 0 := by
  rcases Nat.eq_zero_or_pos n with rfl | hpos
  · simp
  · rw [mul_assoc, Nat.mul_le_mul_left_iff hpos]
    omega

end ExtensionTypeDescriptor

theorem wordOf_eq_ok {k : ℕ} {s : UInt64} : wordOf k = .ok s ↔ k < UInt64.size ∧ s.toNat = k := by
  unfold wordOf
  split
  · next hlt =>
    have hword := UInt64.toNat_ofNat_of_lt' hlt
    rw [Except.ok.injEq, and_iff_right hlt, ← UInt64.toNat_inj, hword, eq_comm]
  · next hlt => simp [hlt]

/-- The size covers the elements just when it fits a word and, for a declared type of a byte or more,
when no element ends within a byte. -/
theorem bufferSize_covers_iff (n : UInt64) :
    (∀ ty : ElementType, ty.bitWidth ≠ 0 →
      ((∃ s, bufferSizeBytes ty n = .ok s ∧ n.toNat * ty.bitWidth.toNat ≤ s.toNat * 8) ↔
        exactSize ty.bitWidth.toNat n.toNat < UInt64.size)) ∧
    ∀ e : ExtensionTypeDescriptor, e.Accepted →
      ((∃ s, e.bufferSizeBytes n = .ok s ∧ n.toNat * e.bitWidth.toNat ≤ s.toNat * 8) ↔
        e.bitWidth.toNat < 8 ∨ n.toNat * (e.bitWidth.toNat / 8) < UInt64.size ∧
          (8 ∣ e.bitWidth.toNat ∨ n = 0)) := by
  constructor
  · intro ty hty
    simp only [bufferSizeBytes_eq hty, wordOf_eq_ok]
    constructor
    · intro h
      obtain ⟨s, ⟨hlt, -⟩, -⟩ := h
      exact hlt
    · intro hlt
      have hword := UInt64.toNat_ofNat_of_lt' hlt
      refine ⟨_, ⟨hlt, hword⟩, ?_⟩
      rw [hword]
      exact covers_exactSize (bitWidth_mem_widths hty) n.toNat
  · intro e he
    rcases he.wellPacked.cases with hwide | ⟨hnarrow, hpos, hfull⟩
    · simp only [ExtensionTypeDescriptor.bufferSizeBytes_wide hwide, wordOf_eq_ok,
        Nat.not_lt.mpr hwide, false_or]
      have hcovers := ExtensionTypeDescriptor.covers_wide n.toNat e.bitWidth.toNat
      have hzero : n.toNat = 0 ↔ n = 0 := by rw [← UInt64.toNat_inj, UInt64.toNat_zero]
      rw [hzero] at hcovers
      constructor
      · intro h
        obtain ⟨s, ⟨hlt, hs⟩, hle⟩ := h
        rw [hs] at hle
        exact ⟨hlt, hcovers.mp hle⟩
      · intro h
        have hword := UInt64.toNat_ofNat_of_lt' h.1
        refine ⟨_, ⟨h.1, hword⟩, ?_⟩
        rw [hword]
        exact hcovers.mpr h.2
    · exact iff_of_true (ExtensionTypeDescriptor.bufferSizeBytes_narrow hnarrow hpos hfull)
        (.inl hnarrow)

/-- A 12-bit type that is accepted is given one byte for an element, and `2 ^ 62` floats overflow. -/
theorem bufferSize_falls_short :
    (∃ e, ExtensionTypeDescriptor.new 12 1 false false 0 0 0 0 false false = .ok e ∧
      e.bufferSizeBytes 1 = .ok 1 ∧ 1 * 8 < 1 * e.bitWidth.toNat) ∧
    bufferSizeBytes .float32 (2 ^ 62) = Exec.panic :=
  ⟨⟨⟨12, 1, false, false, 0, 0, 0, 0, false, false⟩, by decide +kernel⟩, by decide +kernel⟩

theorem bufferSize_covers_iff_float32 :
    ((∃ s, bufferSizeBytes .float32 60 = .ok s ∧ 60 * 32 ≤ s.toNat * 8) ↔
      exactSize 32 60 < UInt64.size) ∧
    ∀ n : UInt64, (∃ s, (ExtensionTypeDescriptor.mk 4 2 false false 0 0 0 0 false
        false).bufferSizeBytes n = .ok s ∧ n.toNat * 4 ≤ s.toNat * 8) ↔
      4 < 8 ∨ n.toNat * (4 / 8) < UInt64.size ∧ (8 ∣ 4 ∨ n = 0) :=
  ⟨(bufferSize_covers_iff 60).1 .float32 (by decide), fun n => (bufferSize_covers_iff n).2
    ⟨4, 2, false, false, 0, 0, 0, 0, false, false⟩ (.inl (by decide +kernel))⟩

end Hurray.Descriptor
