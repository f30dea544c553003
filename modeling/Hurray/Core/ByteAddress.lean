import Hurray.Core.Addressing
import Hurray.Core.ElementType

/-!
Buffer sizes and byte addresses. Elements of a byte or more are laid out one by
one; narrower ones share bytes, 6-bit ones in groups of 4 to 3 bytes.
-/
namespace Hurray.Core
open Hurray.Base

/-- Bytes of a buffer of so many elements. The whole-byte product is a plain one; the product of
the narrow types is one of 128 bits. -/
def bufferSizeBytes (ty : ElementType) (elementCount : UInt64) : Result UInt64 :=
  let bits := ty.bitWidth.toUInt64
  if bits = 0 then pure 0
  else if bits ≥ 8 then Exec.mulU64 elementCount (bits / 8)
  else if bits = 6 then do
    let groups ← Exec.divCeil elementCount 4
    Exec.mulU64 groups 3
  else pure (UInt64.ofNat ((elementCount.toNat * bits.toNat + 7) / 8))

/-- The way in bytes from the first element to another. -/
def byteDelta (bits signed : Int64) : Result Int64 :=
  if bits ≥ 8 then do
    let width ← Exec.divSigned bits 8
    Exec.orFail (checkedMulSigned signed width) .addressOverflow
  else if bits = 6 then do
    let group ← Exec.divEuclid signed 4
    Exec.orFail (checkedMulSigned group 3) .addressOverflow
  else do
    let packing ← Exec.divSigned 8 bits
    Exec.divEuclid signed packing

def byteAddressFromElementOffset (elementOffset byteOffset : UInt64) (elementType : ElementType)
    (bufferSize : UInt64) : Result UInt64 := do
  let delta ← byteDelta elementType.bitWidth.toUInt64.toInt64 elementOffset.toInt64
  let byteAddr ← Exec.orFail (checkedAddSigned byteOffset.toInt64 delta) .addressOverflow
  Exec.reject (byteAddr < 0 ∨ byteAddr.toUInt64 ≥ bufferSize) (.byteAddressOverflow bufferSize)
  pure byteAddr.toUInt64

/-! ### Addresses -/

/-- The way to an element as an integer. -/
def exactDelta (width : ℕ) (offset : ℤ) : ℤ :=
  if width = 6 then 3 * (offset / 4) else offset * width / 8

/-- The signed word of an integer in range. -/
def signedWord (x : ℤ) : Option Int64 := if InI64 x then some (Int64.ofInt x) else none

theorem signedWord_eq_some {x : ℤ} {w : Int64} :
    signedWord x = some w ↔ InI64 x ∧ w.toInt = x := by
  unfold signedWord
  split
  · next hin =>
    obtain ⟨v, rfl⟩ := hin.exists_word
    rw [Int64.ofInt_toInt, Option.some_inj, and_iff_right hin, Int64.toInt_inj, eq_comm]
  · next hout => simp [hout]

theorem checkedMulSigned_eq (a b : Int64) : checkedMulSigned a b = signedWord (a.toInt * b.toInt) := by
  rw [checkedMulSigned, signedWord, Int64.ofInt_mul, Int64.ofInt_toInt, Int64.ofInt_toInt]

section Delta
variable {ty : ElementType} {signed : Int64}

/-- Division by a small positive number stays in range. -/
theorem divEuclid_eq {b : Int64} {k : ℤ} (hb : b.toInt = k) (hk : k ∈ [2, 4, 8]) :
    InI64 (signed.toInt / k) ∧
      (Exec.divEuclid signed b : Result Int64) = .ok (Int64.ofInt (signed.toInt / k)) := by
  simp only [List.mem_cons, List.not_mem_nil, or_false] at hk
  have hdefined : ¬ (b = 0 ∨ signed = Int64.minValue ∧ b = -1) := by
    intro hbad
    rcases hbad with rfl | ⟨-, rfl⟩
    · rw [Int64.toInt_zero] at hb
      omega
    · have hneg : (-1 : Int64).toInt = -1 := by decide
      omega
  constructor
  · obtain ⟨hlo, hhi⟩ := inI64_toInt signed
    rcases hk with rfl | rfl | rfl <;> constructor <;> omega
  · rw [Exec.divEuclid, if_neg hdefined, hb]

theorem byteDelta_wide {w : UInt32} (width : Int64) (hbits : w.toUInt64.toInt64 ≥ 8)
    (hwidth : (Exec.divSigned w.toUInt64.toInt64 8 : Result Int64) = .ok width)
    (hw : (w.toNat : ℤ) = 8 * width.toInt) : byteDelta w.toUInt64.toInt64 signed =
      Exec.orFail (signedWord (exactDelta w.toNat signed.toInt)) .addressOverflow := by
  have hexact : exactDelta w.toNat signed.toInt = signed.toInt * width.toInt := by
    rw [exactDelta, if_neg (by omega), hw, mul_left_comm, Int.mul_ediv_cancel_left _ (by decide)]
  rw [byteDelta, if_pos hbits, hwidth, Exec.ok_bind, checkedMulSigned_eq, hexact]

theorem byteDelta_six : byteDelta 6 signed =
    Exec.orFail (signedWord (exactDelta 6 signed.toInt)) .addressOverflow := by
  have hthree : (3 : Int64).toInt = 3 := by decide
  obtain ⟨hin, hgroup⟩ := divEuclid_eq (b := 4) (k := 4) (by decide) (by decide)
  obtain ⟨group, hvalue⟩ := hin.exists_word
  rw [← hvalue, Int64.ofInt_toInt] at hgroup
  rw [byteDelta, if_neg (by decide), if_pos rfl, hgroup, Exec.ok_bind, checkedMulSigned_eq, hvalue,
    hthree, exactDelta, if_pos rfl, mul_comm]

theorem byteDelta_narrow {w : UInt32} (packing : Int64) {k : ℤ}
    (hbits : ¬ w.toUInt64.toInt64 ≥ 8)
    (hsix : w.toUInt64.toInt64 ≠ 6)
    (hdiv : (Exec.divSigned 8 w.toUInt64.toInt64 : Result Int64) = .ok packing)
    (hpacking : packing.toInt = k) (hk : k ∈ [2, 4, 8]) (hw : w.toNat * k = 8) :
    byteDelta w.toUInt64.toInt64 signed =
      Exec.orFail (signedWord (exactDelta w.toNat signed.toInt)) .addressOverflow := by
  obtain ⟨hin, hquotient⟩ := divEuclid_eq hpacking hk
  have hpos : (0 : ℤ) < w.toNat := by
    rcases Nat.eq_zero_or_pos w.toNat with hzero | hpos
    · rw [hzero] at hw
      omega
    · omega
  have hne : w.toNat ≠ 6 := by
    intro hw6
    rw [hw6] at hw
    omega
  have hexact : exactDelta w.toNat signed.toInt = signed.toInt / k := by
    rw [exactDelta, if_neg hne, ← hw, mul_comm signed.toInt, Int.mul_ediv_mul_of_pos _ _ hpos]
  rw [byteDelta, if_neg hbits, if_neg hsix, hdiv, Exec.ok_bind, hquotient, hexact, signedWord,
    if_pos hin, Exec.orFail_some]

/-- The way in bytes is exact, or out of range. -/
theorem byteDelta_eq (hty : ty.bitWidth ≠ 0) : byteDelta ty.bitWidth.toUInt64.toInt64 signed =
    Exec.orFail (signedWord (exactDelta ty.bitWidth.toNat signed.toInt)) .addressOverflow := by
  have hmem := ty.bitWidth_mem
  obtain ⟨w, hw⟩ : ∃ w, w = ty.bitWidth := ⟨_, rfl⟩
  rw [← hw] at hmem hty ⊢
  simp only [List.mem_cons, List.not_mem_nil, or_false] at hmem
  rcases hmem with h | h | h | h | h | h | h | h | h | h
  · exact absurd (UInt32.toNat_inj.mp h) hty
  · obtain rfl : w = 1 := UInt32.toNat_inj.mp h
    exact byteDelta_narrow 8 (k := 8) (by decide) (by decide) (by decide +kernel)
      (by decide) (by decide) (by decide)
  · obtain rfl : w = 2 := UInt32.toNat_inj.mp h
    exact byteDelta_narrow 4 (k := 4) (by decide) (by decide) (by decide +kernel)
      (by decide) (by decide) (by decide)
  · obtain rfl : w = 4 := UInt32.toNat_inj.mp h
    exact byteDelta_narrow 2 (k := 2) (by decide) (by decide) (by decide +kernel)
      (by decide) (by decide) (by decide)
  · obtain rfl : w = 6 := UInt32.toNat_inj.mp h
    exact byteDelta_six
  · obtain rfl : w = 8 := UInt32.toNat_inj.mp h
    exact byteDelta_wide 1 (by decide) (by decide +kernel) (by decide)
  · obtain rfl : w = 16 := UInt32.toNat_inj.mp h
    exact byteDelta_wide 2 (by decide) (by decide +kernel) (by decide)
  · obtain rfl : w = 32 := UInt32.toNat_inj.mp h
    exact byteDelta_wide 4 (by decide) (by decide +kernel) (by decide)
  · obtain rfl : w = 64 := UInt32.toNat_inj.mp h
    exact byteDelta_wide 8 (by decide) (by decide +kernel) (by decide)
  · obtain rfl : w = 128 := UInt32.toNat_inj.mp h
    exact byteDelta_wide 16 (by decide) (by decide +kernel) (by decide)

end Delta

section Address
variable {ty : ElementType} {elementOffset byteOffset bufferSize a : UInt64}

theorem toInt_eq (w : Int64) : w.toInt =
    if w.toUInt64.toNat < 2 ^ 63 then (w.toUInt64.toNat : ℤ) else w.toUInt64.toNat - 2 ^ 64 := by
  rw [← toInt_toInt64, Int64.toInt64_toUInt64]

theorem byteAddress_safe (hty : ty.bitWidth ≠ 0) :
    (byteAddressFromElementOffset elementOffset byteOffset ty bufferSize).Safe := by
  rw [byteAddressFromElementOffset, byteDelta_eq hty]
  apply Exec.safe_bind Exec.orFail_ne_panic
  intro delta _
  apply Exec.safe_bind Exec.orFail_ne_panic
  intro byteAddr _
  exact Exec.safe_bind Exec.reject_ne_panic fun _ _ => Exec.ok_ne_panic

/-- An address is returned just when the delta fits a signed word and so does the sum, which is in
the buffer. -/
theorem byteAddress_eq_ok (hty : ty.bitWidth ≠ 0) :
    byteAddressFromElementOffset elementOffset byteOffset ty bufferSize = .ok a ↔
      InI64 (exactDelta ty.bitWidth.toNat elementOffset.toInt64.toInt) ∧
        (a.toNat : ℤ) = byteOffset.toInt64.toInt +
          exactDelta ty.bitWidth.toNat elementOffset.toInt64.toInt ∧
        a.toNat < 2 ^ 63 ∧ a.toNat < bufferSize.toNat := by
  rw [byteAddressFromElementOffset, byteDelta_eq hty]
  simp only [Exec.bind_eq_ok, Exec.orFail_eq_ok, signedWord_eq_some, checkedAddSigned_iff,
    Exec.reject_eq_ok, exists_const, not_or, pure, Except.pure, Except.ok.injEq]
  generalize exactDelta ty.bitWidth.toNat elementOffset.toInt64.toInt = x
  constructor
  · intro h
    obtain ⟨delta, ⟨hin, hdelta⟩, byteAddr, ⟨-, haddr⟩, ⟨hneg, hsize⟩, rfl⟩ := h
    rw [Int64.lt_iff_toInt_lt, Int64.toInt_zero] at hneg
    rw [ge_iff_le, UInt64.not_le, UInt64.lt_iff_toNat_lt] at hsize
    have hword := toInt_eq byteAddr
    have hlt := byteAddr.toUInt64.toNat_lt
    split at hword
    · next hlow => exact ⟨hin, by omega, hlow, hsize⟩
    · omega
  · intro h
    obtain ⟨hin, ha, hlt, hsize⟩ := h
    obtain ⟨delta, hdelta⟩ := hin.exists_word
    have hword := toInt_toInt64_of_lt hlt
    refine ⟨delta, ⟨hin, hdelta⟩, a.toInt64, ⟨?_, by omega⟩, ⟨?_, ?_⟩, UInt64.toUInt64_toInt64 a⟩
    · rw [hdelta, ← ha]
      constructor <;> omega
    · rw [Int64.lt_iff_toInt_lt, hword, Int64.toInt_zero]
      omega
    · rw [UInt64.toUInt64_toInt64, ge_iff_le, UInt64.not_le, UInt64.lt_iff_toNat_lt]
      exact hsize

/-- An address that is returned is exact and in the buffer, just when the width is known and the
exact address is not one of the buffer if `2 ^ 64` is left off. -/
theorem byteAddress_exact_iff (ty : ElementType) (elementOffset byteOffset bufferSize : UInt64) :
    ((byteAddressFromElementOffset elementOffset byteOffset ty bufferSize).Safe ∧
      ∀ a, byteAddressFromElementOffset elementOffset byteOffset ty bufferSize = .ok a →
        (a.toNat : ℤ) = byteOffset.toNat +
            exactDelta ty.bitWidth.toNat elementOffset.toInt64.toInt ∧ a < bufferSize) ↔
      ty.bitWidth ≠ 0 ∧
        (InI64 (exactDelta ty.bitWidth.toNat elementOffset.toInt64.toInt) →
          ¬ (2 ^ 64 ≤ byteOffset.toNat + exactDelta ty.bitWidth.toNat elementOffset.toInt64.toInt ∧
            byteOffset.toNat + exactDelta ty.bitWidth.toNat elementOffset.toInt64.toInt <
              2 ^ 64 + bufferSize.toNat)) := by
  by_cases hty : ty.bitWidth = 0
  · have hpanic : byteAddressFromElementOffset elementOffset byteOffset ty bufferSize =
        Exec.panic := by
      rw [byteAddressFromElementOffset, hty]
      rfl
    rw [hpanic]
    simp [Exec.Safe, hty]
  simp only [byteAddress_eq_ok hty, byteAddress_safe hty, UInt64.lt_iff_toNat_lt, true_and, ne_eq,
    hty, not_false_eq_true]
  generalize exactDelta ty.bitWidth.toNat elementOffset.toInt64.toInt = x
  have hoffset := toInt_toInt64 byteOffset
  have hlt := byteOffset.toNat_lt
  have hsize := bufferSize.toNat_lt
  constructor
  · intro h hin hbad
    obtain ⟨hlow, hhigh⟩ := hbad
    have hx := hin.2
    have hbig : ¬ byteOffset.toNat < 2 ^ 63 := by omega
    rw [if_neg hbig] at hoffset
    -- The address that is returned is short by `2 ^ 64`.
    obtain ⟨n, hn⟩ : ∃ n : ℕ, (n : ℤ) = byteOffset.toNat + x - 2 ^ 64 :=
      ⟨(byteOffset.toNat + x - 2 ^ 64).toNat, Int.toNat_of_nonneg (by omega)⟩
    have hword : (UInt64.ofNat n).toNat = n := UInt64.toNat_ofNat_of_lt' (by
      rw [UInt64.size]
      omega)
    have hexact := (h (UInt64.ofNat n) ⟨hin, by omega, by omega, by omega⟩).1
    omega
  · intro h a ha
    obtain ⟨hin, ha, hlow, hsize⟩ := ha
    have hnot := h hin
    split at hoffset
    · exact ⟨by omega, hsize⟩
    · exact absurd ⟨by omega, by omega⟩ hnot

/-- An offset of 1 wraps the byte offset around to the start of the buffer, and a type without a
width is a division by zero. -/
theorem byteAddress_wraps :
    byteAddressFromElementOffset 1 (2 ^ 64 - 1) .uint8 1 = .ok 0 ∧
      ¬ (byteAddressFromElementOffset 0 0 (.extension 0xF0) 1).Safe := by
  decide +kernel

end Address

/-! ### Sizes -/

/-- The size of so many elements as an integer. -/
def exactSize (width n : ℕ) : ℕ := if width = 6 then (n + 3) / 4 * 3 else (n * width + 7) / 8

/-- The bytes that are read for one element. -/
def unitBytes (width : ℕ) : ℕ := if width = 6 then 3 else (width + 7) / 8

/-- How many elements share a unit. -/
def packingFactor (width : ℕ) : ℕ := if width = 6 then 4 else if width < 8 then 8 / width else 1

/-- The word of a number, which is a panic where there is none. -/
def wordOf (n : ℕ) : Result UInt64 := if n < UInt64.size then .ok (UInt64.ofNat n) else Exec.panic

theorem mulU64_eq (a b : UInt64) : (Exec.mulU64 a b : Result UInt64) = wordOf (a.toNat * b.toNat) := by
  rw [Exec.mulU64, wordOf, UInt64.ofNat_mul, UInt64.ofNat_toNat, UInt64.ofNat_toNat]

section Sizes
variable {ty : ElementType} {n : UInt64}

theorem bufferSizeBytes_wide {k : UInt64} (hzero : ty.bitWidth.toUInt64 ≠ 0)
    (hbits : ty.bitWidth.toUInt64 ≥ 8) (hk : ty.bitWidth.toUInt64 / 8 = k)
    (hw : ty.bitWidth.toNat = 8 * k.toNat) :
    bufferSizeBytes ty n = wordOf (exactSize ty.bitWidth.toNat n.toNat) := by
  have hexact : exactSize ty.bitWidth.toNat n.toNat = n.toNat * k.toNat := by
    rw [exactSize, if_neg (by omega), hw, mul_left_comm, Nat.mul_add_div (by decide)]
    rfl
  rw [bufferSizeBytes, if_neg hzero, if_pos hbits, hk, mulU64_eq, hexact]

theorem bufferSizeBytes_six (hw : ty.bitWidth = 6) :
    bufferSizeBytes ty n = wordOf (exactSize ty.bitWidth.toNat n.toNat) := by
  obtain ⟨groups, hgroups, hvalue⟩ := Exec.exists_divCeil (ε := Error) (a := n) (b := 4) (by decide)
  have hfour : (4 : UInt64).toNat = 4 := by decide
  have hthree : (3 : UInt64).toNat = 3 := by decide
  rw [hfour] at hvalue
  have hbits : ty.bitWidth.toUInt64 = 6 := by rw [hw]; decide
  rw [bufferSizeBytes, hbits, if_neg (by decide), if_neg (by decide), if_pos rfl, hgroups,
    Exec.ok_bind, mulU64_eq, hvalue, hthree, hw]
  rfl

theorem bufferSizeBytes_narrow (hzero : ty.bitWidth.toUInt64 ≠ 0)
    (hbits : ¬ ty.bitWidth.toUInt64 ≥ 8) (hsix : ty.bitWidth.toUInt64 ≠ 6)
    (hw : ty.bitWidth.toNat < 6) :
    bufferSizeBytes ty n = wordOf (exactSize ty.bitWidth.toNat n.toNat) := by
  have hlt := n.toNat_lt
  have hproduct : n.toNat * ty.bitWidth.toNat ≤ n.toNat * 5 := Nat.mul_le_mul_left _ (by omega)
  have hsize : (n.toNat * ty.bitWidth.toNat + 7) / 8 < UInt64.size := by
    rw [UInt64.size]
    omega
  rw [bufferSizeBytes, if_neg hzero, if_neg hbits, if_neg hsix, exactSize, if_neg (by omega), wordOf,
    if_pos hsize, UInt32.toNat_toUInt64]
  rfl

/-- The size is the exact one, or it overflows. -/
theorem bufferSizeBytes_eq (hty : ty.bitWidth ≠ 0) :
    bufferSizeBytes ty n = wordOf (exactSize ty.bitWidth.toNat n.toNat) := by
  have hmem := ty.bitWidth_mem
  simp only [List.mem_cons, List.not_mem_nil, or_false] at hmem
  have hword {w : UInt32} (h : ty.bitWidth.toNat = w.toNat) : ty.bitWidth = w :=
    UInt32.toNat_inj.mp h
  rcases hmem with h | h | h | h | h | h | h | h | h | h
  · exact absurd (UInt32.toNat_inj.mp h) hty
  · have hw := hword (w := 1) h
    exact bufferSizeBytes_narrow (by rw [hw]; decide) (by rw [hw]; decide) (by rw [hw]; decide)
      (by omega)
  · have hw := hword (w := 2) h
    exact bufferSizeBytes_narrow (by rw [hw]; decide) (by rw [hw]; decide) (by rw [hw]; decide)
      (by omega)
  · have hw := hword (w := 4) h
    exact bufferSizeBytes_narrow (by rw [hw]; decide) (by rw [hw]; decide) (by rw [hw]; decide)
      (by omega)
  · exact bufferSizeBytes_six (hword (w := 6) h)
  · have hw := hword (w := 8) h
    exact bufferSizeBytes_wide (k := 1) (by rw [hw]; decide) (by rw [hw]; decide)
      (by rw [hw]; decide) h
  · have hw := hword (w := 16) h
    exact bufferSizeBytes_wide (k := 2) (by rw [hw]; decide) (by rw [hw]; decide)
      (by rw [hw]; decide) h
  · have hw := hword (w := 32) h
    exact bufferSizeBytes_wide (k := 4) (by rw [hw]; decide) (by rw [hw]; decide)
      (by rw [hw]; decide) h
  · have hw := hword (w := 64) h
    exact bufferSizeBytes_wide (k := 8) (by rw [hw]; decide) (by rw [hw]; decide)
      (by rw [hw]; decide) h
  · have hw := hword (w := 128) h
    exact bufferSizeBytes_wide (k := 16) (by rw [hw]; decide) (by rw [hw]; decide)
      (by rw [hw]; decide) h

end Sizes

/-! ### Sizes and addresses -/

section Agree
variable {width i j n : ℕ}

/-- The byte of an element, from the first element on. -/
def unitStart (width i : ℕ) : ℕ := if width = 6 then 3 * (i / 4) else i * width / 8

theorem exactDelta_natCast (width i : ℕ) : exactDelta width i = unitStart width i := by
  unfold exactDelta unitStart
  split
  · norm_cast
  · norm_cast

/-- The widths of the types that have one. -/
abbrev widths : List ℕ := [1, 2, 4, 6, 8, 16, 32, 64, 128]

theorem unit_within (h : width ∈ widths) (hi : i < n) :
    unitStart width i + unitBytes width ≤ exactSize width n := by
  simp only [widths, List.mem_cons, List.not_mem_nil, or_false] at h
  rcases h with rfl | rfl | rfl | rfl | rfl | rfl | rfl | rfl | rfl <;>
    simp only [unitStart, unitBytes, exactSize, Nat.reduceEqDiff, if_false, if_true] <;> omega

/-- The size has room for every bit. -/
theorem covers_exactSize (h : width ∈ widths) (n : ℕ) : n * width ≤ exactSize width n * 8 := by
  simp only [widths, List.mem_cons, List.not_mem_nil, or_false] at h
  rcases h with rfl | rfl | rfl | rfl | rfl | rfl | rfl | rfl | rfl <;>
    simp only [exactSize, Nat.reduceEqDiff, if_false, if_true] <;> omega

/-- A negative offset leads back, and fits a signed word where there are so many elements. -/
theorem exactDelta_of_neg (h : width ∈ widths) {x : ℤ} (hx : x < 0) (hlo : -2 ^ 63 ≤ x)
    (hn : 2 ^ 63 ≤ n) (hsize : exactSize width n < 2 ^ 63) :
    InI64 (exactDelta width x) ∧ exactDelta width x < 0 := by
  simp only [widths, List.mem_cons, List.not_mem_nil, or_false] at h
  rcases h with rfl | rfl | rfl | rfl | rfl | rfl | rfl | rfl | rfl <;>
    simp only [exactDelta, exactSize, InI64, Nat.reduceEqDiff, if_false, if_true] at hsize ⊢ <;> omega

/-- Units that overlap are one unit. -/
theorem packed_of_overlap (h : width ∈ widths)
    (hij : unitStart width i < unitStart width j + unitBytes width)
    (hji : unitStart width j < unitStart width i + unitBytes width) :
    i / packingFactor width = j / packingFactor width := by
  simp only [widths, List.mem_cons, List.not_mem_nil, or_false] at h
  rcases h with rfl | rfl | rfl | rfl | rfl | rfl | rfl | rfl | rfl <;>
    simp only [unitStart, unitBytes, packingFactor, Nat.reduceEqDiff, Nat.reduceLT, Nat.reduceDiv,
      if_false, if_true] at hij hji ⊢ <;> omega

end Agree

theorem bitWidth_eq_zero {ty : ElementType} : ty.bitWidth = 0 ↔ ∃ t, ty = .extension t := by
  cases ty <;> simp [ElementType.bitWidth]

section Agreement
variable {ty : ElementType} {i n size a : UInt64}

theorem bitWidth_mem_widths (hty : ty.bitWidth ≠ 0) : ty.bitWidth.toNat ∈ widths := by
  rcases List.mem_cons.mp ty.bitWidth_mem with h | h
  · exact absurd (UInt32.toNat_inj.mp h) hty
  · exact h

theorem byteAddress_of_low (hty : ty.bitWidth ≠ 0) (hlow : i.toNat < 2 ^ 63)
    (h : byteAddressFromElementOffset i 0 ty size = .ok a) :
    a.toNat = unitStart ty.bitWidth.toNat i.toNat := by
  obtain ⟨-, ha, -⟩ := (byteAddress_eq_ok hty).mp h
  rw [toInt_toInt64_of_lt hlow, exactDelta_natCast] at ha
  have hzero : (0 : UInt64).toInt64.toInt = 0 := by decide
  omega

/-- An offset from `2 ^ 63` on is a negative one, and leads before the buffer. -/
theorem byteAddress_of_high (hty : ty.bitWidth ≠ 0)
    (hin : InI64 (exactDelta ty.bitWidth.toNat i.toInt64.toInt))
    (hneg : exactDelta ty.bitWidth.toNat i.toInt64.toInt < 0) :
    byteAddressFromElementOffset i 0 ty size = Exec.fail (.byteAddressOverflow size) := by
  obtain ⟨delta, hdelta⟩ := hin.exists_word
  have hword : signedWord (exactDelta ty.bitWidth.toNat i.toInt64.toInt) = some delta :=
    signedWord_eq_some.mpr ⟨hin, hdelta⟩
  have hzero : (0 : UInt64).toInt64.toInt = 0 := by decide
  have hadd : checkedAddSigned (0 : UInt64).toInt64 delta = some delta := by
    rw [checkedAddSigned_iff, hzero, zero_add]
    exact ⟨inI64_toInt delta, rfl⟩
  have hbefore : delta < 0 := by
    rw [Int64.lt_iff_toInt_lt, Int64.toInt_zero, hdelta]
    exact hneg
  rw [byteAddressFromElementOffset, byteDelta_eq hty, hword, Exec.orFail_some, Exec.ok_bind, hadd,
    Exec.orFail_some, Exec.ok_bind, Exec.reject, if_pos (.inl hbefore), Exec.fail_bind]

/-- The size has room for the unit of each element that has an offset, and elements share a unit only
if they are packed together. An element from `2 ^ 63` on has no offset: its place is read as a
negative one. -/
theorem sizing_agrees (hty : ∀ t, ty ≠ .extension t)
    (hsize : exactSize ty.bitWidth.toNat n.toNat < 2 ^ 63) :
    ∃ size, bufferSizeBytes ty n = .ok size ∧
      (∀ i < n, if i.toNat < 2 ^ 63 then
          ∃ a, byteAddressFromElementOffset i 0 ty size = .ok a ∧
            a.toNat + unitBytes ty.bitWidth.toNat ≤ size.toNat
        else byteAddressFromElementOffset i 0 ty size = Exec.fail (.byteAddressOverflow size)) ∧
      ∀ i < n, ∀ j < n, ∀ a b, byteAddressFromElementOffset i 0 ty size = .ok a →
        byteAddressFromElementOffset j 0 ty size = .ok b →
        a.toNat < b.toNat + unitBytes ty.bitWidth.toNat →
        b.toNat < a.toNat + unitBytes ty.bitWidth.toNat →
        i.toNat / packingFactor ty.bitWidth.toNat = j.toNat / packingFactor ty.bitWidth.toNat := by
  have hwidth : ty.bitWidth ≠ 0 := by
    intro hzero
    obtain ⟨t, ht⟩ := bitWidth_eq_zero.mp hzero
    exact hty t ht
  have hmem := bitWidth_mem_widths hwidth
  have hfits : exactSize ty.bitWidth.toNat n.toNat < UInt64.size := hsize.trans (by decide)
  have hplace : ∀ i < n, if i.toNat < 2 ^ 63 then
      ∃ a, byteAddressFromElementOffset i 0 ty
          (UInt64.ofNat (exactSize ty.bitWidth.toNat n.toNat)) = .ok a ∧
        a.toNat + unitBytes ty.bitWidth.toNat ≤ exactSize ty.bitWidth.toNat n.toNat
      else byteAddressFromElementOffset i 0 ty
          (UInt64.ofNat (exactSize ty.bitWidth.toNat n.toNat)) =
        Exec.fail (.byteAddressOverflow (UInt64.ofNat (exactSize ty.bitWidth.toNat n.toNat))) := by
    intro i hi
    rw [UInt64.lt_iff_toNat_lt] at hi
    split
    · next hlow =>
      have hwithin := unit_within hmem hi
      have hunit : 0 < unitBytes ty.bitWidth.toNat :=
        (by decide : ∀ width ∈ widths, 0 < unitBytes width) _ hmem
      refine ⟨UInt64.ofNat (unitStart ty.bitWidth.toNat i.toNat), ?_, ?_⟩
      · rw [byteAddress_eq_ok hwidth, toInt_toInt64_of_lt hlow, exactDelta_natCast,
          UInt64.toNat_ofNat_of_lt' (by omega), UInt64.toNat_ofNat_of_lt' hfits]
        have hzero : (0 : UInt64).toInt64.toInt = 0 := by decide
        rw [hzero, zero_add]
        refine ⟨?_, rfl, by omega, by omega⟩
        constructor <;> omega
      · rw [UInt64.toNat_ofNat_of_lt' (by omega)]
        exact hwithin
    · next hhigh =>
      have hsigned := toInt_toInt64 i
      have hlt := i.toNat_lt
      rw [if_neg hhigh] at hsigned
      obtain ⟨hin, hneg⟩ := exactDelta_of_neg hmem (x := i.toInt64.toInt) (by omega) (by omega)
        (n := n.toNat) (by omega) hsize
      exact byteAddress_of_high hwidth hin hneg
  refine ⟨UInt64.ofNat (exactSize ty.bitWidth.toNat n.toNat), ?_, ?_, ?_⟩
  · rw [bufferSizeBytes_eq hwidth, wordOf, if_pos hfits]
  · rw [UInt64.toNat_ofNat_of_lt' hfits]
    exact hplace
  · intro i hi j hj a b ha hb hab hba
    have hlow (i : UInt64) (hi : i < n) {a : UInt64} (ha : byteAddressFromElementOffset i 0 ty
        (UInt64.ofNat (exactSize ty.bitWidth.toNat n.toNat)) = .ok a) : i.toNat < 2 ^ 63 := by
      have hplaced := hplace i hi
      split at hplaced
      · assumption
      · rw [ha] at hplaced
        cases hplaced
    rw [byteAddress_of_low hwidth (hlow i hi ha) ha, byteAddress_of_low hwidth (hlow j hj hb) hb] at hab hba
    exact packed_of_overlap hmem hab hba

theorem sizing_agrees_bool :
    ∃ size, bufferSizeBytes .bool 9 = .ok size ∧
      (∀ i < (9 : UInt64), if i.toNat < 2 ^ 63 then
          ∃ a, byteAddressFromElementOffset i 0 .bool size = .ok a ∧ a.toNat + 1 ≤ size.toNat
        else byteAddressFromElementOffset i 0 .bool size = Exec.fail (.byteAddressOverflow size)) ∧
      ∀ i < (9 : UInt64), ∀ j < (9 : UInt64), ∀ a b,
        byteAddressFromElementOffset i 0 .bool size = .ok a →
        byteAddressFromElementOffset j 0 .bool size = .ok b →
        a.toNat < b.toNat + 1 → b.toNat < a.toNat + 1 → i.toNat / 8 = j.toNat / 8 :=
  sizing_agrees (n := 9) (fun _ => ElementType.noConfusion) (by decide)

/-- The element `2 ^ 63` of a bit buffer is in its bytes, and has no address. -/
theorem high_bit_unaddressed : exactSize 1 (2 ^ 63 + 1) < 2 ^ 63 ∧
    bufferSizeBytes .bool (2 ^ 63 + 1) = .ok (2 ^ 60 + 1) ∧
    ∀ a, byteAddressFromElementOffset (2 ^ 63) 0 .bool (2 ^ 60 + 1) ≠ .ok a := by
  refine ⟨by decide, by decide +kernel, ?_⟩
  intro a ha
  have hfail : byteAddressFromElementOffset (2 ^ 63) 0 .bool (2 ^ 60 + 1) =
    Exec.fail (.byteAddressOverflow (2 ^ 60 + 1)) := by decide +kernel
  rw [hfail] at ha
  cases ha

end Agreement
end Hurray.Core
