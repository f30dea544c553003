import Mathlib.Data.List.Basic
import Mathlib.Data.Nat.Digits.Defs
import Mathlib.Tactic.Common
import Mathlib.Tactic.Ring

/-! Little-endian byte strings of a fixed width and the machine words they hold. -/
namespace Hurray.Base

abbrev Bytes := List UInt8

/-- The `k` low-order bytes of `n`, least significant first. -/
def leBytes : ℕ → ℕ → Bytes
  | 0, _ => []
  | k + 1, n => UInt8.ofNat n :: leBytes k (n / 256)

/-- The number a byte string holds, least significant byte first. -/
def leNat : Bytes → ℕ
  | [] => 0
  | b :: w => b.toNat + 256 * leNat w

@[simp] theorem length_leBytes (k n : ℕ) : (leBytes k n).length = k := by
  induction k generalizing n with
  | zero => rfl
  | succ k ih => simp [leBytes, ih]

theorem leNat_lt (w : Bytes) : leNat w < 256 ^ w.length := by
  induction w with
  | nil => simp [leNat]
  | cons b w ih =>
    have hb : b.toNat < 256 := b.toNat_lt
    simp only [leNat, List.length_cons, pow_succ]
    omega

theorem leNat_leBytes {k n : ℕ} (h : n < 256 ^ k) : leNat (leBytes k n) = n := by
  induction k generalizing n with
  | zero => simp at h; simp [leBytes, leNat, h]
  | succ k ih =>
    have hq : n / 256 < 256 ^ k := by
      rw [Nat.div_lt_iff_lt_mul (by decide)]
      simpa [pow_succ] using h
    simp only [leBytes, leNat, ih hq, UInt8.toNat_ofNat']
    omega

theorem leBytes_leNat (w : Bytes) : leBytes w.length (leNat w) = w := by
  induction w with
  | nil => rfl
  | cons b w ih =>
    have hb : b.toNat < 256 := b.toNat_lt
    have hmod : UInt8.ofNat (b.toNat + 256 * leNat w) = b := by
      apply UInt8.toNat_inj.mp
      rw [UInt8.toNat_ofNat']
      omega
    have hdiv : (b.toNat + 256 * leNat w) / 256 = leNat w := by omega
    simp only [List.length_cons, leNat, leBytes, hmod, hdiv, ih]

def u16Bytes (x : UInt16) : Bytes := leBytes 2 x.toNat
def u32Bytes (x : UInt32) : Bytes := leBytes 4 x.toNat
def u64Bytes (x : UInt64) : Bytes := leBytes 8 x.toNat
def i64Bytes (x : Int64) : Bytes := u64Bytes x.toUInt64

def u16OfBytes (w : Bytes) : UInt16 := UInt16.ofNat (leNat w)
def u32OfBytes (w : Bytes) : UInt32 := UInt32.ofNat (leNat w)
def u64OfBytes (w : Bytes) : UInt64 := UInt64.ofNat (leNat w)
def i64OfBytes (w : Bytes) : Int64 := (u64OfBytes w).toInt64

@[simp] theorem length_u16Bytes (x : UInt16) : (u16Bytes x).length = 2 := length_leBytes 2 _
@[simp] theorem length_u32Bytes (x : UInt32) : (u32Bytes x).length = 4 := length_leBytes 4 _
@[simp] theorem length_u64Bytes (x : UInt64) : (u64Bytes x).length = 8 := length_leBytes 8 _
@[simp] theorem length_i64Bytes (x : Int64) : (i64Bytes x).length = 8 := length_leBytes 8 _

theorem u16OfBytes_eq_iff {w : Bytes} (hw : w.length = 2) {x : UInt16} :
    u16OfBytes w = x ↔ w = u16Bytes x := by
  have hlt := leNat_lt w
  rw [hw] at hlt
  constructor
  · rintro rfl
    have h := leBytes_leNat w
    rw [u16Bytes, u16OfBytes, UInt16.toNat_ofNat_of_lt' hlt, ← hw, h]
  · rintro rfl
    rw [u16OfBytes, u16Bytes, leNat_leBytes x.toNat_lt, UInt16.ofNat_toNat]

theorem u32OfBytes_eq_iff {w : Bytes} (hw : w.length = 4) {x : UInt32} :
    u32OfBytes w = x ↔ w = u32Bytes x := by
  have hlt := leNat_lt w
  rw [hw] at hlt
  constructor
  · rintro rfl
    have h := leBytes_leNat w
    rw [u32Bytes, u32OfBytes, UInt32.toNat_ofNat_of_lt' hlt, ← hw, h]
  · rintro rfl
    rw [u32OfBytes, u32Bytes, leNat_leBytes x.toNat_lt, UInt32.ofNat_toNat]

theorem u64OfBytes_eq_iff {w : Bytes} (hw : w.length = 8) {x : UInt64} :
    u64OfBytes w = x ↔ w = u64Bytes x := by
  have hlt := leNat_lt w
  rw [hw] at hlt
  constructor
  · rintro rfl
    have h := leBytes_leNat w
    rw [u64Bytes, u64OfBytes, UInt64.toNat_ofNat_of_lt' hlt, ← hw, h]
  · rintro rfl
    rw [u64OfBytes, u64Bytes, leNat_leBytes x.toNat_lt, UInt64.ofNat_toNat]

theorem i64OfBytes_eq_iff {w : Bytes} (hw : w.length = 8) {x : Int64} :
    i64OfBytes w = x ↔ w = i64Bytes x := by
  rw [i64Bytes, ← u64OfBytes_eq_iff hw, i64OfBytes]
  exact ⟨fun h => by rw [← h, UInt64.toUInt64_toInt64], fun h => by rw [h, Int64.toInt64_toUInt64]⟩

@[simp] theorem u16OfBytes_u16Bytes (x : UInt16) : u16OfBytes (u16Bytes x) = x :=
  (u16OfBytes_eq_iff (length_u16Bytes x)).mpr rfl

@[simp] theorem u32OfBytes_u32Bytes (x : UInt32) : u32OfBytes (u32Bytes x) = x :=
  (u32OfBytes_eq_iff (length_u32Bytes x)).mpr rfl

@[simp] theorem u64OfBytes_u64Bytes (x : UInt64) : u64OfBytes (u64Bytes x) = x :=
  (u64OfBytes_eq_iff (length_u64Bytes x)).mpr rfl

end Hurray.Base
