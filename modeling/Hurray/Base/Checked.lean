import Hurray.Base.Yields
import Mathlib.Tactic.Ring

/-!
Machine arithmetic with its two ways to fail: the checked operations return
nothing on overflow, the plain ones panic on it.
-/
namespace Hurray.Base

def checkedAdd (a b : UInt64) : Option UInt64 :=
  if a.toNat + b.toNat < UInt64.size then some (a + b) else none

def checkedMul (a b : UInt64) : Option UInt64 :=
  if a.toNat * b.toNat < UInt64.size then some (a * b) else none

def checkedSub (a b : UInt64) : Option UInt64 := if b ≤ a then some (a - b) else none

/-- The product, or the largest word where it does not fit. -/
def saturatingMul (a b : UInt64) : UInt64 :=
  UInt64.ofNat (min (a.toNat * b.toNat) (UInt64.size - 1))

/-- The value is one of a signed word of 64 bits. -/
def InI64 (x : ℤ) : Prop := -2 ^ 63 ≤ x ∧ x < 2 ^ 63

instance : DecidablePred InI64 := fun x => inferInstanceAs (Decidable (-2 ^ 63 ≤ x ∧ x < 2 ^ 63))

def checkedAddSigned (a b : Int64) : Option Int64 :=
  if InI64 (a.toInt + b.toInt) then some (a + b) else none

def checkedMulSigned (a b : Int64) : Option Int64 :=
  if InI64 (a.toInt * b.toInt) then some (a * b) else none

theorem toNat_add_of_lt {a b : UInt64} (h : a.toNat + b.toNat < UInt64.size) :
    (a + b).toNat = a.toNat + b.toNat := by
  rw [UInt64.toNat_add]
  exact Nat.mod_eq_of_lt h

theorem toNat_mul_of_lt {a b : UInt64} (h : a.toNat * b.toNat < UInt64.size) :
    (a * b).toNat = a.toNat * b.toNat := by
  rw [UInt64.toNat_mul]
  exact Nat.mod_eq_of_lt h

theorem checkedAdd_eq_some {a b c : UInt64} :
    checkedAdd a b = some c ↔ a.toNat + b.toNat < UInt64.size ∧ c = a + b := by
  unfold checkedAdd
  split
  · next hlt => simp [hlt, eq_comm]
  · next hlt => simp [hlt]

theorem checkedMul_eq_some {a b c : UInt64} :
    checkedMul a b = some c ↔ a.toNat * b.toNat < UInt64.size ∧ c = a * b := by
  unfold checkedMul
  split
  · next hlt => simp [hlt, eq_comm]
  · next hlt => simp [hlt]

/-- A product and a sum that fit together fit one after the other. -/
theorem exists_checkedMulAdd {a b c : UInt64}
    (h : a.toNat * b.toNat + c.toNat < UInt64.size) : ∃ r,
      checkedMul a b = some (a * b) ∧ checkedAdd (a * b) c = some r ∧
        r.toNat = a.toNat * b.toNat + c.toNat := by
  have hmul : a.toNat * b.toNat < UInt64.size := by omega
  have hadd : (a * b).toNat + c.toNat < UInt64.size := by rwa [toNat_mul_of_lt hmul]
  refine ⟨a * b + c, checkedMul_eq_some.mpr ⟨hmul, rfl⟩, checkedAdd_eq_some.mpr ⟨hadd, rfl⟩, ?_⟩
  rw [toNat_add_of_lt hadd, toNat_mul_of_lt hmul]

theorem checkedMulSigned_eq_some {a b c : Int64} :
    checkedMulSigned a b = some c ↔ InI64 (a.toInt * b.toInt) ∧ c = a * b := by
  unfold checkedMulSigned
  split
  · next hin => simp [hin, eq_comm]
  · next hin => simp [hin]

theorem checkedAddSigned_eq_some {a b c : Int64} :
    checkedAddSigned a b = some c ↔ InI64 (a.toInt + b.toInt) ∧ c = a + b := by
  unfold checkedAddSigned
  split
  · next hin => simp [hin, eq_comm]
  · next hin => simp [hin]

/-- A number in range is not changed by the wrap of the machine. -/
theorem InI64.bmod_eq {x : ℤ} (h : InI64 x) : x.bmod (2 ^ 64) = x := by
  obtain ⟨hlo, hhi⟩ := h
  apply Int.bmod_eq_of_le <;> omega

theorem toInt_of_checkedMulSigned {a b c : Int64} (h : checkedMulSigned a b = some c) :
    c.toInt = a.toInt * b.toInt := by
  obtain ⟨hin, rfl⟩ := checkedMulSigned_eq_some.mp h
  rw [Int64.toInt_mul, hin.bmod_eq]

theorem toInt_of_checkedAddSigned {a b c : Int64} (h : checkedAddSigned a b = some c) :
    c.toInt = a.toInt + b.toInt := by
  obtain ⟨hin, rfl⟩ := checkedAddSigned_eq_some.mp h
  rw [Int64.toInt_add, hin.bmod_eq]

/-- A checked operation in terms of the values. -/
theorem checkedMulSigned_iff {a b c : Int64} : checkedMulSigned a b = some c ↔
    InI64 (a.toInt * b.toInt) ∧ c.toInt = a.toInt * b.toInt := by
  constructor
  · intro h
    exact ⟨(checkedMulSigned_eq_some.mp h).1, toInt_of_checkedMulSigned h⟩
  · intro h
    refine checkedMulSigned_eq_some.mpr ⟨h.1, Int64.toInt_inj.mp ?_⟩
    rw [h.2, Int64.toInt_mul, h.1.bmod_eq]

theorem checkedAddSigned_iff {a b c : Int64} : checkedAddSigned a b = some c ↔
    InI64 (a.toInt + b.toInt) ∧ c.toInt = a.toInt + b.toInt := by
  constructor
  · intro h
    exact ⟨(checkedAddSigned_eq_some.mp h).1, toInt_of_checkedAddSigned h⟩
  · intro h
    refine checkedAddSigned_eq_some.mpr ⟨h.1, Int64.toInt_inj.mp ?_⟩
    rw [h.2, Int64.toInt_add, h.1.bmod_eq]

/-- A product and a sum of small numbers that fit together fit one after the other. -/
theorem checkedMulAddSigned_eq {a b c : Int64} {m n k : ℕ} (ha : a.toInt = m) (hb : b.toInt = n)
    (hc : c.toInt = k) (h : m * n + k < 2 ^ 63) :
    checkedMulSigned a b = some (a * b) ∧ checkedAddSigned (a * b) c = some (a * b + c) := by
  have hmul : checkedMulSigned a b = some (a * b) := by
    refine checkedMulSigned_eq_some.mpr ⟨?_, rfl⟩
    rw [ha, hb, ← Nat.cast_mul]
    constructor <;> omega
  refine ⟨hmul, checkedAddSigned_eq_some.mpr ⟨?_, rfl⟩⟩
  rw [toInt_of_checkedMulSigned hmul, ha, hb, hc, ← Nat.cast_mul, ← Nat.cast_add]
  constructor <;> omega

/-- A number in range is that of a word. -/
theorem InI64.exists_word {x : ℤ} (h : InI64 x) : ∃ w : Int64, w.toInt = x :=
  ⟨Int64.ofInt x, Int64.toInt_ofInt.trans h.bmod_eq⟩

theorem inI64_toInt (w : Int64) : InI64 w.toInt := ⟨w.le_toInt, w.toInt_lt⟩

theorem toInt_toInt64 (x : UInt64) :
    x.toInt64.toInt = if x.toNat < 2 ^ 63 then (x.toNat : ℤ) else x.toNat - 2 ^ 64 := by
  show x.toBitVec.toInt = _
  rw [BitVec.toInt_eq_toNat_cond]
  have h : x.toBitVec.toNat = x.toNat := rfl
  rw [h]
  split <;> split <;> omega

theorem toInt_toInt64_of_lt {x : UInt64} (h : x.toNat < 2 ^ 63) : x.toInt64.toInt = x.toNat := by
  rw [toInt_toInt64, if_pos h]
namespace Exec
variable {ε : Type}

/-- A natural number as a word of `bits` bits; a larger one is an overflow. -/
def inBits (bits n : ℕ) : Exec ε ℕ := if n < 2 ^ bits then .ok n else panic

def addU64 (a b : UInt64) : Exec ε UInt64 :=
  if a.toNat + b.toNat < UInt64.size then .ok (a + b) else panic

def addU32 (a b : UInt32) : Exec ε UInt32 :=
  if a.toNat + b.toNat < UInt32.size then .ok (a + b) else panic

def mulU64 (a b : UInt64) : Exec ε UInt64 :=
  if a.toNat * b.toNat < UInt64.size then .ok (a * b) else panic

def subU64 (a b : UInt64) : Exec ε UInt64 := if b ≤ a then .ok (a - b) else panic

/-- Subtraction of sizes, which panics below zero. -/
def subSize (a b : ℕ) : Exec ε ℕ := if b ≤ a then .ok (a - b) else panic

def div (a b : UInt64) : Exec ε UInt64 := if b = 0 then panic else .ok (a / b)

def rem (a b : UInt64) : Exec ε UInt64 := if b = 0 then panic else .ok (a % b)

/-- Division of signed words, rounded to zero; the quotient of the least word by -1 overflows. -/
def divSigned (a b : Int64) : Exec ε Int64 :=
  if b = 0 ∨ a = Int64.minValue ∧ b = -1 then panic else .ok (Int64.ofInt (a.toInt.tdiv b.toInt))

/-- Division of signed words with a remainder that is not negative. -/
def divEuclid (a b : Int64) : Exec ε Int64 :=
  if b = 0 ∨ a = Int64.minValue ∧ b = -1 then panic else .ok (Int64.ofInt (a.toInt / b.toInt))

/-- Division rounded up, as the standard library computes it. -/
def divCeil (a b : UInt64) : Exec ε UInt64 := do
  let d ← div a b
  let r ← rem a b
  if r > 0 then addU64 d 1 else pure d

def shl (a : UInt64) (n : ℕ) : Exec ε UInt64 :=
  if n < 64 then .ok (a <<< UInt64.ofNat n) else panic

def shr (a : UInt64) (n : ℕ) : Exec ε UInt64 :=
  if n < 64 then .ok (a >>> UInt64.ofNat n) else panic

section
variable {a b : UInt64} {n bits : ℕ}

theorem subU64_eq_ok {a b c : UInt64} : (subU64 a b : Exec ε UInt64) = .ok c ↔ b ≤ a ∧ c = a - b := by
  unfold subU64
  split
  · next hle => simp [hle, eq_comm]
  · next hle => simp [hle]

theorem subSize_eq_ok {m k : ℕ} : (subSize n m : Exec ε ℕ) = .ok k ↔ m ≤ n ∧ k = n - m := by
  unfold subSize
  split
  · next hle => simp [hle, eq_comm]
  · next hle => simp [hle]

theorem yields_inBits (h : n < 2 ^ bits) :
    Yields (inBits bits n : Exec ε ℕ) fun m => m = n := by
  rw [inBits, if_pos h]
  exact yields_ok rfl

theorem yields_subSize {m : ℕ} (h : m ≤ n) :
    Yields (subSize n m : Exec ε ℕ) fun k => k = n - m := by
  rw [subSize, if_pos h]
  exact yields_ok rfl

theorem yields_div (h : b ≠ 0) : Yields (div a b : Exec ε UInt64) fun q => q = a / b := by
  rw [div, if_neg h]
  exact yields_ok rfl

theorem yields_rem (h : b ≠ 0) : Yields (rem a b : Exec ε UInt64) fun r => r = a % b := by
  rw [rem, if_neg h]
  exact yields_ok rfl

theorem yields_shl (h : n < 64) : Yields (shl a n : Exec ε UInt64) fun _ => True := by
  rw [shl, if_pos h]
  exact yields_ok trivial

theorem yields_shr (h : n < 64) : Yields (shr a n : Exec ε UInt64) fun _ => True := by
  rw [shr, if_pos h]
  exact yields_ok trivial

/-- A quotient with a remainder is below the largest word, so rounding it up does not overflow. -/
theorem exists_divCeil (h : b ≠ 0) : ∃ c, (divCeil a b : Exec ε UInt64) = .ok c ∧
    c.toNat = (a.toNat + b.toNat - 1) / b.toNat := by
  have hb : 0 < b.toNat := Nat.pos_of_ne_zero fun h0 => h (UInt64.toNat_inj.mp h0)
  have hsplit := Nat.div_add_mod a.toNat b.toNat
  have hlt := Nat.mod_lt a.toNat hb
  have hsum : a.toNat + b.toNat - 1 = b.toNat * (a.toNat / b.toNat) +
      (a.toNat % b.toNat + b.toNat - 1) := by omega
  rw [divCeil, div, if_neg h, ok_bind, rem, if_neg h, ok_bind, hsum, Nat.mul_add_div hb]
  by_cases hr : a % b > 0
  · have hmod : 0 < a.toNat % b.toNat := by
      rw [← UInt64.toNat_mod]
      exact UInt64.lt_iff_toNat_lt.mp hr
    have hone : (a.toNat % b.toNat + b.toNat - 1) / b.toNat = 1 :=
      Nat.div_eq_of_lt_le (by omega) (by omega)
    have hquot : a.toNat / b.toNat * 2 ≤ a.toNat := by
      by_cases hb1 : b.toNat = 1
      · rw [hb1, Nat.mod_one] at hmod
        omega
      · calc a.toNat / b.toNat * 2 ≤ a.toNat / b.toNat * b.toNat :=
              Nat.mul_le_mul_left _ (by omega)
          _ ≤ a.toNat := Nat.div_mul_le_self _ _
    have hfits : (a / b).toNat + (1 : UInt64).toNat < UInt64.size := by
      have hsize := a.toNat_lt_size
      rw [UInt64.toNat_div, UInt64.toNat_one]
      have hword : 2 < UInt64.size := by decide
      omega
    rw [if_pos hr, addU64, if_pos hfits]
    exact ⟨_, rfl, by rw [toNat_add_of_lt hfits, UInt64.toNat_div, UInt64.toNat_one, hone]⟩
  · have hmod : a.toNat % b.toNat = 0 := by
      rw [← UInt64.toNat_mod]
      exact Nat.eq_zero_of_not_pos fun hpos => hr (UInt64.lt_iff_toNat_lt.mpr hpos)
    have hzero : (a.toNat % b.toNat + b.toNat - 1) / b.toNat = 0 :=
      Nat.div_eq_of_lt (by omega)
    rw [if_neg hr]
    exact ⟨_, rfl, by rw [UInt64.toNat_div, hzero, Nat.add_zero]⟩

theorem yields_divCeil (h : b ≠ 0) : Yields (divCeil a b : Exec ε UInt64) fun _ => True := by
  obtain ⟨c, hc, _⟩ := exists_divCeil h (ε := ε)
  rw [hc]
  exact yields_ok trivial

end

/-- A sum of words, which panics where a partial sum overflows. -/
def sumU32 (xs : List UInt32) : Exec ε UInt32 := xs.foldlM addU32 0

theorem foldlM_addU32 {xs : List UInt32} {s : UInt32} :
    (xs.foldlM addU32 s : Exec ε UInt32) =
      if s.toNat + (xs.map UInt32.toNat).sum < UInt32.size then
        .ok (UInt32.ofNat (s.toNat + (xs.map UInt32.toNat).sum)) else panic := by
  induction xs generalizing s with
  | nil =>
    have hlt := s.toNat_lt_size
    simp [hlt, pure, Except.pure]
  | cons x xs ih =>
    rw [List.foldlM_cons, List.map_cons, List.sum_cons]
    by_cases hx : s.toNat + x.toNat < UInt32.size
    · have hsum : (s + x).toNat = s.toNat + x.toNat := by
        rw [UInt32.toNat_add]
        exact Nat.mod_eq_of_lt hx
      rw [addU32, if_pos hx, ok_bind, ih, hsum, Nat.add_assoc]
    · have hbig : ¬ s.toNat + (x.toNat + (xs.map UInt32.toNat).sum) < UInt32.size := by omega
      rw [addU32, if_neg hx, panic_bind, if_neg hbig]

theorem sumU32_eq {xs : List UInt32} : (sumU32 xs : Exec ε UInt32) =
    if (xs.map UInt32.toNat).sum < UInt32.size then
      .ok (UInt32.ofNat (xs.map UInt32.toNat).sum) else panic := by
  rw [sumU32, foldlM_addU32]
  simp

end Exec
end Hurray.Base
