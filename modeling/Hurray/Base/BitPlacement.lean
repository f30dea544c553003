import Hurray.Base.Exec
import Mathlib.Data.Nat.Bitwise

/-!
A word put together bit by bit: each bit comes with the place it goes to, and the
order in which they arrive does not matter.
-/
namespace Hurray.Base

/-- A bit at its place, as a number. -/
def bitAt (p : Bool × ℕ) : ℕ := if p.1 then 2 ^ p.2 else 0

def place (ps : List (Bool × ℕ)) : ℕ := ps.foldr (fun p code => bitAt p ||| code) 0

variable {ps qs : List (Bool × ℕ)} {p : Bool × ℕ} {n N : ℕ}

@[simp] theorem place_nil : place [] = 0 := rfl

@[simp] theorem place_cons : place (p :: ps) = bitAt p ||| place ps := rfl

theorem testBit_bitAt : (bitAt p).testBit n = true ↔ p = (true, n) := by
  obtain ⟨bit, k⟩ := p
  cases bit with
  | false => simp [bitAt]
  | true => simp [bitAt, Nat.testBit_two_pow]

theorem testBit_place : (place ps).testBit n = true ↔ (true, n) ∈ ps := by
  induction ps with
  | nil => simp
  | cons p ps ih =>
    rw [place_cons, Nat.testBit_or, Bool.or_eq_true, testBit_bitAt, ih, List.mem_cons, eq_comm]

theorem place_lt_iff : place ps < 2 ^ N ↔ ∀ n, (true, n) ∈ ps → n < N := by
  constructor
  · intro h n hmem
    by_contra hge
    have hfalse : (place ps).testBit n = false :=
      Nat.testBit_lt_two_pow (h.trans_le (Nat.pow_le_pow_right Nat.two_pos (Nat.le_of_not_lt hge)))
    rw [testBit_place.mpr hmem] at hfalse
    cases hfalse
  · intro h
    apply Nat.lt_pow_two_of_testBit
    intro n hge
    rw [Bool.eq_false_iff, ne_eq, testBit_place]
    intro hmem
    exact absurd (h n hmem) (Nat.not_lt.mpr hge)

section Machine
variable {ε : Type} {e : ε} {code : UInt64}

/-- Sets a bit of a code word; a place past the word is an error. -/
def setBit (e : ε) (code : UInt64) (p : Bool × ℕ) : Exec ε UInt64 :=
  if p.2 < 64 then .ok (code ||| UInt64.ofNat (bitAt p)) else Exec.fail e

theorem toNat_ofNat_place (h : ∀ p ∈ ps, p.2 < 64) :
    (UInt64.ofNat (place ps)).toNat = place ps := by
  apply UInt64.toNat_ofNat_of_lt'
  show place ps < 2 ^ 64
  rw [place_lt_iff]
  intro n hmem
  exact h _ hmem

theorem bitAt_lt (h : p.2 < 64) : bitAt p < UInt64.size := by
  unfold bitAt
  split
  · exact Nat.pow_lt_pow_right Nat.one_lt_two h
  · exact Nat.two_pow_pos 64

/-- The loop over all bits fails if one of the places is past the word. -/
theorem foldlM_setBit : ps.foldlM (setBit e) code =
    if ∀ p ∈ ps, p.2 < 64 then .ok (code ||| UInt64.ofNat (place ps)) else Exec.fail e := by
  induction ps generalizing code with
  | nil =>
    simp [pure, Except.pure]
  | cons p ps ih =>
    rw [List.foldlM_cons, setBit]
    by_cases hp : p.2 < 64
    · rw [if_pos hp, Exec.ok_bind, ih]
      by_cases hall : ∀ p ∈ ps, p.2 < 64
      · have hcons : ∀ q ∈ p :: ps, q.2 < 64 := List.forall_mem_cons.mpr ⟨hp, hall⟩
        rw [if_pos hall, if_pos hcons, UInt64.or_assoc]
        congr 2
        apply UInt64.toNat_inj.mp
        rw [toNat_ofNat_place hcons, UInt64.toNat_or, toNat_ofNat_place hall,
          UInt64.toNat_ofNat_of_lt' (bitAt_lt hp), place_cons]
      · rw [if_neg hall, if_neg fun h => hall (List.forall_mem_cons.mp h).2]
    · have hcons : ¬ ∀ q ∈ p :: ps, q.2 < 64 := fun h => hp (h p (List.mem_cons_self ..))
      rw [if_neg hp, Exec.fail_bind, if_neg hcons]

theorem setBit_eq_place (h : ∀ p ∈ ps, p.2 < 64) :
    ps.foldlM (setBit e) 0 = .ok (UInt64.ofNat (place ps)) := by
  rw [foldlM_setBit, if_pos h, UInt64.zero_or]

/-- A shifted bit of a word, shifted on to its place. -/
theorem or_bit_eq {x : UInt64} {b k : ℕ} (hb : b < 64) (hk : k < 64) :
    code ||| ((x >>> UInt64.ofNat b) &&& 1) <<< UInt64.ofNat k =
      code ||| UInt64.ofNat (bitAt (x.toNat.testBit b, k)) := by
  congr 1
  apply UInt64.toNat_inj.mp
  have hbit : (UInt64.ofNat b).toNat = b := UInt64.toNat_ofNat_of_lt' (hb.trans (by decide))
  have hplace : (UInt64.ofNat k).toNat = k := UInt64.toNat_ofNat_of_lt' (hk.trans (by decide))
  rw [UInt64.toNat_ofNat_of_lt' (bitAt_lt hk), UInt64.toNat_shiftLeft, UInt64.toNat_and,
    UInt64.toNat_shiftRight, hbit, hplace, Nat.mod_eq_of_lt hb, Nat.mod_eq_of_lt hk,
    UInt64.toNat_one, Nat.and_one_is_mod, Nat.shiftRight_eq_div_pow,
    Nat.testBit_eq_decide_div_mod_eq]
  obtain hzero | hone := Nat.mod_two_eq_zero_or_one (x.toNat / 2 ^ b)
  · simp [bitAt, hzero]
  · have hlt : 2 ^ k < 2 ^ 64 := Nat.pow_lt_pow_right Nat.one_lt_two hk
    simpa [bitAt, hone, Nat.one_shiftLeft] using hlt

end Machine

theorem foldlM_congr {m : Type → Type} [Monad m] {α σ : Type} {f g : σ → α → m σ} {l : List α}
    (h : ∀ a ∈ l, ∀ s, f s a = g s a) {s : σ} : l.foldlM f s = l.foldlM g s := by
  induction l generalizing s with
  | nil => rfl
  | cons a l ih =>
    obtain ⟨ha, hl⟩ := List.forall_mem_cons.mp h
    rw [List.foldlM_cons, List.foldlM_cons, ha]
    simp only [ih hl]

/-- A loop within a loop runs over all the items one after another. -/
theorem foldlM_flatMap {m : Type → Type} [Monad m] [LawfulMonad m] {α β σ : Type}
    {f : σ → β → m σ} {g : α → List β} {l : List α} {s : σ} :
    (l.flatMap g).foldlM f s = l.foldlM (fun s a => (g a).foldlM f s) s := by
  induction l generalizing s with
  | nil => rfl
  | cons a l ih =>
    rw [List.flatMap_cons, List.foldlM_append, List.foldlM_cons]
    simp only [ih]

end Hurray.Base
