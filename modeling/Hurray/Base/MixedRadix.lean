import Mathlib.Algebra.BigOperators.Fin
import Mathlib.Data.List.Forall2
import Mathlib.Data.Nat.Init
import Mathlib.Tactic.Ring

/-!
Numbers in a mixed radix, the least significant digit first. A vector of digits
that are each below their base names every number below the product of the bases
exactly once.
-/
namespace Hurray.Base.MixedRadix

/-- The quotient and the remainder are determined by the sum. -/
theorem mul_add_inj {b c d e n : ℕ} (hd : d < n) (he : e < n) (h : b * n + d = c * n + e) :
    b = c ∧ d = e := by
  have hpos : 0 < n := Nat.zero_lt_of_lt hd
  have hdiv := congrArg (· / n) h
  have hmod := congrArg (· % n) h
  simp only [Nat.mul_comm _ n, Nat.mul_add_div hpos, Nat.mul_add_mod, Nat.div_eq_of_lt hd,
    Nat.div_eq_of_lt he, Nat.mod_eq_of_lt hd, Nat.mod_eq_of_lt he, Nat.add_zero] at hdiv hmod
  exact ⟨hdiv, hmod⟩

/-- Also where the quotient is negative. -/
theorem mul_add_inj_int {b c : ℤ} {d e n : ℕ} (hd : d < n) (he : e < n)
    (h : b * n + d = c * n + e) : b = c ∧ d = e := by
  have hne : (n : ℤ) ≠ 0 := by omega
  have hquot (q : ℤ) {m : ℕ} (hm : m < n) : (q * n + m) / n = q := by
    rw [Int.add_comm, Int.add_mul_ediv_right _ _ hne,
      Int.ediv_eq_zero_of_lt (by omega) (by omega), Int.zero_add]
  have hbc : b = c := by rw [← hquot b hd, h, hquot c he]
  rw [hbc] at h
  exact ⟨hbc, by omega⟩

def value : List ℕ → List ℕ → ℕ
  | b :: bs, d :: ds => d + b * value bs ds
  | _, _ => 0

def digits : List ℕ → ℕ → List ℕ
  | [], _ => []
  | b :: bs, n => n % b :: digits bs (n / b)

/-- One digit for each base, and below it. -/
def Within (bs ds : List ℕ) : Prop := List.Forall₂ (fun b d => d < b) bs ds

variable {b d n : ℕ} {bs cs ds es : List ℕ}

@[simp] theorem value_nil : value [] ds = 0 := by
  cases ds <;> rfl

@[simp] theorem value_cons : value (b :: bs) (d :: ds) = d + b * value bs ds := rfl

@[simp] theorem within_nil : Within [] ds ↔ ds = [] := by
  unfold Within
  exact List.forall₂_nil_left_iff

@[simp] theorem within_cons : Within (b :: bs) (d :: ds) ↔ d < b ∧ Within bs ds := by
  unfold Within
  exact List.forall₂_cons

theorem Within.length_eq (h : Within bs ds) : bs.length = ds.length := List.Forall₂.length_eq h

theorem Within.reverse (h : Within bs ds) : Within bs.reverse ds.reverse :=
  List.rel_reverse h

theorem Within.prod_pos (h : Within bs ds) : 0 < bs.prod := by
  induction h with
  | nil => exact Nat.one_pos
  | cons hlt _ ih =>
    rw [List.prod_cons]
    exact Nat.mul_pos (Nat.zero_lt_of_lt hlt) ih

theorem value_eq_zero (h : ∀ d ∈ ds, d = 0) : value bs ds = 0 := by
  induction bs generalizing ds with
  | nil => exact value_nil
  | cons b bs ih =>
    cases ds with
    | nil => rfl
    | cons d ds =>
      obtain ⟨rfl, hds⟩ := List.forall_mem_cons.mp h
      simp [ih hds]

theorem value_lt (h : Within bs ds) : value bs ds < bs.prod := by
  induction h with
  | nil => exact Nat.one_pos
  | @cons b d bs ds hlt _ ih =>
    rw [value_cons, List.prod_cons]
    calc d + b * value bs ds < b + b * value bs ds := Nat.add_lt_add_right hlt _
      _ = b * (value bs ds + 1) := by ring
      _ ≤ b * bs.prod := Nat.mul_le_mul_left b ih

theorem value_mono (hd : Within bs ds) (hle : List.Forall₂ (· ≤ ·) ds es) :
    value bs ds ≤ value bs es := by
  induction hd generalizing es with
  | nil =>
    cases hle
    exact le_rfl
  | cons _ _ ih =>
    cases hle with
    | cons hd hds => exact Nat.add_le_add hd (Nat.mul_le_mul_left _ (ih hds))

/-- The digits of the high bases follow those of the low ones. -/
theorem value_append (h : bs.length = ds.length) :
    value (bs ++ cs) (ds ++ es) = value bs ds + bs.prod * value cs es := by
  induction bs generalizing ds with
  | nil =>
    obtain rfl := List.eq_nil_of_length_eq_zero h.symm
    simp
  | cons b bs ih =>
    cases ds with
    | nil => exact absurd h (Nat.succ_ne_zero _)
    | cons d ds =>
      simp only [List.cons_append, value_cons, List.prod_cons, ih (Nat.succ.inj h)]
      ring

theorem digits_value (h : Within bs ds) : digits bs (value bs ds) = ds := by
  induction h with
  | nil => rfl
  | @cons b d bs ds hlt _ ih =>
    have hpos : 0 < b := Nat.zero_lt_of_lt hlt
    rw [value_cons, digits, Nat.add_mul_mod_self_left, Nat.mod_eq_of_lt hlt,
      Nat.add_mul_div_left _ _ hpos, Nat.div_eq_of_lt hlt, Nat.zero_add, ih]

theorem value_injOn (hd : Within bs ds) (he : Within bs es) (h : value bs ds = value bs es) :
    ds = es := by
  rw [← digits_value hd, ← digits_value he, h]

theorem within_digits (h : n < bs.prod) : Within bs (digits bs n) := by
  induction bs generalizing n with
  | nil => exact List.Forall₂.nil
  | cons b bs ih =>
    rw [List.prod_cons] at h
    have hpos : 0 < b := Nat.pos_of_mul_pos_right (Nat.zero_lt_of_lt h)
    rw [digits, within_cons]
    exact ⟨Nat.mod_lt n hpos, ih (Nat.div_lt_of_lt_mul h)⟩

theorem value_digits (h : n < bs.prod) : value bs (digits bs n) = n := by
  induction bs generalizing n with
  | nil => exact (Nat.lt_one_iff.mp h).symm
  | cons b bs ih =>
    rw [List.prod_cons] at h
    rw [digits, value_cons, ih (Nat.div_lt_of_lt_mul h)]
    exact Nat.mod_add_div n b

/-- The value as a sum: each digit weighs the product of the bases below it. -/
theorem value_eq_sum (h : bs.length = ds.length) :
    value bs ds = ∑ k : Fin ds.length, ds[k] * (bs.take k).prod := by
  induction bs generalizing ds with
  | nil =>
    obtain rfl := List.eq_nil_of_length_eq_zero h.symm
    rfl
  | cons b bs ih =>
    cases ds with
    | nil => exact absurd h (Nat.succ_ne_zero _)
    | cons d ds =>
      rw [value_cons, ih (Nat.succ.inj h), Finset.mul_sum]
      refine Eq.trans ?_ (Fin.sum_univ_succ _).symm
      simp only [Fin.val_zero, Fin.val_succ, List.take_zero, List.prod_nil, Nat.mul_one,
        List.take_succ_cons, List.prod_cons, Fin.getElem_fin, List.getElem_cons_zero,
        List.getElem_cons_succ]
      congr 1
      apply Finset.sum_congr rfl
      intro k _
      ring

/-- With the most significant digit first, each digit weighs the product of the bases after it. -/
theorem value_reverse_eq_sum (h : bs.length = ds.length) :
    value bs.reverse ds.reverse = ∑ k : Fin ds.length, ds[k] * (bs.drop (k + 1)).prod := by
  induction bs generalizing ds with
  | nil =>
    obtain rfl := List.eq_nil_of_length_eq_zero h.symm
    rfl
  | cons b bs ih =>
    cases ds with
    | nil => exact absurd h (Nat.succ_ne_zero _)
    | cons d ds =>
      have hlen : bs.length = ds.length := Nat.succ.inj h
      rw [List.reverse_cons, List.reverse_cons, value_append (by simpa using hlen), ih hlen]
      refine Eq.trans ?_ (Fin.sum_univ_succ _).symm
      simp only [Fin.val_zero, Fin.val_succ, Nat.zero_add, List.drop_succ_cons, List.drop_zero,
        List.prod_reverse, value_cons, value_nil, Fin.getElem_fin, List.getElem_cons_zero,
        List.getElem_cons_succ]
      ring

end Hurray.Base.MixedRadix
