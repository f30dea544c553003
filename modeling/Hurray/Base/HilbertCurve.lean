import Hurray.Base.MixedRadix
import Mathlib.Data.Nat.Bitwise
import Mathlib.Logic.Equiv.Basic

/-!
The Hilbert curve on matrices of bits: a row holds the bits of a coordinate, a
column is a plane of bits of one weight. A plane decides, bit by bit, how the
planes below it are reflected and exchanged. Consecutive codes come from
coordinates that are next to each other in one row.
-/
namespace Hurray.Base.HilbertCurve

/-- Row `k` holds the bits of coordinate `k`. -/
abbrev Bits := ℕ → ℕ → Bool

variable {X Y : Bits} {r e i k b c n : ℕ}

/-! ### Rounds -/

section Rounds

/-- Bit `e` of row `i` decides: the bits below `e` of row 0 are reflected, or they are exchanged
with those of row `i`. -/
def exchange (e i : ℕ) (X : Bits) : Bits := fun k c =>
  if c < e then
    if X i e then (if k = 0 then !X 0 c else X k c) else X (Equiv.swap 0 i k) c
  else X k c

def round (r e : ℕ) (X : Bits) : Bits := (List.range r).foldl (fun X i => exchange e i X) X

def unround (r e : ℕ) (X : Bits) : Bits := (List.range r).foldr (fun i X => exchange e i X) X

/-- The rounds from plane `e` down to plane 1. -/
def descend (r : ℕ) : ℕ → Bits → Bits
  | 0, X => X
  | e + 1, X => descend r e (round r (e + 1) X)

/-- The rounds back, from plane 1 up to plane `e`. -/
def ascend (r : ℕ) : ℕ → Bits → Bits
  | 0, X => X
  | e + 1, X => unround r (e + 1) (ascend r e X)

theorem exchange_of_le (h : e ≤ c) : exchange e i X k c = X k c := if_neg (Nat.not_lt.mpr h)

theorem exchange_reflect (hbit : X i e = true) (h : c < e) :
    exchange e i X k c = if k = 0 then !X 0 c else X k c := by
  rw [exchange, if_pos h, if_pos hbit]

theorem exchange_swap (hbit : X i e = false) (h : c < e) :
    exchange e i X k c = X (Equiv.swap 0 i k) c := by
  rw [exchange, if_pos h, hbit, if_neg Bool.false_ne_true]

/-- An exchange leaves the bit that decides it, so a second one undoes it. -/
theorem exchange_exchange : exchange e i (exchange e i X) = X := by
  funext k c
  have hsame : exchange e i X i e = X i e := exchange_of_le (Nat.le_refl e)
  by_cases hc : c < e
  · cases hbit : X i e with
    | true =>
      rw [exchange_reflect (hsame.trans hbit) hc, exchange_reflect hbit hc,
        exchange_reflect hbit hc, if_pos rfl, Bool.not_not]
      split
      · next hk => rw [hk]
      · rfl
    | false =>
      rw [exchange_swap (hsame.trans hbit) hc, exchange_swap hbit hc, Equiv.swap_apply_self]
  · rw [exchange_of_le (Nat.le_of_not_lt hc), exchange_of_le (Nat.le_of_not_lt hc)]

theorem foldr_foldl_exchange (is : List ℕ) :
    is.foldr (fun i X => exchange e i X) (is.foldl (fun X i => exchange e i X) X) = X := by
  induction is generalizing X with
  | nil => rfl
  | cons i is ih => rw [List.foldl_cons, List.foldr_cons, ih, exchange_exchange]

theorem unround_round : unround r e (round r e X) = X := foldr_foldl_exchange _

theorem ascend_descend : ascend r e (descend r e X) = X := by
  induction e generalizing X with
  | zero => rfl
  | succ e ih => rw [descend, ascend, ih, unround_round]

end Rounds

/-! ### Neighbours -/

section Neighbours

/-- The rows differ in row `k` alone, which counts up or down by one: it is the same above
bit `b` and reflected from `b` on, with all bits below `b` the opposite of bit `b`. -/
structure Next (k b : ℕ) (X Y : Bits) : Prop where
  other : ∀ i, i ≠ k → ∀ c, Y i c = X i c
  above : ∀ c, b < c → Y k c = X k c
  reflected : ∀ c, c ≤ b → Y k c = !X k c
  carry : ∀ c, c < b → X k c = !X k b

theorem Next.above_all (h : Next k b X Y) (hc : b < c) (i : ℕ) : Y i c = X i c := by
  by_cases hi : i = k
  · rw [hi]
    exact h.above c hc
  · exact h.other i hi c

/-- An exchange decided above the difference keeps neighbours neighbours. -/
theorem Next.exchange_above (h : Next k b X Y) (hbe : b < e) :
    ∃ j, Next j b (exchange e i X) (exchange e i Y) := by
  have hsame : Y i e = X i e := h.above_all hbe i
  cases hbit : X i e with
  | true =>
    refine ⟨k, ?_, ?_, ?_, ?_⟩
    · intro j hj c
      by_cases hc : c < e
      · rw [exchange_reflect (hsame.trans hbit) hc, exchange_reflect hbit hc]
        split
        · next hzero => rw [h.other 0 (hzero ▸ hj) c]
        · exact h.other j hj c
      · rw [exchange_of_le (Nat.le_of_not_lt hc), exchange_of_le (Nat.le_of_not_lt hc),
          h.other j hj c]
    · intro c hc
      by_cases hce : c < e
      · rw [exchange_reflect (hsame.trans hbit) hce, exchange_reflect hbit hce,
          h.above_all hc 0, h.above c hc]
      · rw [exchange_of_le (Nat.le_of_not_lt hce), exchange_of_le (Nat.le_of_not_lt hce),
          h.above c hc]
    · intro c hc
      have hce : c < e := Nat.lt_of_le_of_lt hc hbe
      rw [exchange_reflect (hsame.trans hbit) hce, exchange_reflect hbit hce]
      split
      · next hk =>
        subst hk
        rw [h.reflected c hc]
      · exact h.reflected c hc
    · intro c hc
      have hce : c < e := Nat.lt_trans hc hbe
      rw [exchange_reflect hbit hce, exchange_reflect hbit hbe]
      split
      · next hk =>
        subst hk
        rw [h.carry c hc]
      · exact h.carry c hc
  | false =>
    refine ⟨Equiv.swap 0 i k, ?_, ?_, ?_, ?_⟩
    · intro j hj c
      by_cases hc : c < e
      · rw [exchange_swap (hsame.trans hbit) hc, exchange_swap hbit hc]
        apply h.other
        intro heq
        rw [← heq, Equiv.swap_apply_self] at hj
        exact hj rfl
      · rw [exchange_of_le (Nat.le_of_not_lt hc), exchange_of_le (Nat.le_of_not_lt hc)]
        exact h.above_all (Nat.lt_of_lt_of_le hbe (Nat.le_of_not_lt hc)) j
    · intro c hc
      by_cases hce : c < e
      · rw [exchange_swap (hsame.trans hbit) hce, exchange_swap hbit hce,
          Equiv.swap_apply_self]
        exact h.above c hc
      · rw [exchange_of_le (Nat.le_of_not_lt hce), exchange_of_le (Nat.le_of_not_lt hce)]
        exact h.above_all hc _
    · intro c hc
      have hce : c < e := Nat.lt_of_le_of_lt hc hbe
      rw [exchange_swap (hsame.trans hbit) hce, exchange_swap hbit hce, Equiv.swap_apply_self]
      exact h.reflected c hc
    · intro c hc
      rw [exchange_swap hbit (Nat.lt_trans hc hbe), exchange_swap hbit hbe, Equiv.swap_apply_self]
      exact h.carry c hc

/-- An exchange between other rows, decided by one of them, does not touch the difference. -/
theorem Next.exchange_beside (h : Next k b X Y) (hi : i ≠ k) (hk : 0 ≠ k) :
    Next k b (exchange e i X) (exchange e i Y) := by
  have hsame : Y i e = X i e := h.other i hi e
  have hrow (Z : Bits) (c : ℕ) : exchange e i Z k c = Z k c := by
    unfold exchange
    rw [if_neg (Ne.symm hk), Equiv.swap_apply_of_ne_of_ne (Ne.symm hk) (Ne.symm hi), ite_self,
      ite_self]
  refine ⟨?_, ?_, ?_, ?_⟩
  · intro j hj c
    by_cases hc : c < e
    · cases hbit : X i e with
      | true =>
        rw [exchange_reflect (hsame.trans hbit) hc, exchange_reflect hbit hc, h.other 0 hk c,
          h.other j hj c]
      | false =>
        rw [exchange_swap (hsame.trans hbit) hc, exchange_swap hbit hc]
        apply h.other
        intro heq
        apply hj
        rw [← Equiv.swap_apply_self 0 i j, heq, Equiv.swap_apply_of_ne_of_ne (Ne.symm hk) (Ne.symm hi)]
    · rw [exchange_of_le (Nat.le_of_not_lt hc), exchange_of_le (Nat.le_of_not_lt hc),
        h.other j hj c]
  · intro c hc
    rw [hrow, hrow]
    exact h.above c hc
  · intro c hc
    rw [hrow, hrow]
    exact h.reflected c hc
  · intro c hc
    rw [hrow, hrow]
    exact h.carry c hc

theorem Next.unround_above (h : Next k b X Y) (hbe : b < e) :
    ∃ j, Next j b (unround r e X) (unround r e Y) := by
  unfold unround
  induction List.range r with
  | nil => exact ⟨k, h⟩
  | cons i is ih =>
    obtain ⟨j, hj⟩ := ih
    exact hj.exchange_above hbe

/-- The rounds above the plane of the difference. -/
theorem exists_next_ascend (h : ∃ k, Next k b (ascend r b X) (ascend r b Y)) (hn : b ≤ n) :
    ∃ k, Next k b (ascend r n X) (ascend r n Y) := by
  induction n, hn using Nat.le_induction with
  | base => exact h
  | succ n hn ih =>
    obtain ⟨k, hk⟩ := ih
    exact hk.unround_above (Nat.lt_succ_of_le hn)

end Neighbours

/-! ### Counting -/

section Counting

/-- Adding one sets the lowest unset bit, which is bit `j`, and clears those below it. -/
structure Carry (j m n : ℕ) : Prop where
  unset : m.testBit j = false
  set : n.testBit j = true
  below : ∀ i, i < j → m.testBit i = true ∧ n.testBit i = false
  above : ∀ i, j < i → n.testBit i = m.testBit i

theorem exists_carry (m : ℕ) : ∃ j, Carry j m (m + 1) := by
  induction m using Nat.strong_induction_on with
  | _ m ih =>
    obtain heven | hodd := Nat.mod_two_eq_zero_or_one m
    · refine ⟨0, ?_, ?_, ?_, ?_⟩
      · rw [Nat.testBit_zero, heven]
        rfl
      · rw [Nat.testBit_zero, Nat.add_mod, heven]
        rfl
      · intro i hi
        exact absurd hi (Nat.not_lt_zero i)
      · intro i hi
        obtain ⟨i, rfl⟩ := Nat.exists_eq_succ_of_ne_zero (Nat.ne_of_gt hi)
        have hhalf : (m + 1) / 2 = m / 2 := by omega
        rw [Nat.succ_eq_add_one, Nat.testBit_add_one, Nat.testBit_add_one, hhalf]
    · have hhalf : (m + 1) / 2 = m / 2 + 1 := by omega
      obtain ⟨j, hj⟩ := ih (m / 2) (by omega)
      rw [← hhalf] at hj
      refine ⟨j + 1, ?_, ?_, ?_, ?_⟩
      · rw [Nat.testBit_add_one]
        exact hj.unset
      · rw [Nat.testBit_add_one]
        exact hj.set
      · intro i hi
        cases i with
        | zero =>
          rw [Nat.testBit_zero, Nat.testBit_zero, Nat.add_mod, hodd]
          exact ⟨rfl, rfl⟩
        | succ i =>
          rw [Nat.testBit_add_one, Nat.testBit_add_one]
          exact hj.below i (Nat.lt_of_succ_lt_succ hi)
      · intro i hi
        obtain ⟨i, rfl⟩ := Nat.exists_eq_succ_of_ne_zero (Nat.ne_zero_of_lt hi)
        rw [Nat.succ_eq_add_one, Nat.testBit_add_one, Nat.testBit_add_one]
        exact hj.above i (Nat.lt_of_succ_lt_succ hi)

/-- The first unset bit is determined, and with it the successor. -/
theorem Carry.eq_add_one {j m n : ℕ} (h : Carry j m n) : n = m + 1 := by
  obtain ⟨j', h'⟩ := exists_carry m
  have hj : j = j' := by
    obtain hlt | heq | hgt := Nat.lt_trichotomy j j'
    · have hset := (h'.below j hlt).1
      rw [h.unset] at hset
      exact absurd hset (by decide)
    · exact heq
    · have hset := (h.below j' hgt).1
      rw [h'.unset] at hset
      exact absurd hset (by decide)
  subst hj
  apply Nat.eq_of_testBit_eq
  intro i
  obtain hlt | rfl | hgt := Nat.lt_trichotomy i j
  · rw [(h.below i hlt).2, (h'.below i hlt).2]
  · rw [h.set, h'.set]
  · rw [h.above i hgt, h'.above i hgt]

/-- Neighbouring rows are numbers that differ by one. -/
theorem Next.values {x y : ℕ → ℕ} (h : Next k b X Y) (hx : ∀ i c, (x i).testBit c = X i c)
    (hy : ∀ i c, (y i).testBit c = Y i c) :
    (∀ i, i ≠ k → y i = x i) ∧ (y k = x k + 1 ∨ x k = y k + 1) := by
  refine ⟨?_, ?_⟩
  · intro i hi
    apply Nat.eq_of_testBit_eq
    intro c
    rw [hx, hy, h.other i hi c]
  · cases hbit : X k b with
    | false =>
      refine Or.inl (Carry.eq_add_one ⟨?_, ?_, ?_, ?_⟩ (j := b))
      · rw [hx, hbit]
      · rw [hy, h.reflected b (Nat.le_refl b), hbit]
        rfl
      · intro c hc
        rw [hx, hy, h.reflected c (Nat.le_of_lt hc), h.carry c hc, hbit]
        exact ⟨rfl, rfl⟩
      · intro c hc
        rw [hx, hy, h.above c hc]
    | true =>
      refine Or.inr (Carry.eq_add_one ⟨?_, ?_, ?_, ?_⟩ (j := b))
      · rw [hy, h.reflected b (Nat.le_refl b), hbit]
        rfl
      · rw [hx, hbit]
      · intro c hc
        rw [hx, hy, h.reflected c (Nat.le_of_lt hc), h.carry c hc, hbit]
        exact ⟨rfl, rfl⟩
      · intro c hc
        rw [hx, hy, h.above c hc]

end Counting

/-! ### Consecutive codes -/

section Codes
variable {d : ℕ} {q : Prop} [Decidable q]

/-- The place in the code of bit `c` of row `k`. -/
def codePlace (r k c : ℕ) : ℕ := c * r + (r - 1 - k)

/-- The matrix of a code: each bit is combined with the next higher bit of the code. -/
def decode (r p h : ℕ) : Bits := fun k c =>
  if k < r ∧ c < p then h.testBit (codePlace r k c) ^^ h.testBit (codePlace r k c + 1) else false

/-- Matrices that differ in one bit. The planes below it are zero, and so is the rest of its plane,
but for the bit that comes next: in the row after it, or at the start of the plane below. -/
structure Turn (r d b : ℕ) (X Y : Bits) : Prop where
  differ : Y d b = !X d b
  same : ∀ k c, ¬ (k = d ∧ c = b) → Y k c = X k c
  low : ∀ k c, c < b → X k c = decide (d + 1 = r ∧ k = 0 ∧ c + 1 = b)
  row : ∀ k, d < k → X k b = decide (k = d + 1 ∧ k < r)

/-- Every bit below `b` of row `k` set to `v k`. -/
def setLow (b : ℕ) (v : ℕ → Bool) (X : Bits) : Bits := fun k c => if c < b then v k else X k c

theorem setLow_of_lt {v : ℕ → Bool} (h : c < b) : setLow b v X k c = v k := if_pos h

theorem setLow_of_le {v : ℕ → Bool} (h : b ≤ c) : setLow b v X k c = X k c :=
  if_neg (Nat.not_lt.mpr h)

theorem exchange_setLow {v : ℕ → Bool} : exchange b i (setLow b v X) =
    setLow b (fun k => if X i b then (if k = 0 then !v 0 else v k) else v (Equiv.swap 0 i k)) X := by
  funext k c
  have hbit : setLow b v X i b = X i b := setLow_of_le (Nat.le_refl b)
  by_cases hc : c < b
  · rw [setLow_of_lt hc]
    cases hX : X i b with
    | true =>
      rw [exchange_reflect (hbit.trans hX) hc, setLow_of_lt hc, setLow_of_lt hc, if_pos rfl]
    | false =>
      rw [exchange_swap (hbit.trans hX) hc, setLow_of_lt hc, if_neg Bool.false_ne_true]
  · have hle := Nat.le_of_not_lt hc
    rw [exchange_of_le hle, setLow_of_le hle, setLow_of_le hle]

/-- Nothing happens below a zero plane where everything is zero. -/
theorem foldr_quiet {is : List ℕ} (hbit : ∀ i ∈ is, X i e = false)
    (hlow : ∀ k c, c < e → X k c = false) : is.foldr (fun i X => exchange e i X) X = X := by
  induction is with
  | nil => rfl
  | cons i is ih =>
    obtain ⟨hi, his⟩ := List.forall_mem_cons.mp hbit
    rw [List.foldr_cons, ih his]
    funext k c
    by_cases hc : c < e
    · rw [exchange_swap hi hc, hlow _ c hc, hlow k c hc]
    · exact exchange_of_le (Nat.le_of_not_lt hc)

theorem ascend_quiet {m : ℕ} (hlow : ∀ k c, c < m → X k c = false) (hn : n < m) :
    ascend r n X = X := by
  induction n with
  | zero => rfl
  | succ n ih =>
    rw [ascend, ih (Nat.lt_of_succ_lt hn), unround]
    exact foldr_quiet (fun i _ => hlow i _ hn) fun k c hc => hlow k c (Nat.lt_trans hc hn)

/-- A lone top bit in row 0 fills the bits below it. -/
theorem ascend_lone {m : ℕ} (hr : 0 < r)
    (hlow : ∀ k c, c < m + 1 → X k c = decide (q ∧ k = 0 ∧ c + 1 = m + 1)) :
    ascend r m X = setLow (m + 1) (fun k => decide (q ∧ k = 0)) X := by
  have htop (k : ℕ) : X k m = decide (q ∧ k = 0) := by
    rw [hlow k m (Nat.lt_succ_self m)]
    simp
  have hzero (k c : ℕ) (hc : c < m) : X k c = false := by
    rw [hlow k c (Nat.lt_succ_of_lt hc)]
    have hne : c ≠ m := by omega
    simp [hne]
  have hround : ascend r m X = exchange m 0 X := by
    cases m with
    | zero =>
      funext k c
      exact (exchange_of_le (Nat.zero_le c)).symm
    | succ m =>
      obtain ⟨r, rfl⟩ := Nat.exists_eq_succ_of_ne_zero (Nat.ne_of_gt hr)
      rw [ascend, ascend_quiet hzero (Nat.lt_succ_self m), unround, Nat.succ_eq_add_one,
        List.range_succ_eq_map, List.foldr_cons, foldr_quiet ?_ hzero]
      intro i hi
      obtain ⟨j, _, rfl⟩ := List.mem_map.mp hi
      rw [htop]
      simp
  rw [hround]
  funext k c
  obtain hlt | rfl | hgt := Nat.lt_trichotomy c m
  · rw [setLow_of_lt (Nat.lt_succ_of_lt hlt)]
    cases hq : X 0 m with
    | true =>
      rw [exchange_reflect hq hlt, hzero 0 c hlt, hzero k c hlt]
      rw [htop] at hq
      by_cases hk : k = 0
      · simp_all
      · simp [hk]
    | false =>
      rw [exchange_swap hq hlt, hzero _ c hlt]
      rw [htop] at hq
      simp_all
  · rw [exchange_of_le (Nat.le_refl c), setLow_of_lt (Nat.lt_succ_self c), htop]
  · rw [exchange_of_le (Nat.le_of_lt hgt), setLow_of_le hgt]

/-- The exchanges with the rows after row `d`: the bit that comes next reflects row 0. -/
theorem foldr_after (hd : d < r) (hrow : ∀ k, d < k → X k b = decide (k = d + 1 ∧ k < r)) :
    (List.range' (d + 1) (r - d - 1)).foldr (fun i X => exchange b i X)
      (setLow b (fun k => decide (d + 1 = r ∧ k = 0)) X) =
      setLow b (fun k => decide (k = 0)) X := by
  by_cases hlast : d + 1 = r
  · have hlen : r - d - 1 = 0 := by omega
    rw [hlen, List.range'_zero, List.foldr_nil]
    simp only [hlast, true_and]
  · obtain ⟨n, hn⟩ : ∃ n, r - d - 1 = n + 1 := ⟨r - d - 2, by omega⟩
    rw [hn, List.range'_succ, List.foldr_cons, foldr_quiet]
    · have hnext : X (d + 1) b = true := by
        rw [hrow (d + 1) (Nat.lt_succ_self d), decide_eq_true_iff]
        exact ⟨rfl, by omega⟩
      rw [exchange_setLow]
      congr 1
      funext k
      rw [if_pos hnext]
      by_cases hk : k = 0 <;> simp [hk, hlast]
    · intro i hi
      have hle : d + 1 + 1 ≤ i := (List.mem_range'_1.mp hi).1
      rw [setLow_of_le (Nat.le_refl b), hrow i (by omega), decide_eq_false_iff_not]
      omega
    · intro k c hc
      rw [setLow_of_lt hc, decide_eq_false_iff_not]
      exact fun h => hlast h.1

/-- The exchange with row `d` itself leaves the opposite of its bit below it, and zeros in the
other rows. -/
theorem exchange_turn : exchange b d (setLow b (fun k => decide (k = 0)) X) =
    setLow b (fun k => decide (k = d) && !X d b) X := by
  rw [exchange_setLow]
  congr 1
  funext k
  cases hbit : X d b with
  | true => by_cases hk : k = 0 <;> simp [hk]
  | false =>
    have hswap : Equiv.swap 0 d k = 0 ↔ k = d := by
      rw [Equiv.swap_apply_eq_iff, Equiv.swap_apply_left]
    simp [hswap]

theorem Turn.next_low (h : Turn r d b X Y) :
    Next d b (setLow b (fun k => decide (k = d) && !X d b) X)
      (setLow b (fun k => decide (k = d) && !Y d b) Y) where
  other := by
    intro i hi c
    by_cases hc : c < b
    · rw [setLow_of_lt hc, setLow_of_lt hc]
      simp [hi]
    · rw [setLow_of_le (Nat.le_of_not_lt hc), setLow_of_le (Nat.le_of_not_lt hc)]
      exact h.same i c fun heq => hi heq.1
  above := by
    intro c hc
    rw [setLow_of_le (Nat.le_of_lt hc), setLow_of_le (Nat.le_of_lt hc)]
    exact h.same d c fun heq => absurd heq.2 (Nat.ne_of_gt hc)
  reflected := by
    intro c hc
    obtain hlt | rfl := Nat.lt_or_eq_of_le hc
    · rw [setLow_of_lt hlt, setLow_of_lt hlt, h.differ]
      simp
    · rw [setLow_of_le (Nat.le_refl c), setLow_of_le (Nat.le_refl c), h.differ]
  carry := by
    intro c hc
    rw [setLow_of_lt hc, setLow_of_le (Nat.le_refl b)]
    simp

theorem Next.foldr_beside {is : List ℕ} (h : Next d b X Y) (his : ∀ i ∈ is, i < d) :
    Next d b (is.foldr (fun i X => exchange b i X) X) (is.foldr (fun i X => exchange b i X) Y) := by
  induction is with
  | nil => exact h
  | cons i is ih =>
    obtain ⟨hi, his⟩ := List.forall_mem_cons.mp his
    have hpos : 0 < d := Nat.zero_lt_of_lt hi
    exact (ih his).exchange_beside (Nat.ne_of_lt hi) (Nat.ne_of_lt hpos)

theorem range_split (hd : d < r) :
    List.range r = List.range d ++ d :: List.range' (d + 1) (r - d - 1) := by
  have hr : r = d + (r - d) := by omega
  have hsucc : r - d = r - d - 1 + 1 := by omega
  conv_lhs => rw [hr, hsucc, List.range_add, ← List.range'_eq_map_range]
  rw [List.range'_succ]

/-- The rounds up to the plane of the difference turn one bit into a step of one. -/
theorem Turn.next_ascend (h : Turn r d b X Y) (hd : d < r) :
    Next d b (ascend r b X) (ascend r b Y) := by
  cases b with
  | zero =>
    refine ⟨?_, ?_, ?_, ?_⟩
    · intro i hi c
      exact h.same i c fun heq => hi heq.1
    · intro c hc
      exact h.same d c fun heq => absurd heq.2 (Nat.ne_of_gt hc)
    · intro c hc
      obtain rfl := Nat.le_zero.mp hc
      exact h.differ
    · intro c hc
      exact absurd hc (Nat.not_lt_zero c)
  | succ m =>
    have hr : 0 < r := Nat.zero_lt_of_lt hd
    have hlow' : ∀ k c, c < m + 1 → Y k c = decide (d + 1 = r ∧ k = 0 ∧ c + 1 = m + 1) := by
      intro k c hc
      rw [h.same k c fun heq => absurd heq.2 (Nat.ne_of_lt hc), h.low k c hc]
    have hrow' : ∀ k, d < k → Y k (m + 1) = decide (k = d + 1 ∧ k < r) := by
      intro k hk
      rw [h.same k (m + 1) fun heq => absurd heq.1 (Nat.ne_of_gt hk), h.row k hk]
    rw [ascend, ascend, ascend_lone hr h.low, ascend_lone hr hlow', unround, unround,
      range_split hd, List.foldr_append, List.foldr_append, List.foldr_cons, List.foldr_cons,
      foldr_after hd h.row, foldr_after hd hrow', exchange_turn, exchange_turn]
    exact h.next_low.foldr_beside fun i hi => List.mem_range.mp hi

theorem codePlace_inj (hk : k < r) (hd : d < r) (h : codePlace r k c = codePlace r d b) :
    k = d ∧ c = b := by
  obtain ⟨hplane, hrow⟩ := MixedRadix.mul_add_inj (by omega) (by omega) h
  exact ⟨by omega, hplane⟩

theorem codePlace_lt {p : ℕ} (hk : k < r) (hc : c < p) : codePlace r k c < r * p :=
  calc codePlace r k c < c * r + r := Nat.add_lt_add_left (by omega) _
    _ = r * (c + 1) := by ring
    _ ≤ r * p := Nat.mul_le_mul_left r hc

/-- Every place below the end is that of a bit. -/
theorem exists_codePlace {p j : ℕ} (h : j < r * p) :
    ∃ k c, k < r ∧ c < p ∧ j = codePlace r k c := by
  have hr : 0 < r := Nat.pos_of_mul_pos_right (Nat.zero_lt_of_lt h)
  have hmod := Nat.mod_lt j hr
  refine ⟨r - 1 - j % r, j / r, by omega, Nat.div_lt_of_lt_mul h, ?_⟩
  have hsplit := Nat.div_add_mod' j r
  unfold codePlace
  omega

/-- Places in lower planes, and those of later rows in the same plane, come before. -/
theorem codePlace_lt_of_plane (hk : k < r) (h : c < b) : codePlace r k c < codePlace r d b :=
  calc codePlace r k c < c * r + r := Nat.add_lt_add_left (by omega) _
    _ = (c + 1) * r := by ring
    _ ≤ b * r := Nat.mul_le_mul_right r h
    _ ≤ codePlace r d b := Nat.le_add_right _ _

theorem codePlace_lt_of_row (hk : k < r) (h : d < k) : codePlace r k b < codePlace r d b :=
  Nat.add_lt_add_left (by omega) _

/-- The bit after a bit of row `k + 1` is in the row before. -/
theorem codePlace_before (hk : k + 1 < r) : codePlace r (k + 1) c + 1 = codePlace r k c := by
  unfold codePlace
  omega

/-- The bit after a bit of row 0 is in the last row, one plane up. -/
theorem codePlace_wrap (hr : 0 < r) : codePlace r 0 c + 1 = codePlace r (r - 1) (c + 1) := by
  unfold codePlace
  rw [Nat.succ_mul]
  omega

theorem testBit_past {p h : ℕ} (hlt : h < 2 ^ (r * p)) (hc : p ≤ c) :
    h.testBit (codePlace r k c) = false := by
  have hend : r * p ≤ codePlace r k c :=
    calc r * p ≤ r * c := Nat.mul_le_mul_left r hc
      _ = c * r := Nat.mul_comm r c
      _ ≤ codePlace r k c := Nat.le_add_right _ _
  exact Nat.testBit_lt_two_pow (hlt.trans_le (Nat.pow_le_pow_right Nat.two_pos hend))

theorem codePlace_succ (hk : k < r) (hd : d < r) (hc : c < b) :
    codePlace r k c + 1 = codePlace r d b ↔ d + 1 = r ∧ k = 0 ∧ c + 1 = b := by
  constructor
  · intro h
    by_cases hzero : k = 0
    · have hplace : (c + 1) * r + 0 = b * r + (r - 1 - d) := by
        rw [Nat.succ_mul]
        unfold codePlace at h
        omega
      obtain ⟨hplane, hlast⟩ := MixedRadix.mul_add_inj (by omega) (by omega) hplace
      exact ⟨by omega, hzero, hplane⟩
    · have hplace : c * r + (r - k) = b * r + (r - 1 - d) := by
        unfold codePlace at h
        omega
      obtain ⟨hplane, _⟩ := MixedRadix.mul_add_inj (by omega) (by omega) hplace
      omega
  · intro h
    obtain ⟨hlast, rfl, rfl⟩ := h
    unfold codePlace
    rw [Nat.succ_mul]
    omega

theorem Carry.below_eq {i j m n : ℕ} (h : Carry j m n) (hi : i < j) :
    (m.testBit i ^^ m.testBit (i + 1)) = decide (i + 1 = j) ∧
      (n.testBit i ^^ n.testBit (i + 1)) = decide (i + 1 = j) := by
  rw [(h.below i hi).1, (h.below i hi).2]
  by_cases hnext : i + 1 = j
  · rw [hnext, h.unset, h.set]
    simp
  · have hlt : i + 1 < j := by omega
    rw [(h.below _ hlt).1, (h.below _ hlt).2]
    simp [hnext]

theorem decode_of_lt {p h : ℕ} (hk : k < r) (hc : c < p) : decode r p h k c =
    (h.testBit (codePlace r k c) ^^ h.testBit (codePlace r k c + 1)) :=
  if_pos ⟨hk, hc⟩

theorem decode_of_row {p h : ℕ} (hk : r ≤ k) : decode r p h k c = false :=
  if_neg fun hlt => absurd hlt.1 (Nat.not_lt.mpr hk)

/-- Consecutive numbers decode to matrices that differ in one bit. -/
theorem Carry.turn {p m n : ℕ} (hd : d < r) (hb : b < p) (h : Carry (codePlace r d b) m n) :
    Turn r d b (decode r p m) (decode r p n) where
  differ := by
    rw [decode_of_lt hd hb, decode_of_lt hd hb, h.set, h.unset, h.above _ (Nat.lt_succ_self _)]
    simp
  same := by
    intro k c hne
    by_cases hin : k < r ∧ c < p
    · obtain ⟨hk, hc⟩ := hin
      rw [decode_of_lt hk hc, decode_of_lt hk hc]
      obtain hlt | heq | hgt := Nat.lt_trichotomy (codePlace r k c) (codePlace r d b)
      · rw [(h.below_eq hlt).1, (h.below_eq hlt).2]
      · exact absurd (codePlace_inj hk hd heq) hne
      · rw [h.above _ hgt, h.above _ (Nat.lt_succ_of_lt hgt)]
    · exact (if_neg hin).trans (if_neg hin).symm
  low := by
    intro k c hc
    by_cases hk : k < r
    · rw [decode_of_lt hk (Nat.lt_trans hc hb), (h.below_eq (codePlace_lt_of_plane hk hc)).1,
        decide_eq_decide]
      exact codePlace_succ hk hd hc
    · rw [decode_of_row (Nat.le_of_not_lt hk), eq_comm, decide_eq_false_iff_not]
      omega
  row := by
    intro k hdk
    by_cases hk : k < r
    · rw [decode_of_lt hk hb, (h.below_eq (codePlace_lt_of_row hk hdk)).1, decide_eq_decide]
      unfold codePlace
      omega
    · rw [decode_of_row (Nat.le_of_not_lt hk), eq_comm, decide_eq_false_iff_not]
      exact fun hlt => hk hlt.2

end Codes

/-! ### Encoding -/

section Encoding
variable {row : ℕ → Bool} {p h : ℕ}

/-- Each row combined with all rows before it. -/
def scan (X : Bits) : Bits
  | 0, c => X 0 c
  | k + 1, c => scan X k c ^^ X (k + 1) c

/-- Bit `c` of the mask that the bits 1 to `n` of a row gather: each of them reflects all bits
below it. -/
def maskBit (row : ℕ → Bool) : ℕ → ℕ → Bool
  | 0, _ => false
  | n + 1, c => (row (n + 1) && decide (c < n + 1)) ^^ maskBit row n c

/-- Nothing outside the first `r` rows and `p` columns. -/
def Inside (r p : ℕ) (X : Bits) : Prop := ∀ k c, ¬ (k < r ∧ c < p) → X k c = false

theorem maskBit_of_le (h : n ≤ c) : maskBit row n c = false := by
  induction n with
  | zero => rfl
  | succ n ih =>
    rw [maskBit, ih (Nat.le_of_succ_le h), decide_eq_false (Nat.not_lt.mpr h)]
    simp

/-- A bit of the mask is the next higher bit of the row, masked itself. -/
theorem maskBit_succ (h : c < n) : maskBit row n c = (row (c + 1) ^^ maskBit row n (c + 1)) := by
  induction n with
  | zero => exact absurd h (Nat.not_lt_zero c)
  | succ n ih =>
    rw [maskBit, maskBit, decide_eq_true h]
    obtain hlt | rfl := Nat.lt_succ_iff_lt_or_eq.mp h
    · rw [ih hlt, decide_eq_true (Nat.succ_lt_succ hlt)]
      cases row (n + 1) <;> simp
    · rw [maskBit_of_le (Nat.le_refl c), maskBit_of_le (Nat.le_succ c),
        decide_eq_false (Nat.lt_irrefl (c + 1))]
      simp

theorem Inside.exchange (h : Inside r p X) (hi : i < r) (he : e < p) :
    Inside r p (exchange e i X) := by
  intro k c hout
  by_cases hc : c < e
  · have hk : r ≤ k := by
      by_contra hlt
      exact hout ⟨Nat.lt_of_not_le hlt, Nat.lt_trans hc he⟩
    have hzero : k ≠ 0 := Nat.ne_of_gt (Nat.lt_of_lt_of_le (Nat.zero_lt_of_lt hi) hk)
    have hne : k ≠ i := Nat.ne_of_gt (Nat.lt_of_lt_of_le hi hk)
    unfold HilbertCurve.exchange
    rw [if_neg hzero, Equiv.swap_apply_of_ne_of_ne hzero hne, ite_self, ite_self]
    exact h k c hout
  · rw [exchange_of_le (Nat.le_of_not_lt hc)]
    exact h k c hout

theorem Inside.round (h : Inside r p X) (he : e < p) : Inside r p (round r e X) := by
  have hfold : ∀ (is : List ℕ) (X : Bits), (∀ i ∈ is, i < r) → Inside r p X →
      Inside r p (is.foldl (fun X i => HilbertCurve.exchange e i X) X) := by
    intro is
    induction is with
    | nil =>
      intro X _ hX
      exact hX
    | cons i is ih =>
      intro X his hX
      obtain ⟨hi, his⟩ := List.forall_mem_cons.mp his
      exact ih _ his (hX.exchange hi he)
  exact hfold (List.range r) X (fun i hi => List.mem_range.mp hi) h

theorem Inside.descend (h : Inside r p X) (he : e < p) : Inside r p (descend r e X) := by
  induction e generalizing X with
  | zero => exact h
  | succ e ih => exact ih (h.round he) (Nat.lt_of_succ_lt he)

/-- A number whose bits are the scanned and masked matrix decodes to that matrix. -/
theorem decode_eq (hr : 0 < r) (hX : Inside r p X) (hlt : h < 2 ^ (r * p))
    (hbits : ∀ k c, k < r → c < p → h.testBit (codePlace r k c) =
      (scan X k c ^^ maskBit (scan X (r - 1)) (p - 1) c)) : decode r p h = X := by
  funext k c
  by_cases hin : k < r ∧ c < p
  · obtain ⟨hk, hc⟩ := hin
    rw [decode_of_lt hk hc, hbits k c hk hc]
    cases k with
    | zero =>
      rw [codePlace_wrap hr]
      by_cases hlast : c + 1 < p
      · rw [hbits (r - 1) (c + 1) (by omega) hlast,
          maskBit_succ (show c < p - 1 by omega), scan]
        cases X 0 c <;> simp
      · rw [testBit_past hlt (Nat.le_of_not_lt hlast), maskBit_of_le (show p - 1 ≤ c by omega), scan]
        simp
    | succ k =>
      rw [codePlace_before hk, hbits k c (by omega) hc, scan]
      cases scan X k c <;> cases maskBit (scan X (r - 1)) (p - 1) c <;> simp
  · rw [hX k c hin]
    exact if_neg hin

end Encoding
end Hurray.Base.HilbertCurve
