import Hurray.Base.BitPlacement
import Hurray.Base.HilbertCurve
import Hurray.Core.LinearAddressing
import Hurray.Core.ShapeConstraints
import Mathlib.Data.Set.Card

/-!
Hilbert addressing against the inverse mapping of the specification. Both work on
a vector of coordinates; the bits of the coordinates are the matrix on which the
curve is defined.
-/
namespace Hurray.Core
open Hurray.Base
open Hurray.Base.HilbertCurve (Bits codePlace exchange scan maskBit)

/-! ### The inverse mapping of the specification -/

section Specification

/-- The exchange of coordinate `i` with coordinate 0 under the bit `q`. -/
def coordExchange (q : ℕ) (x : List ℕ) (i : ℕ) : List ℕ :=
  if x.getD i 0 &&& q ≠ 0 then x.set 0 (x.getD 0 0 ^^^ (q - 1))
  else
    let t := (x.getD 0 0 ^^^ x.getD i 0) &&& (q - 1)
    let x := x.set 0 (x.getD 0 0 ^^^ t)
    x.set i (x.getD i 0 ^^^ t)

/-- Bit `b * r + (r - 1 - d)` of the index goes to bit `b` of coordinate `d`. -/
def unpackBit (h r b : ℕ) (x : List ℕ) (d : ℕ) : List ℕ :=
  x.set d (x.getD d 0 ||| ((h >>> (b * r + (r - 1 - d))) &&& 1) <<< b)

def unpack (h r p : ℕ) : List ℕ :=
  (List.range p).foldl (fun x b => (List.range r).foldl (unpackBit h r b) x) (List.replicate r 0)

/-- The Gray decoding. -/
def ungray (r : ℕ) (x : List ℕ) : List ℕ :=
  let t := x.getD (r - 1) 0 >>> 1
  let x := (List.range' 1 (r - 1)).foldr (fun i x => x.set i (x.getD i 0 ^^^ x.getD (i - 1) 0)) x
  x.set 0 (x.getD 0 0 ^^^ t)

/-- The loop over `Q` from 2 up to `2 ^ e`, each with `i` from `r - 1` down to 0. -/
def unroundLoop (r : ℕ) : ℕ → List ℕ → List ℕ
  | 0, x => x
  | e + 1, x => (List.range r).foldr (fun i x => coordExchange (2 ^ (e + 1)) x i) (unroundLoop r e x)

def hilbertToCoords (h r p : ℕ) : List ℕ := unroundLoop r (p - 1) (ungray r (unpack h r p))

example : hilbertToCoords 13 2 2 = [2, 1] := by decide

end Specification

/-! ### Coordinates and their bits -/

section Bits
variable {x : List ℕ} {i k c e v r p h : ℕ}

def bitsOf (x : List ℕ) : Bits := fun k c => (x.getD k 0).testBit c

theorem bitsOf_set (hi : i < x.length) :
    bitsOf (x.set i v) k c = if k = i then v.testBit c else bitsOf x k c := by
  unfold bitsOf
  rw [List.getD_eq_getElem?_getD, List.getD_eq_getElem?_getD]
  by_cases hk : k = i
  · subst hk
    rw [List.getElem?_set_self hi, if_pos rfl, Option.getD_some]
  · rw [List.getElem?_set_ne (Ne.symm hk), if_neg hk]

theorem eq_of_bitsOf {y : List ℕ} (hlen : x.length = y.length) (h : bitsOf x = bitsOf y) :
    x = y := by
  apply List.ext_getElem hlen
  intro k hk hk'
  apply Nat.eq_of_testBit_eq
  intro c
  have hbit := congrFun (congrFun h k) c
  unfold bitsOf at hbit
  rwa [List.getD_eq_getElem _ _ hk, List.getD_eq_getElem _ _ hk'] at hbit

theorem length_coordExchange {q : ℕ} : (coordExchange q x i).length = x.length := by
  unfold coordExchange
  split
  · exact List.length_set
  · exact List.length_set.trans List.length_set

theorem and_two_pow_ne_zero {n : ℕ} : n &&& 2 ^ e ≠ 0 ↔ n.testBit e = true := by
  rw [Nat.and_two_pow]
  cases n.testBit e <;> simp

theorem bitsOf_coordExchange (hi : i < x.length) :
    bitsOf (coordExchange (2 ^ e) x i) = exchange e i (bitsOf x) := by
  have h0 : 0 < x.length := Nat.zero_lt_of_lt hi
  funext k c
  unfold coordExchange
  cases hbit : bitsOf x i e with
  | true =>
    rw [if_pos (and_two_pow_ne_zero.mpr hbit), bitsOf_set h0]
    by_cases hc : c < e
    · rw [HilbertCurve.exchange_reflect hbit hc, Nat.testBit_xor, Nat.testBit_two_pow_sub_one,
        decide_eq_true hc, Bool.xor_true]
      rfl
    · rw [HilbertCurve.exchange_of_le (Nat.le_of_not_lt hc), Nat.testBit_xor,
        Nat.testBit_two_pow_sub_one, decide_eq_false hc, Bool.xor_false]
      split
      · next hk =>
        rw [hk]
        rfl
      · rfl
  | false =>
    have hzero : ¬ (x.getD i 0 &&& 2 ^ e ≠ 0) := by
      rw [and_two_pow_ne_zero]
      exact Bool.eq_false_iff.mp hbit
    rw [if_neg hzero]
    set t := (x.getD 0 0 ^^^ x.getD i 0) &&& (2 ^ e - 1) with ht
    have hmask : t.testBit c = ((bitsOf x 0 c ^^ bitsOf x i c) && decide (c < e)) := by
      rw [ht, Nat.testBit_and, Nat.testBit_xor, Nat.testBit_two_pow_sub_one]
      rfl
    have hfirst (j : ℕ) : bitsOf (x.set 0 (x.getD 0 0 ^^^ t)) j c =
        if j = 0 then (bitsOf x 0 c ^^ t.testBit c) else bitsOf x j c := by
      rw [bitsOf_set h0, Nat.testBit_xor]
      rfl
    have hsecond : bitsOf ((x.set 0 (x.getD 0 0 ^^^ t)).set i
        ((x.set 0 (x.getD 0 0 ^^^ t)).getD i 0 ^^^ t)) k c =
        if k = i then (bitsOf (x.set 0 (x.getD 0 0 ^^^ t)) i c ^^ t.testBit c)
        else bitsOf (x.set 0 (x.getD 0 0 ^^^ t)) k c := by
      rw [bitsOf_set (by rwa [List.length_set]), Nat.testBit_xor]
      rfl
    show bitsOf ((x.set 0 (x.getD 0 0 ^^^ t)).set i _) k c = _
    rw [hsecond, hfirst, hfirst, hmask]
    by_cases hc : c < e
    · rw [HilbertCurve.exchange_swap hbit hc, decide_eq_true hc, Equiv.swap_apply_def]
      by_cases hki : k = i
      · subst hki
        by_cases hk : k = 0
        · simp [hk]
        · rw [if_pos rfl, if_neg hk, if_neg hk, if_pos rfl]
          cases bitsOf x 0 c <;> simp
      · rw [if_neg hki]
        by_cases hk : k = 0
        · rw [if_pos hk, if_pos hk]
          cases bitsOf x 0 c <;> simp
        · rw [if_neg hk, if_neg hk, if_neg hki]
    · rw [HilbertCurve.exchange_of_le (Nat.le_of_not_lt hc), decide_eq_false hc]
      simp only [Bool.and_false, Bool.xor_false]
      by_cases hki : k = i
      · subst hki
        rw [if_pos rfl]
        split
        · next hk => rw [hk]
        · rfl
      · rw [if_neg hki]
        split
        · next hk => rw [hk]
        · rfl

theorem length_unroundLoop : (unroundLoop r e x).length = x.length := by
  induction e with
  | zero => rfl
  | succ e ih =>
    rw [unroundLoop]
    have hfold : ∀ (is : List ℕ) (y : List ℕ),
        (is.foldr (fun i x => coordExchange (2 ^ (e + 1)) x i) y).length = y.length := by
      intro is y
      induction is with
      | nil => rfl
      | cons i is ih => rw [List.foldr_cons, length_coordExchange, ih]
    rw [hfold, ih]

theorem bitsOf_unroundLoop (hlen : x.length = r) :
    bitsOf (unroundLoop r e x) = HilbertCurve.ascend r e (bitsOf x) := by
  induction e with
  | zero => rfl
  | succ e ih =>
    rw [unroundLoop, HilbertCurve.ascend, ← ih, HilbertCurve.unround]
    have hfold : ∀ (is : List ℕ) (y : List ℕ), (∀ i ∈ is, i < y.length) →
        (is.foldr (fun i x => coordExchange (2 ^ (e + 1)) x i) y).length = y.length ∧
        bitsOf (is.foldr (fun i x => coordExchange (2 ^ (e + 1)) x i) y) =
          is.foldr (fun i X => exchange (e + 1) i X) (bitsOf y) := by
      intro is y his
      induction is with
      | nil => exact ⟨rfl, rfl⟩
      | cons i is ih =>
        obtain ⟨hi, his⟩ := List.forall_mem_cons.mp his
        obtain ⟨hlen, hbits⟩ := ih his
        rw [List.foldr_cons, List.foldr_cons, length_coordExchange, hlen,
          bitsOf_coordExchange (by rwa [hlen]), hbits]
        exact ⟨rfl, rfl⟩
    refine (hfold (List.range r) (unroundLoop r e x) ?_).2
    intro i hi
    rw [length_unroundLoop, hlen]
    exact List.mem_range.mp hi

/-- The loop back over the rows: each row but the first is combined with the one before. -/
theorem bitsOf_ungrayLoop {s n : ℕ} (hs : 0 < s) (hn : s + n ≤ x.length) :
    ((List.range' s n).foldr (fun i x => x.set i (x.getD i 0 ^^^ x.getD (i - 1) 0)) x).length =
        x.length ∧
      ∀ k c, bitsOf ((List.range' s n).foldr
          (fun i x => x.set i (x.getD i 0 ^^^ x.getD (i - 1) 0)) x) k c =
        if s ≤ k ∧ k < s + n then (bitsOf x k c ^^ bitsOf x (k - 1) c) else bitsOf x k c := by
  induction n generalizing s with
  | zero =>
    refine ⟨rfl, ?_⟩
    intro k c
    rw [if_neg (by omega)]
    rfl
  | succ n ih =>
    obtain ⟨hlen, hbits⟩ := ih (s := s + 1) (Nat.succ_pos s) (by omega)
    rw [List.range'_succ, List.foldr_cons]
    generalize (List.range' (s + 1) n).foldr
      (fun i x => x.set i (x.getD i 0 ^^^ x.getD (i - 1) 0)) x = y at hlen hbits
    refine ⟨List.length_set.trans hlen, ?_⟩
    intro k c
    have hself : bitsOf y s c = bitsOf x s c := by rw [hbits, if_neg (by omega)]
    have hbefore : bitsOf y (s - 1) c = bitsOf x (s - 1) c := by rw [hbits, if_neg (by omega)]
    have hnew : (y.getD s 0 ^^^ y.getD (s - 1) 0).testBit c =
        (bitsOf x s c ^^ bitsOf x (s - 1) c) := by
      rw [Nat.testBit_xor, ← hself, ← hbefore]
      rfl
    rw [bitsOf_set (by omega), hnew, hbits]
    by_cases hk : k = s
    · subst hk
      rw [if_pos rfl, if_pos (by omega)]
    · rw [if_neg hk]
      split
      · next hin => rw [if_pos (by omega)]
      · next hout => rw [if_neg (by omega)]

theorem length_ungray (hr : 0 < r) (hlen : x.length = r) : (ungray r x).length = r := by
  unfold ungray
  rw [List.length_set, (bitsOf_ungrayLoop Nat.one_pos (by omega)).1, hlen]

theorem bitsOf_ungray (hr : 0 < r) (hlen : x.length = r) (hk : k < r) :
    bitsOf (ungray r x) k c =
      if k = 0 then (bitsOf x 0 c ^^ bitsOf x (r - 1) (c + 1))
      else (bitsOf x k c ^^ bitsOf x (k - 1) c) := by
  obtain ⟨hlength, hbits⟩ := bitsOf_ungrayLoop (x := x) (s := 1) (n := r - 1) Nat.one_pos (by omega)
  unfold ungray
  generalize (List.range' 1 (r - 1)).foldr
    (fun i x => x.set i (x.getD i 0 ^^^ x.getD (i - 1) 0)) x = y at hlength hbits
  have hfirst : (y.getD 0 0 ^^^ x.getD (r - 1) 0 >>> 1).testBit c =
      (bitsOf x 0 c ^^ bitsOf x (r - 1) (c + 1)) := by
    have hself : bitsOf y 0 c = bitsOf x 0 c := by rw [hbits, if_neg (by omega)]
    rw [Nat.testBit_xor, Nat.testBit_shiftRight, Nat.add_comm 1 c, ← hself]
    rfl
  show bitsOf (y.set 0 (y.getD 0 0 ^^^ x.getD (r - 1) 0 >>> 1)) k c = _
  rw [bitsOf_set (by omega), hfirst, hbits]
  by_cases hzero : k = 0
  · rw [if_pos hzero, if_pos hzero]
  · rw [if_neg hzero, if_neg hzero, if_pos (by omega)]

theorem length_unpackLoop {b : ℕ} {ds : List ℕ} :
    (ds.foldl (unpackBit h r b) x).length = x.length := by
  induction ds generalizing x with
  | nil => rfl
  | cons d ds ih => rw [List.foldl_cons, ih, unpackBit, List.length_set]

theorem bitsOf_unpackBit {b d : ℕ} (hd : d < x.length) :
    bitsOf (unpackBit h r b x d) k c =
      (bitsOf x k c || (decide (k = d ∧ c = b) && h.testBit (codePlace r k c))) := by
  have hbit : (h >>> (b * r + (r - 1 - d)) &&& 1) = (h.testBit (codePlace r d b)).toNat := by
    rw [Nat.and_one_is_mod, Nat.shiftRight_eq_div_pow, Nat.toNat_testBit]
    rfl
  have hmoved : ((h.testBit (codePlace r d b)).toNat <<< b).testBit c =
      (decide (c = b) && h.testBit (codePlace r d b)) := by
    cases h.testBit (codePlace r d b) with
    | false => simp
    | true => simp [Nat.one_shiftLeft, Nat.testBit_two_pow, eq_comm]
  rw [unpackBit, bitsOf_set hd, Nat.testBit_or, hbit, hmoved]
  by_cases hk : k = d
  · subst hk
    rw [if_pos rfl]
    show (bitsOf x k c || _) = _
    by_cases hc : c = b
    · subst hc
      simp
    · simp [hc]
  · rw [if_neg hk]
    simp [hk]

theorem bitsOf_unpackPlane {b : ℕ} {ds : List ℕ} (hds : ∀ d ∈ ds, d < x.length) :
    bitsOf (ds.foldl (unpackBit h r b) x) k c =
      (bitsOf x k c || (decide (k ∈ ds ∧ c = b) && h.testBit (codePlace r k c))) := by
  induction ds generalizing x with
  | nil => simp
  | cons d ds ih =>
    obtain ⟨hd, hds⟩ := List.forall_mem_cons.mp hds
    have hlen : (unpackBit h r b x d).length = x.length := List.length_set
    rw [List.foldl_cons, ih (by rwa [hlen]), bitsOf_unpackBit hd, Bool.or_assoc]
    congr 1
    by_cases hk : k = d
    · subst hk
      by_cases hc : c = b <;> simp [hc]
    · simp [hk]

theorem bitsOf_unpackLoop {bs : List ℕ} (hlen : x.length = r) :
    bitsOf (bs.foldl (fun x b => (List.range r).foldl (unpackBit h r b) x) x) k c =
      (bitsOf x k c || (decide (k < r ∧ c ∈ bs) && h.testBit (codePlace r k c))) := by
  induction bs generalizing x with
  | nil => simp
  | cons b bs ih =>
    have hplane : ∀ d ∈ List.range r, d < x.length := by
      intro d hd
      rw [hlen]
      exact List.mem_range.mp hd
    rw [List.foldl_cons, ih (length_unpackLoop.trans hlen), bitsOf_unpackPlane hplane,
      Bool.or_assoc]
    congr 1
    by_cases hk : k < r
    · by_cases hc : c = b <;> simp [hk, hc]
    · simp [hk]

theorem length_unpack : (unpack h r p).length = r := by
  unfold unpack
  have hloop : ∀ (bs x : List ℕ), (bs.foldl (fun x b => (List.range r).foldl (unpackBit h r b) x)
      x).length = x.length := by
    intro bs
    induction bs with
    | nil =>
      intro x
      rfl
    | cons b bs ih =>
      intro x
      rw [List.foldl_cons, ih, length_unpackLoop]
  rw [hloop, List.length_replicate]

theorem bitsOf_unpack : bitsOf (unpack h r p) k c =
    (decide (k < r ∧ c < p) && h.testBit (codePlace r k c)) := by
  have hzero : bitsOf (List.replicate r 0) k c = false := by
    have hget : (List.replicate r 0).getD k 0 = 0 := by
      rw [List.getD_eq_getElem?_getD, List.getElem?_replicate]
      split <;> rfl
    unfold bitsOf
    rw [hget, Nat.zero_testBit]
  rw [unpack, bitsOf_unpackLoop List.length_replicate, hzero, Bool.false_or]
  simp only [List.mem_range]

/-- The Gray decoding of the specification gives the matrix of the code. -/
theorem bitsOf_ungray_unpack (hr : 0 < r) (hlt : h < 2 ^ (r * p)) :
    bitsOf (ungray r (unpack h r p)) = HilbertCurve.decode r p h := by
  funext k c
  by_cases hk : k < r
  · rw [bitsOf_ungray hr length_unpack hk]
    simp only [bitsOf_unpack]
    by_cases hc : c < p
    · rw [HilbertCurve.decode_of_lt hk hc]
      cases k with
      | zero =>
        rw [HilbertCurve.codePlace_wrap hr]
        by_cases hlast : c + 1 < p
        · simp [hr, hc, hlast]
        · rw [HilbertCurve.testBit_past hlt (Nat.le_of_not_lt hlast)]
          simp [hr, hc]
      | succ k =>
        rw [HilbertCurve.codePlace_before hk]
        simp [hk, hc, Nat.lt_of_succ_lt hk]
    · have hnext : ¬ c + 1 < p := fun hin => hc (Nat.lt_of_succ_lt hin)
      have hdecode : HilbertCurve.decode r p h k c = false := if_neg fun hin => hc hin.2
      rw [hdecode]
      simp [hc, hnext]
  · have hle := Nat.le_of_not_lt hk
    rw [HilbertCurve.decode_of_row hle]
    unfold bitsOf
    rw [List.getD_eq_default _ _ (by rwa [length_ungray hr length_unpack]), Nat.zero_testBit]

theorem length_hilbertToCoords (hr : 0 < r) : (hilbertToCoords h r p).length = r := by
  rw [hilbertToCoords, length_unroundLoop, length_ungray hr length_unpack]

/-- The inverse mapping: the rounds back, from the matrix of the code. -/
theorem bitsOf_hilbertToCoords (hr : 0 < r) (hlt : h < 2 ^ (r * p)) :
    bitsOf (hilbertToCoords h r p) =
      HilbertCurve.ascend r (p - 1) (HilbertCurve.decode r p h) := by
  rw [hilbertToCoords, bitsOf_unroundLoop (length_ungray hr length_unpack),
    bitsOf_ungray_unpack hr hlt]

end Bits

/-! ### The code on the same coordinates -/

section Machine
variable {x : List UInt64} {i k c e r p s n : ℕ} {t : UInt64} {X : Bits}

def words (x : List UInt64) : List ℕ := x.map UInt64.toNat

@[simp] theorem length_words : (words x).length = x.length := List.length_map _

theorem getD_words (hk : k < x.length) : (words x).getD k 0 = x[k].toNat := by
  rw [words, List.getD_eq_getElem _ _ (by rwa [List.length_map]), List.getElem_map]

theorem words_set {v : UInt64} : words (x.set i v) = (words x).set i v.toNat := List.map_set

theorem toNat_mask (he : e < 64) : ((1 : UInt64) <<< UInt64.ofNat e - 1).toNat = 2 ^ e - 1 := by
  have hle : (1 : UInt64) ≤ 1 <<< UInt64.ofNat e := by
    rw [UInt64.le_iff_toNat_le, toNat_one_shl he]
    exact Nat.one_le_two_pow
  rw [UInt64.toNat_sub_of_le _ _ hle, toNat_one_shl he, UInt64.toNat_one]

theorem and_shl_ne_zero (he : e < 64) :
    t &&& 1 <<< UInt64.ofNat e ≠ 0 ↔ t.toNat &&& 2 ^ e ≠ 0 := by
  rw [ne_eq, ne_eq, ← UInt64.toNat_inj, UInt64.toNat_and, toNat_one_shl he]
  rfl

theorem exists_hilbertExchange (he : e < 64) (hi : i < x.length) :
    ∃ y, hilbertExchange (1 <<< UInt64.ofNat e) x i = .ok y ∧
      words y = coordExchange (2 ^ e) (words x) i := by
  have h0 : 0 < x.length := Nat.zero_lt_of_lt hi
  have hxi : (Exec.index x i : Result UInt64) = .ok x[i] :=
    Exec.index_eq_ok.mpr (List.getElem?_eq_getElem hi)
  have hx0 : (Exec.index x 0 : Result UInt64) = .ok x[0] :=
    Exec.index_eq_ok.mpr (List.getElem?_eq_getElem h0)
  simp only [hilbertExchange, hxi, hx0, Exec.ok_bind]
  unfold coordExchange
  rw [getD_words hi, getD_words h0]
  by_cases hbit : x[i] &&& 1 <<< UInt64.ofNat e ≠ 0
  · rw [if_pos hbit, if_pos ((and_shl_ne_zero he).mp hbit)]
    refine ⟨_, rfl, ?_⟩
    rw [words_set, UInt64.toNat_xor, toNat_mask he]
  · rw [if_neg hbit, if_neg (mt (and_shl_ne_zero he).mpr hbit)]
    set q := (x[0] ^^^ x[i]) &&& (1 <<< UInt64.ofNat e - 1) with hq
    have hword : q.toNat = (x[0].toNat ^^^ x[i].toNat) &&& (2 ^ e - 1) := by
      rw [hq, UInt64.toNat_and, UInt64.toNat_xor, toNat_mask he]
    have hset : i < (x.set 0 (x[0] ^^^ q)).length := by rwa [List.length_set]
    have hget : (Exec.index (x.set 0 (x[0] ^^^ q)) i : Result UInt64) =
        .ok (x.set 0 (x[0] ^^^ q))[i] :=
      Exec.index_eq_ok.mpr (List.getElem?_eq_getElem hset)
    rw [hget]
    refine ⟨_, rfl, ?_⟩
    rw [words_set, UInt64.toNat_xor, ← getD_words hset, words_set, UInt64.toNat_xor, hword]

theorem exists_hilbertExchanges (he : e < 64) {is : List ℕ} (his : ∀ i ∈ is, i < x.length) :
    ∃ y, is.foldlM (hilbertExchange (1 <<< UInt64.ofNat e)) x = .ok y ∧ y.length = x.length ∧
      bitsOf (words y) = is.foldl (fun X i => exchange e i X) (bitsOf (words x)) := by
  induction is generalizing x with
  | nil => exact ⟨x, rfl, rfl, rfl⟩
  | cons i is ih =>
    obtain ⟨hi, his⟩ := List.forall_mem_cons.mp his
    obtain ⟨y, hy, hwords⟩ := exists_hilbertExchange he hi
    have hlen : y.length = x.length := by
      rw [← length_words (x := y), hwords, length_coordExchange, length_words]
    obtain ⟨z, hz, hlen', hbits⟩ := ih (x := y) (by rwa [hlen])
    refine ⟨z, ?_, hlen'.trans hlen, ?_⟩
    · rw [List.foldlM_cons, hy, Exec.ok_bind, hz]
    · rw [hbits, hwords, bitsOf_coordExchange (by rwa [length_words]), List.foldl_cons]

theorem exists_hilbertRounds (he : e < 64) (hlen : x.length = r) :
    ∃ y, hilbertRounds r e x = .ok y ∧ y.length = r ∧
      bitsOf (words y) = HilbertCurve.descend r e (bitsOf (words x)) := by
  induction e generalizing x with
  | zero => exact ⟨x, rfl, hlen, rfl⟩
  | succ e ih =>
    have hrange : ∀ i ∈ List.range r, i < x.length := by
      intro i hi
      rw [hlen]
      exact List.mem_range.mp hi
    obtain ⟨y, hy, hylen, hybits⟩ := exists_hilbertExchanges he hrange
    obtain ⟨z, hz, hzlen, hzbits⟩ := ih (Nat.lt_of_succ_lt he) (hylen.trans hlen)
    refine ⟨z, ?_, hzlen, ?_⟩
    · rw [hilbertRounds, hy, Exec.ok_bind, hz]
    · rw [hzbits, hybits]
      rfl

/-- The Gray loop over the rows from `s` on, where the rows before are done. -/
theorem exists_hilbertGray (hs : 0 < s) (hn : s + n ≤ x.length)
    (hdone : ∀ k c, k < s → bitsOf (words x) k c = scan X k c)
    (hrest : ∀ k c, s ≤ k → bitsOf (words x) k c = X k c) :
    ∃ y, (List.range' s n).foldlM hilbertGray x = .ok y ∧ y.length = x.length ∧
      ∀ k c, k < s + n → bitsOf (words y) k c = scan X k c := by
  induction n generalizing s x with
  | zero => exact ⟨x, rfl, rfl, hdone⟩
  | succ n ih =>
    have hi : s < x.length := by omega
    have hprev : s - 1 < x.length := by omega
    have hxi : (Exec.index x s : Result UInt64) = .ok x[s] :=
      Exec.index_eq_ok.mpr (List.getElem?_eq_getElem hi)
    have hxp : (Exec.index x (s - 1) : Result UInt64) = .ok x[s - 1] :=
      Exec.index_eq_ok.mpr (List.getElem?_eq_getElem hprev)
    have hstep : hilbertGray x s = .ok (x.set s (x[s] ^^^ x[s - 1])) := by
      rw [hilbertGray, hxi, Exec.ok_bind, hxp, Exec.ok_bind]
      rfl
    have hbits (k c : ℕ) : bitsOf (words (x.set s (x[s] ^^^ x[s - 1]))) k c =
        if k = s then scan X s c else bitsOf (words x) k c := by
      rw [words_set, bitsOf_set (by rwa [length_words]), UInt64.toNat_xor, Nat.testBit_xor,
        ← getD_words hi, ← getD_words hprev]
      obtain ⟨m, rfl⟩ := Nat.exists_eq_succ_of_ne_zero (Nat.ne_of_gt hs)
      have hrow : bitsOf (words x) (m + 1) c = X (m + 1) c := hrest (m + 1) c (Nat.le_refl _)
      have hbefore : bitsOf (words x) m c = scan X m c := hdone m c (Nat.lt_succ_self m)
      rw [scan, ← hrow, ← hbefore, Bool.xor_comm (bitsOf (words x) m c)]
      rfl
    have hdone' : ∀ k c, k < s + 1 →
        bitsOf (words (x.set s (x[s] ^^^ x[s - 1]))) k c = scan X k c := by
      intro k c hk
      rw [hbits]
      split
      · next heq => rw [heq]
      · next hne => exact hdone k c (by omega)
    have hrest' : ∀ k c, s + 1 ≤ k →
        bitsOf (words (x.set s (x[s] ^^^ x[s - 1]))) k c = X k c := by
      intro k c hk
      rw [hbits, if_neg (by omega)]
      exact hrest k c (by omega)
    have hlength : s + 1 + n ≤ (x.set s (x[s] ^^^ x[s - 1])).length := by
      rw [List.length_set]
      omega
    obtain ⟨y, hy, hylen, hybits⟩ := ih (Nat.succ_pos s) hlength hdone' hrest'
    refine ⟨y, ?_, hylen.trans List.length_set, ?_⟩
    · rw [List.range'_succ, List.foldlM_cons, hstep, Exec.ok_bind, hy]
    · intro k c hk
      exact hybits k c (by omega)

theorem exists_hilbertMask (he : e < 64) (hr : 0 < r) (hlen : x.length = r) :
    ∃ m, hilbertMask r x e t = .ok m ∧ ∀ c, m.toNat.testBit c =
      (t.toNat.testBit c ^^ maskBit (bitsOf (words x) (r - 1)) e c) := by
  induction e generalizing t with
  | zero =>
    exact ⟨t, rfl, fun c => (Bool.xor_false _).symm⟩
  | succ e ih =>
    have hlast : r - 1 < x.length := by omega
    have hx : (Exec.index x (r - 1) : Result UInt64) = .ok x[r - 1] :=
      Exec.index_eq_ok.mpr (List.getElem?_eq_getElem hlast)
    have hrow : bitsOf (words x) (r - 1) (e + 1) = x[r - 1].toNat.testBit (e + 1) := by
      rw [← getD_words hlast]
      rfl
    obtain ⟨m, hm, hbits⟩ := ih (t := if x[r - 1] &&& 1 <<< UInt64.ofNat (e + 1) ≠ 0 then
      t ^^^ (1 <<< UInt64.ofNat (e + 1) - 1) else t) (Nat.lt_of_succ_lt he)
    refine ⟨m, ?_, ?_⟩
    · have hplace : (Exec.subSize r 1 : Result ℕ) = .ok (r - 1) := Exec.subSize_eq_ok.mpr ⟨hr, rfl⟩
      rw [hilbertMask, hplace, Exec.ok_bind, hx, Exec.ok_bind]
      exact hm
    · intro c
      rw [hbits, maskBit, ← Bool.xor_assoc]
      congr 1
      by_cases hbit : x[r - 1] &&& 1 <<< UInt64.ofNat (e + 1) ≠ 0
      · have htrue := and_two_pow_ne_zero.mp ((and_shl_ne_zero he).mp hbit)
        rw [if_pos hbit, UInt64.toNat_xor, Nat.testBit_xor, toNat_mask he,
          Nat.testBit_two_pow_sub_one, hrow, htrue, Bool.true_and]
      · have hfalse : x[r - 1].toNat.testBit (e + 1) = false :=
          Bool.eq_false_iff.mpr fun h => hbit ((and_shl_ne_zero he).mpr (and_two_pow_ne_zero.mpr h))
        rw [if_neg hbit, hrow, hfalse, Bool.false_and, Bool.xor_false]

def hilbertPlaces (x : List UInt64) (r p : ℕ) : List (Bool × ℕ) :=
  (List.range p).flatMap fun b =>
    x.zipIdx.map fun c => (c.1.toNat.testBit b, codePlace r c.2 b)

theorem mem_hilbertPlaces {q : Bool × ℕ} : q ∈ hilbertPlaces x r p ↔
    ∃ b d v, b < p ∧ x[d]? = some v ∧ q = (v.toNat.testBit b, codePlace r d b) := by
  simp only [hilbertPlaces, List.mem_flatMap, List.mem_map, List.mem_range]
  constructor
  · intro h
    obtain ⟨b, hb, ⟨v, d⟩, hmem, rfl⟩ := h
    exact ⟨b, d, v, hb, List.mem_zipIdx_iff_getElem?.mp hmem, rfl⟩
  · intro h
    obtain ⟨b, d, v, hb, hv, rfl⟩ := h
    exact ⟨b, hb, (v, d), List.mem_zipIdx_iff_getElem?.mpr hv, rfl⟩

theorem hilbertBit_eq {b : ℕ} {h : UInt64} {c : UInt64 × ℕ} (hb : b < 64) (hd : c.2 < r) :
    hilbertBit r b h c =
      setBit .indexArithmeticOverflow h (c.1.toNat.testBit b, codePlace r c.2 b) := by
  have hhigh : (Exec.subSize r 1 : Result ℕ) = .ok (r - 1) := if_pos (by omega)
  have hlow : (Exec.subSize (r - 1) c.2 : Result ℕ) = .ok (r - 1 - c.2) := if_pos (by omega)
  rw [hilbertBit, Exec.shr, if_pos hb, Exec.ok_bind, hhigh, Exec.ok_bind, hlow, Exec.ok_bind,
    setBit]
  show (Exec.reject (codePlace r c.2 b ≥ 64) _ >>= fun _ => _) = _
  by_cases hplace : codePlace r c.2 b < 64
  · rw [Exec.reject_of_not (Nat.not_le.mpr hplace), Exec.ok_bind, if_pos hplace]
    show (Exec.shl _ (codePlace r c.2 b) >>= fun _ => _) = _
    rw [Exec.shl, if_pos hplace, Exec.ok_bind, or_bit_eq hb hplace]
    rfl
  · rw [Exec.reject, if_pos (Nat.le_of_not_lt hplace), Exec.fail_bind, if_neg hplace]

/-- The packing: the word whose bits are those of the coordinates, all at different places. -/
theorem exists_hilbertPack (hlen : x.length = r) (hfits : r * p ≤ 64) (hr : 0 < r) :
    ∃ h : UInt64, (List.range p).foldlM (fun h b => x.zipIdx.foldlM (hilbertBit r b) h) 0 = .ok h ∧
      h.toNat < 2 ^ (r * p) ∧
      ∀ k c, k < r → c < p → h.toNat.testBit (codePlace r k c) = bitsOf (words x) k c := by
  have hbound : ∀ q ∈ hilbertPlaces x r p, q.2 < r * p := by
    intro q hq
    obtain ⟨b, d, v, hb, hv, rfl⟩ := mem_hilbertPlaces.mp hq
    exact HilbertCurve.codePlace_lt (hlen ▸ (List.getElem?_eq_some_iff.mp hv).1) hb
  have hword : ∀ q ∈ hilbertPlaces x r p, q.2 < 64 := fun q hq => (hbound q hq).trans_le hfits
  have hloop : (List.range p).foldlM (fun h b => x.zipIdx.foldlM (hilbertBit r b) h) 0 =
      (hilbertPlaces x r p).foldlM (setBit Error.indexArithmeticOverflow) 0 := by
    rw [hilbertPlaces, foldlM_flatMap]
    apply foldlM_congr
    intro b hb h
    rw [List.foldlM_map]
    apply foldlM_congr
    intro c hc h
    have hd : c.2 < r := hlen ▸ (List.mem_zipIdx' hc).1
    have hb64 : b < 64 := by
      have hle : p ≤ r * p := Nat.le_mul_of_pos_left p hr
      have hlt := List.mem_range.mp hb
      omega
    exact hilbertBit_eq hb64 hd
  refine ⟨UInt64.ofNat (place (hilbertPlaces x r p)), ?_, ?_, ?_⟩
  · rw [hloop, setBit_eq_place hword]
  · rw [toNat_ofNat_place hword, place_lt_iff]
    exact fun n hn => hbound _ hn
  · intro k c hk hc
    have hx : x[k]? = some x[k] := List.getElem?_eq_getElem (hlen ▸ hk)
    rw [toNat_ofNat_place hword, Bool.eq_iff_iff, testBit_place, mem_hilbertPlaces]
    unfold bitsOf
    rw [getD_words (hlen ▸ hk)]
    constructor
    · intro h
      obtain ⟨b, d, v, hb, hv, heq⟩ := h
      obtain ⟨hbit, hplace⟩ := Prod.mk.inj heq
      obtain ⟨rfl, rfl⟩ := HilbertCurve.codePlace_inj hk
        (hlen ▸ (List.getElem?_eq_some_iff.mp hv).1) hplace
      obtain rfl : x[k] = v := Option.some.inj (hx.symm.trans hv)
      exact hbit.symm
    · intro h
      exact ⟨c, k, x[k], hc, hx, by rw [h]⟩

end Machine

/-! ### The bijection -/

section Bijection
variable {l : HilbertLayout} {index index' : List UInt64} {shape : Shape} {r p : ℕ}

/-- The shape of the cube of the order `p` and the rank `r`. -/
def Shape.IsCube (shape : Shape) (r p : ℕ) : Prop :=
  shape.dims = List.replicate r (UInt64.ofNat (2 ^ p))

theorem ValidIndex.inside (h : ValidIndex index shape) (hcube : shape.IsCube r p) (hp : p < 64) :
    HilbertCurve.Inside r p (bitsOf (words index)) := by
  have hlen : index.length = r := by
    rw [h.length_eq, ← Shape.length_dims, hcube, List.length_replicate]
  intro k c hout
  by_cases hk : k < r
  · have hindex : k < index.length := by rwa [hlen]
    obtain ⟨dim, hdim, _, hlt⟩ := h.getElem? (List.getElem?_eq_getElem hindex)
    have hpow : dim.toNat = 2 ^ p := by
      rw [hcube] at hdim
      rw [List.eq_of_mem_replicate (List.mem_of_getElem? hdim)]
      exact UInt64.toNat_ofNat_of_lt' (Nat.pow_lt_pow_right Nat.one_lt_two hp)
    have hc : p ≤ c := by
      by_contra hlt
      exact hout ⟨hk, Nat.lt_of_not_le hlt⟩
    unfold bitsOf
    rw [getD_words hindex]
    exact Nat.testBit_lt_two_pow
      ((hpow ▸ hlt).trans_le (Nat.pow_le_pow_right Nat.two_pos hc))
  · unfold bitsOf
    rw [List.getD_eq_default _ _ (by rw [length_words, hlen]; exact Nat.le_of_not_lt hk),
      Nat.zero_testBit]

/-- The offset of an index of the cube, which the inverse mapping takes back to the index. -/
theorem HilbertLayout.exists_elementOffset (hwf : l.WellFormed)
    (hfits : l.hilbertRank.toNat * l.hilbertOrder.toNat ≤ 64)
    (hcube : shape.IsCube l.hilbertRank.toNat l.hilbertOrder.toNat)
    (hvalid : ValidIndex index shape) :
    ∃ h, l.elementOffset index shape = .ok h ∧
      h.toNat < 2 ^ (l.hilbertRank.toNat * l.hilbertOrder.toNat) ∧
      hilbertToCoords h.toNat l.hilbertRank.toNat l.hilbertOrder.toNat = words index := by
  have hrank : 2 ≤ l.hilbertRank.toNat := UInt32.not_lt.mp hwf.rank_ge
  have horder : 0 < l.hilbertOrder.toNat :=
    Nat.pos_of_ne_zero fun h => hwf.order_ne (UInt32.toNat_inj.mp h)
  unfold HilbertLayout.elementOffset
  generalize l.hilbertRank.toNat = r at *
  generalize l.hilbertOrder.toNat = p at *
  have hp : p < 64 := by
    have hle : 2 * p ≤ r * p := Nat.mul_le_mul_right p hrank
    omega
  have hlen : index.length = r := by
    rw [hvalid.length_eq, ← Shape.length_dims, hcube, List.length_replicate]
  have hr : 0 < r := by omega
  have hinside := (hvalid.inside hcube hp).descend (show p - 1 < p by omega)
  obtain ⟨y, hy, hylen, hybits⟩ := exists_hilbertRounds (show p - 1 < 64 by omega) hlen
  rw [← hybits] at hinside
  obtain ⟨z, hz, hzlen, hzbits⟩ := exists_hilbertGray (x := y) (X := bitsOf (words y))
    (s := 1) (n := r - 1) Nat.one_pos (by omega)
    (fun k c hk => by rw [Nat.lt_one_iff.mp hk]; rfl) (fun k c _ => rfl)
  have hzr : z.length = r := hzlen.trans hylen
  obtain ⟨t, ht, htbits⟩ := exists_hilbertMask (x := z) (t := 0) (show p - 1 < 64 by omega) hr hzr
  obtain ⟨h, hh, hlt, hplaces⟩ := exists_hilbertPack (x := z.map (· ^^^ t))
    (by rwa [List.length_map]) hfits hr
  refine ⟨h, ?_, hlt, ?_⟩
  · have hok : validateIndex index shape = .ok () := validateIndex_eq_ok.mpr hvalid
    have hsub : (Exec.subSize p 1 : Result ℕ) = .ok (p - 1) := if_pos (by omega)
    have hshl : (Exec.shl 1 (p - 1) : Result UInt64) = .ok (1 <<< UInt64.ofNat (p - 1)) :=
      if_pos (by omega)
    have hguard : ¬ r * p > 64 := Nat.not_lt.mpr hfits
    simp only [hok, Exec.reject_of_not hguard, hsub, hshl, hy, hz, ht, Exec.ok_bind,
      List.take_of_length_le (Nat.le_of_eq hzr)]
    exact hh
  · have hdecode : HilbertCurve.decode r p h.toNat = bitsOf (words y) := by
      apply HilbertCurve.decode_eq hr hinside hlt
      intro k c hk hc
      have hkz : k < (z.map (· ^^^ t)).length := by rwa [List.length_map, hzr]
      have hrow : bitsOf (words z) (r - 1) = scan (bitsOf (words y)) (r - 1) :=
        funext fun c => hzbits (r - 1) c (by omega)
      rw [hplaces k c hk hc, ← hzbits k c (by omega), ← hrow]
      have hmask : t.toNat.testBit c = maskBit (bitsOf (words z) (r - 1)) (p - 1) c := by
        rw [htbits, UInt64.toNat_zero, Nat.zero_testBit, Bool.false_xor]
      unfold bitsOf at hmask ⊢
      rw [getD_words hkz, List.getElem_map, UInt64.toNat_xor, Nat.testBit_xor, hmask,
        ← getD_words (by rwa [hzr])]
    apply eq_of_bitsOf
    · rw [length_hilbertToCoords hr, length_words, hlen]
    · rw [bitsOf_hilbertToCoords hr hlt, hdecode, hybits, HilbertCurve.ascend_descend]

theorem words_injective : Function.Injective words :=
  List.map_injective_iff.mpr fun _ _ => UInt64.toNat_inj.mp

/-- The number of an offset, and zero for an index without one. -/
def HilbertLayout.offsetNumber (l : HilbertLayout) (shape : Shape) (index : List UInt64) : ℕ :=
  match l.elementOffset index shape with
  | .ok h => h.toNat
  | .error _ => 0

theorem HilbertLayout.offsetNumber_of_ok {h : UInt64} (hok : l.elementOffset index shape = .ok h) :
    l.offsetNumber shape index = h.toNat := by
  unfold offsetNumber
  rw [hok]

theorem Shape.IsCube.elementProduct (hcube : shape.IsCube r p) (hp : p < 64) :
    shape.elementProduct = 2 ^ (r * p) := by
  have hside : (UInt64.ofNat (2 ^ p)).toNat = 2 ^ p :=
    UInt64.toNat_ofNat_of_lt' (Nat.pow_lt_pow_right Nat.one_lt_two hp)
  rw [Shape.elementProduct, hcube, List.map_replicate, hside, List.prod_replicate, ← pow_mul,
    Nat.mul_comm]

theorem Shape.IsCube.static (hcube : shape.IsCube r p) (hp : p < 64) : DYNAMIC ∉ shape.dims := by
  rw [hcube]
  intro hmem
  have hside : (UInt64.ofNat (2 ^ p)).toNat = 2 ^ p :=
    UInt64.toNat_ofNat_of_lt' (Nat.pow_lt_pow_right Nat.one_lt_two hp)
  have hdynamic : 2 ^ p = 2 ^ 64 - 1 := by
    rw [← hside, ← List.eq_of_mem_replicate hmem]
    rfl
  cases p with
  | zero => exact absurd hdynamic (by decide)
  | succ p =>
    rw [Nat.pow_succ] at hdynamic
    omega

/-- By counting: the cube has as many indices as there are offsets, and no two share one. -/
theorem HilbertLayout.bijOn_offsetNumber (hwf : l.WellFormed)
    (hfits : l.hilbertRank.toNat * l.hilbertOrder.toNat ≤ 64)
    (hcube : shape.IsCube l.hilbertRank.toNat l.hilbertOrder.toNat) :
    Set.BijOn (l.offsetNumber shape) {index | ValidIndex index shape}
      (Set.Iio (2 ^ (l.hilbertRank.toNat * l.hilbertOrder.toNat))) := by
  have hp : l.hilbertOrder.toNat < 64 := by
    have hrank : 2 ≤ l.hilbertRank.toNat := UInt32.not_lt.mp hwf.rank_ge
    have hle := Nat.mul_le_mul_right l.hilbertOrder.toNat hrank
    omega
  have hcount := bijOn_colMajorSum (hcube.static hp)
  rw [hcube.elementProduct hp] at hcount
  have hmaps : Set.MapsTo (l.offsetNumber shape) {index | ValidIndex index shape}
      (Set.Iio (2 ^ (l.hilbertRank.toNat * l.hilbertOrder.toNat))) := by
    intro index hvalid
    obtain ⟨h, hok, hlt, _⟩ := HilbertLayout.exists_elementOffset hwf hfits hcube hvalid
    rw [HilbertLayout.offsetNumber_of_ok hok]
    exact hlt
  have hinj : Set.InjOn (l.offsetNumber shape) {index | ValidIndex index shape} := by
    intro index hvalid index' hvalid' heq
    obtain ⟨h, hok, _, hback⟩ := HilbertLayout.exists_elementOffset hwf hfits hcube hvalid
    obtain ⟨h', hok', _, hback'⟩ := HilbertLayout.exists_elementOffset hwf hfits hcube hvalid'
    rw [HilbertLayout.offsetNumber_of_ok hok, HilbertLayout.offsetNumber_of_ok hok'] at heq
    rw [heq, hback'] at hback
    exact words_injective hback.symm
  refine ⟨hmaps, hinj, ?_⟩
  have himage : l.offsetNumber shape '' {index | ValidIndex index shape} =
      Set.Iio (2 ^ (l.hilbertRank.toNat * l.hilbertOrder.toNat)) := by
    apply Set.eq_of_subset_of_ncard_le hmaps.image_subset
    rw [hinj.ncard_image, ← hcount.image_eq, hcount.injOn.ncard_image]
  exact himage.ge

/-- The Hilbert index numbers the cube, and the inverse mapping of the specification undoes it. -/
theorem HilbertLayout.elementOffset_bijective (order rank : UInt32) (l : HilbertLayout)
    (shape : Shape) (hnew : HilbertLayout.new order rank = .ok l)
    (hfits : rank.toNat * order.toNat ≤ 64) (hcube : shape.IsCube rank.toNat order.toNat) :
    (∀ index, ValidIndex index shape → ∃ h, l.elementOffset index shape = .ok h ∧
      h.toNat < 2 ^ (rank.toNat * order.toNat) ∧
      hilbertToCoords h.toNat rank.toNat order.toNat = words index) ∧
    (∀ n < 2 ^ (rank.toNat * order.toNat),
      ∃! index, ValidIndex index shape ∧ l.elementOffset index shape = .ok (UInt64.ofNat n)) := by
  obtain ⟨rfl, rfl, hwf⟩ := HilbertLayout.new_eq_ok.mp hnew
  refine ⟨fun index => HilbertLayout.exists_elementOffset hwf hfits hcube, ?_⟩
  intro n hn
  obtain ⟨index, hvalid, hindex⟩ := (HilbertLayout.bijOn_offsetNumber hwf hfits hcube).surjOn hn
  obtain ⟨h, hok, _, hback⟩ := HilbertLayout.exists_elementOffset hwf hfits hcube hvalid
  have hh : h = UInt64.ofNat n := by
    rw [← hindex, HilbertLayout.offsetNumber_of_ok hok, UInt64.ofNat_toNat]
  refine ⟨index, ⟨hvalid, hh ▸ hok⟩, ?_⟩
  intro index' h'
  obtain ⟨hvalid', hok'⟩ := h'
  obtain ⟨h', hok'', _, hback'⟩ := HilbertLayout.exists_elementOffset hwf hfits hcube hvalid'
  rw [hok'] at hok''
  cases hok''
  rw [hh, hback'] at hback
  exact words_injective hback

/-- The square of the specification's conformance table. -/
def hilbertSquare : Shape := ⟨[4, 4], two_le_maxRank⟩

theorem elementOffset_bijective_hilbertSquare :
    (∀ index, ValidIndex index hilbertSquare → ∃ h,
      HilbertLayout.elementOffset ⟨2, 2⟩ index hilbertSquare = .ok h ∧ h.toNat < 16 ∧
      hilbertToCoords h.toNat 2 2 = words index) ∧
    (∀ n < 16, ∃! index, ValidIndex index hilbertSquare ∧
      HilbertLayout.elementOffset ⟨2, 2⟩ index hilbertSquare = .ok (UInt64.ofNat n)) :=
  HilbertLayout.elementOffset_bijective 2 2 ⟨2, 2⟩ hilbertSquare (by decide) (by decide) rfl

end Bijection

/-! ### Locality -/

section Locality
variable {l : HilbertLayout} {shape : Shape} {m r p : ℕ}

/-- The indices agree but for one component, which differs by one. -/
def Adjacent (index index' : List ℕ) : Prop :=
  ∃ k, (∀ i, i ≠ k → index'.getD i 0 = index.getD i 0) ∧
    (index'.getD k 0 = index.getD k 0 + 1 ∨ index.getD k 0 = index'.getD k 0 + 1)

/-- The inverse mapping takes consecutive numbers to adjacent indices. -/
theorem adjacent_hilbertToCoords (hr : 0 < r) (hm : m + 1 < 2 ^ (r * p)) :
    Adjacent (hilbertToCoords m r p) (hilbertToCoords (m + 1) r p) := by
  obtain ⟨d, b, hd, hb, hturn⟩ : ∃ d b, d < r ∧ b < p ∧
      HilbertCurve.Turn r d b (HilbertCurve.decode r p m) (HilbertCurve.decode r p (m + 1)) := by
    obtain ⟨j, hj⟩ := HilbertCurve.exists_carry m
    have hplace : j < r * p := by
      by_contra hge
      have hpow : 2 ^ (r * p) ≤ 2 ^ j := Nat.pow_le_pow_right Nat.two_pos (Nat.le_of_not_lt hge)
      have hfalse : (m + 1).testBit j = false := Nat.testBit_lt_two_pow (hm.trans_le hpow)
      rw [hj.set] at hfalse
      cases hfalse
    obtain ⟨d, b, hd, hb, rfl⟩ := HilbertCurve.exists_codePlace hplace
    exact ⟨d, b, hd, hb, hj.turn hd hb⟩
  obtain ⟨k, hnext⟩ := HilbertCurve.exists_next_ascend ⟨d, hturn.next_ascend hd⟩
    (show b ≤ p - 1 by omega)
  refine ⟨k, hnext.values ?_ ?_⟩
  · intro i c
    rw [← bitsOf_hilbertToCoords hr (Nat.lt_of_succ_lt hm)]
    rfl
  · intro i c
    rw [← bitsOf_hilbertToCoords hr hm]
    rfl

/-- The indices of consecutive offsets are adjacent. -/
theorem HilbertLayout.elementOffset_local (order rank : UInt32) (l : HilbertLayout)
    (shape : Shape) (hnew : HilbertLayout.new order rank = .ok l)
    (hfits : rank.toNat * order.toNat ≤ 64) (hcube : shape.IsCube rank.toNat order.toNat)
    (index index' : List UInt64) (h h' : UInt64)
    (hok : l.elementOffset index shape = .ok h) (hok' : l.elementOffset index' shape = .ok h')
    (hconsecutive : h'.toNat = h.toNat + 1) : Adjacent (words index) (words index') := by
  obtain ⟨rfl, rfl, hwf⟩ := HilbertLayout.new_eq_ok.mp hnew
  have hrank : 2 ≤ l.hilbertRank.toNat := UInt32.not_lt.mp hwf.rank_ge
  have hvalid (i : List UInt64) (v : UInt64) (hi : l.elementOffset i shape = .ok v) :
      ValidIndex i shape := by
    obtain ⟨_, hcheck, _⟩ := Exec.bind_eq_ok.mp hi
    exact validateIndex_eq_ok.mp hcheck
  obtain ⟨v, hv, _, hback⟩ :=
    HilbertLayout.exists_elementOffset hwf hfits hcube (hvalid index h hok)
  obtain ⟨v', hv', hlt', hback'⟩ :=
    HilbertLayout.exists_elementOffset hwf hfits hcube (hvalid index' h' hok')
  cases hok.symm.trans hv
  cases hok'.symm.trans hv'
  rw [hconsecutive] at hback' hlt'
  rw [← hback, ← hback']
  exact adjacent_hilbertToCoords (by omega) hlt'

theorem elementOffset_local_hilbertSquare :
    Adjacent (words [2, 1]) (words [2, 0]) :=
  HilbertLayout.elementOffset_local 2 2 ⟨2, 2⟩ hilbertSquare (by decide) (by decide) rfl
    [2, 1] [2, 0] 13 14 (by decide +kernel) (by decide +kernel) (by decide)

end Locality
end Hurray.Core
