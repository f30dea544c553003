import Mathlib.Data.Nat.Basic
import Mathlib.Tactic.Common

/-!
Binary search. What is searched is a function that says how each place compares with
the target; both loops look at a place in the middle of those that are left. They
differ in what they do at a match: one stops, the other goes on to a last place.
-/
namespace Hurray.Base

/-- First come the places below the target, then those at it, then those above. -/
structure Ordered (f : ℕ → Ordering) (n : ℕ) : Prop where
  below : ∀ i j, i ≤ j → j < n → f j = .lt → f i = .lt
  above : ∀ i j, i ≤ j → j < n → f i = .gt → f j = .gt

section Loops
variable {f : ℕ → Ordering} {n k lo hi size start : ℕ}

/-- The loop that keeps the half that still can have the target, down to one place. -/
def halve (f : ℕ → Ordering) (size start : ℕ) : ℕ :=
  if 1 < size then
    halve f (size - size / 2) (if f (start + size / 2) = .gt then start else start + size / 2)
  else start
termination_by size

def search (f : ℕ → Ordering) (n : ℕ) : Option ℕ :=
  if n = 0 then none else if f (halve f n 0) = .eq then some (halve f n 0) else none

/-- The loop over a half-open interval, which stops at a match. -/
def bisect (f : ℕ → Ordering) (lo hi : ℕ) : Option ℕ :=
  if lo < hi then
    match f (lo + (hi - lo) / 2) with
    | .lt => bisect f (lo + (hi - lo) / 2 + 1) hi
    | .gt => bisect f lo (lo + (hi - lo) / 2)
    | .eq => some (lo + (hi - lo) / 2)
  else none
termination_by hi - lo

theorem halve_within (h : 0 < size) :
    start ≤ halve f size start ∧ halve f size start < start + size := by
  induction size, start using halve.induct f with
  | case1 size start hlt ih =>
    rw [halve, if_pos hlt]
    by_cases hgt : f (start + size / 2) = .gt
    · simp only [hgt, if_true, dif_pos] at ih ⊢
      have hbounds := ih (by omega)
      omega
    · simp only [hgt, if_false, dif_neg, not_false_eq_true] at ih ⊢
      have hbounds := ih (by omega)
      omega
  | case2 size start hle =>
    rw [halve, if_neg hle]
    omega

/-- A match that is among the places is found, though not always the same one. -/
theorem halve_finds (h : Ordered f n) (hn : start + size ≤ n) (hk : start ≤ k)
    (hlt : k < start + size) (hf : f k = .eq) : f (halve f size start) = .eq := by
  induction size, start using halve.induct f generalizing k with
  | case1 size start hsize ih =>
    rw [halve, if_pos hsize]
    by_cases hgt : f (start + size / 2) = .gt
    · simp only [hgt, if_true, dif_pos] at ih ⊢
      have hbefore : k < start + size / 2 := by
        by_contra hafter
        have habove := h.above (start + size / 2) k (by omega) (by omega) hgt
        rw [hf] at habove
        cases habove
      exact ih (by omega) hk (by omega) hf
    · simp only [hgt, if_false, dif_neg, not_false_eq_true] at ih ⊢
      by_cases hafter : start + size / 2 ≤ k
      · exact ih (by omega) hafter (by omega) hf
      · -- The middle is not below the match before it, so it is a match itself.
        have hmid : f (start + size / 2) = .eq := by
          cases hcmp : f (start + size / 2) with
          | lt =>
            have hbelow := h.below k (start + size / 2) (by omega) (by omega) hcmp
            rw [hf] at hbelow
            cases hbelow
          | eq => rfl
          | gt => exact absurd hcmp hgt
        exact ih (by omega) le_rfl (by omega) hmid
  | case2 size start hsize =>
    rw [halve, if_neg hsize]
    have hone : k = start := by omega
    exact hone ▸ hf

theorem search_sound (h : search f n = some k) : k < n ∧ f k = .eq := by
  unfold search at h
  split_ifs at h with hn hf
  obtain rfl := Option.some_inj.mp h
  have hwithin : 0 ≤ halve f n 0 ∧ halve f n 0 < 0 + n := halve_within (by omega)
  exact ⟨by omega, hf⟩

theorem search_finds (h : Ordered f n) (hk : k < n) (hf : f k = .eq) : ∃ j, search f n = some j := by
  have hfound : f (halve f n 0) = .eq :=
    halve_finds h (by omega) (Nat.zero_le k) (by omega) hf
  rw [search, if_neg (by omega), if_pos hfound]
  exact ⟨_, rfl⟩

theorem bisect_sound (h : bisect f lo hi = some k) : lo ≤ k ∧ k < hi ∧ f k = .eq := by
  induction lo, hi using bisect.induct f with
  | case1 lo hi hlt hcmp ih =>
    rw [bisect, if_pos hlt, hcmp] at h
    obtain ⟨hlo, hhi, hfound⟩ := ih h
    exact ⟨by omega, hhi, hfound⟩
  | case2 lo hi hlt hcmp ih =>
    rw [bisect, if_pos hlt, hcmp] at h
    obtain ⟨hlo, hhi, hfound⟩ := ih h
    exact ⟨hlo, by omega, hfound⟩
  | case3 lo hi hlt hcmp =>
    rw [bisect, if_pos hlt, hcmp] at h
    obtain rfl := Option.some_inj.mp h
    exact ⟨by omega, by omega, hcmp⟩
  | case4 lo hi hle =>
    rw [bisect, if_neg hle] at h
    cases h

theorem bisect_finds (h : Ordered f n) (hn : hi ≤ n) (hk : lo ≤ k) (hlt : k < hi)
    (hf : f k = .eq) : ∃ j, bisect f lo hi = some j := by
  induction lo, hi using bisect.induct f with
  | case1 lo hi hle hcmp ih =>
    rw [bisect, if_pos hle, hcmp]
    have hafter : lo + (hi - lo) / 2 < k := by
      by_contra hbefore
      have hbelow := h.below k (lo + (hi - lo) / 2) (by omega) (by omega) hcmp
      rw [hf] at hbelow
      cases hbelow
    exact ih hn hafter hlt
  | case2 lo hi hle hcmp ih =>
    rw [bisect, if_pos hle, hcmp]
    have hbefore : k < lo + (hi - lo) / 2 := by
      by_contra hafter
      have habove := h.above (lo + (hi - lo) / 2) k (by omega) (by omega) hcmp
      rw [hf] at habove
      cases habove
    exact ih (by omega) hk hbefore
  | case3 lo hi hle hcmp =>
    rw [bisect, if_pos hle, hcmp]
    exact ⟨_, rfl⟩
  | case4 lo hi hle => omega

end Loops

section Lists
variable {α : Type} [Ord α] {xs : List α} {x : α} {k : ℕ}

/-- How the place of a list compares with the target; past the end it is above. -/
def compareAt (xs : List α) (x : α) (k : ℕ) : Ordering := (xs[k]?).elim .gt (compare · x)

/-- The search of a sorted list. -/
def binarySearch (xs : List α) (x : α) : Option ℕ := search (compareAt xs x) xs.length

theorem compareAt_eq [Std.LawfulEqOrd α] : compareAt xs x k = .eq ↔ xs[k]? = some x := by
  unfold compareAt
  cases xs[k]? <;> simp

theorem ordered_compareAt [Std.TransOrd α] (h : xs.Pairwise (compare · · = .lt)) :
    Ordered (compareAt xs x) xs.length := by
  have hsorted : ∀ i j (hi : i < xs.length) (hj : j < xs.length), i < j →
      compare xs[i] xs[j] = .lt := fun i j hi hj hij => List.pairwise_iff_getElem.mp h i j hi hj hij
  constructor
  · intro i j hij hj hcmp
    rcases Nat.eq_or_lt_of_le hij with rfl | hlt
    · exact hcmp
    · have hi : i < xs.length := by omega
      simp only [compareAt, List.getElem?_eq_getElem hi, List.getElem?_eq_getElem hj,
        Option.elim_some] at hcmp ⊢
      exact Std.TransCmp.lt_trans (hsorted i j hi hj hlt) hcmp
  · intro i j hij hj hcmp
    rcases Nat.eq_or_lt_of_le hij with rfl | hlt
    · exact hcmp
    · have hi : i < xs.length := by omega
      simp only [compareAt, List.getElem?_eq_getElem hi, List.getElem?_eq_getElem hj,
        Option.elim_some] at hcmp ⊢
      rw [Std.OrientedCmp.gt_iff_lt] at hcmp ⊢
      exact Std.TransCmp.lt_trans hcmp (hsorted i j hi hj hlt)

/-- A target that is found is there, in any list. -/
theorem binarySearch_sound [Std.LawfulEqOrd α] (h : binarySearch xs x = some k) :
    xs[k]? = some x :=
  compareAt_eq.mp (search_sound h).2

theorem nodup_of_sorted [Std.LawfulEqOrd α] (h : xs.Pairwise (compare · · = .lt)) : xs.Nodup := by
  apply h.imp
  intro a b hlt hsame
  have hself : compare b b = .eq := Std.ReflCmp.compare_self
  rw [hsame, hself] at hlt
  cases hlt

/-- In a sorted list the target is found where it is. -/
theorem binarySearch_eq_some [Std.TransOrd α] [Std.LawfulEqOrd α]
    (h : xs.Pairwise (compare · · = .lt)) : binarySearch xs x = some k ↔ xs[k]? = some x := by
  constructor
  · exact binarySearch_sound
  · intro hk
    have hlt := (List.getElem?_eq_some_iff.mp hk).1
    obtain ⟨j, hj⟩ := search_finds (ordered_compareAt h) hlt (compareAt_eq.mpr hk)
    have hsame : k = j :=
      (List.getElem?_inj hlt (nodup_of_sorted h)).mp (hk.trans (binarySearch_sound hj).symm)
    exact hsame ▸ hj

/-- So it is by the loop over a half-open interval. -/
theorem bisect_compareAt [Std.TransOrd α] [Std.LawfulEqOrd α]
    (h : xs.Pairwise (compare · · = .lt)) :
    bisect (compareAt xs x) 0 xs.length = some k ↔ xs[k]? = some x := by
  constructor
  · intro hk
    exact compareAt_eq.mp (bisect_sound hk).2.2
  · intro hk
    have hlt := (List.getElem?_eq_some_iff.mp hk).1
    obtain ⟨j, hj⟩ :=
      bisect_finds (ordered_compareAt h) le_rfl (Nat.zero_le k) hlt (compareAt_eq.mpr hk)
    have hfound := compareAt_eq.mp (bisect_sound hj).2.2
    have hsame : k = j := (List.getElem?_inj hlt (nodup_of_sorted h)).mp (hk.trans hfound.symm)
    exact hsame ▸ hj

end Lists
end Hurray.Base
