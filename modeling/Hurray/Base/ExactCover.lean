import Mathlib.Algebra.BigOperators.Group.Finset.Basic
import Mathlib.Algebra.GroupWithZero.Nat
import Mathlib.Data.Fintype.BigOperators
import Mathlib.Order.Interval.Finset.Nat

/-!
Boxes of natural numbers in any finite number of dimensions, and families of
finite sets that cover a set exactly. A family of disjoint parts covers a set if
and only if their sizes add up to its size.
-/
namespace Hurray.Base

/-! ### Boxes -/

/-- In each dimension the numbers from `lo` on, `size` of them. -/
structure Box (ι : Type) where
  lo : ι → ℕ
  size : ι → ℕ

namespace Box
variable {ι : Type} [Fintype ι] [DecidableEq ι] {a b : Box ι}

def cells (b : Box ι) : Finset (ι → ℕ) :=
  Fintype.piFinset fun k => Finset.Ico (b.lo k) (b.lo k + b.size k)

theorem mem_cells {x : ι → ℕ} : x ∈ b.cells ↔ ∀ k, b.lo k ≤ x k ∧ x k < b.lo k + b.size k := by
  simp only [cells, Fintype.mem_piFinset, Finset.mem_Ico]

theorem card_cells (b : Box ι) : b.cells.card = ∏ k, b.size k := by
  rw [cells, Fintype.card_piFinset]
  apply Finset.prod_congr rfl
  intro k _
  rw [Nat.card_Ico, Nat.add_sub_cancel_left]

/-- In each dimension the boxes begin before the other ends. -/
def Meets (a b : Box ι) : Prop :=
  ∀ k, a.lo k < b.lo k + b.size k ∧ b.lo k < a.lo k + a.size k

theorem disjoint_of_not_meets (h : ¬ a.Meets b) : Disjoint a.cells b.cells := by
  rw [Finset.disjoint_left]
  intro x ha hb
  apply h
  intro k
  have hak := mem_cells.mp ha k
  have hbk := mem_cells.mp hb k
  omega

/-- Boxes that meet have a cell in common, if no dimension of either is empty. -/
theorem exists_of_meets (h : a.Meets b) (ha : ∀ k, 0 < a.size k) (hb : ∀ k, 0 < b.size k) :
    ∃ x, x ∈ a.cells ∧ x ∈ b.cells := by
  refine ⟨fun k => max (a.lo k) (b.lo k), mem_cells.mpr ?_, mem_cells.mpr ?_⟩
  · intro k
    have hk := h k
    have hpos := ha k
    omega
  · intro k
    have hk := h k
    have hpos := hb k
    omega

/-- A box lies within the box of a size that begins at the origin. -/
theorem cells_subset {whole : ι → ℕ} (h : ∀ k, b.lo k + b.size k ≤ whole k) :
    b.cells ⊆ (⟨fun _ => 0, whole⟩ : Box ι).cells := by
  intro x hx
  rw [mem_cells] at hx ⊢
  intro k
  have hxk := hx k
  have hk := h k
  dsimp only
  omega

end Box

/-! ### Exact covers -/

section Cover
variable {α : Type} [DecidableEq α] {parts : List (Finset α)} {whole : Finset α}

/-- Every element of the whole is in exactly one of the parts, counted by their places. -/
def ExactCover (parts : List (Finset α)) (whole : Finset α) : Prop :=
  ∀ x ∈ whole, ∃! i : ℕ, ∃ part, parts[i]? = some part ∧ x ∈ part

omit [DecidableEq α] in
theorem ExactCover.exists_part (h : ExactCover parts whole) {x : α} (hx : x ∈ whole) :
    ∃ part ∈ parts, x ∈ part := by
  obtain ⟨i, ⟨part, hpart, hxp⟩, -⟩ := h x hx
  exact ⟨part, List.mem_of_getElem? hpart, hxp⟩

/-- The union of some parts. -/
def union (parts : List (Finset α)) : Finset α := parts.foldr (· ∪ ·) ∅

theorem mem_union {x : α} : x ∈ union parts ↔ ∃ part ∈ parts, x ∈ part := by
  induction parts with
  | nil => simp [union]
  | cons part parts ih =>
    rw [union, List.foldr_cons, Finset.mem_union, ← union, ih]
    simp

theorem union_subset (h : ∀ part ∈ parts, part ⊆ whole) : union parts ⊆ whole := by
  intro x hx
  obtain ⟨part, hpart, hx⟩ := mem_union.mp hx
  exact h part hpart hx

theorem card_union (h : parts.Pairwise Disjoint) :
    (union parts).card = (parts.map Finset.card).sum := by
  induction parts with
  | nil => rfl
  | cons part parts ih =>
    obtain ⟨hpart, hrest⟩ := List.pairwise_cons.mp h
    have hdisjoint : Disjoint part (union parts) := by
      rw [Finset.disjoint_left]
      intro x hx hu
      obtain ⟨other, hother, hxo⟩ := mem_union.mp hu
      exact Finset.disjoint_left.mp (hpart other hother) hx hxo
    rw [union, List.foldr_cons, ← union, Finset.card_union_of_disjoint hdisjoint, ih hrest,
      List.map_cons, List.sum_cons]

/-- Disjoint parts of a whole are no larger than it. -/
theorem sum_card_le (h : parts.Pairwise Disjoint) (hsub : ∀ part ∈ parts, part ⊆ whole) :
    (parts.map Finset.card).sum ≤ whole.card := by
  rw [← card_union h]
  exact Finset.card_le_card (union_subset hsub)

omit [DecidableEq α] in
theorem disjoint_at (h : parts.Pairwise Disjoint) {i j : ℕ} {p q : Finset α} {x : α}
    (hi : parts[i]? = some p) (hj : parts[j]? = some q) (hp : x ∈ p) (hq : x ∈ q) : i = j := by
  obtain ⟨hilt, rfl⟩ := List.getElem?_eq_some_iff.mp hi
  obtain ⟨hjlt, rfl⟩ := List.getElem?_eq_some_iff.mp hj
  have hpairs := List.pairwise_iff_getElem.mp h
  rcases Nat.lt_trichotomy i j with hlt | heq | hgt
  · exact absurd hq (Finset.disjoint_left.mp (hpairs i j hilt hjlt hlt) hp)
  · exact heq
  · exact absurd hp (Finset.disjoint_left.mp (hpairs j i hjlt hilt hgt) hq)

/-- Disjoint parts of a whole cover it exactly when their sizes add up to its size. -/
theorem exactCover_iff (h : parts.Pairwise Disjoint) (hsub : ∀ part ∈ parts, part ⊆ whole) :
    ExactCover parts whole ↔ (parts.map Finset.card).sum = whole.card := by
  rw [← card_union h]
  constructor
  · intro hcover
    congr 1
    apply Finset.Subset.antisymm (union_subset hsub)
    intro x hx
    exact mem_union.mpr (hcover.exists_part hx)
  · intro hcard x hx
    rw [← Finset.eq_of_subset_of_card_le (union_subset hsub) (le_of_eq hcard.symm)] at hx
    obtain ⟨part, hpart, hxp⟩ := mem_union.mp hx
    obtain ⟨i, hi⟩ := List.getElem?_of_mem hpart
    refine ⟨i, ⟨part, hi, hxp⟩, ?_⟩
    intro j hj
    obtain ⟨other, hother, hxo⟩ := hj
    exact disjoint_at h hother hi hxo hxp

omit [DecidableEq α] in
/-- Parts that cover a whole exactly share nothing of it. -/
theorem ExactCover.pairwise (h : ExactCover parts whole) (hsub : ∀ part ∈ parts, part ⊆ whole) :
    parts.Pairwise Disjoint := by
  rw [List.pairwise_iff_getElem]
  intro i j hi hj hlt
  rw [Finset.disjoint_left]
  intro x hx hy
  obtain ⟨k, -, hunique⟩ := h x (hsub _ (List.getElem_mem hi) hx)
  have hik := hunique i ⟨_, List.getElem?_eq_getElem hi, hx⟩
  have hjk := hunique j ⟨_, List.getElem?_eq_getElem hj, hy⟩
  omega

end Cover
end Hurray.Base
