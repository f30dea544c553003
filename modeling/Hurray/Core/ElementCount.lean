import Hurray.Core.LinearAddressing
import Mathlib.Data.List.TakeWhile

/-!
The element count of a shape against the exact product of its dimensions. The product is taken from
the left and stops where it leaves the words, although a dimension of zero may still follow.
-/
namespace Hurray.Core
open Hurray.Base

def countStep (product dim : UInt64) : Option UInt64 :=
  if dim = DYNAMIC then none else checkedMul product dim

namespace Shape

/-- The total number of elements. -/
def elementCount (s : Shape) : Option UInt64 := s.dims.foldlM countStep 1

end Shape

/-- The exact product. -/
def product (dims : List UInt64) : ℕ := (dims.map UInt64.toNat).prod

/-- The dimensions before the first that is zero. -/
def leading (dims : List UInt64) : List UInt64 := dims.takeWhile (· ≠ 0)

/-- The dimensions that are not zero. -/
def nonzero (dims : List UInt64) : List UInt64 := dims.filter (· ≠ 0)

section Products
variable {dims dims' : List UInt64} {d : UInt64}

theorem product_cons : product (d :: dims) = d.toNat * product dims := by
  rw [product, List.map_cons, List.prod_cons, product]

theorem product_perm (h : dims.Perm dims') : product dims = product dims' :=
  (h.map UInt64.toNat).prod_eq

theorem product_pos (h : ∀ d ∈ dims, d ≠ 0) : 0 < product dims := by
  apply Nat.pos_of_ne_zero
  intro hprod
  obtain ⟨d, hd, hzero⟩ := List.mem_map.mp (List.prod_eq_zero_iff.mp hprod)
  exact h d hd (UInt64.toNat_inj.mp hzero)

theorem product_eq_zero (h : (0 : UInt64) ∈ dims) : product dims = 0 :=
  List.prod_eq_zero (List.mem_map_of_mem h)

theorem product_le_of_sublist (h : dims.Sublist dims') (hpos : ∀ d ∈ dims', d ≠ 0) :
    product dims ≤ product dims' := by
  induction h with
  | slnil => exact Nat.le_refl _
  | cons d _ ih =>
    rw [List.forall_mem_cons] at hpos
    have hd : 0 < d.toNat := Nat.pos_of_ne_zero fun hzero => hpos.1 (UInt64.toNat_inj.mp hzero)
    rw [product_cons]
    exact (ih hpos.2).trans (Nat.le_mul_of_pos_left _ hd)
  | cons_cons d _ ih =>
    rw [List.forall_mem_cons] at hpos
    rw [product_cons, product_cons]
    exact Nat.mul_le_mul_left _ (ih hpos.2)

theorem leading_pos : ∀ d ∈ leading dims, d ≠ 0 := by
  intro d hd
  have hpos := List.mem_takeWhile_imp hd
  exact of_decide_eq_true hpos

theorem nonzero_pos : ∀ d ∈ nonzero dims, d ≠ 0 := by
  intro d hd
  exact of_decide_eq_true (List.mem_filter.mp hd).2

theorem leading_of_pos (h : ∀ d ∈ dims, d ≠ 0) : leading dims = dims :=
  List.takeWhile_eq_self_iff.mpr fun d hd => decide_eq_true (h d hd)

/-- The dimensions before the first zero are among those that are not zero. -/
theorem leading_sublist : (leading dims).Sublist (nonzero dims) := by
  have hfilter : nonzero (leading dims) = leading dims :=
    List.filter_eq_self.mpr fun d hd => decide_eq_true (leading_pos d hd)
  rw [← hfilter]
  exact (List.takeWhile_sublist _).filter _

end Products

/-- What the loop returns: it stops at the first product that is no word. -/
theorem foldlM_countStep_eq_some {dims : List UInt64} {p c : UInt64} :
    dims.foldlM countStep p = some c ↔ DYNAMIC ∉ dims ∧
      p.toNat * product (leading dims) < UInt64.size ∧ c.toNat = p.toNat * product dims := by
  induction dims generalizing p with
  | nil =>
    rw [List.foldlM_nil]
    show some p = some c ↔ _
    rw [Option.some.injEq, ← UInt64.toNat_inj, leading, List.takeWhile_nil, product, List.map_nil,
      List.prod_nil, Nat.mul_one]
    constructor
    · intro h
      exact ⟨List.not_mem_nil, p.toNat_lt_size, h.symm⟩
    · intro h
      exact h.2.2.symm
  | cons d dims ih =>
    rw [List.foldlM_cons, countStep, List.mem_cons, not_or, product_cons]
    by_cases hdyn : d = DYNAMIC
    · rw [if_pos hdyn]
      exact iff_of_false nofun fun h => h.1.1 hdyn.symm
    · rw [if_neg hdyn]
      have hleading : p.toNat * product (leading (d :: dims)) < UInt64.size ↔
          p.toNat * d.toNat < UInt64.size ∧
            p.toNat * d.toNat * product (leading dims) < UInt64.size := by
        by_cases hzero : d = 0
        · subst hzero
          have hnil : leading (0 :: dims) = [] := rfl
          have hp := p.toNat_lt_size
          rw [hnil, UInt64.toNat_zero, Nat.mul_zero, Nat.zero_mul, product, List.map_nil,
            List.prod_nil, Nat.mul_one]
          exact iff_of_true hp ⟨by decide, by decide⟩
        · have hcons : leading (d :: dims) = d :: leading dims :=
            List.takeWhile_cons_of_pos (decide_eq_true hzero)
          have hpos : 0 < product (leading dims) := product_pos leading_pos
          rw [hcons, product_cons, ← Nat.mul_assoc]
          constructor
          · intro h
            exact ⟨Nat.lt_of_le_of_lt (Nat.le_mul_of_pos_right _ hpos) h, h⟩
          · intro h
            exact h.2
      rw [hleading]
      by_cases hfit : p.toNat * d.toNat < UInt64.size
      · have hmul : checkedMul p d = some (p * d) := checkedMul_eq_some.mpr ⟨hfit, rfl⟩
        rw [hmul]
        show dims.foldlM countStep (p * d) = some c ↔ _
        rw [ih, toNat_mul_of_lt hfit, ← Nat.mul_assoc]
        constructor
        · intro h
          exact ⟨⟨Ne.symm hdyn, h.1⟩, ⟨hfit, h.2.1⟩, h.2.2⟩
        · intro h
          exact ⟨h.1.2, h.2.1.2, h.2.2⟩
      · have hmul : checkedMul p d = none := if_neg hfit
        rw [hmul]
        exact iff_of_false nofun fun h => hfit h.2.1.1

namespace Shape
variable {s t : Shape} {c : UInt64}

theorem elementCount_eq_some : s.elementCount = some c ↔ DYNAMIC ∉ s.dims ∧
    product (leading s.dims) < UInt64.size ∧ c.toNat = s.elementProduct := by
  rw [elementCount, foldlM_countStep_eq_some, UInt64.toNat_one, Nat.one_mul, Nat.one_mul]
  rfl

/-- The count is the exact product where that is known and a word, and is none elsewhere. -/
def CountExact (s : Shape) : Prop :=
  ∀ c, s.elementCount = some c ↔ DYNAMIC ∉ s.dims ∧ c.toNat = s.elementProduct

/-- The count is that of the dimensions in any order. -/
def CountUnordered (s : Shape) : Prop :=
  ∀ t : Shape, t.dims.Perm s.dims → t.elementCount = s.elementCount

theorem countExact_iff : s.CountExact ↔
    (DYNAMIC ∉ s.dims → 0 ∈ s.dims → product (leading s.dims) < UInt64.size) := by
  constructor
  · intro h hdyn hzero
    have hproduct : (0 : UInt64).toNat = s.elementProduct := (product_eq_zero hzero).symm
    exact (elementCount_eq_some.mp ((h 0).mpr ⟨hdyn, hproduct⟩)).2.1
  · intro h c
    rw [elementCount_eq_some]
    constructor
    · intro hc
      exact ⟨hc.1, hc.2.2⟩
    · intro hc
      refine ⟨hc.1, ?_, hc.2⟩
      by_cases hzero : 0 ∈ s.dims
      · exact h hc.1 hzero
      · have hall : leading s.dims = s.dims :=
          leading_of_pos fun d hd hd0 => hzero (hd0 ▸ hd)
        rw [hall, show product s.dims = s.elementProduct from rfl, ← hc.2]
        exact c.toNat_lt_size

theorem countUnordered_iff : s.CountUnordered ↔
    (DYNAMIC ∉ s.dims → 0 ∈ s.dims → product (nonzero s.dims) < UInt64.size) := by
  constructor
  · intro h hdyn hzero
    -- With the zeros last the loop meets the whole product, with one of them first only zero.
    have hlast : (nonzero s.dims ++ s.dims.filter fun d => ! decide (d ≠ 0)).Perm s.dims :=
      List.filter_append_perm (fun d => decide (d ≠ 0)) s.dims
    have hfirst : (0 :: s.dims.erase 0).Perm s.dims := (List.perm_cons_erase hzero).symm
    have hcount : ∀ dims, dims.Perm s.dims → ∃ t : Shape, t.dims = dims :=
      fun dims hperm => ⟨⟨dims, hperm.length_eq ▸ s.rank_le⟩, rfl⟩
    obtain ⟨t, ht⟩ := hcount _ hlast
    obtain ⟨u, hu⟩ := hcount _ hfirst
    have hnone : u.elementCount = some 0 := by
      rw [elementCount_eq_some, hu, hfirst.mem_iff]
      have hnil : leading (0 :: s.dims.erase 0) = [] := rfl
      rw [hnil]
      exact ⟨hdyn, by decide, (product_eq_zero (hu ▸ List.mem_cons_self)).symm⟩
    have hsame : t.elementCount = some 0 := by
      rw [h t (ht ▸ hlast), ← h u (hu ▸ hfirst), hnone]
    have hleading := (elementCount_eq_some.mp hsame).2.1
    rw [ht, leading, List.takeWhile_append_of_pos fun d hd => decide_eq_true (nonzero_pos d hd)]
      at hleading
    refine Nat.lt_of_le_of_lt (product_le_of_sublist (List.sublist_append_left _ _) ?_) hleading
    intro d hd
    rcases List.mem_append.mp hd with hd | hd
    · exact nonzero_pos d hd
    · exact leading_pos d hd
  · intro h t hperm
    have hproduct : t.elementProduct = s.elementProduct := product_perm hperm
    have hmem : ∀ d, d ∈ t.dims ↔ d ∈ s.dims := fun d => hperm.mem_iff
    have hcond : ∀ u : Shape, u.dims.Perm s.dims → u.CountExact := by
      intro u hu
      apply countExact_iff.mpr
      intro hdyn hzero
      rw [hu.mem_iff] at hdyn hzero
      calc
        product (leading u.dims) ≤ product (nonzero u.dims) :=
          product_le_of_sublist leading_sublist nonzero_pos
        _ = product (nonzero s.dims) := product_perm (hu.filter _)
        _ < UInt64.size := h hdyn hzero
    apply Option.ext
    intro c
    rw [hcond t hperm c, hcond s (List.Perm.refl _) c, hproduct, hmem]

/-- The count is exact just when the dimensions before the first zero, if there is one, have a
product that is a word. The order does not matter just when all that are not zero have one. -/
theorem elementCount_exact_iff (s : Shape) :
    (s.CountExact ↔ (DYNAMIC ∉ s.dims → 0 ∈ s.dims → product (leading s.dims) < UInt64.size)) ∧
      (s.CountUnordered ↔
        (DYNAMIC ∉ s.dims → 0 ∈ s.dims → product (nonzero s.dims) < UInt64.size)) :=
  ⟨countExact_iff, countUnordered_iff⟩

/-- An empty tensor whose count is none, and the same dimensions with the zero first. -/
theorem empty_count_overflows :
    elementCount ⟨[0x8000000000000000, 4, 0], by decide⟩ = none ∧
    elementCount ⟨[0, 0x8000000000000000, 4], by decide⟩ = some 0 ∧
    ¬ CountExact ⟨[0x8000000000000000, 4, 0], by decide⟩ ∧
    ¬ CountUnordered ⟨[0x8000000000000000, 4, 0], by decide⟩ := by
  refine ⟨by decide, by decide, ?_, ?_⟩
  · intro h
    exact absurd ((h 0).mpr ⟨by decide, by decide⟩) (by decide)
  · intro h
    have hperm : List.Perm [0, 0x8000000000000000, 4] [(0x8000000000000000 : UInt64), 4, 0] := by
      decide
    exact absurd (h ⟨[0, 0x8000000000000000, 4], by decide⟩ hperm) (by decide)

end Shape
end Hurray.Core
