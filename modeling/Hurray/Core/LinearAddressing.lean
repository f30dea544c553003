import Hurray.Base.MixedRadix
import Hurray.Core.Addressing

/-!
The row- and the column-major offset as numbers in a mixed radix: the dimensions
are the bases, the components of the index the digits.
-/
namespace Hurray.Core
open Hurray.Base

/-! ### Loops over index components -/

section Linear

/-- The loop over the components that are left, each with its dimension. -/
def linearFrom : List (UInt64 × UInt64) → UInt64 → UInt64 → Result UInt64
  | [], offset, _ => pure offset
  | [c], offset, stride => do
      let term ← Exec.orFail (checkedMul c.1 stride) .addressOverflow
      Exec.orFail (checkedAdd offset term) .addressOverflow
  | c :: d :: cs, offset, stride => do
      let term ← Exec.orFail (checkedMul c.1 stride) .addressOverflow
      let offset ← Exec.orFail (checkedAdd offset term) .addressOverflow
      let stride ← Exec.orFail (checkedMul stride c.2) .addressOverflow
      linearFrom (d :: cs) offset stride

def sizes (cs : List (UInt64 × UInt64)) : List ℕ := cs.map fun c => c.2.toNat

def components (cs : List (UInt64 × UInt64)) : List ℕ := cs.map fun c => c.1.toNat

@[simp] theorem sizes_cons (c : UInt64 × UInt64) (cs : List (UInt64 × UInt64)) :
    sizes (c :: cs) = c.2.toNat :: sizes cs := rfl

@[simp] theorem components_cons (c : UInt64 × UInt64) (cs : List (UInt64 × UInt64)) :
    components (c :: cs) = c.1.toNat :: components cs := rfl

variable {index dims : List UInt64} {more : ℕ → Bool} {ks : List ℕ}
  {c : UInt64 × UInt64} {cs : List (UInt64 × UInt64)} {offset stride r : UInt64}

/-- The component and the dimension are those at the place. -/
def At (index dims : List UInt64) (k : ℕ) (c : UInt64 × UInt64) : Prop :=
  index[k]? = some c.1 ∧ dims[k]? = some c.2

theorem forall₂_at_range (h : index.length = dims.length) :
    List.Forall₂ (At index dims) (List.range index.length) (index.zip dims) :=
  Exec.forall₂_range_zip h.le

theorem index_of_at {k : ℕ} (h : At index dims k c) :
    (Exec.index index k : Result UInt64) = .ok c.1 ∧
      (Exec.index dims k : Result UInt64) = .ok c.2 :=
  ⟨Exec.index_eq_ok.mpr h.1, Exec.index_eq_ok.mpr h.2⟩

/-- The loop over the places in any order, where a stride is needed before the last place only. -/
theorem foldlM_linearStep (h : List.Forall₂ (At index dims) ks cs)
    (hmore : ∀ k ∈ ks.dropLast, more k = true) (hlast : ∀ k ∈ ks.getLast?, more k = false) :
    (ks.foldlM (linearStep index dims more) (offset, stride) >>= fun acc => pure acc.1) =
      linearFrom cs offset stride := by
  induction h generalizing offset stride with
  | nil => rfl
  | @cons k c ks cs hk hrest ih =>
    obtain ⟨hi, hd⟩ := index_of_at hk
    cases hrest with
    | nil =>
      have hfalse : more k = false := hlast k rfl
      simp only [List.foldlM_cons, List.foldlM_nil, linearStep, nextStride, hi, hfalse,
        Exec.ok_bind, linearFrom, bind_assoc, pure_bind, bind_pure, Bool.false_eq_true, if_false]
    | @cons k' c' ks' cs' hk' hrest' =>
      have htrue : more k = true := hmore k (List.mem_cons_self ..)
      have hmore' : ∀ j ∈ (k' :: ks').dropLast, more j = true := by
        intro j hj
        exact hmore j (List.mem_cons_of_mem _ hj)
      have hlast' : ∀ j ∈ (k' :: ks').getLast?, more j = false := by
        intro j hj
        exact hlast j (by rwa [List.getLast?_cons_cons])
      rw [List.foldlM_cons, linearFrom]
      simp only [linearStep, nextStride, hi, hd, htrue, Exec.ok_bind, bind_assoc, pure_bind,
        if_true, ← ih hmore' hlast']

theorem colMajorOffset_eq (h : index.length = dims.length) :
    colMajorOffset index dims = linearFrom (index.zip dims) 0 1 := by
  unfold colMajorOffset
  split
  · next hnil =>
    rw [hnil]
    rfl
  · next hne =>
    obtain ⟨n, hn⟩ := Nat.exists_eq_succ_of_ne_zero (mt List.length_eq_zero_iff.mp hne)
    unfold linearOffset
    apply foldlM_linearStep (forall₂_at_range h)
    · intro k hk
      rw [hn, List.range_succ, List.dropLast_concat, List.mem_range] at hk
      exact decide_eq_true (by omega)
    · intro k hk
      rw [hn, List.range_succ, List.getLast?_concat] at hk
      cases hk
      exact decide_eq_false (by omega)

theorem rowMajorOffset_eq (h : index.length = dims.length) :
    rowMajorOffset index dims = linearFrom (index.zip dims).reverse 0 1 := by
  unfold rowMajorOffset
  split
  · next hnil =>
    rw [hnil]
    rfl
  · next hne =>
    unfold linearOffset
    apply foldlM_linearStep (List.rel_reverse (forall₂_at_range h))
    · intro k hk
      obtain ⟨n, hn⟩ := Nat.exists_eq_succ_of_ne_zero (mt List.length_eq_zero_iff.mp hne)
      rw [hn, Nat.succ_eq_add_one, List.range_succ_eq_map, List.reverse_cons,
        List.dropLast_concat, List.mem_reverse] at hk
      obtain ⟨j, _, rfl⟩ := List.mem_map.mp hk
      exact decide_eq_true (Nat.succ_pos j)
    · intro k hk
      obtain ⟨n, hn⟩ := Nat.exists_eq_succ_of_ne_zero (mt List.length_eq_zero_iff.mp hne)
      rw [hn, Nat.succ_eq_add_one, List.range_succ_eq_map, List.reverse_cons,
        List.getLast?_concat] at hk
      cases hk
      rfl

/-- A result is the number in the mixed radix, also where a product of dimensions does not fit. -/
theorem toNat_linearFrom (h : linearFrom cs offset stride = .ok r) :
    r.toNat = offset.toNat + stride.toNat * MixedRadix.value (sizes cs) (components cs) := by
  induction cs generalizing offset stride with
  | nil =>
    cases h
    rfl
  | cons c cs ih =>
    cases cs with
    | nil =>
      simp only [linearFrom, Exec.bind_eq_ok, Exec.orFail_eq_ok, checkedMul_eq_some,
        checkedAdd_eq_some] at h
      obtain ⟨term, ⟨hterm, rfl⟩, hsum, rfl⟩ := h
      rw [toNat_add_of_lt hsum, toNat_mul_of_lt hterm]
      simp only [sizes, components, List.map_cons, List.map_nil, MixedRadix.value_cons,
        MixedRadix.value_nil]
      ring
    | cons d cs =>
      simp only [linearFrom, Exec.bind_eq_ok, Exec.orFail_eq_ok, checkedMul_eq_some,
        checkedAdd_eq_some] at h
      obtain ⟨term, ⟨hterm, rfl⟩, sum, ⟨hsum, rfl⟩, next, ⟨hnext, rfl⟩, h⟩ := h
      rw [sizes_cons, components_cons, MixedRadix.value_cons, ih h, toNat_add_of_lt hsum,
        toNat_mul_of_lt hterm, toNat_mul_of_lt hnext]
      ring

/-- While the product of the dimensions fits, no step overflows. -/
theorem exists_linearFrom (hin : MixedRadix.Within (sizes cs) (components cs))
    (hfit : stride.toNat * (sizes cs).prod < UInt64.size) (hoffset : offset.toNat < stride.toNat) :
    ∃ r, linearFrom cs offset stride = .ok r := by
  induction cs generalizing offset stride with
  | nil => exact ⟨offset, rfl⟩
  | cons c cs ih =>
    simp only [sizes, components, List.map_cons, MixedRadix.within_cons, List.prod_cons] at hin hfit
    obtain ⟨hlt, hrest⟩ := hin
    have hpos : 0 < (sizes cs).prod := hrest.prod_pos
    have hdim : stride.toNat * c.2.toNat < UInt64.size := by
      refine Nat.lt_of_le_of_lt ?_ hfit
      rw [← Nat.mul_assoc]
      exact Nat.le_mul_of_pos_right _ hpos
    -- the offset stays below the next stride
    have hnext : offset.toNat + c.1.toNat * stride.toNat < stride.toNat * c.2.toNat :=
      calc offset.toNat + c.1.toNat * stride.toNat
          < stride.toNat + c.1.toNat * stride.toNat := Nat.add_lt_add_right hoffset _
        _ = stride.toNat * (c.1.toNat + 1) := by ring
        _ ≤ stride.toNat * c.2.toNat := Nat.mul_le_mul_left _ hlt
    have hterm : c.1.toNat * stride.toNat < UInt64.size := by omega
    have hmul : checkedMul c.1 stride = some (c.1 * stride) := checkedMul_eq_some.mpr ⟨hterm, rfl⟩
    have hsum : offset.toNat + (c.1 * stride).toNat < UInt64.size := by
      rw [toNat_mul_of_lt hterm]
      omega
    have hadd : checkedAdd offset (c.1 * stride) = some (offset + c.1 * stride) :=
      checkedAdd_eq_some.mpr ⟨hsum, rfl⟩
    cases cs with
    | nil =>
      refine ⟨offset + c.1 * stride, ?_⟩
      simp only [linearFrom, hmul, hadd, Exec.orFail_some, Exec.ok_bind]
    | cons d cs =>
      have hstride : checkedMul stride c.2 = some (stride * c.2) :=
        checkedMul_eq_some.mpr ⟨hdim, rfl⟩
      simp only [linearFrom, hmul, hadd, hstride, Exec.orFail_some, Exec.ok_bind]
      apply ih hrest
      · rwa [toNat_mul_of_lt hdim, Nat.mul_assoc]
      · rwa [toNat_add_of_lt hsum, toNat_mul_of_lt hterm, toNat_mul_of_lt hdim]

end Linear

/-! ### Exactness -/

section Exactness

/-- The number of elements, as a number without a bound. -/
def Shape.elementProduct (s : Shape) : ℕ := (s.dims.map UInt64.toNat).prod

def Shape.reverse (s : Shape) : Shape := ⟨s.dims.reverse, by
  rw [List.length_reverse]
  exact s.rank_le⟩

theorem Shape.reverse_reverse (s : Shape) : s.reverse.reverse = s :=
  Shape.ext (List.reverse_reverse s.dims)

/-- Each component weighs the product of the dimensions after it. -/
def rowMajorSum (index dims : List UInt64) : ℕ :=
  ∑ k : Fin index.length, index[k].toNat * ((dims.drop (k + 1)).map UInt64.toNat).prod

/-- Each component weighs the product of the dimensions before it. -/
def colMajorSum (index dims : List UInt64) : ℕ :=
  ∑ k : Fin index.length, index[k].toNat * ((dims.take k).map UInt64.toNat).prod

variable {index dims : List UInt64} {shape : Shape} {r : UInt64}

theorem sizes_zip (h : index.length = dims.length) :
    sizes (index.zip dims) = dims.map UInt64.toNat := by
  show ((index.zip dims).map (UInt64.toNat ∘ Prod.snd)) = _
  rw [← List.map_map, List.map_snd_zip (Nat.le_of_eq h.symm)]

theorem components_zip (h : index.length = dims.length) :
    components (index.zip dims) = index.map UInt64.toNat := by
  show ((index.zip dims).map (UInt64.toNat ∘ Prod.fst)) = _
  rw [← List.map_map, List.map_fst_zip (Nat.le_of_eq h)]

theorem sizes_reverse (cs : List (UInt64 × UInt64)) : sizes cs.reverse = (sizes cs).reverse :=
  List.map_reverse

theorem components_reverse (cs : List (UInt64 × UInt64)) :
    components cs.reverse = (components cs).reverse :=
  List.map_reverse

theorem value_zip_eq (h : index.length = dims.length) :
    MixedRadix.value (sizes (index.zip dims)) (components (index.zip dims)) =
      colMajorSum index dims := by
  rw [sizes_zip h, components_zip h, MixedRadix.value_eq_sum (by simp [h])]
  refine Fintype.sum_equiv (finCongr (List.length_map _)) _ _ ?_
  intro k
  simp [List.map_take]

theorem value_zip_reverse_eq (h : index.length = dims.length) :
    MixedRadix.value (sizes (index.zip dims).reverse) (components (index.zip dims).reverse) =
      rowMajorSum index dims := by
  rw [sizes_reverse, components_reverse, sizes_zip h, components_zip h,
    MixedRadix.value_reverse_eq_sum (by simp [h])]
  refine Fintype.sum_equiv (finCongr (List.length_map _)) _ _ ?_
  intro k
  simp [List.map_drop]

/-- In a static shape the valid indices are the vectors of digits below the dimensions. -/
theorem within_of_validIndex (h : ValidIndex index shape) :
    MixedRadix.Within (shape.dims.map UInt64.toNat) (index.map UInt64.toNat) := by
  unfold MixedRadix.Within
  rw [List.forall₂_map_left_iff, List.forall₂_map_right_iff]
  apply List.Forall₂.flip
  rw [List.forall₂_iff_zip]
  refine ⟨h.length_eq, ?_⟩
  intro i d hmem
  exact UInt64.lt_iff_toNat_lt.mp (h.inRange _ hmem).2

theorem validIndex_of_within (hstatic : DYNAMIC ∉ shape.dims)
    (h : MixedRadix.Within (shape.dims.map UInt64.toNat) (index.map UInt64.toNat)) :
    ValidIndex index shape := by
  unfold MixedRadix.Within at h
  rw [List.forall₂_map_left_iff, List.forall₂_map_right_iff] at h
  obtain ⟨hlen, hall⟩ := List.forall₂_iff_zip.mp h.flip
  refine ⟨hlen, ?_⟩
  intro c hmem
  have hdim : c.2 ∈ shape.dims := (List.of_mem_zip hmem).2
  exact ⟨fun hdynamic => hstatic (hdynamic ▸ hdim), UInt64.lt_iff_toNat_lt.mpr (hall hmem)⟩

theorem reverse_zip (h : index.length = dims.length) :
    (index.zip dims).reverse = index.reverse.zip dims.reverse := by
  rw [List.zip_eq_zipWith, List.zip_eq_zipWith, List.reverse_zipWith h]

theorem ValidIndex.reverse (h : ValidIndex index shape) :
    ValidIndex index.reverse shape.reverse := by
  refine ⟨?_, ?_⟩
  · rw [List.length_reverse, h.length_eq]
    exact List.length_reverse.symm
  · intro c hmem
    rw [Shape.reverse, ← reverse_zip h.length_eq, List.mem_reverse] at hmem
    exact h.inRange c hmem

/-- Digits below words are words. -/
theorem exists_index {ds : List ℕ} (h : MixedRadix.Within (dims.map UInt64.toNat) ds) :
    ∃ index : List UInt64, index.map UInt64.toNat = ds := by
  refine ⟨ds.map UInt64.ofNat, ?_⟩
  induction dims generalizing ds with
  | nil =>
    rw [MixedRadix.within_nil.mp h]
    rfl
  | cons dim dims ih =>
    cases ds with
    | nil => rfl
    | cons d ds =>
      obtain ⟨hlt, hrest⟩ := MixedRadix.within_cons.mp h
      have hword : d < UInt64.size := Nat.lt_trans hlt dim.toNat_lt_size
      rw [List.map_cons, List.map_cons, ih hrest, UInt64.toNat_ofNat_of_lt' hword]

theorem elementOffset_rowMajor (h : ValidIndex index shape) :
    LayoutDescriptor.rowMajor.elementOffset index shape =
      linearFrom (index.zip shape.dims).reverse 0 1 := by
  have hvalid : validateIndex index shape = .ok () := validateIndex_eq_ok.mpr h
  rw [LayoutDescriptor.elementOffset, hvalid, Exec.ok_bind, rowMajorOffset_eq h.length_eq]

theorem elementOffset_colMajor (h : ValidIndex index shape) :
    LayoutDescriptor.colMajor.elementOffset index shape =
      linearFrom (index.zip shape.dims) 0 1 := by
  have hvalid : validateIndex index shape = .ok () := validateIndex_eq_ok.mpr h
  rw [LayoutDescriptor.elementOffset, hvalid, Exec.ok_bind, colMajorOffset_eq h.length_eq]

theorem rowMajor_exact (h : LayoutDescriptor.rowMajor.elementOffset index shape = .ok r) :
    r.toNat = rowMajorSum index shape.dims := by
  have hvalid : ValidIndex index shape := by
    obtain ⟨u, hu, _⟩ := Exec.bind_eq_ok.mp h
    exact validateIndex_eq_ok.mp hu
  rw [elementOffset_rowMajor hvalid] at h
  have hvalue := toNat_linearFrom h
  rw [value_zip_reverse_eq hvalid.length_eq] at hvalue
  simpa using hvalue

theorem colMajor_exact (h : LayoutDescriptor.colMajor.elementOffset index shape = .ok r) :
    r.toNat = colMajorSum index shape.dims := by
  have hvalid : ValidIndex index shape := by
    obtain ⟨u, hu, _⟩ := Exec.bind_eq_ok.mp h
    exact validateIndex_eq_ok.mp hu
  rw [elementOffset_colMajor hvalid] at h
  have hvalue := toNat_linearFrom h
  rw [value_zip_eq hvalid.length_eq] at hvalue
  simpa using hvalue

theorem colMajor_eq_rowMajor_reverse (h : ValidIndex index shape) :
    LayoutDescriptor.colMajor.elementOffset index shape =
      LayoutDescriptor.rowMajor.elementOffset index.reverse shape.reverse := by
  rw [elementOffset_colMajor h, elementOffset_rowMajor h.reverse, Shape.reverse,
    ← reverse_zip h.length_eq, List.reverse_reverse]

/-- The offset of every valid index is the sum, and the sums number the indices from zero on. -/
structure Enumerates (l : LayoutDescriptor) (sum : List UInt64 → List UInt64 → ℕ)
    (shape : Shape) : Prop where
  exact : ∀ index, ValidIndex index shape →
    ∃ r, l.elementOffset index shape = .ok r ∧ r.toNat = sum index shape.dims
  bijOn : Set.BijOn (fun index => sum index shape.dims) {index | ValidIndex index shape}
    (Set.Iio shape.elementProduct)

theorem bijOn_colMajorSum (hstatic : DYNAMIC ∉ shape.dims) :
    Set.BijOn (fun index => colMajorSum index shape.dims) {index | ValidIndex index shape}
      (Set.Iio shape.elementProduct) := by
  have hvalue (index) (h : ValidIndex index shape) : colMajorSum index shape.dims =
      MixedRadix.value (shape.dims.map UInt64.toNat) (index.map UInt64.toNat) := by
    rw [← value_zip_eq h.length_eq, sizes_zip h.length_eq, components_zip h.length_eq]
  refine ⟨?_, ?_, ?_⟩
  · intro index h
    show colMajorSum index shape.dims < _
    rw [hvalue index h]
    exact MixedRadix.value_lt (within_of_validIndex h)
  · intro index h index' h' heq
    have heq : colMajorSum index shape.dims = colMajorSum index' shape.dims := heq
    rw [hvalue index h, hvalue index' h'] at heq
    have hmap := MixedRadix.value_injOn (within_of_validIndex h) (within_of_validIndex h') heq
    exact List.map_injective_iff.mpr (fun a b => UInt64.toNat_inj.mp) hmap
  · intro n hn
    have hwithin := MixedRadix.within_digits hn
    obtain ⟨index, hindex⟩ := exists_index hwithin
    rw [← hindex] at hwithin
    have hvalid := validIndex_of_within hstatic hwithin
    refine ⟨index, hvalid, ?_⟩
    show colMajorSum index shape.dims = n
    rw [hvalue index hvalid, hindex, MixedRadix.value_digits hn]

theorem elementProduct_reverse (shape : Shape) :
    shape.reverse.elementProduct = shape.elementProduct := by
  rw [Shape.elementProduct, Shape.reverse, List.map_reverse, List.prod_reverse]
  rfl

theorem rowMajorSum_eq_reverse (h : ValidIndex index shape) :
    rowMajorSum index shape.dims = colMajorSum index.reverse shape.reverse.dims := by
  rw [← value_zip_reverse_eq h.length_eq, reverse_zip h.length_eq]
  exact value_zip_eq h.reverse.length_eq

theorem bijOn_rowMajorSum (hstatic : DYNAMIC ∉ shape.dims) :
    Set.BijOn (fun index => rowMajorSum index shape.dims) {index | ValidIndex index shape}
      (Set.Iio shape.elementProduct) := by
  have hstatic' : DYNAMIC ∉ shape.reverse.dims := by
    rw [Shape.reverse, List.mem_reverse]
    exact hstatic
  have hcol := bijOn_colMajorSum hstatic'
  rw [elementProduct_reverse] at hcol
  have hreverse : Set.BijOn List.reverse {index | ValidIndex index shape}
      {index | ValidIndex index shape.reverse} := by
    refine ⟨fun index h => ValidIndex.reverse h, List.reverse_injective.injOn, ?_⟩
    intro index h
    refine ⟨index.reverse, ?_, List.reverse_reverse index⟩
    have hback := ValidIndex.reverse h
    rwa [shape.reverse_reverse] at hback
  refine (hcol.comp hreverse).congr ?_
  intro index h
  exact (rowMajorSum_eq_reverse h).symm

theorem enumerates_rowMajor (hstatic : DYNAMIC ∉ shape.dims)
    (hfit : shape.elementProduct < UInt64.size) :
    Enumerates .rowMajor rowMajorSum shape := by
  refine ⟨?_, bijOn_rowMajorSum hstatic⟩
  intro index h
  obtain ⟨r, hr⟩ : ∃ r, linearFrom (index.zip shape.dims).reverse 0 1 = .ok r := by
    apply exists_linearFrom
    · rw [sizes_reverse, components_reverse, sizes_zip h.length_eq, components_zip h.length_eq]
      exact (within_of_validIndex h).reverse
    · rw [sizes_reverse, sizes_zip h.length_eq, List.prod_reverse, UInt64.toNat_one,
        Nat.one_mul]
      exact hfit
    · exact Nat.one_pos
  rw [← elementOffset_rowMajor h] at hr
  exact ⟨r, hr, rowMajor_exact hr⟩

theorem enumerates_colMajor (hstatic : DYNAMIC ∉ shape.dims)
    (hfit : shape.elementProduct < UInt64.size) :
    Enumerates .colMajor colMajorSum shape := by
  refine ⟨?_, bijOn_colMajorSum hstatic⟩
  intro index h
  obtain ⟨r, hr⟩ : ∃ r, linearFrom (index.zip shape.dims) 0 1 = .ok r := by
    apply exists_linearFrom
    · rw [sizes_zip h.length_eq, components_zip h.length_eq]
      exact within_of_validIndex h
    · rw [sizes_zip h.length_eq, UInt64.toNat_one, Nat.one_mul]
      exact hfit
    · exact Nat.one_pos
  rw [← elementOffset_colMajor h] at hr
  exact ⟨r, hr, colMajor_exact hr⟩

/-- Row- and column-major addressing number the elements of a static shape. A result is the
exact sum even where the product of the shape does not fit a word. -/
theorem linear_addressing_exact (shape : Shape) (hstatic : DYNAMIC ∉ shape.dims) :
    (shape.elementProduct < UInt64.size →
      Enumerates .rowMajor rowMajorSum shape ∧ Enumerates .colMajor colMajorSum shape) ∧
    (∀ index, ValidIndex index shape →
      LayoutDescriptor.colMajor.elementOffset index shape =
        LayoutDescriptor.rowMajor.elementOffset index.reverse shape.reverse) ∧
    (∀ index r, LayoutDescriptor.rowMajor.elementOffset index shape = .ok r →
      r.toNat = rowMajorSum index shape.dims) ∧
    (∀ index r, LayoutDescriptor.colMajor.elementOffset index shape = .ok r →
      r.toNat = colMajorSum index shape.dims) := by
  refine ⟨?_, ?_, ?_, ?_⟩
  · intro hfit
    exact ⟨enumerates_rowMajor hstatic hfit, enumerates_colMajor hstatic hfit⟩
  · intro index h
    exact colMajor_eq_rowMajor_reverse h
  · intro index r h
    exact rowMajor_exact h
  · intro index r h
    exact colMajor_exact h

/-- The matrix of the specification's example. -/
def matrix : Shape := ⟨[3, 4], two_le_maxRank⟩

theorem linear_addressing_exact_matrix :
    Enumerates .rowMajor rowMajorSum matrix ∧ Enumerates .colMajor colMajorSum matrix ∧
      LayoutDescriptor.colMajor.elementOffset [1, 2] matrix =
        LayoutDescriptor.rowMajor.elementOffset [2, 1] matrix.reverse := by
  have hstatic : DYNAMIC ∉ matrix.dims := by decide
  obtain ⟨hnumber, hreverse, -, -⟩ := linear_addressing_exact matrix hstatic
  obtain ⟨hrow, hcol⟩ := hnumber (by decide)
  have hvalid : validateIndex [1, 2] matrix = .ok () := by decide
  exact ⟨hrow, hcol, hreverse [1, 2] (validateIndex_eq_ok.mp hvalid)⟩

end Exactness
end Hurray.Core
