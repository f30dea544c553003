import Hurray.Core.Addressing
import Hurray.Descriptor.Contract
import Mathlib.Algebra.Order.BigOperators.Group.List

/-!
Addressing a decoded tensor. The decoder does not compare a layout with the
shape, so what keeps the addressing code in bounds is only what the decoder
itself checks: the lengths of the vectors and the checks of the constructors.
-/
namespace Hurray.Descriptor
open Hurray.Base Hurray.Core

section Linear
variable {index dims : List UInt64}

theorem yields_nextStride {stride : UInt64} {k : ℕ} {more : Bool}
    (h : more = true → k < dims.length) :
    Exec.Yields (nextStride dims stride k more) fun _ => True := by
  unfold nextStride
  split
  · next hmore =>
    exact (Exec.yields_index (h hmore)).bind fun _ _ =>
      Exec.yields_orFail.mono fun _ _ => trivial
  · exact Exec.yields_pure trivial

theorem yields_linearOffset {order : List ℕ} {more : ℕ → Bool}
    (hindex : ∀ k ∈ order, k < index.length)
    (hdims : ∀ k ∈ order, more k = true → k < dims.length) :
    Exec.Yields (linearOffset index dims order more) fun _ => True := by
  refine (Exec.yields_foldlM (I := fun _ => True) trivial ?_).bind
    fun _ _ => Exec.yields_pure trivial
  intro acc k hk _
  apply (Exec.yields_index (hindex k hk)).bind
  intro _ _
  apply Exec.yields_orFail.bind
  intro _ _
  apply Exec.yields_orFail.bind
  intro _ _
  exact (yields_nextStride (hdims k hk)).bind fun _ _ => Exec.yields_pure trivial

theorem yields_rowMajorOffset (h : index.length ≤ dims.length) :
    Exec.Yields (rowMajorOffset index dims) fun _ => True := by
  unfold rowMajorOffset
  split
  · exact Exec.yields_ok trivial
  · have hlt : ∀ k ∈ (List.range index.length).reverse, k < index.length := by simp
    exact yields_linearOffset hlt fun k hk _ => (hlt k hk).trans_le h

theorem yields_colMajorOffset (h : index.length ≤ dims.length) :
    Exec.Yields (colMajorOffset index dims) fun _ => True := by
  unfold colMajorOffset
  split
  · exact Exec.yields_ok trivial
  · have hlt : ∀ k ∈ List.range index.length, k < index.length := by simp
    exact yields_linearOffset hlt fun k hk _ => (hlt k hk).trans_le h

end Linear

section Strided

theorem yields_stridedTerm {sum : Int64} {i : UInt64} {stride : Int64} :
    Exec.Yields (stridedTerm sum i stride) fun _ => True :=
  Exec.yields_orFail.bind fun _ _ => Exec.yields_orFail.mono fun _ _ => trivial

theorem yields_stridedOffset {index : List UInt64} {strides : List Int64}
    (h : index.length ≤ strides.length) :
    Exec.Yields (stridedOffset index strides) fun _ => True := by
  refine Exec.yields_foldlM (I := fun _ => True) trivial ?_
  intro sum k hk _
  have hlt : k < index.length := by simpa using hk
  apply (Exec.yields_index hlt).bind
  intro _ _
  apply (Exec.yields_index (hlt.trans_le h)).bind
  intro _ _
  exact yields_stridedTerm

theorem yields_stridedLayout {l : StridedLayout} {index : List UInt64} {shape : Shape} :
    Exec.Yields (l.elementOffset index shape) fun _ => True := by
  apply yields_validateIndex.bind
  intro _ _
  apply Exec.yields_reject.bind
  intro _ _
  refine (Exec.yields_foldlM (I := fun _ => True) trivial fun _ _ _ _ =>
    yields_stridedTerm).bind fun _ _ => Exec.yields_pure trivial

end Strided

section Tiled

theorem flatTag_cases {tag : UInt8} (h : 0x01 ≤ tag ∧ tag ≤ 0x03) :
    tag = TAG_ROW_MAJOR ∨ tag = TAG_COL_MAJOR ∨ tag = TAG_STRIDED := by
  have hlow : 1 ≤ tag.toNat := h.1
  have hhigh : tag.toNat ≤ 3 := h.2
  have hcases : tag.toNat = 1 ∨ tag.toNat = 2 ∨ tag.toNat = 3 := by omega
  exact hcases.imp UInt8.toNat_inj.mp (Or.imp UInt8.toNat_inj.mp UInt8.toNat_inj.mp)

variable {rank : ℕ} {index dims : List UInt64}

theorem yields_flatOffset {tag : UInt8} {strides : Option (List Int64)}
    (htag : 0x01 ≤ tag ∧ tag ≤ 0x03) (hsome : strides = none ↔ tag ≠ 0x03)
    (hstrides : ∀ s, strides = some s → index.length ≤ s.length)
    (hdims : index.length ≤ dims.length) :
    Exec.Yields (flatOffset tag strides index dims) fun _ => True := by
  rcases flatTag_cases htag with rfl | rfl | rfl
  · exact (yields_rowMajorOffset hdims).bind fun _ _ => Exec.yields_pure trivial
  · exact (yields_colMajorOffset hdims).bind fun _ _ => Exec.yields_pure trivial
  · cases hs : strides with
    | none => exact absurd rfl (hsome.mp hs)
    | some s => exact yields_stridedOffset (hstrides s hs)

theorem yields_tileCoordinate {tileShape : List UInt64} {k : ℕ} (hk : k < index.length)
    (hlen : index.length ≤ tileShape.length) (hpos : 0 ∉ tileShape) :
    Exec.Yields (tileCoordinate index tileShape k) fun _ => True := by
  apply (Exec.yields_index hk).bind
  intro _ _
  apply (Exec.yields_index (hk.trans_le hlen)).bind
  intro t ht
  have hne : t ≠ 0 := by
    rintro rfl
    exact hpos (List.mem_of_getElem? ht)
  apply (Exec.yields_div hne).bind
  intro _ _
  exact (Exec.yields_rem hne).bind fun _ _ => Exec.yields_pure trivial

theorem yields_gridDims {tileShape : List UInt64} (hpos : 0 ∉ tileShape) :
    Exec.Yields ((dims.zip tileShape).mapM (fun p => Exec.divCeil p.1 p.2) : Result (List UInt64))
      fun grid => grid.length = (dims.zip tileShape).length := by
  refine (Exec.yields_mapM (P := fun _ => True) ?_).mono fun _ h => h.1
  intro h hmem
  obtain ⟨d, t⟩ := h
  apply Exec.yields_divCeil
  rintro rfl
  exact hpos (List.of_mem_zip hmem).2

theorem yields_tileSize {tileShape : List UInt64} {n : Int64} :
    Exec.Yields (tileShape.foldlM (fun acc d =>
      Exec.orFail (checkedMulSigned acc d.toInt64) Error.addressOverflow) n) fun _ => True :=
  Exec.yields_foldlM (I := fun _ => True) trivial fun _ _ _ _ =>
    Exec.yields_orFail.mono fun _ _ => trivial

theorem yields_intraOffset {lv : TiledLevel} {hasInner : Bool} (hwf : lv.WellFormed hasInner)
    (hrank : LevelRank rank lv) {nested : Option (Result UInt64)}
    (hnested : lv.innerLayout = TAG_TILED →
      ∃ x, nested = some x ∧ Exec.Yields x fun _ => True) (hlen : index.length = rank) :
    Exec.Yields (intraOffset lv nested index) fun _ => True := by
  unfold intraOffset
  split
  · next htag =>
    obtain ⟨x, rfl, hx⟩ := hnested htag
    exact hx.bind fun _ _ => Exec.yields_pure trivial
  · next htag =>
    have hflat : 0x01 ≤ lv.innerLayout ∧ lv.innerLayout ≤ 0x03 := by
      refine ⟨hwf.innerLayout_mem.1, ?_⟩
      have hle : lv.innerLayout.toNat ≤ 4 := hwf.innerLayout_mem.2
      have hne : lv.innerLayout.toNat ≠ 4 := fun h => htag (UInt8.toNat_inj.mp h)
      exact UInt8.le_iff_toNat_le.mpr (show lv.innerLayout.toNat ≤ 3 by omega)
    refine yields_flatOffset hflat ?_ ?_ (hlen.trans hrank.tileShape.symm).le
    · simpa using hwf.innerStrides_iff
    · intro s hs
      obtain ⟨inner, hinner, rfl⟩ := Option.map_eq_some_iff.mp hs
      exact (hlen.trans (hrank.innerStrides inner hinner).symm).le

/-- One level is safe if the nested layout is, on every index of the same rank. -/
theorem yields_levelOffset {lv : TiledLevel} {hasInner : Bool} (hwf : lv.WellFormed hasInner)
    (hrank : LevelRank rank lv) {nested : Option (List UInt64 → Result UInt64)}
    (hnested : lv.innerLayout = TAG_TILED → ∃ f, nested = some f ∧
      ∀ idx : List UInt64, idx.length = rank → Exec.Yields (f idx) fun _ => True)
    (hindex : index.length = rank) (hdims : dims.length = rank) :
    Exec.Yields (levelOffset lv nested index dims) fun _ => True := by
  have hcoords : ∀ k ∈ List.range index.length,
      Exec.Yields (tileCoordinate index lv.tileShape k) fun _ => True := by
    intro k hk
    exact yields_tileCoordinate (List.mem_range.mp hk) (hindex.trans hrank.tileShape.symm).le
      hwf.tileShape_pos
  apply (Exec.yields_mapM hcoords).bind
  intro coords h
  obtain ⟨hlen, -⟩ := h
  rw [List.length_range, hindex] at hlen
  apply (yields_gridDims hwf.tileShape_pos).bind
  intro grid hgrid
  rw [List.length_zip, hdims, hrank.tileShape, Nat.min_self] at hgrid
  refine (yields_flatOffset hwf.outerLayout_mem ?_ ?_ ?_).bind fun _ _ => ?_
  · simpa using hwf.outerStrides_iff
  · intro s hs
    obtain ⟨outer, houter, rfl⟩ := Option.map_eq_some_iff.mp hs
    simp [hlen, hrank.outerStrides outer houter]
  · simp [hlen, hgrid]
  apply yields_tileSize.bind
  intro _ _
  refine (yields_intraOffset hwf hrank ?_ (by simp [hlen])).bind fun _ _ => ?_
  · intro htag
    obtain ⟨f, rfl, hf⟩ := hnested htag
    exact ⟨_, rfl, hf _ (by simp [hlen])⟩
  apply Exec.yields_orFail.bind
  intro _ _
  exact Exec.yields_orFail.bind fun _ _ => Exec.yields_pure trivial

/-- By induction on the chain of levels: each hands an index of the same rank to the next. -/
theorem yields_tiledOffset {l : TiledLayout} (hwf : l.WellFormed)
    (hrank : l.AllLevels (LevelRank rank)) (hindex : index.length = rank)
    (hdims : dims.length = rank) : Exec.Yields (tiledOffset l index dims) fun _ => True := by
  induction l generalizing index dims with
  | flat lv =>
    refine yields_levelOffset hwf hrank ?_ hindex hdims
    intro htag
    exact absurd htag (hwf.innerTiled_iff.mp rfl)
  | nested lv inner ih =>
    refine yields_levelOffset hwf.1 hrank.1 ?_ hindex hdims
    intro _
    exact ⟨_, rfl, fun idx hidx => ih hwf.2 hrank.2 hidx hrank.1.tileShape⟩

theorem yields_tiledLayout {l : TiledLayout} (hwf : l.WellFormed) {shape : Shape}
    (hrank : l.AllLevels (LevelRank shape.rank)) :
    Exec.Yields (l.elementOffset index shape) fun _ => True := by
  apply yields_validateIndex.bind
  intro _ hvalid
  apply Exec.yields_reject.bind
  intro _ _
  exact yields_tiledOffset hwf hrank hvalid.length_eq rfl

end Tiled
section Morton
variable {l : MortonLayout} {index : List UInt64} {shape : Shape}

theorem le_sum_of_mem {xs : List UInt32} {x : UInt32} (h : x ∈ xs) :
    x.toNat ≤ (xs.map UInt32.toNat).sum :=
  List.le_sum_of_mem (List.mem_map_of_mem h)

/-- With at most 64 bits in all, no shift and no position of a code bit overflows. -/
theorem yields_mortonBit {b rank : ℕ} {code : UInt64} {c : (UInt64 × UInt32) × ℕ}
    (hbits : c.1.2.toNat ≤ 64) (hrank : rank ≤ MAX_RANK) (hdim : c.2 < MAX_RANK) :
    Exec.Yields (mortonBit rank b code c) fun _ => True := by
  unfold mortonBit
  split
  · next hb =>
    have hmax : MAX_RANK = 64 := rfl
    have hb64 : b < 64 := by omega
    have hrow : b * (rank % 2 ^ 32) ≤ 64 * 64 :=
      Nat.mul_le_mul (by omega) ((Nat.mod_le _ _).trans (by omega))
    have hcol : c.2 % 2 ^ 32 ≤ 64 := (Nat.mod_le _ _).trans (by omega)
    apply (Exec.yields_shr hb64).bind
    intro _ _
    apply (Exec.yields_inBits (by omega)).bind
    rintro row rfl
    apply (Exec.yields_inBits (by omega)).bind
    intro shift _
    apply Exec.yields_reject.bind
    intro _ hshift
    exact (Exec.yields_shl (by omega)).bind fun _ _ => Exec.yields_pure trivial
  · exact Exec.yields_pure trivial

theorem yields_mortonLayout (hsum : (l.mortonBits.map UInt32.toNat).sum < UInt32.size) :
    Exec.Yields (l.elementOffset index shape) fun _ => True := by
  apply yields_validateIndex.bind
  intro _ hvalid
  apply Exec.yields_reject.bind
  intro _ _
  rw [Exec.sumU32_eq, if_pos hsum, Exec.ok_bind]
  apply Exec.yields_reject.bind
  intro _ htotal
  have htotal : (l.mortonBits.map UInt32.toNat).sum ≤ 64 := by
    have hle := UInt32.not_lt.mp htotal
    rw [UInt32.le_iff_toNat_le, UInt32.toNat_ofNat_of_lt' hsum] at hle
    exact hle
  refine Exec.yields_foldlM (I := fun _ => True) trivial ?_
  intro code b _ _
  refine Exec.yields_foldlM (I := fun _ => True) trivial ?_
  intro code h hmem _
  obtain ⟨⟨i, bits⟩, d⟩ := h
  obtain ⟨hd, hget⟩ := List.mem_zipIdx' hmem
  have hbits : bits ∈ l.mortonBits := by
    have hzip := List.getElem_mem hd
    rw [← hget] at hzip
    exact (List.of_mem_zip hzip).2
  have hrank : index.length ≤ MAX_RANK := hvalid.length_eq ▸ shape.rank_le
  apply yields_mortonBit ((le_sum_of_mem hbits).trans htotal) hrank
  rw [List.length_zip] at hd
  exact (hd.trans_le (Nat.min_le_left _ _)).trans_le hrank

theorem mortonLayout_panics (hrank : l.mortonBits.length = shape.rank)
    (hvalid : ValidIndex index shape)
    (hsum : ¬ (l.mortonBits.map UInt32.toNat).sum < UInt32.size) :
    l.elementOffset index shape = Exec.panic := by
  rw [MortonLayout.elementOffset, (validateIndex_eq_ok (u := ())).mpr hvalid, Exec.ok_bind,
    Exec.reject_of_not (not_not.mpr hrank), Exec.ok_bind, Exec.sumU32_eq, if_neg hsum]
  rfl

end Morton

section Hilbert
variable {l : HilbertLayout} {index x : List UInt64} {shape : Shape} {r n : ℕ}

theorem yields_hilbertExchange {q : UInt64} {i : ℕ} (hx : x.length = n) (hi : i < n) :
    Exec.Yields (hilbertExchange q x i) fun y => y.length = n := by
  have hpos : 0 < x.length := by omega
  apply (Exec.yields_index (hx.symm ▸ hi)).bind
  intro xi _
  apply (Exec.yields_index hpos).bind
  intro x0 _
  split
  · exact Exec.yields_pure (by simpa using hx)
  · apply (Exec.yields_index (by simpa using hx.symm ▸ hi)).bind
    intro _ _
    exact Exec.yields_pure (by simpa using hx)

theorem yields_hilbertRounds {e : ℕ} (hx : x.length = n) (hr : r ≤ n) :
    Exec.Yields (hilbertRounds r e x) fun y => y.length = n := by
  induction e generalizing x with
  | zero => exact Exec.yields_pure hx
  | succ e ih =>
    refine (Exec.yields_foldlM (I := fun y => y.length = n) hx ?_).bind fun y hy => ih hy
    intro y i hi hy
    exact yields_hilbertExchange hy ((List.mem_range.mp hi).trans_le hr)

theorem yields_hilbertGray {i : ℕ} (hx : x.length = n) (hi : i < n) :
    Exec.Yields (hilbertGray x i) fun y => y.length = n := by
  apply (Exec.yields_index (by omega)).bind
  intro _ _
  apply (Exec.yields_index (by omega)).bind
  intro _ _
  exact Exec.yields_pure (by simpa using hx)

theorem yields_hilbertMask {e : ℕ} {t : UInt64} (hr : 1 ≤ r) (h : r - 1 < x.length) :
    Exec.Yields (hilbertMask r x e t) fun _ => True := by
  induction e generalizing t with
  | zero => exact Exec.yields_pure trivial
  | succ e ih =>
    apply (Exec.yields_subSize hr).bind
    rintro place rfl
    exact (Exec.yields_index h).bind fun _ _ => ih

theorem yields_hilbertBit {b : ℕ} {h : UInt64} {c : UInt64 × ℕ} (hb : b < 64) (hc : c.2 < r) :
    Exec.Yields (hilbertBit r b h c) fun _ => True := by
  apply (Exec.yields_shr hb).bind
  intro _ _
  apply (Exec.yields_subSize (by omega)).bind
  rintro high rfl
  apply (Exec.yields_subSize (by omega)).bind
  intro low _
  apply Exec.yields_reject.bind
  intro _ hshift
  exact (Exec.yields_shl (by omega)).bind fun _ _ => Exec.yields_pure trivial

/-- The rounds stay within the first `hilbert_rank` components, all of which the index has. -/
theorem yields_hilbertLayout (hwf : l.WellFormed) (hr : l.hilbertRank.toNat ≤ shape.rank) :
    Exec.Yields (l.elementOffset index shape) fun _ => True := by
  have hrank : 2 ≤ l.hilbertRank.toNat := UInt32.not_lt.mp hwf.rank_ge
  have horder : l.hilbertOrder.toNat ≠ 0 := fun h => hwf.order_ne (UInt32.toNat_inj.mp h)
  apply yields_validateIndex.bind
  intro _ hvalid
  apply Exec.yields_reject.bind
  intro _ hbits
  have horder64 : l.hilbertOrder.toNat ≤ 64 := by nlinarith
  apply (Exec.yields_subSize (by omega)).bind
  rintro e rfl
  apply (Exec.yields_shl (by omega)).bind
  intro _ _
  apply (yields_hilbertRounds hvalid.length_eq hr).bind
  intro x hx
  refine (Exec.yields_foldlM (I := fun y => y.length = shape.rank) hx ?_).bind
    fun x hx => ?_
  · intro y i hi hy
    obtain ⟨-, hi⟩ := List.mem_range'_1.mp hi
    exact yields_hilbertGray hy (by omega)
  apply (yields_hilbertMask (by omega) (by omega)).bind
  intro t _
  refine Exec.yields_foldlM (I := fun _ => True) trivial ?_
  intro h b hb _
  refine Exec.yields_foldlM (I := fun _ => True) trivial ?_
  intro h h hmem _
  obtain ⟨xd, d⟩ := h
  obtain ⟨hd, -⟩ := List.mem_zipIdx' hmem
  rw [List.length_map, List.length_take] at hd
  have hb' := List.mem_range.mp hb
  exact yields_hilbertBit (by omega) (hd.trans_le (Nat.min_le_left _ _))

theorem panicsUnless_hilbertExchange {q : UInt64} {i : ℕ} (hx : x.length = n) :
    Exec.PanicsUnless (hilbertExchange q x i) fun y => y.length = n := by
  apply Exec.panicsUnless_index.bind
  intro xi _
  apply Exec.panicsUnless_index.bind
  intro x0 _
  split
  · exact Exec.panicsUnless_pure (by simpa using hx)
  · apply Exec.panicsUnless_index.bind
    intro _ _
    exact Exec.panicsUnless_pure (by simpa using hx)

theorem panicsUnless_hilbertRounds {e : ℕ} (hx : x.length = n) :
    Exec.PanicsUnless (hilbertRounds r e x) fun y => y.length = n := by
  induction e generalizing x with
  | zero => exact Exec.panicsUnless_pure hx
  | succ e ih =>
    refine (Exec.panicsUnless_foldlM (I := fun y => y.length = n) hx ?_).bind
      fun y hy => ih hy
    intro y i _ hy
    exact panicsUnless_hilbertExchange hy

/-- The Gray encoding reads one component after another up to `hilbert_rank`. -/
theorem hilbertGray_panics (hx : x.length = n) (hr : n < r) (htwo : 2 ≤ r) :
    (List.range' 1 (r - 1)).foldlM hilbertGray x = (Exec.panic : Result (List UInt64)) := by
  refine Exec.foldlM_eq_panic (a := max n 1) (I := fun y => y.length = n) hx ?_ ?_ ?_
  · intro y i _ hy
    apply Exec.panicsUnless_index.bind
    intro _ _
    apply Exec.panicsUnless_index.bind
    intro _ _
    exact Exec.panicsUnless_pure (by simpa using hy)
  · exact List.mem_range'_1.mpr ⟨by omega, by omega⟩
  · intro y hy
    have hindex : (Exec.index y (max n 1) : Result UInt64) = Exec.panic :=
      Exec.index_eq_panic.mpr (by omega)
    rw [hilbertGray, hindex]
    rfl

theorem hilbertLayout_panics (hwf : l.WellFormed) (hvalid : ValidIndex index shape)
    (hr : shape.rank < l.hilbertRank.toNat)
    (hbits : l.hilbertRank.toNat * l.hilbertOrder.toNat ≤ 64) :
    l.elementOffset index shape = Exec.panic := by
  have hrank : 2 ≤ l.hilbertRank.toNat := UInt32.not_lt.mp hwf.rank_ge
  have horder : 1 ≤ l.hilbertOrder.toNat := by
    by_contra h
    exact hwf.order_ne (UInt32.toNat_inj.mp (Nat.lt_one_iff.mp (Nat.not_le.mp h)))
  have hshift : l.hilbertOrder.toNat - 1 < 64 := by
    have hle : l.hilbertOrder.toNat ≤ 64 := by nlinarith
    omega
  simp only [HilbertLayout.elementOffset, (validateIndex_eq_ok (u := ())).mpr hvalid, Exec.ok_bind,
    Exec.reject_of_not (Nat.not_lt.mpr hbits), Exec.subSize, if_pos horder, Exec.shl,
    if_pos hshift]
  apply (panicsUnless_hilbertRounds hvalid.length_eq).bind_eq_panic
  intro x hx
  rw [hilbertGray_panics hx hr hrank]
  rfl

end Hilbert
/-- What addressing a layout that fits the decoder rests on: a Morton code whose bits are counted
in 32 bits, and a Hilbert rank within the rank of the shape, wherever an element exists and the
Hilbert index fits its word. -/
def AddressSafe (shape : Shape) : LayoutDescriptor → Prop
  | .morton l =>
      (l.mortonBits.map UInt32.toNat).sum < UInt32.size ∨ ¬ shape.Addressable
  | .hilbert l =>
      l.hilbertRank.toNat ≤ shape.rank ∨ 64 < l.hilbertRank.toNat * l.hilbertOrder.toNat ∨
        ¬ shape.Addressable
  | _ => True

section Safety
variable {l : LayoutDescriptor} {index : List UInt64} {shape : Shape} {d : TensorDescriptor}
  {b : Bytes}

theorem validateIndex_fails (h : ¬ ValidIndex index shape) :
    ∃ e, validateIndex index shape = Exec.fail e :=
  Exec.exists_fail yields_validateIndex.1 fun _ hok => h (validateIndex_eq_ok.mp hok)

theorem elementOffset_safe (hfits : LayoutFits shape.rank l) (h : AddressSafe shape l) :
    (l.elementOffset index shape).Safe := by
  cases l with
  | rowMajor =>
    exact (yields_validateIndex.bind fun _ hvalid =>
      yields_rowMajorOffset (show index.length ≤ shape.rank from hvalid.length_eq.le)).1
  | colMajor =>
    exact (yields_validateIndex.bind fun _ hvalid =>
      yields_colMajorOffset (show index.length ≤ shape.rank from hvalid.length_eq.le)).1
  | strided x => exact yields_stridedLayout.1
  | tiled x => exact (yields_tiledLayout hfits.wellFormed.1 hfits.rankFramed).1
  | morton x =>
    rcases h with hsum | haddr
    · exact (yields_mortonLayout hsum).1
    · have hinvalid : ¬ ValidIndex index shape := fun hv => haddr hv.addressable
      obtain ⟨e, he⟩ := validateIndex_fails hinvalid
      rw [LayoutDescriptor.elementOffset, MortonLayout.elementOffset, he]
      exact Exec.fail_ne_panic
  | hilbert x =>
    rcases h with hrank | hbits | haddr
    · exact (yields_hilbertLayout hfits.wellFormed hrank).1
    · refine (yields_validateIndex.bind (Q := fun _ => True) fun _ _ => ?_).1
      exact Exec.yields_reject.bind fun _ hle => absurd hbits hle
    · have hinvalid : ¬ ValidIndex index shape := fun hv => haddr hv.addressable
      obtain ⟨e, he⟩ := validateIndex_fails hinvalid
      rw [LayoutDescriptor.elementOffset, HilbertLayout.elementOffset, he]
      exact Exec.fail_ne_panic
  | _ => exact Exec.fail_ne_panic

/-- Where the condition fails, the origin is an index that makes the program panic. -/
theorem elementOffset_origin_panics (hfits : LayoutFits shape.rank l) (h : ¬ AddressSafe shape l) :
    l.elementOffset (List.replicate shape.rank 0) shape = Exec.panic := by
  cases l with
  | morton x =>
    simp only [AddressSafe, not_or, not_not] at h
    exact mortonLayout_panics hfits.rankFramed (validIndex_origin h.2) h.1
  | hilbert x =>
    simp only [AddressSafe, not_or, not_not, not_le, not_lt] at h
    exact hilbertLayout_panics hfits.wellFormed (validIndex_origin h.2.2) h.1 h.2.1
  | _ => exact absurd trivial h

/-- Every index of a decoded tensor is addressed without a panic exactly under `AddressSafe`. -/
theorem decoded_address_safe_iff (h : decode b = .ok d) :
    (∀ index, (d.layout.elementOffset index d.shape).Safe) ↔ AddressSafe d.shape d.layout := by
  obtain ⟨hd, -⟩ := decode_eq_ok_iff.mp h
  constructor
  · intro hsafe
    by_contra hcond
    exact hsafe _ (elementOffset_origin_panics hd.fields.layout hcond)
  · intro hcond index
    exact elementOffset_safe hd.fields.layout hcond

end Safety

theorem workedExample_address_safe :
    decode (workedExampleBytes 0 61) = .ok workedExample ∧
      ((∀ index, (workedExample.layout.elementOffset index workedExample.shape).Safe) ↔
        AddressSafe workedExample.shape workedExample.layout) := by
  have hdec : decode (workedExampleBytes 0 61) = .ok workedExample := by decide +kernel
  exact ⟨hdec, decoded_address_safe_iff hdec⟩

/-- A tensor of shape 2 by 2 whose Hilbert layout speaks of three dimensions. -/
def overRankedHilbert : TensorDescriptor :=
  { workedExample with
    shape := ⟨[2, 2], by decide⟩
    layout := .hilbert ⟨1, 3⟩ }

theorem overRankedHilbert_panics :
    decode (wireBytes (descriptorCells overRankedHilbert 69)) = .ok overRankedHilbert ∧
      overRankedHilbert.layout.elementOffset [0, 0] overRankedHilbert.shape = Exec.panic := by
  constructor
  · decide +kernel
  · decide +kernel

end Hurray.Descriptor
