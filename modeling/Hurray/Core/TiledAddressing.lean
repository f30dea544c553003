import Mathlib.Data.Int.ModEq
import Hurray.Base.Tiling
import Hurray.Core.LinearAddressing

/-!
Tiled addressing: the place of an index in exact arithmetic, and the offset that the code
computes for it.
-/
namespace Hurray.Core
open Hurray.Base
open Hurray.Base.Tiling (tile inTile grid clip corner Below Numbers)

/-! ### Exact places -/

section Place

def TiledLevel.sizes (lv : TiledLevel) : List ℕ := lv.tileShape.map UInt64.toNat

/-- The number of elements in a tile, without a bound. -/
def TiledLevel.tileElements (lv : TiledLevel) : ℕ := lv.sizes.prod

/-- The place of an index by the row- or the column-major arrangement. -/
def flatPlace (tag : UInt8) (dims idx : List ℕ) : ℕ :=
  if tag = TAG_ROW_MAJOR then MixedRadix.value dims.reverse idx.reverse
  else MixedRadix.value dims idx

def TiledLevel.tileNumber (lv : TiledLevel) (dims idx : List ℕ) : ℕ :=
  flatPlace lv.outerLayout (grid lv.sizes dims) (tile lv.sizes idx)

/-- The offset by the rules of the layout, in numbers without a bound. -/
def TiledLayout.place : TiledLayout → List ℕ → List ℕ → ℕ
  | .flat lv, dims, idx =>
      lv.tileNumber dims idx * lv.tileElements +
        flatPlace lv.innerLayout lv.sizes (inTile lv.sizes idx)
  | .nested lv inner, dims, idx =>
      lv.tileNumber dims idx * lv.tileElements + inner.place lv.sizes (inTile lv.sizes idx)

/-- The elements of the prescribed buffer: all tiles of the grid, each in full. -/
def TiledLayout.bufferElements (l : TiledLayout) (dims : List ℕ) : ℕ :=
  (grid l.level.sizes dims).prod * l.level.tileElements

/-- Where a level cuts the space into several tiles, the nested layout places the last index of a
tile before the end of the tile. The extents say how far the indices of the space reach. -/
def TiledLayout.Contained : TiledLayout → List ℕ → Prop
  | .flat _, _ => True
  | .nested lv inner, extents =>
      (¬ Below extents lv.sizes →
        inner.place lv.sizes (corner (clip lv.sizes extents)) < lv.tileElements) ∧
      inner.Contained (clip lv.sizes extents)

/-- Every level that has a nested one cuts its space into whole tiles. -/
def TiledLayout.WholeTiles : TiledLayout → List ℕ → Prop
  | .flat _, _ => True
  | .nested lv inner, dims => List.Forall₂ (· ∣ ·) lv.sizes dims ∧ inner.WholeTiles lv.sizes

/-- Every level has positive tile sizes, one for each dimension. -/
def TiledLevel.Regular (rank : ℕ) (lv : TiledLevel) : Prop :=
  0 ∉ lv.tileShape ∧ lv.tileShape.length = rank

variable {lv : TiledLevel} {l : TiledLayout} {rank : ℕ} {dims extents : List ℕ}

theorem numbers_flatPlace {tag : UInt8} : Numbers dims.prod dims (flatPlace tag dims) := by
  by_cases htag : tag = TAG_ROW_MAJOR
  · have h : flatPlace tag dims = fun e => MixedRadix.value dims.reverse e.reverse :=
      funext fun e => if_pos htag
    rw [h]
    exact Numbers.value_reverse
  · have h : flatPlace tag dims = MixedRadix.value dims := funext fun e => if_neg htag
    rw [h]
    exact Numbers.value

theorem flatPlace_corner {tag : UInt8} (h : 0 ∉ dims) :
    flatPlace tag dims (corner dims) + 1 = dims.prod := by
  unfold flatPlace
  split
  · rw [corner, ← List.map_reverse, ← List.prod_reverse dims]
    exact Tiling.value_corner (by rwa [List.mem_reverse])
  · exact Tiling.value_corner h

theorem zero_notMem_toNat {ts : List UInt64} (h : 0 ∉ ts) : 0 ∉ ts.map UInt64.toNat := by
  intro hmem
  obtain ⟨t, ht, hzero⟩ := List.mem_map.mp hmem
  have hword : t = 0 := UInt64.toNat_inj.mp hzero
  exact h (hword ▸ ht)

theorem TiledLevel.Regular.sizes_pos (h : lv.Regular rank) : 0 ∉ lv.sizes :=
  zero_notMem_toNat h.1

theorem TiledLevel.Regular.length_sizes (h : lv.Regular rank) : lv.sizes.length = rank := by
  rw [TiledLevel.sizes, List.length_map, h.2]

theorem TiledLayout.level_regular (h : l.AllLevels (TiledLevel.Regular rank)) :
    l.level.Regular rank := by
  cases l with
  | flat _ => exact h
  | nested _ _ => exact h.1

/-- A space within one tile lies in the first one. -/
theorem TiledLevel.tileNumber_eq_zero {idx : List ℕ} (hle : Below extents lv.sizes)
    (hidx : MixedRadix.Within extents idx) : lv.tileNumber dims idx = 0 := by
  have hzero := Tiling.tile_eq_zero hle hidx
  unfold tileNumber flatPlace
  split
  · apply MixedRadix.value_eq_zero
    simpa using hzero
  · exact MixedRadix.value_eq_zero hzero

theorem TiledLayout.place_within_tile {inner : TiledLayout} {idx : List ℕ}
    (hle : Below extents lv.sizes) (hidx : MixedRadix.Within extents idx) :
    (TiledLayout.nested lv inner).place dims idx = inner.place lv.sizes idx := by
  rw [place, TiledLevel.tileNumber_eq_zero hle hidx, Tiling.inTile_eq hle hidx, Nat.zero_mul,
    Nat.zero_add]

/-- By induction on the levels: where the nested layout stays within a tile, the level above
numbers its space, and so it does where there is one tile. -/
theorem TiledLayout.numbers_place (hregular : l.AllLevels (TiledLevel.Regular rank))
    (hlen : extents.length = rank) (hle : Below extents dims) (h : l.Contained extents) :
    Numbers (l.place dims (corner extents) + 1) extents (l.place dims) := by
  induction l generalizing dims extents with
  | flat lv =>
    have hsize : lv.sizes.length = extents.length := by rw [hregular.length_sizes, hlen]
    have hplaces : Numbers _ extents ((TiledLayout.flat lv).place dims) :=
      Numbers.tiled hregular.sizes_pos hsize hle numbers_flatPlace
        (numbers_flatPlace.restrict (Tiling.below_clip hsize))
    exact hplaces.of_corner (Nat.lt_succ_self _)
  | nested lv inner ih =>
    obtain ⟨hlv, hrest⟩ := hregular
    obtain ⟨htiles, hcontained⟩ := h
    have hsize : lv.sizes.length = extents.length := by rw [hlv.length_sizes, hlen]
    have hclip : (clip lv.sizes extents).length = rank := by
      rw [clip, List.length_zipWith, hsize, hlen, Nat.min_self]
    have hinner := ih hrest hclip (Tiling.below_clip hsize) hcontained
    by_cases hone : Below extents lv.sizes
    · rw [Tiling.clip_eq hone] at hinner
      have hplaces : Numbers _ extents ((TiledLayout.nested lv inner).place dims) :=
        hinner.congr fun e he => TiledLayout.place_within_tile hone he
      exact hplaces.of_corner (Nat.lt_succ_self _)
    · have hplaces : Numbers _ extents ((TiledLayout.nested lv inner).place dims) :=
        Numbers.tiled hlv.sizes_pos hsize hle numbers_flatPlace (hinner.of_corner (htiles hone))
      exact hplaces.of_corner (Nat.lt_succ_self _)

/-- Over whole tiles, the last index lies in the last tile; so if it is placed within the buffer,
then the last index of a tile is placed before the end of the tile. -/
theorem TiledLayout.contained_of_corner (hregular : l.AllLevels (TiledLevel.Regular rank))
    (hlen : dims.length = rank) (hpos : 0 ∉ dims) (hwhole : l.WholeTiles dims)
    (h : l.place dims (corner dims) < l.bufferElements dims) : l.Contained dims := by
  induction l generalizing dims with
  | flat lv => trivial
  | nested lv inner ih =>
    obtain ⟨hlv, hrest⟩ := hregular
    obtain ⟨hdvd, hinner⟩ := hwhole
    have hsizes := hlv.sizes_pos
    obtain ⟨htile, hin⟩ := Tiling.corner_of_dvd hpos hdvd
    have hgrid : 0 ∉ grid lv.sizes dims := by
      intro hzero
      have hprod := Tiling.prod_grid_mul hsizes hdvd
      rw [List.prod_eq_zero hzero, Nat.zero_mul] at hprod
      exact hpos (List.prod_eq_zero_iff.mp hprod.symm)
    have hnumber : lv.tileNumber dims (corner dims) + 1 = (grid lv.sizes dims).prod := by
      rw [TiledLevel.tileNumber, htile, flatPlace_corner hgrid]
    have hlast : inner.place lv.sizes (corner lv.sizes) < lv.tileElements := by
      rw [place, hin, bufferElements, level, ← hnumber, Nat.succ_mul] at h
      exact Nat.lt_of_add_lt_add_left h
    have hsize : inner.level.sizes.length = lv.sizes.length := by
      rw [(TiledLayout.level_regular hrest).length_sizes, hlv.length_sizes]
    have hbuffer : lv.tileElements ≤ inner.bufferElements lv.sizes :=
      (Tiling.prod_grid_le (TiledLayout.level_regular hrest).sizes_pos hsize).2
    rw [Contained, Tiling.clip_of_dvd hpos hdvd]
    exact ⟨fun _ => hlast, ih hrest hlv.length_sizes hsizes hinner (hlast.trans_le hbuffer)⟩
end Place

/-! ### What the code computes -/

section Machine

/-- The size of a tile as the code multiplies it up. -/
def TiledLevel.tileSize (lv : TiledLevel) : Result Int64 :=
  lv.tileShape.foldlM (fun acc d =>
    Exec.orFail (checkedMulSigned acc d.toInt64) .addressOverflow) 1

/-- A size that the code gets is the number of elements. -/
def TiledLevel.Sized (lv : TiledLevel) : Prop :=
  ∀ size, lv.tileSize = .ok size → size.toInt = lv.tileElements

/-- The tiles and the elements within them are arranged row- or column-major, or by a nested
layout. -/
def TiledLevel.FlatOrders (lv : TiledLevel) : Prop :=
  (lv.outerLayout = TAG_ROW_MAJOR ∨ lv.outerLayout = TAG_COL_MAJOR) ∧
    (lv.innerLayout = TAG_ROW_MAJOR ∨ lv.innerLayout = TAG_COL_MAJOR ∨
      lv.innerLayout = TAG_TILED)

variable {lv : TiledLevel} {l : TiledLayout} {index dims ts : List UInt64} {tag : UInt8}
  {strides : Option (List Int64)} {r : UInt64} {x : Int64} {extents : List ℕ}

theorem TiledLevel.FlatOrders.inner_of_flat (h : lv.FlatOrders)
    (htiled : lv.innerLayout ≠ TAG_TILED) :
    lv.innerLayout = TAG_ROW_MAJOR ∨ lv.innerLayout = TAG_COL_MAJOR := by
  obtain ⟨-, hrow | hcol | htag⟩ := h
  · exact Or.inl hrow
  · exact Or.inr hcol
  · exact absurd htag htiled

theorem flatOffset_eq_ok (htag : tag = TAG_ROW_MAJOR ∨ tag = TAG_COL_MAJOR)
    (hlen : index.length = dims.length) (h : flatOffset tag strides index dims = .ok x) :
    ∃ offset : UInt64, x = offset.toInt64 ∧
      offset.toNat = flatPlace tag (dims.map UInt64.toNat) (index.map UInt64.toNat) := by
  obtain rfl | rfl := htag
  · obtain ⟨offset, hoffset, hx⟩ := Exec.bind_eq_ok.mp h
    cases hx
    refine ⟨offset, rfl, ?_⟩
    rw [rowMajorOffset_eq hlen] at hoffset
    rw [toNat_linearFrom hoffset, sizes_reverse, components_reverse, sizes_zip hlen,
      components_zip hlen, flatPlace, if_pos rfl, UInt64.toNat_zero, UInt64.toNat_one,
      Nat.zero_add, Nat.one_mul]
  · obtain ⟨offset, hoffset, hx⟩ := Exec.bind_eq_ok.mp h
    cases hx
    refine ⟨offset, rfl, ?_⟩
    rw [colMajorOffset_eq hlen] at hoffset
    rw [toNat_linearFrom hoffset, sizes_zip hlen, components_zip hlen, flatPlace,
      if_neg (by decide), UInt64.toNat_zero, UInt64.toNat_one, Nat.zero_add, Nat.one_mul]

theorem mapM_tileCoordinate (hpos : 0 ∉ ts) (hlen : index.length = ts.length) :
    (List.range index.length).mapM (tileCoordinate index ts) =
      .ok ((index.zip ts).map fun c => (c.1 / c.2, c.1 % c.2)) := by
  apply Exec.mapM_eq_ok
  rw [List.forall₂_map_right_iff]
  refine (forall₂_at_range hlen).imp ?_
  intro k c hat
  obtain ⟨hi, ht⟩ := index_of_at hat
  have hne : c.2 ≠ 0 := fun hzero => hpos (hzero ▸ List.mem_of_getElem? hat.2)
  rw [tileCoordinate, hi, Exec.ok_bind, ht, Exec.ok_bind, Exec.div, if_neg hne, Exec.ok_bind,
    Exec.rem, if_neg hne, Exec.ok_bind]
  rfl

theorem map_tile (index ts : List UInt64) :
    ((index.zip ts).map fun c => (c.1 / c.2).toNat) =
      tile (ts.map UInt64.toNat) (index.map UInt64.toNat) := by
  rw [tile, List.zipWith_map, List.zip_eq_zipWith, List.map_zipWith]
  simp only [UInt64.toNat_div]

theorem map_inTile (index ts : List UInt64) :
    ((index.zip ts).map fun c => (c.1 % c.2).toNat) =
      inTile (ts.map UInt64.toNat) (index.map UInt64.toNat) := by
  rw [inTile, List.zipWith_map, List.zip_eq_zipWith, List.map_zipWith]
  simp only [UInt64.toNat_mod]

theorem exists_gridDims (hpos : 0 ∉ ts) :
    ∃ gs, ((dims.zip ts).mapM (fun p => Exec.divCeil p.1 p.2) : Result (List UInt64)) = .ok gs ∧
      gs.map UInt64.toNat = grid (ts.map UInt64.toNat) (dims.map UInt64.toNat) := by
  induction dims generalizing ts with
  | nil => exact ⟨[], rfl, rfl⟩
  | cons d dims ih =>
    cases ts with
    | nil => exact ⟨[], rfl, rfl⟩
    | cons t ts =>
      obtain ⟨ht, hts⟩ := not_or.mp (mt List.mem_cons.mpr hpos)
      obtain ⟨g, hg, hceil⟩ := Exec.exists_divCeil (a := d) (Ne.symm ht) (ε := Error)
      obtain ⟨gs, hgs, hgrid⟩ := ih hts
      refine ⟨g :: gs, ?_, ?_⟩
      · rw [List.zip_cons_cons, List.mapM_cons, hg, Exec.ok_bind, hgs]
        rfl
      · rw [List.map_cons, hceil, hgrid]
        rfl

theorem intraOffset_flat {nested : Option (Result UInt64)} (h : lv.innerLayout ≠ TAG_TILED) :
    intraOffset lv nested index =
      flatOffset lv.innerLayout (lv.innerStrides.map InnerStrides.strides) index lv.tileShape := by
  unfold intraOffset
  exact if_neg h

theorem intraOffset_nested {offset : Result UInt64} (h : lv.innerLayout = TAG_TILED) :
    intraOffset lv (some offset) index = offset >>= fun offset => pure offset.toInt64 := by
  unfold intraOffset
  exact if_pos h

/-- One level: the number of the tile and the offset within it, put together. -/
theorem levelOffset_eq_ok {nested : Option (List UInt64 → Result UInt64)}
    (hregular : lv.Regular index.length) (hdims : dims.length = index.length)
    (houter : lv.outerLayout = TAG_ROW_MAJOR ∨ lv.outerLayout = TAG_COL_MAJOR)
    (h : levelOffset lv nested index dims = .ok r) :
    ∃ (number : UInt64) (size intra : Int64) (intraIdx : List UInt64),
      number.toNat = lv.tileNumber (dims.map UInt64.toNat) (index.map UInt64.toNat) ∧
      lv.tileSize = .ok size ∧
      intraIdx.map UInt64.toNat = inTile lv.sizes (index.map UInt64.toNat) ∧
      intraOffset lv (nested.map fun f => f intraIdx) intraIdx = .ok intra ∧
      r.toInt64.toInt = number.toInt64.toInt * size.toInt + intra.toInt := by
  obtain ⟨hpos, hlen⟩ := hregular
  obtain ⟨gs, hgs, hgrid⟩ := exists_gridDims hpos
  rw [levelOffset, mapM_tileCoordinate hpos hlen.symm, Exec.ok_bind, hgs, Exec.ok_bind,
    List.map_map, List.map_map] at h
  obtain ⟨x, hx, h⟩ := Exec.bind_eq_ok.mp h
  obtain ⟨size, hsize, h⟩ := Exec.bind_eq_ok.mp h
  obtain ⟨intra, hintra, h⟩ := Exec.bind_eq_ok.mp h
  obtain ⟨base, hbase, h⟩ := Exec.bind_eq_ok.mp h
  obtain ⟨total, htotal, h⟩ := Exec.bind_eq_ok.mp h
  cases h
  have hgslen : gs.length = index.length := by
    have hlength := congrArg List.length hgrid
    simpa [grid, hdims, hlen] using hlength
  obtain ⟨number, rfl, hnumber⟩ := flatOffset_eq_ok houter (by simp [hgslen, hlen]) hx
  refine ⟨number, size, intra, _, ?_, hsize, ?_, hintra, ?_⟩
  · rw [hnumber, hgrid, List.map_map]
    exact congrArg (flatPlace lv.outerLayout _) (map_tile index lv.tileShape)
  · rw [List.map_map]
    exact map_inTile index lv.tileShape
  · rw [Int64.toInt64_toUInt64, toInt_of_checkedAddSigned (Exec.orFail_eq_ok.mp htotal),
      toInt_of_checkedMulSigned (Exec.orFail_eq_ok.mp hbase)]

theorem tag_of_nested {inner : TiledLayout} (hwf : (TiledLayout.nested lv inner).WellFormed) :
    lv.innerLayout = TAG_TILED := by
  by_contra htag
  exact absurd (hwf.1.innerTiled_iff.mpr htag) (by decide)

/-- The number of the tile and the place within it, at the last level. -/
theorem tiledOffset_flat_eq_ok (hwf : (TiledLayout.flat lv).WellFormed)
    (hregular : lv.Regular index.length) (horders : lv.FlatOrders)
    (hdims : dims.length = index.length) (h : tiledOffset (.flat lv) index dims = .ok r) :
    ∃ (number place : UInt64) (size : Int64),
      number.toNat = lv.tileNumber (dims.map UInt64.toNat) (index.map UInt64.toNat) ∧
      lv.tileSize = .ok size ∧
      place.toNat =
        flatPlace lv.innerLayout lv.sizes (inTile lv.sizes (index.map UInt64.toNat)) ∧
      r.toInt64.toInt = number.toInt64.toInt * size.toInt + place.toInt64.toInt := by
  obtain ⟨number, size, offset, intraIdx, hnumber, hsize, hidx, hintra, hr⟩ :=
    levelOffset_eq_ok hregular hdims horders.1 h
  have htiled : lv.innerLayout ≠ TAG_TILED := hwf.innerTiled_iff.mp rfl
  have hintralen : intraIdx.length = lv.tileShape.length := by
    have hlength := congrArg List.length hidx
    rw [List.length_map, inTile, List.length_zipWith, List.length_map, hregular.length_sizes,
      Nat.min_self] at hlength
    rw [hlength, hregular.2]
  rw [intraOffset_flat htiled] at hintra
  obtain ⟨place, rfl, hplace⟩ := flatOffset_eq_ok (horders.inner_of_flat htiled) hintralen hintra
  rw [hidx] at hplace
  exact ⟨number, place, size, hnumber, hsize, hplace, hr⟩

/-- Above the last level, the place within the tile is the offset by the nested layout. -/
theorem tiledOffset_nested_eq_ok {inner : TiledLayout}
    (hwf : (TiledLayout.nested lv inner).WellFormed) (hregular : lv.Regular index.length)
    (horders : lv.FlatOrders) (hdims : dims.length = index.length)
    (h : tiledOffset (.nested lv inner) index dims = .ok r) :
    ∃ (number offset : UInt64) (size : Int64) (intraIdx : List UInt64),
      number.toNat = lv.tileNumber (dims.map UInt64.toNat) (index.map UInt64.toNat) ∧
      lv.tileSize = .ok size ∧
      intraIdx.map UInt64.toNat = inTile lv.sizes (index.map UInt64.toNat) ∧
      intraIdx.length = index.length ∧
      tiledOffset inner intraIdx lv.tileShape = .ok offset ∧
      r.toInt64.toInt = number.toInt64.toInt * size.toInt + offset.toInt64.toInt := by
  obtain ⟨number, size, intra, intraIdx, hnumber, hsize, hidx, hintra, hr⟩ :=
    levelOffset_eq_ok hregular hdims horders.1 h
  have hintralen : intraIdx.length = index.length := by
    have hlength := congrArg List.length hidx
    rwa [List.length_map, inTile, List.length_zipWith, List.length_map, hregular.length_sizes,
      Nat.min_self] at hlength
  rw [Option.map_some, intraOffset_nested (tag_of_nested hwf)] at hintra
  obtain ⟨offset, hoffset, hsigned⟩ := Exec.bind_eq_ok.mp hintra
  cases hsigned
  exact ⟨number, offset, size, intraIdx, hnumber, hsize, hidx, hintralen, hoffset, hr⟩

/-! ### The offset and the exact place -/

/-- A word read as signed has not changed modulo `2^64`. -/
theorem toInt64_modEq (x : UInt64) : x.toInt64.toInt ≡ x.toNat [ZMOD 2 ^ 64] := by
  rw [toInt_toInt64]
  unfold Int.ModEq
  split <;> omega

theorem foldlM_tileSize_modEq {acc size : Int64}
    (h : ts.foldlM (fun acc d =>
      (Exec.orFail (checkedMulSigned acc d.toInt64) .addressOverflow : Result Int64)) acc =
        .ok size) :
    size.toInt ≡ acc.toInt * (ts.map UInt64.toNat).prod [ZMOD 2 ^ 64] := by
  induction ts generalizing acc with
  | nil =>
    cases h
    simp
  | cons d ts ih =>
    rw [List.foldlM_cons] at h
    obtain ⟨next, hnext, h⟩ := Exec.bind_eq_ok.mp h
    have hmul := toInt_of_checkedMulSigned (Exec.orFail_eq_ok.mp hnext)
    have hrest := ih h
    rw [hmul] at hrest
    calc size.toInt
        ≡ acc.toInt * d.toInt64.toInt * (ts.map UInt64.toNat).prod [ZMOD 2 ^ 64] := hrest
      _ ≡ acc.toInt * d.toNat * (ts.map UInt64.toNat).prod [ZMOD 2 ^ 64] :=
        ((toInt64_modEq d).mul_left _).mul_right _
      _ = acc.toInt * ((d :: ts).map UInt64.toNat).prod := by
        rw [List.map_cons, List.prod_cons]
        push_cast
        ring

theorem tileSize_modEq {size : Int64} (h : lv.tileSize = .ok size) :
    size.toInt ≡ lv.tileElements [ZMOD 2 ^ 64] := by
  have hsize := foldlM_tileSize_modEq h
  rwa [show (1 : Int64).toInt = 1 from rfl, Int.one_mul] at hsize

/-- Casts keep a number modulo `2^64` and checked operations are exact, so the offset is the exact
place modulo `2^64`. By induction on the levels. -/
theorem tiledOffset_modEq (hwf : l.WellFormed)
    (hregular : l.AllLevels (TiledLevel.Regular index.length))
    (horders : l.AllLevels TiledLevel.FlatOrders) (hdims : dims.length = index.length)
    (h : tiledOffset l index dims = .ok r) :
    (r.toNat : ℤ) ≡ l.place (dims.map UInt64.toNat) (index.map UInt64.toNat) [ZMOD 2 ^ 64] := by
  induction l generalizing index dims r with
  | flat lv =>
    obtain ⟨number, place, size, hnumber, hsize, hplace, hr⟩ :=
      tiledOffset_flat_eq_ok hwf hregular horders hdims h
    calc (r.toNat : ℤ) ≡ r.toInt64.toInt [ZMOD 2 ^ 64] := (toInt64_modEq r).symm
      _ = number.toInt64.toInt * size.toInt + place.toInt64.toInt := hr
      _ ≡ number.toNat * lv.tileElements + place.toNat [ZMOD 2 ^ 64] :=
        ((toInt64_modEq number).mul (tileSize_modEq hsize)).add (toInt64_modEq place)
      _ = _ := by
        rw [TiledLayout.place, hnumber, hplace]
        push_cast
        rfl
  | nested lv inner ih =>
    obtain ⟨hlv, hrest⟩ := hregular
    obtain ⟨number, offset, size, intraIdx, hnumber, hsize, hidx, hlength, hoffset, hr⟩ :=
      tiledOffset_nested_eq_ok hwf hlv horders.1 hdims h
    have hinner := ih hwf.2 (by rwa [hlength]) horders.2 (by rw [hlv.2, hlength]) hoffset
    rw [hidx] at hinner
    calc (r.toNat : ℤ) ≡ r.toInt64.toInt [ZMOD 2 ^ 64] := (toInt64_modEq r).symm
      _ = number.toInt64.toInt * size.toInt + offset.toInt64.toInt := hr
      _ ≡ number.toNat * lv.tileElements + inner.place lv.sizes _ [ZMOD 2 ^ 64] :=
        ((toInt64_modEq number).mul (tileSize_modEq hsize)).add
          ((toInt64_modEq offset).trans hinner)
      _ = _ := by
        rw [TiledLayout.place, hnumber]
        push_cast
        rfl

/-- The offset is what is left of the exact place in a word. -/
theorem toNat_tiledOffset (hwf : l.WellFormed)
    (hregular : l.AllLevels (TiledLevel.Regular index.length))
    (horders : l.AllLevels TiledLevel.FlatOrders) (hdims : dims.length = index.length)
    (h : tiledOffset l index dims = .ok r) :
    r.toNat = l.place (dims.map UInt64.toNat) (index.map UInt64.toNat) % 2 ^ 64 := by
  have hmod := tiledOffset_modEq hwf hregular horders hdims h
  have hword := r.toNat_lt_size
  have hsize : UInt64.size = 2 ^ 64 := rfl
  unfold Int.ModEq at hmod
  omega

theorem allLevels_regular (hwf : l.WellFormed) {rank : ℕ}
    (hrank : l.AllLevels fun lv => lv.tileShape.length = rank) :
    l.AllLevels (TiledLevel.Regular rank) := by
  induction l with
  | flat lv => exact ⟨hwf.tileShape_pos, hrank⟩
  | nested lv inner ih => exact ⟨⟨hwf.1.tileShape_pos, hrank.1⟩, ih hwf.2 hrank.2⟩

/-- An offset rests on the tile size of every level. -/
theorem allLevels_tileSize (hwf : l.WellFormed)
    (hregular : l.AllLevels (TiledLevel.Regular index.length))
    (horders : l.AllLevels TiledLevel.FlatOrders) (hdims : dims.length = index.length)
    (h : tiledOffset l index dims = .ok r) :
    l.AllLevels fun lv => ∃ size, lv.tileSize = .ok size := by
  induction l generalizing index dims r with
  | flat lv =>
    obtain ⟨_, _, size, _, hsize, _⟩ := tiledOffset_flat_eq_ok hwf hregular horders hdims h
    exact ⟨size, hsize⟩
  | nested lv inner ih =>
    obtain ⟨_, _, size, _, _, hsize, _, hlength, hoffset, _⟩ :=
      tiledOffset_nested_eq_ok hwf hregular.1 horders.1 hdims h
    refine ⟨⟨size, hsize⟩, ih hwf.2 ?_ horders.2 ?_ hoffset⟩
    · rw [hlength]
      exact hregular.2
    · rw [hregular.1.2, hlength]

/-! ### Offsets that exist -/

theorem exists_flatOffset (strides : Option (List Int64))
    (htag : tag = TAG_ROW_MAJOR ∨ tag = TAG_COL_MAJOR)
    (hin : MixedRadix.Within (dims.map UInt64.toNat) (index.map UInt64.toNat))
    (hfit : (dims.map UInt64.toNat).prod < 2 ^ 64) :
    ∃ offset : UInt64, flatOffset tag strides index dims = .ok offset.toInt64 ∧
      offset.toNat = flatPlace tag (dims.map UInt64.toNat) (index.map UInt64.toNat) := by
  have hlen : index.length = dims.length := by simpa using hin.length_eq.symm
  have hfirst : (0 : UInt64).toNat < (1 : UInt64).toNat := Nat.one_pos
  have hexists : ∃ offset : UInt64,
      flatOffset tag strides index dims = .ok offset.toInt64 := by
    obtain rfl | rfl := htag
    · obtain ⟨offset, hoffset⟩ : ∃ offset, linearFrom (index.zip dims).reverse 0 1 = .ok offset := by
        refine exists_linearFrom ?_ ?_ hfirst
        · rw [sizes_reverse, components_reverse, sizes_zip hlen, components_zip hlen]
          exact hin.reverse
        · rw [sizes_reverse, sizes_zip hlen, List.prod_reverse, UInt64.toNat_one, Nat.one_mul]
          exact hfit
      rw [← rowMajorOffset_eq hlen] at hoffset
      refine ⟨offset, ?_⟩
      show (rowMajorOffset index dims >>= fun offset => pure offset.toInt64) = _
      rw [hoffset]
      rfl
    · obtain ⟨offset, hoffset⟩ : ∃ offset, linearFrom (index.zip dims) 0 1 = .ok offset := by
        refine exists_linearFrom ?_ ?_ hfirst
        · rw [sizes_zip hlen, components_zip hlen]
          exact hin
        · rw [sizes_zip hlen, UInt64.toNat_one, Nat.one_mul]
          exact hfit
      rw [← colMajorOffset_eq hlen] at hoffset
      refine ⟨offset, ?_⟩
      show (colMajorOffset index dims >>= fun offset => pure offset.toInt64) = _
      rw [hoffset]
      rfl
  obtain ⟨offset, hoffset⟩ := hexists
  obtain ⟨offset', heq, hplace⟩ := flatOffset_eq_ok htag hlen hoffset
  exact ⟨offset', heq ▸ hoffset, hplace⟩

theorem exists_foldlM_tileSize {acc : Int64} {a : ℕ} (hpos : 0 ∉ ts) (hacc : acc.toInt = a)
    (ha : 0 < a) (hfit : a * (ts.map UInt64.toNat).prod < 2 ^ 63) :
    ∃ size, ts.foldlM (fun acc d =>
      (Exec.orFail (checkedMulSigned acc d.toInt64) .addressOverflow : Result Int64)) acc =
        .ok size ∧ size.toInt = (a * (ts.map UInt64.toNat).prod : ℕ) := by
  induction ts generalizing acc a with
  | nil => exact ⟨acc, rfl, by simpa using hacc⟩
  | cons d ts ih =>
    obtain ⟨hd, hts⟩ := not_or.mp (mt List.mem_cons.mpr hpos)
    have hdpos : 0 < d.toNat := Nat.pos_of_ne_zero fun h => hd (UInt64.toNat_inj.mp h).symm
    have hrest : 0 < (ts.map UInt64.toNat).prod :=
      Nat.pos_of_ne_zero (List.prod_ne_zero (zero_notMem_toNat hts))
    rw [List.map_cons, List.prod_cons, ← Nat.mul_assoc] at hfit
    have hstep : a * d.toNat < 2 ^ 63 := (Nat.le_mul_of_pos_right _ hrest).trans_lt hfit
    have hsmall : d.toNat < 2 ^ 63 := (Nat.le_mul_of_pos_left _ ha).trans_lt hstep
    have hword : d.toInt64.toInt = d.toNat := toInt_toInt64_of_lt hsmall
    have hmul : checkedMulSigned acc d.toInt64 = some (acc * d.toInt64) := by
      refine checkedMulSigned_eq_some.mpr ⟨?_, rfl⟩
      rw [hacc, hword, ← Nat.cast_mul]
      constructor <;> omega
    have hnext : (acc * d.toInt64).toInt = (a * d.toNat : ℕ) := by
      rw [toInt_of_checkedMulSigned hmul, hacc, hword, Nat.cast_mul]
    obtain ⟨size, hsize, hvalue⟩ := ih hts hnext (Nat.mul_pos ha hdpos) hfit
    refine ⟨size, ?_, ?_⟩
    · rw [List.foldlM_cons, hmul]
      exact hsize
    · rw [hvalue, List.map_cons, List.prod_cons, Nat.mul_assoc]

/-- The size of a tile that fits a signed word is what the code multiplies up. -/
theorem exists_tileSize (hpos : 0 ∉ lv.tileShape) (hfit : lv.tileElements < 2 ^ 63) :
    ∃ size, lv.tileSize = .ok size ∧ size.toInt = lv.tileElements := by
  have hone : (1 : Int64).toInt = (1 : ℕ) := rfl
  obtain ⟨size, hsize, hvalue⟩ :=
    exists_foldlM_tileSize hpos hone Nat.one_pos (by rwa [Nat.one_mul])
  rw [Nat.one_mul] at hvalue
  exact ⟨size, hsize, hvalue⟩

theorem exists_tileNumber {tileIdx gs : List UInt64} (strides : Option (List Int64))
    (hregular : lv.Regular index.length) (hdims : dims.length = index.length)
    (houter : lv.outerLayout = TAG_ROW_MAJOR ∨ lv.outerLayout = TAG_COL_MAJOR)
    (hin : MixedRadix.Within (dims.map UInt64.toNat) (index.map UInt64.toNat))
    (hspace : (dims.map UInt64.toNat).prod < 2 ^ 64)
    (hgrid : gs.map UInt64.toNat = grid lv.sizes (dims.map UInt64.toNat))
    (htile : tileIdx.map UInt64.toNat = tile lv.sizes (index.map UInt64.toNat)) :
    ∃ number : UInt64, flatOffset lv.outerLayout strides tileIdx gs = .ok number.toInt64 ∧
      number.toNat = lv.tileNumber (dims.map UInt64.toNat) (index.map UInt64.toNat) := by
  have hlen : lv.sizes.length = (dims.map UInt64.toNat).length := by
    rw [hregular.length_sizes, List.length_map, hdims]
  have hwithin := Tiling.within_tile hregular.sizes_pos hlen hin
  have hfit := (Tiling.prod_grid_le hregular.sizes_pos hlen).1.trans_lt hspace
  rw [← hgrid, ← htile] at hwithin
  rw [← hgrid] at hfit
  obtain ⟨number, hnumber, hplace⟩ := exists_flatOffset strides houter hwithin hfit
  rw [hgrid, htile] at hplace
  exact ⟨number, hnumber, hplace⟩

/-- One level: where the place fits a signed word, nothing overflows. -/
theorem exists_levelOffset {nested : Option (List UInt64 → Result UInt64)} {place : ℕ}
    (hregular : lv.Regular index.length) (hdims : dims.length = index.length)
    (houter : lv.outerLayout = TAG_ROW_MAJOR ∨ lv.outerLayout = TAG_COL_MAJOR)
    (hin : MixedRadix.Within (dims.map UInt64.toNat) (index.map UInt64.toNat))
    (hspace : (dims.map UInt64.toNat).prod < 2 ^ 64) (htile : lv.tileElements < 2 ^ 63)
    (hintra : ∀ intraIdx : List UInt64,
      intraIdx.map UInt64.toNat = inTile lv.sizes (index.map UInt64.toNat) →
        ∃ offset : UInt64, intraOffset lv (nested.map fun f => f intraIdx) intraIdx =
          .ok offset.toInt64 ∧ offset.toNat = place)
    (hplace : lv.tileNumber (dims.map UInt64.toNat) (index.map UInt64.toNat) * lv.tileElements +
      place < 2 ^ 63) :
    ∃ r, levelOffset lv nested index dims = .ok r := by
  have hpos := hregular.1
  obtain ⟨gs, hgs, hgrid⟩ := @exists_gridDims dims _ hpos
  have htiles : ((index.zip lv.tileShape).map (Prod.fst ∘ fun c => (c.1 / c.2, c.1 % c.2))).map
      UInt64.toNat = tile lv.sizes (index.map UInt64.toNat) := by
    rw [List.map_map]
    exact map_tile index lv.tileShape
  have hplaces : ((index.zip lv.tileShape).map (Prod.snd ∘ fun c => (c.1 / c.2, c.1 % c.2))).map
      UInt64.toNat = inTile lv.sizes (index.map UInt64.toNat) := by
    rw [List.map_map]
    exact map_inTile index lv.tileShape
  obtain ⟨number, hnumber, hnumberNat⟩ := exists_tileNumber
    (lv.outerStrides.map OuterStrides.strides) hregular hdims houter hin hspace hgrid htiles
  obtain ⟨size, hsize, hsizeInt⟩ := exists_tileSize hpos htile
  obtain ⟨offset, hoffset, rfl⟩ := hintra _ hplaces
  rw [← hnumberNat] at hplace
  have hone : 0 < lv.tileElements := Nat.pos_of_ne_zero (List.prod_ne_zero hregular.sizes_pos)
  have hle : number.toNat ≤ number.toNat * lv.tileElements := Nat.le_mul_of_pos_right _ hone
  have hnumberInt : number.toInt64.toInt = number.toNat := toInt_toInt64_of_lt (by omega)
  have hoffsetInt : offset.toInt64.toInt = offset.toNat := toInt_toInt64_of_lt (by omega)
  obtain ⟨hmul, hadd⟩ := checkedMulAddSigned_eq hnumberInt hsizeInt hoffsetInt hplace
  refine ⟨(number.toInt64 * size + offset.toInt64).toUInt64, ?_⟩
  rw [levelOffset, mapM_tileCoordinate hpos hregular.2.symm, Exec.ok_bind, hgs, Exec.ok_bind,
    List.map_map, List.map_map]
  show (flatOffset _ _ _ _ >>= _) = _
  rw [hnumber, Exec.ok_bind]
  show (lv.tileSize >>= _) = _
  rw [hsize, Exec.ok_bind, hoffset, Exec.ok_bind, hmul, Exec.orFail_some, Exec.ok_bind, hadd,
    Exec.orFail_some, Exec.ok_bind]
  rfl

theorem TiledLevel.Regular.within_inTile (hregular : lv.Regular index.length)
    (hdims : dims.length = index.length)
    (hin : MixedRadix.Within (dims.map UInt64.toNat) (index.map UInt64.toNat)) :
    MixedRadix.Within lv.sizes (inTile lv.sizes (index.map UInt64.toNat)) := by
  have hlen : lv.sizes.length = (dims.map UInt64.toNat).length := by
    rw [hregular.length_sizes, List.length_map, hdims]
  exact (Tiling.below_clip hlen).within (Tiling.within_inTile hregular.sizes_pos hlen hin)

/-- Where all sizes and the place fit a signed word, the offset is the place. By induction on the
levels. -/
theorem exists_tiledOffset (hwf : l.WellFormed)
    (hregular : l.AllLevels (TiledLevel.Regular index.length))
    (horders : l.AllLevels TiledLevel.FlatOrders) (hdims : dims.length = index.length)
    (hin : MixedRadix.Within (dims.map UInt64.toNat) (index.map UInt64.toNat))
    (hspace : (dims.map UInt64.toNat).prod < 2 ^ 63)
    (htiles : l.AllLevels fun lv => lv.tileElements < 2 ^ 63)
    (hplace : l.place (dims.map UInt64.toNat) (index.map UInt64.toNat) < 2 ^ 63) :
    ∃ r, tiledOffset l index dims = .ok r ∧
      r.toNat = l.place (dims.map UInt64.toNat) (index.map UInt64.toNat) := by
  suffices hexists : ∃ r, tiledOffset l index dims = .ok r by
    obtain ⟨r, hr⟩ := hexists
    refine ⟨r, hr, ?_⟩
    rw [toNat_tiledOffset hwf hregular horders hdims hr, Nat.mod_eq_of_lt (by omega)]
  induction l generalizing index dims with
  | flat lv =>
    have htile : lv.tileElements < 2 ^ 63 := htiles
    refine exists_levelOffset hregular hdims horders.1 hin (by omega) htile ?_ hplace
    intro intraIdx hidx
    have htiled : lv.innerLayout ≠ TAG_TILED := hwf.innerTiled_iff.mp rfl
    rw [Option.map_none, intraOffset_flat htiled, ← hidx]
    refine exists_flatOffset _ (horders.inner_of_flat htiled) ?_ (htile.trans (by decide))
    rw [hidx]
    exact hregular.within_inTile hdims hin
  | nested lv inner ih =>
    obtain ⟨hlv, hrest⟩ := hregular
    obtain ⟨htile, htiles⟩ := htiles
    refine exists_levelOffset hlv hdims horders.1.1 hin (by omega) htile ?_ hplace
    intro intraIdx hidx
    have hlen : intraIdx.length = index.length := by
      have hlength := congrArg List.length hidx
      rwa [List.length_map, inTile, List.length_zipWith, List.length_map, hlv.length_sizes,
        Nat.min_self] at hlength
    have hinner : inner.place lv.sizes (intraIdx.map UInt64.toNat) < 2 ^ 63 := by
      rw [hidx]
      exact (Nat.le_add_left _ _).trans_lt hplace
    have hregular : inner.AllLevels (TiledLevel.Regular intraIdx.length) := by rwa [hlen]
    have hshape : lv.tileShape.length = intraIdx.length := by rw [hlv.2, hlen]
    have hwithin : MixedRadix.Within lv.sizes (intraIdx.map UInt64.toNat) := by
      rw [hidx]
      exact hlv.within_inTile hdims hin
    obtain ⟨offset, hoffset⟩ :=
      ih hwf.2 hregular horders.2 hshape hwithin htile htiles hinner
    have hvalue := toNat_tiledOffset hwf.2 hregular horders.2 hshape hoffset
    refine ⟨offset, ?_, ?_⟩
    · rw [Option.map_some, intraOffset_nested (tag_of_nested hwf)]
      show (tiledOffset inner intraIdx lv.tileShape >>= _) = _
      rw [hoffset]
      rfl
    · rw [hvalue, ← hidx]
      exact Nat.mod_eq_of_lt (hinner.trans (by decide))

end Machine

end Hurray.Core
