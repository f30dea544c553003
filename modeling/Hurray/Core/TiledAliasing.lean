import Hurray.Core.TiledAddressing

/-!
When tiled offsets are distinct and stay within the buffer: what keeps the offsets of one tile
apart from those of the next.
-/
namespace Hurray.Core
open Hurray.Base
open Hurray.Base.Tiling (tile inTile grid clip corner Below Numbers)

section Apart
variable {l : TiledLayout} {lv : TiledLevel} {index index' dims : List UInt64} {shape : Shape}
  {r : UInt64} {extents ns : List ℕ} {rank : ℕ}

def Shape.sizes (s : Shape) : List ℕ := s.dims.map UInt64.toNat

/-- Every element has an offset of its own in a buffer of the prescribed size. -/
structure TiledLayout.AddressesApart (l : TiledLayout) (shape : Shape) : Prop where
  injective : ∀ index index' r, l.elementOffset index shape = .ok r →
    l.elementOffset index' shape = .ok r → index = index'
  bounded : ∀ index r, l.elementOffset index shape = .ok r →
    r.toNat < l.bufferElements shape.sizes

/-- The first level that cuts the space into several tiles has a tile size that the code gets
right. -/
def TiledLayout.Guarded : TiledLayout → List ℕ → Prop
  | .flat lv, extents => ¬ Below extents lv.sizes → lv.Sized
  | .nested lv inner, extents =>
      (¬ Below extents lv.sizes → lv.Sized) ∧
      (Below extents lv.sizes → inner.Guarded (clip lv.sizes extents))

/-- Where there are elements and no tile size is too large for the code, the nested layouts stay
within the tiles above them and the last element within the buffer. A place too large for a word
rests on a tile size that is right. -/
def TiledLayout.Fits (l : TiledLayout) (shape : Shape) : Prop :=
  0 ∉ shape.sizes → (l.AllLevels fun lv => ∃ size, lv.tileSize = .ok size) →
    l.Contained shape.sizes ∧
    l.place shape.sizes (corner shape.sizes) < l.bufferElements shape.sizes ∧
    (l.place shape.sizes (corner shape.sizes) < 2 ^ 64 ∨ l.Guarded shape.sizes)

/-- The shape, its tiles and the place of its last element fit a signed word. -/
structure TiledLayout.Small (l : TiledLayout) (shape : Shape) : Prop where
  elements : shape.sizes.prod < 2 ^ 63
  tiles : l.AllLevels fun lv => lv.tileElements < 2 ^ 63
  last : l.place shape.sizes (corner shape.sizes) < 2 ^ 63

section Level
variable {number number' word word' : UInt64} {size size' : Int64}

/-- In the first tile, the offset is the place within the tile. -/
theorem eq_of_number_eq_zero (hnumber : number.toNat = 0)
    (hr : r.toInt64.toInt = number.toInt64.toInt * size.toInt + word.toInt64.toInt) : r = word := by
  have hzero : number = 0 := UInt64.toNat_inj.mp hnumber
  rw [hzero, show (0 : UInt64).toInt64.toInt = 0 from rfl, Int.zero_mul, Int.zero_add] at hr
  rw [← UInt64.toUInt64_toInt64 r, Int64.toInt_inj.mp hr, UInt64.toUInt64_toInt64]

/-- A tile size that is right keeps the tile and the place within it apart, also where the number
of the tile is read as negative. -/
theorem eq_of_sized (hsized : lv.Sized) (hsize : lv.tileSize = .ok size)
    (hsize' : lv.tileSize = .ok size') (hlt : word.toNat < lv.tileElements)
    (hlt' : word'.toNat < lv.tileElements)
    (hr : r.toInt64.toInt = number.toInt64.toInt * size.toInt + word.toInt64.toInt)
    (hr' : r.toInt64.toInt = number'.toInt64.toInt * size'.toInt + word'.toInt64.toInt) :
    number = number' ∧ word = word' := by
  have helements : size.toInt = lv.tileElements := hsized size hsize
  have hbound : lv.tileElements < 2 ^ 63 := by
    have hmax := size.toInt_lt
    omega
  rw [helements, toInt_toInt64_of_lt (hlt.trans hbound)] at hr
  rw [hsized size' hsize', toInt_toInt64_of_lt (hlt'.trans hbound), hr] at hr'
  obtain ⟨hnumber, hword⟩ := MixedRadix.mul_add_inj_int hlt hlt' hr'
  refine ⟨?_, UInt64.toNat_inj.mp hword⟩
  rw [← UInt64.toUInt64_toInt64 number, Int64.toInt_inj.mp hnumber, UInt64.toUInt64_toInt64]

end Level

/-- By induction on the levels, down to the first one that cuts the space into several tiles:
there the tile and the place within it are determined, and the places of indices differ. -/
theorem tiledOffset_inj_of_guarded (hwf : l.WellFormed)
    (hregular : l.AllLevels (TiledLevel.Regular rank)) (horders : l.AllLevels TiledLevel.FlatOrders)
    (hdims : dims.length = rank) (hle : Below extents (dims.map UInt64.toNat))
    (hin : MixedRadix.Within extents (index.map UInt64.toNat))
    (hin' : MixedRadix.Within extents (index'.map UInt64.toNat))
    (hcontained : l.Contained extents) (hguarded : l.Guarded extents)
    (h : tiledOffset l index dims = .ok r) (h' : tiledOffset l index' dims = .ok r) :
    index.map UInt64.toNat = index'.map UInt64.toNat := by
  induction l generalizing index index' dims r extents with
  | flat lv =>
    have hextents : extents.length = rank := by rw [hle.length_eq, List.length_map, hdims]
    have hlen : index.length = rank := by rw [← hextents, hin.length_eq, List.length_map]
    have hlen' : index'.length = rank := by rw [← hextents, hin'.length_eq, List.length_map]
    have hsizelen : lv.sizes.length = extents.length := by rw [hregular.length_sizes, hextents]
    have hclip := Tiling.below_clip hsizelen
    have hintra := Tiling.within_inTile hregular.sizes_pos hsizelen hin
    have hintra' := Tiling.within_inTile hregular.sizes_pos hsizelen hin'
    have hplaces := TiledLayout.numbers_place hregular hextents hle hcontained
    obtain ⟨number, word, size, hnumber, hsize, hword, hr⟩ :=
      tiledOffset_flat_eq_ok hwf (by rwa [hlen]) horders (by rw [hdims, hlen]) h
    obtain ⟨number', word', size', hnumber', hsize', hword', hr'⟩ :=
      tiledOffset_flat_eq_ok hwf (by rwa [hlen']) horders (by rw [hdims, hlen']) h'
    have hboth : number = number' ∧ word = word' := by
      by_cases hone : Below extents lv.sizes
      · rw [TiledLevel.tileNumber_eq_zero hone hin] at hnumber
        rw [TiledLevel.tileNumber_eq_zero hone hin'] at hnumber'
        refine ⟨UInt64.toNat_inj.mp (hnumber.trans hnumber'.symm), ?_⟩
        rw [← eq_of_number_eq_zero hnumber hr, eq_of_number_eq_zero hnumber' hr']
      · have hlt : word.toNat < lv.tileElements := by
          rw [hword]
          exact numbers_flatPlace.lt _ (hclip.within hintra)
        have hlt' : word'.toNat < lv.tileElements := by
          rw [hword']
          exact numbers_flatPlace.lt _ (hclip.within hintra')
        exact eq_of_sized (hguarded hone) hsize hsize' hlt hlt' hr hr'
    obtain ⟨rfl, rfl⟩ := hboth
    apply hplaces.inj _ _ hin hin'
    rw [TiledLayout.place, TiledLayout.place, ← hnumber, ← hnumber', ← hword, ← hword']
  | nested lv inner ih =>
    obtain ⟨hlv, hrest⟩ := hregular
    have hextents : extents.length = rank := by rw [hle.length_eq, List.length_map, hdims]
    have hlen : index.length = rank := by rw [← hextents, hin.length_eq, List.length_map]
    have hlen' : index'.length = rank := by rw [← hextents, hin'.length_eq, List.length_map]
    have hsizelen : lv.sizes.length = extents.length := by rw [hlv.length_sizes, hextents]
    have hclip := Tiling.below_clip hsizelen
    have hintra := Tiling.within_inTile hlv.sizes_pos hsizelen hin
    have hintra' := Tiling.within_inTile hlv.sizes_pos hsizelen hin'
    obtain ⟨number, word, size, intra, hnumber, hsize, hidx, hintralen, hword, hr⟩ :=
      tiledOffset_nested_eq_ok hwf (by rwa [hlen]) horders.1 (by rw [hdims, hlen]) h
    obtain ⟨number', word', size', intra', hnumber', hsize', hidx', hintralen', hword', hr'⟩ :=
      tiledOffset_nested_eq_ok hwf (by rwa [hlen']) horders.1 (by rw [hdims, hlen']) h'
    by_cases hone : Below extents lv.sizes
    · rw [TiledLevel.tileNumber_eq_zero hone hin] at hnumber
      rw [TiledLevel.tileNumber_eq_zero hone hin'] at hnumber'
      have hsame : word = word' := by
        rw [← eq_of_number_eq_zero hnumber hr, eq_of_number_eq_zero hnumber' hr']
      rw [← hsame] at hword'
      rw [← hidx] at hintra
      rw [← hidx'] at hintra'
      have hindices := ih hwf.2 hrest horders.2 hlv.2 hclip hintra hintra' hcontained.2
        (hguarded.2 hone) hword hword'
      rwa [hidx, hidx', Tiling.inTile_eq hone hin, Tiling.inTile_eq hone hin'] at hindices
    · have hcliplen : (clip lv.sizes extents).length = rank := by
        rw [hclip.length_eq, hlv.length_sizes]
      have hinner := (TiledLayout.numbers_place hrest hcliplen hclip hcontained.2).of_corner
        (hcontained.1 hone)
      have hsized : lv.Sized := hguarded.1 hone
      have hbound : lv.tileElements < 2 ^ 63 := by
        have hmax := size.toInt_lt
        have helements : size.toInt = lv.tileElements := hsized size hsize
        omega
      have hexact {i : List UInt64} {w : UInt64} (hi : i.length = rank)
          (hwithin : MixedRadix.Within (clip lv.sizes extents) (i.map UInt64.toNat))
          (hw : tiledOffset inner i lv.tileShape = .ok w) :
          w.toNat = inner.place lv.sizes (i.map UInt64.toNat) := by
        have hlt := hinner.lt _ hwithin
        rw [toNat_tiledOffset hwf.2 (by rwa [hi]) horders.2 (by rw [hlv.2, hi]) hw]
        exact Nat.mod_eq_of_lt (hlt.trans (by omega))
      have hwordNat := hexact (hintralen.trans hlen) (by rwa [hidx]) hword
      have hwordNat' := hexact (hintralen'.trans hlen') (by rwa [hidx']) hword'
      rw [hidx] at hwordNat
      rw [hidx'] at hwordNat'
      obtain ⟨rfl, rfl⟩ := eq_of_sized hsized hsize hsize'
        (hwordNat.trans_lt (hinner.lt _ hintra)) (hwordNat'.trans_lt (hinner.lt _ hintra')) hr hr'
      have hplaces := @TiledLayout.numbers_place (.nested lv inner) rank _ _ ⟨hlv, hrest⟩
        hextents hle hcontained
      apply hplaces.inj _ _ hin hin'
      rw [TiledLayout.place, TiledLayout.place, ← hnumber, ← hnumber', ← hwordNat, ← hwordNat']

/-- An offset of an element, with what it rests on. -/
theorem TiledLayout.offset_of_fits (hwf : l.WellFormed)
    (hrank : l.AllLevels fun lv => lv.tileShape.length = shape.rank)
    (horders : l.AllLevels TiledLevel.FlatOrders) (hfits : l.Fits shape)
    (h : l.elementOffset index shape = .ok r) :
    MixedRadix.Within shape.sizes (index.map UInt64.toNat) ∧
      tiledOffset l index shape.dims = .ok r ∧
      r.toNat = l.place shape.sizes (index.map UInt64.toNat) % 2 ^ 64 ∧
      l.Contained shape.sizes ∧
      l.place shape.sizes (corner shape.sizes) < l.bufferElements shape.sizes ∧
      (l.place shape.sizes (corner shape.sizes) < 2 ^ 64 ∨ l.Guarded shape.sizes) := by
  obtain ⟨_, hvalid, h⟩ := Exec.bind_eq_ok.mp h
  obtain ⟨_, _, h⟩ := Exec.bind_eq_ok.mp h
  have hvalid := validateIndex_eq_ok.mp hvalid
  have hdims : shape.dims.length = index.length := hvalid.length_eq.symm
  have hregular : l.AllLevels (TiledLevel.Regular index.length) := by
    rw [hvalid.length_eq]
    exact allLevels_regular hwf hrank
  have hwithin := within_of_validIndex hvalid
  have hpos : 0 ∉ shape.sizes := fun hzero => hwithin.prod_pos.ne' (List.prod_eq_zero hzero)
  obtain ⟨hcontained, hbound, hguarded⟩ :=
    hfits hpos (allLevels_tileSize hwf hregular horders hdims h)
  exact ⟨hwithin, h, toNat_tiledOffset hwf hregular horders hdims h, hcontained, hbound, hguarded⟩

/-- A layout that fits the shape keeps its elements apart and within the buffer. -/
theorem TiledLayout.addressesApart_of_fits (hwf : l.WellFormed)
    (hrank : l.AllLevels fun lv => lv.tileShape.length = shape.rank)
    (horders : l.AllLevels TiledLevel.FlatOrders) (hfits : l.Fits shape) :
    l.AddressesApart shape := by
  have hregular := allLevels_regular hwf hrank
  have hbelow : Below shape.sizes shape.sizes := List.forall₂_same.mpr fun _ _ => le_rfl
  have hlen : shape.sizes.length = shape.rank := by simp [Shape.sizes]
  constructor
  · intro index index' r h h'
    obtain ⟨hin, hoffset, hr, hcontained, _, hplaces⟩ :=
      TiledLayout.offset_of_fits hwf hrank horders hfits h
    obtain ⟨hin', hoffset', hr', _⟩ := TiledLayout.offset_of_fits hwf hrank horders hfits h'
    have hindices : index.map UInt64.toNat = index'.map UInt64.toNat := by
      rcases hplaces with hsmall | hguarded
      · -- every place fits a word, and the offsets are the places
        have hnumbers := TiledLayout.numbers_place hregular hlen hbelow hcontained
        have hlt := hnumbers.lt _ hin
        have hlt' := hnumbers.lt _ hin'
        apply hnumbers.inj _ _ hin hin'
        rw [Nat.mod_eq_of_lt (by omega)] at hr hr'
        rw [← hr, ← hr']
      · exact tiledOffset_inj_of_guarded hwf hregular horders rfl hbelow hin hin' hcontained
          hguarded hoffset hoffset'
    exact List.map_injective_iff.mpr (fun a b => UInt64.toNat_inj.mp) hindices
  · intro index r h
    obtain ⟨hin, _, hr, hcontained, hbound, _⟩ :=
      TiledLayout.offset_of_fits hwf hrank horders hfits h
    have hlt := (TiledLayout.numbers_place hregular hlen hbelow hcontained).lt _ hin
    calc r.toNat ≤ l.place shape.sizes (index.map UInt64.toNat) := hr.trans_le (Nat.mod_le _ _)
      _ ≤ l.place shape.sizes (corner shape.sizes) := Nat.le_of_lt_succ hlt
      _ < l.bufferElements shape.sizes := hbound

theorem static_of_small (hpos : 0 ∉ shape.sizes) (h : shape.sizes.prod < 2 ^ 63) :
    DYNAMIC ∉ shape.dims := by
  intro hmem
  have hdvd := List.dvd_prod (List.mem_map_of_mem hmem : DYNAMIC.toNat ∈ shape.sizes)
  have hle := Nat.le_of_dvd (Nat.pos_of_ne_zero (List.prod_ne_zero hpos)) hdvd
  have hlarge : 2 ^ 63 ≤ DYNAMIC.toNat := by decide
  omega

/-- The last element has an offset, which is its place. -/
theorem TiledLayout.last_lt_of_addressesApart (hwf : l.WellFormed)
    (hrank : l.AllLevels fun lv => lv.tileShape.length = shape.rank)
    (horders : l.AllLevels TiledLevel.FlatOrders) (hsmall : l.Small shape)
    (h : l.AddressesApart shape) (hpos : 0 ∉ shape.sizes) :
    l.place shape.sizes (corner shape.sizes) < l.bufferElements shape.sizes := by
  have hregular := allLevels_regular hwf hrank
  have hwithin := Tiling.within_corner_of_pos hpos
  obtain ⟨index, hindex⟩ := exists_index hwithin
  rw [← hindex] at hwithin
  have hvalid := validIndex_of_within (static_of_small hpos hsmall.elements) hwithin
  have hdims : shape.dims.length = index.length := hvalid.length_eq.symm
  have hlast := hsmall.last
  rw [← hindex] at hlast
  obtain ⟨r, hr, hplace⟩ := exists_tiledOffset hwf (by rwa [hvalid.length_eq]) horders hdims
    hwithin hsmall.elements hsmall.tiles hlast
  have hoffset : l.elementOffset index shape = .ok r := by
    have hlevel := (TiledLayout.level_regular hregular).2
    have hchecked : validateIndex index shape = .ok () := validateIndex_eq_ok.mpr hvalid
    rw [elementOffset, hchecked, Exec.ok_bind, Exec.reject_of_not (not_not.mpr hlevel),
      Exec.ok_bind]
    exact hr
  have hbound := h.bounded index r hoffset
  rwa [hplace, hindex] at hbound

/-- Each tile is cut evenly into those of the nested layout. -/
def TiledLayout.Even : TiledLayout → Prop
  | .flat _ => True
  | .nested lv inner => List.Forall₂ (· ∣ ·) inner.level.sizes lv.sizes ∧ inner.Even

theorem TiledLayout.contained_of_even (hregular : l.AllLevels (TiledLevel.Regular rank))
    (heven : l.Even) (hlen : extents.length = rank) (hpos : 0 ∉ extents)
    (hle : Below extents ns) :
    l.Contained extents ∧ Numbers (l.bufferElements ns) extents (l.place ns) := by
  induction l generalizing extents ns with
  | flat lv =>
    have hsize : lv.sizes.length = extents.length := by rw [hregular.length_sizes, hlen]
    exact ⟨trivial, Numbers.tiled hregular.sizes_pos hsize hle numbers_flatPlace
      (numbers_flatPlace.restrict (Tiling.below_clip hsize))⟩
  | nested lv inner ih =>
    obtain ⟨hlv, hrest⟩ := hregular
    have hsize : lv.sizes.length = extents.length := by rw [hlv.length_sizes, hlen]
    have hclip := Tiling.below_clip hsize
    have hcliplen : (clip lv.sizes extents).length = rank := by
      rw [hclip.length_eq, hlv.length_sizes]
    have hclippos := Tiling.clip_pos hlv.sizes_pos hpos
    have hlevel := TiledLayout.level_regular hrest
    obtain ⟨hcontained, hinner⟩ := ih hrest heven.2 hcliplen hclippos hclip
    have helements : inner.bufferElements lv.sizes = lv.tileElements :=
      Tiling.prod_grid_mul hlevel.sizes_pos heven.1
    rw [helements] at hinner
    exact ⟨⟨fun _ => hinner.lt _ (Tiling.within_corner_of_pos hclippos), hcontained⟩,
      Numbers.tiled hlv.sizes_pos hsize hle numbers_flatPlace hinner⟩

theorem TiledLayout.guarded_of_sized (h : l.AllLevels TiledLevel.Sized) : l.Guarded extents := by
  induction l generalizing extents with
  | flat lv => exact fun _ => h
  | nested lv inner ih => exact ⟨fun _ => h.1, fun _ => ih h.2⟩

/-- Even cuts fit every shape, and so does a layout without nested tiles. -/
theorem TiledLayout.fits_of_even (hwf : l.WellFormed)
    (hrank : l.AllLevels fun lv => lv.tileShape.length = shape.rank) (heven : l.Even)
    (hsized : l.AllLevels TiledLevel.Sized) : l.Fits shape := by
  intro hpos _
  obtain ⟨hcontained, hnumbers⟩ := TiledLayout.contained_of_even (allLevels_regular hwf hrank)
    heven (by simp [Shape.sizes]) hpos (List.forall₂_same.mpr fun _ _ => le_rfl)
  exact ⟨hcontained, hnumbers.lt _ (Tiling.within_corner_of_pos hpos),
    Or.inr (TiledLayout.guarded_of_sized hsized)⟩

/-- Tiles of three by three, each cut into tiles of two by two. -/
def unevenTiles : TiledLayout :=
  .nested ⟨[3, 3], TAG_ROW_MAJOR, TAG_TILED, none, none⟩
    (.flat ⟨[2, 2], TAG_ROW_MAJOR, TAG_ROW_MAJOR, none, none⟩)

/-- Tiles of two by four, each cut into columns. -/
def evenTiles : TiledLayout :=
  .nested ⟨[2, 4], TAG_ROW_MAJOR, TAG_TILED, none, none⟩
    (.flat ⟨[2, 1], TAG_COL_MAJOR, TAG_ROW_MAJOR, none, none⟩)

end Apart
end Hurray.Core
