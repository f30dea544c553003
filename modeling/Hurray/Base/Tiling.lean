import Hurray.Base.MixedRadix

/-!
A space of indices cut into tiles. When the tiles are numbered and the indices
within a tile are numbered below the size of a tile, then the two numbers together
number the whole space.
-/
namespace Hurray.Base.Tiling
open MixedRadix

/-- The tile that holds an index. -/
def tile (ts idx : List ℕ) : List ℕ := List.zipWith (· / ·) idx ts

/-- The place of an index within its tile. -/
def inTile (ts idx : List ℕ) : List ℕ := List.zipWith (· % ·) idx ts

/-- The number of tiles in each dimension, the last one perhaps cut off. -/
def grid (ts ds : List ℕ) : List ℕ := List.zipWith (fun d t => (d + t - 1) / t) ds ts

/-- How far the indices within a tile reach. -/
def clip (ts ms : List ℕ) : List ℕ := List.zipWith min ms ts

/-- The last index. -/
def corner (ms : List ℕ) : List ℕ := ms.map (· - 1)

/-- Below or equal in every dimension. -/
def Below (xs ys : List ℕ) : Prop := List.Forall₂ (· ≤ ·) xs ys

variable {ts ds ms ns idx idx' : List ℕ}

theorem Below.within (h : Below ms ns) (hidx : Within ms idx) : Within ns idx := by
  induction h generalizing idx with
  | nil => exact hidx
  | cons hle _ ih =>
    cases hidx with
    | cons hlt hrest => exact List.Forall₂.cons (hlt.trans_le hle) (ih hrest)

theorem below_corner (h : Within ms idx) : Below idx (corner ms) := by
  induction h with
  | nil => exact List.Forall₂.nil
  | cons hlt _ ih => exact List.Forall₂.cons (Nat.le_pred_of_lt hlt) ih

theorem within_corner (h : Within ms idx) : Within ms (corner ms) := by
  induction h with
  | nil => exact List.Forall₂.nil
  | cons hlt _ ih => exact List.Forall₂.cons (Nat.pred_lt_of_lt hlt) ih

theorem within_corner_of_pos (h : 0 ∉ ms) : Within ms (corner ms) := by
  induction ms with
  | nil => exact List.Forall₂.nil
  | cons m ms ih =>
    obtain ⟨hm, hms⟩ := not_or.mp (mt List.mem_cons.mpr h)
    exact List.Forall₂.cons (Nat.pred_lt (Ne.symm hm)) (ih hms)

theorem div_lt_ceil {i d t : ℕ} (ht : 0 < t) (h : i < d) : i / t < (d + t - 1) / t := by
  rw [Nat.lt_div_iff_mul_lt ht, Nat.mul_comm]
  have hle : t * (i / t) ≤ i := Nat.mul_div_le i t
  omega

theorem ceil_le_self {d t : ℕ} (ht : 0 < t) : (d + t - 1) / t ≤ d := by
  have hle : d ≤ d * t := Nat.le_mul_of_pos_right d ht
  rw [← Nat.lt_succ_iff, Nat.div_lt_iff_lt_mul ht, Nat.succ_mul]
  omega

theorem le_ceil_mul {d t : ℕ} (ht : 0 < t) : d ≤ (d + t - 1) / t * t := by
  have hmod := Nat.div_add_mod (d + t - 1) t
  have hlt := Nat.mod_lt (d + t - 1) ht
  rw [Nat.mul_comm]
  omega

theorem ceil_mul {t k : ℕ} (ht : 0 < t) : (t * k + t - 1) / t = k := by
  rw [Nat.add_sub_assoc ht, Nat.mul_add_div ht, Nat.div_eq_of_lt (Nat.sub_lt ht Nat.one_pos),
    Nat.add_zero]

/-! ### An index and its tile -/

section Split
variable (hts : 0 ∉ ts)
include hts

theorem within_tile (hlen : ts.length = ds.length) (h : Within ds idx) :
    Within (grid ts ds) (tile ts idx) := by
  induction h generalizing ts with
  | nil => exact List.Forall₂.nil
  | cons hlt _ ih =>
    cases ts with
    | nil => exact absurd hlen.symm (Nat.succ_ne_zero _)
    | cons t ts =>
      obtain ⟨ht, hts⟩ := not_or.mp (mt List.mem_cons.mpr hts)
      exact List.Forall₂.cons (div_lt_ceil (Nat.pos_of_ne_zero (Ne.symm ht)) hlt)
        (ih hts (Nat.succ.inj hlen))

theorem within_inTile (hlen : ts.length = ms.length) (h : Within ms idx) :
    Within (clip ts ms) (inTile ts idx) := by
  induction h generalizing ts with
  | nil => exact List.Forall₂.nil
  | cons hlt _ ih =>
    cases ts with
    | nil => exact absurd hlen.symm (Nat.succ_ne_zero _)
    | cons t ts =>
      obtain ⟨ht, hts⟩ := not_or.mp (mt List.mem_cons.mpr hts)
      have hpos : 0 < t := Nat.pos_of_ne_zero (Ne.symm ht)
      exact List.Forall₂.cons (lt_min ((Nat.mod_le _ _).trans_lt hlt) (Nat.mod_lt _ hpos))
        (ih hts (Nat.succ.inj hlen))

end Split

theorem below_clip (hlen : ts.length = ms.length) : Below (clip ts ms) ts := by
  induction ms generalizing ts with
  | nil =>
    obtain rfl := List.eq_nil_of_length_eq_zero hlen
    exact List.Forall₂.nil
  | cons m ms ih =>
    cases ts with
    | nil => exact absurd hlen.symm (Nat.succ_ne_zero _)
    | cons t ts => exact List.Forall₂.cons (min_le_right _ _) (ih (Nat.succ.inj hlen))

theorem clip_pos (hts : 0 ∉ ts) (hms : 0 ∉ ms) : 0 ∉ clip ts ms := by
  induction ms generalizing ts with
  | nil => simp [clip]
  | cons m ms ih =>
    cases ts with
    | nil => simp [clip]
    | cons t ts =>
      obtain ⟨ht, hts⟩ := not_or.mp (mt List.mem_cons.mpr hts)
      obtain ⟨hm, hms⟩ := not_or.mp (mt List.mem_cons.mpr hms)
      have hrest := ih hts hms
      rw [clip, List.zipWith_cons_cons, List.mem_cons, not_or]
      exact ⟨by omega, hrest⟩

theorem tile_below (hlen : ts.length = idx.length) (h : Below idx idx') :
    Below (tile ts idx) (tile ts idx') := by
  induction h generalizing ts with
  | nil => exact List.Forall₂.nil
  | cons hle _ ih =>
    cases ts with
    | nil => exact absurd hlen.symm (Nat.succ_ne_zero _)
    | cons t ts => exact List.Forall₂.cons (Nat.div_le_div_right hle) (ih (Nat.succ.inj hlen))

/-- Within one tile, the places are ordered as the indices are. -/
theorem inTile_below (hlen : ts.length = idx.length) (h : Below idx idx')
    (htile : tile ts idx = tile ts idx') : Below (inTile ts idx) (inTile ts idx') := by
  induction h generalizing ts with
  | nil => exact List.Forall₂.nil
  | @cons i j is js hle _ ih =>
    cases ts with
    | nil => exact absurd hlen.symm (Nat.succ_ne_zero _)
    | cons t ts =>
      obtain ⟨hdiv, hrest⟩ := List.cons.inj htile
      refine List.Forall₂.cons ?_ (ih (Nat.succ.inj hlen) hrest)
      have hi := Nat.div_add_mod i t
      have hj := Nat.div_add_mod j t
      have hdiv : i / t = j / t := hdiv
      show i % t ≤ j % t
      rw [hdiv] at hi
      omega

theorem eq_of_tile (hlen : ts.length = idx.length) (hlen' : idx.length = idx'.length)
    (htile : tile ts idx = tile ts idx') (hin : inTile ts idx = inTile ts idx') : idx = idx' := by
  induction idx generalizing ts idx' with
  | nil => exact (List.eq_nil_of_length_eq_zero hlen'.symm).symm
  | cons i is ih =>
    cases ts with
    | nil => exact absurd hlen.symm (Nat.succ_ne_zero _)
    | cons t ts =>
      cases idx' with
      | nil => exact absurd hlen' (Nat.succ_ne_zero _)
      | cons j js =>
        obtain ⟨hdiv, htile⟩ := List.cons.inj htile
        obtain ⟨hmod, hin⟩ := List.cons.inj hin
        have hdiv : i / t = j / t := hdiv
        have hmod : i % t = j % t := hmod
        have hij : i = j := by rw [← Nat.div_add_mod i t, hdiv, hmod, Nat.div_add_mod]
        rw [hij, ih (Nat.succ.inj hlen) (Nat.succ.inj hlen') htile hin]

/-- Where the tiles cut the space evenly, they have as many places as there are indices. -/
theorem prod_grid_mul (hts : 0 ∉ ts) (h : List.Forall₂ (· ∣ ·) ts ds) :
    (grid ts ds).prod * ts.prod = ds.prod := by
  induction h with
  | nil => rfl
  | @cons t d ts ds hdvd _ ih =>
    obtain ⟨ht, hts⟩ := not_or.mp (mt List.mem_cons.mpr hts)
    have hpos : 0 < t := Nat.pos_of_ne_zero (Ne.symm ht)
    obtain ⟨k, rfl⟩ := hdvd
    rw [grid, List.zipWith_cons_cons, ceil_mul hpos, List.prod_cons, List.prod_cons, List.prod_cons,
      ← ih hts, grid]
    ring

/-- There are no more tiles than indices, and the tiles have a place for each index. -/
theorem prod_grid_le (hts : 0 ∉ ts) (hlen : ts.length = ds.length) :
    (grid ts ds).prod ≤ ds.prod ∧ ds.prod ≤ (grid ts ds).prod * ts.prod := by
  induction ds generalizing ts with
  | nil =>
    obtain rfl := List.eq_nil_of_length_eq_zero hlen
    exact ⟨le_rfl, le_rfl⟩
  | cons d ds ih =>
    cases ts with
    | nil => exact absurd hlen.symm (Nat.succ_ne_zero _)
    | cons t ts =>
      obtain ⟨ht, hts⟩ := not_or.mp (mt List.mem_cons.mpr hts)
      have hpos : 0 < t := Nat.pos_of_ne_zero (Ne.symm ht)
      obtain ⟨hfew, hmany⟩ := ih hts (Nat.succ.inj hlen)
      rw [grid, List.zipWith_cons_cons, List.prod_cons, List.prod_cons, List.prod_cons]
      refine ⟨Nat.mul_le_mul (ceil_le_self hpos) hfew, ?_⟩
      calc d * ds.prod
          ≤ (d + t - 1) / t * t * ((grid ts ds).prod * ts.prod) :=
            Nat.mul_le_mul (le_ceil_mul hpos) hmany
        _ = (d + t - 1) / t * (grid ts ds).prod * (t * ts.prod) := by ring

/-! ### A space of whole tiles -/

section Whole
variable (hds : 0 ∉ ds) (h : List.Forall₂ (· ∣ ·) ts ds)
include hds h

theorem clip_of_dvd : clip ts ds = ts := by
  induction h with
  | nil => rfl
  | cons hdvd _ ih =>
    obtain ⟨hd, hds⟩ := not_or.mp (mt List.mem_cons.mpr hds)
    have hle := Nat.le_of_dvd (Nat.pos_of_ne_zero (Ne.symm hd)) hdvd
    exact congrArg₂ List.cons (min_eq_right hle) (ih hds)

/-- The last index is the last one of the last tile. -/
theorem corner_of_dvd : tile ts (corner ds) = corner (grid ts ds) ∧
    inTile ts (corner ds) = corner ts := by
  induction h with
  | nil => exact ⟨rfl, rfl⟩
  | @cons t d ts ds hdvd _ ih =>
    obtain ⟨hd, hds⟩ := not_or.mp (mt List.mem_cons.mpr hds)
    obtain ⟨htile, hin⟩ := ih hds
    obtain ⟨k, rfl⟩ := hdvd
    obtain ⟨j, rfl⟩ := Nat.exists_eq_succ_of_ne_zero (right_ne_zero_of_mul (Ne.symm hd))
    have hpos : 0 < t := Nat.pos_of_ne_zero (left_ne_zero_of_mul (Ne.symm hd))
    have hlt : t - 1 < t := Nat.sub_lt hpos Nat.one_pos
    have hlast : t * (j + 1) - 1 = t * j + (t - 1) := by rw [Nat.mul_succ]; omega
    have hceil : (t * (j + 1) + t - 1) / t = j + 1 := ceil_mul hpos
    constructor
    · refine congrArg₂ List.cons ?_ htile
      show (t * (j + 1) - 1) / t = (t * (j + 1) + t - 1) / t - 1
      rw [hceil, hlast, Nat.mul_add_div hpos, Nat.div_eq_of_lt hlt]
      rfl
    · refine congrArg₂ List.cons ?_ hin
      show (t * (j + 1) - 1) % t = t - 1
      rw [hlast, Nat.mul_add_mod, Nat.mod_eq_of_lt hlt]

end Whole

/-! ### A space within one tile -/

theorem tile_eq_zero (hle : Below ms ts) (h : Within ms idx) : ∀ i ∈ tile ts idx, i = 0 := by
  induction h generalizing ts with
  | nil =>
    cases hle
    simp [tile]
  | cons hlt _ ih =>
    cases hle with
    | cons hms hrest =>
      exact List.forall_mem_cons.mpr ⟨Nat.div_eq_of_lt (hlt.trans_le hms), ih hrest⟩

theorem inTile_eq (hle : Below ms ts) (h : Within ms idx) : inTile ts idx = idx := by
  induction h generalizing ts with
  | nil =>
    cases hle
    rfl
  | cons hlt _ ih =>
    cases hle with
    | cons hms hrest =>
      exact congrArg₂ List.cons (Nat.mod_eq_of_lt (hlt.trans_le hms)) (ih hrest)

theorem clip_eq (hle : Below ms ts) : clip ts ms = ms := by
  induction hle with
  | nil => rfl
  | cons hms _ ih => exact congrArg₂ List.cons (min_eq_left hms) ih

/-! ### Numbering -/

/-- The last index has the last number. -/
theorem value_corner (h : 0 ∉ ms) : value ms (corner ms) + 1 = ms.prod := by
  induction ms with
  | nil => rfl
  | cons m ms ih =>
    obtain ⟨hm, hms⟩ := not_or.mp (mt List.mem_cons.mpr h)
    have hpos : 0 < m := Nat.pos_of_ne_zero (Ne.symm hm)
    have hrest := ih hms
    rw [corner, List.map_cons, value_cons, List.prod_cons, ← hrest, Nat.mul_succ, corner]
    omega

/-- The function numbers the indices below `ms`, with numbers below `bound`, and an index that
is above another in every dimension does not get a lower number. -/
structure Numbers (bound : ℕ) (ms : List ℕ) (f : List ℕ → ℕ) : Prop where
  lt : ∀ e, Within ms e → f e < bound
  mono : ∀ e e', Within ms e → Within ms e' → Below e e' → f e ≤ f e'
  inj : ∀ e e', Within ms e → Within ms e' → f e = f e' → e = e'

namespace Numbers
variable {bound size : ℕ} {f number : List ℕ → ℕ}

theorem restrict (h : Numbers bound ns f) (hle : Below ms ns) : Numbers bound ms f where
  lt := fun e he => h.lt e (hle.within he)
  mono := fun e e' he he' => h.mono e e' (hle.within he) (hle.within he')
  inj := fun e e' he he' => h.inj e e' (hle.within he) (hle.within he')

theorem congr (h : Numbers bound ms f) (heq : ∀ e, Within ms e → number e = f e) :
    Numbers bound ms number where
  lt := fun e he => (heq e he).trans_lt (h.lt e he)
  mono := fun e e' he he' hle => by simpa only [heq e he, heq e' he'] using h.mono e e' he he' hle
  inj := fun e e' he he' hnumber => by
    rw [heq e he, heq e' he'] at hnumber
    exact h.inj e e' he he' hnumber

/-- The last index has the largest number. -/
theorem of_corner (h : Numbers bound ms f) (hcorner : f (corner ms) < size) :
    Numbers size ms f where
  lt := fun e he =>
    (h.mono e _ he (within_corner he) (below_corner he)).trans_lt hcorner
  mono := h.mono
  inj := h.inj

theorem value : Numbers ds.prod ds (MixedRadix.value ds) where
  lt := fun _ he => value_lt he
  mono := fun _ _ he _ hle => value_mono he hle
  inj := fun _ _ he he' h => value_injOn he he' h

theorem value_reverse :
    Numbers ds.prod ds fun e => MixedRadix.value ds.reverse e.reverse where
  lt := fun _ he => by
    rw [← List.prod_reverse]
    exact value_lt he.reverse
  mono := fun _ _ he _ hle => value_mono he.reverse (List.rel_reverse hle)
  inj := fun _ _ he he' h => List.reverse_injective (value_injOn he.reverse he'.reverse h)

/-- Tiles one after another: the number of the tile, then the number within it. -/
theorem tiled (hts : 0 ∉ ts) (hlen : ts.length = ms.length) (hle : Below ms ds)
    (hgrid : Numbers bound (grid ts ds) number) (hin : Numbers size (clip ts ms) f) :
    Numbers (bound * size) ms fun e => number (tile ts e) * size + f (inTile ts e) := by
  have hlen' (e) (he : Within ms e) : ts.length = e.length := hlen.trans he.length_eq
  have htile (e) (he : Within ms e) : Within (grid ts ds) (tile ts e) :=
    within_tile hts (hlen.trans hle.length_eq) (hle.within he)
  have hplace (e) (he : Within ms e) : Within (clip ts ms) (inTile ts e) :=
    within_inTile hts hlen he
  constructor
  · intro e he
    calc number (tile ts e) * size + f (inTile ts e)
        < number (tile ts e) * size + size := Nat.add_lt_add_left (hin.lt _ (hplace e he)) _
      _ = (number (tile ts e) + 1) * size := (Nat.succ_mul _ _).symm
      _ ≤ bound * size := Nat.mul_le_mul_right _ (hgrid.lt _ (htile e he))
  · intro e e' he he' hbelow
    by_cases heq : tile ts e = tile ts e'
    · have hbelow' := inTile_below (hlen' e he) hbelow heq
      show number (tile ts e) * size + _ ≤ _
      rw [heq]
      exact Nat.add_le_add_left (hin.mono _ _ (hplace e he) (hplace e' he') hbelow') _
    · have hnumber : number (tile ts e) < number (tile ts e') := by
        apply lt_of_le_of_ne
        · exact hgrid.mono _ _ (htile e he) (htile e' he') (tile_below (hlen' e he) hbelow)
        · exact fun h => heq (hgrid.inj _ _ (htile e he) (htile e' he') h)
      calc number (tile ts e) * size + f (inTile ts e)
          ≤ number (tile ts e) * size + size :=
            Nat.add_le_add_left (Nat.le_of_lt (hin.lt _ (hplace e he))) _
        _ = (number (tile ts e) + 1) * size := (Nat.succ_mul _ _).symm
        _ ≤ number (tile ts e') * size := Nat.mul_le_mul_right _ hnumber
        _ ≤ number (tile ts e') * size + f (inTile ts e') := Nat.le_add_right _ _
  · intro e e' he he' heq
    have hlt := hin.lt _ (hplace e he)
    have hlt' := hin.lt _ (hplace e' he')
    obtain ⟨hnumber, hplaces⟩ := mul_add_inj hlt hlt' heq
    have htiles := hgrid.inj _ _ (htile e he) (htile e' he') hnumber
    have hplaces := hin.inj _ _ (hplace e he) (hplace e' he') hplaces
    exact eq_of_tile (hlen' e he) (he.length_eq.symm.trans he'.length_eq) htiles hplaces

end Numbers
end Hurray.Base.Tiling
