import Hurray.Base.BitPlacement
import Hurray.Base.MixedRadix
import Hurray.Core.Addressing
import Hurray.Core.ShapeConstraints
import Mathlib.Algebra.Order.BigOperators.Group.List

/-!
The Morton code of an index as bits put at their places, and when the codes of a
tensor stay within the buffer that the bit counts prescribe.
-/
namespace Hurray.Core
open Hurray.Base

/-! ### The code as placed bits -/

section Code
variable {l : MortonLayout} {index : List UInt64} {shape : Shape} {r code : UInt64}
  {bits : List UInt32}

def mortonPlaced (rank b : ℕ) (c : (UInt64 × UInt32) × ℕ) : Option (Bool × ℕ) :=
  if b < c.1.2.toNat then some (c.1.1.toNat.testBit b, b * rank + c.2) else none

/-- Every bit of the code with its place, in the order of the loops. -/
def mortonPlaces (index : List UInt64) (bits : List UInt32) : List (Bool × ℕ) :=
  (List.range ((bits.map UInt32.toNat).foldr max 0)).flatMap fun b =>
    (index.zip bits).zipIdx.filterMap (mortonPlaced index.length b)

def MortonLayout.totalBits (l : MortonLayout) : ℕ := (l.mortonBits.map UInt32.toNat).sum

theorem le_foldr_max {n : ℕ} {ns : List ℕ} (h : n ∈ ns) : n ≤ ns.foldr max 0 := by
  induction ns with
  | nil => cases h
  | cons m ns ih =>
    rw [List.foldr_cons]
    obtain rfl | h := List.mem_cons.mp h
    · exact Nat.le_max_left _ _
    · exact (ih h).trans (Nat.le_max_right _ _)

theorem mem_mortonPlaces {p : Bool × ℕ} : p ∈ mortonPlaces index bits ↔
    ∃ d i w b, index[d]? = some i ∧ bits[d]? = some w ∧ b < w.toNat ∧
      p = (i.toNat.testBit b, b * index.length + d) := by
  simp only [mortonPlaces, List.mem_flatMap, List.mem_filterMap, mortonPlaced, List.mem_range]
  constructor
  · intro h
    obtain ⟨b, _, ⟨⟨i, w⟩, d⟩, hmem, hp⟩ := h
    obtain ⟨hi, hw⟩ := List.getElem?_zip_eq_some.mp (List.mem_zipIdx_iff_getElem?.mp hmem)
    split at hp
    · next hb =>
      cases hp
      exact ⟨d, i, w, b, hi, hw, hb, rfl⟩
    · cases hp
  · intro h
    obtain ⟨d, i, w, b, hi, hw, hb, rfl⟩ := h
    have hmax : w.toNat ≤ (bits.map UInt32.toNat).foldr max 0 :=
      le_foldr_max (List.mem_map_of_mem (List.mem_of_getElem? hw))
    refine ⟨b, hb.trans_le hmax, ((i, w), d), ?_, if_pos hb⟩
    exact List.mem_zipIdx_iff_getElem?.mpr (List.getElem?_zip_eq_some.mpr ⟨hi, hw⟩)

/-- With at most 64 bits and dimensions, the machine arithmetic on places is exact. -/
theorem mortonBit_eq {rank b : ℕ} {c : (UInt64 × UInt32) × ℕ} (hbits : c.1.2.toNat ≤ 64)
    (hrank : rank ≤ 64) (hdim : c.2 < 64) :
    mortonBit rank b code c =
      (mortonPlaced rank b c).elim (pure code) (setBit .indexArithmeticOverflow code) := by
  unfold mortonBit mortonPlaced
  by_cases hb : b < c.1.2.toNat
  · rw [if_pos hb, if_pos hb]
    have hb64 : b < 64 := hb.trans_le hbits
    have hprod : b * rank ≤ 64 * 64 := Nat.mul_le_mul (Nat.le_of_lt hb64) hrank
    have hrow : (Exec.inBits 32 (b * (rank % 2 ^ 32)) : Result ℕ) = .ok (b * rank) := by
      rw [Nat.mod_eq_of_lt (by omega), Exec.inBits, if_pos (by omega)]
    have hshift : (Exec.inBits 32 (b * rank + c.2 % 2 ^ 32) : Result ℕ) =
        .ok (b * rank + c.2) := by
      rw [Nat.mod_eq_of_lt (by omega), Exec.inBits, if_pos (by omega)]
    rw [Exec.shr, if_pos hb64, Exec.ok_bind, hrow, Exec.ok_bind, hshift, Exec.ok_bind]
    simp only [Option.elim_some, setBit]
    by_cases hplace : b * rank + c.2 < 64
    · rw [Exec.reject_of_not (Nat.not_le.mpr hplace), Exec.ok_bind, Exec.shl, if_pos hplace,
        Exec.ok_bind, if_pos hplace, or_bit_eq hb64 hplace]
      rfl
    · rw [Exec.reject, if_pos (Nat.le_of_not_lt hplace), if_neg hplace, Exec.fail_bind]
  · rw [if_neg hb, if_neg hb]
    rfl

theorem MortonLayout.of_elementOffset (h : l.elementOffset index shape = .ok r) :
    ValidIndex index shape ∧ l.mortonBits.length = shape.rank ∧ l.totalBits ≤ 64 := by
  obtain ⟨_, hvalid, h⟩ := Exec.bind_eq_ok.mp h
  obtain ⟨_, hlen, h⟩ := Exec.bind_eq_ok.mp h
  obtain ⟨total, hsum, h⟩ := Exec.bind_eq_ok.mp h
  obtain ⟨_, htotal, h⟩ := Exec.bind_eq_ok.mp h
  refine ⟨validateIndex_eq_ok.mp hvalid, not_not.mp (Exec.reject_eq_ok.mp hlen), ?_⟩
  rw [Exec.sumU32_eq] at hsum
  split at hsum
  · next hlt =>
    cases hsum
    have hle := UInt32.not_lt.mp (Exec.reject_eq_ok.mp htotal)
    rwa [UInt32.le_iff_toNat_le, UInt32.toNat_ofNat_of_lt' hlt] at hle
  · cases hsum

/-- The offset of a valid index: the code, unless a bit has no place in a word. -/
theorem MortonLayout.elementOffset_eq (hvalid : ValidIndex index shape)
    (hlen : l.mortonBits.length = shape.rank) (htotal : l.totalBits ≤ 64) :
    l.elementOffset index shape =
      if ∀ p ∈ mortonPlaces index l.mortonBits, p.2 < 64 then
        .ok (UInt64.ofNat (place (mortonPlaces index l.mortonBits)))
      else Exec.fail .indexArithmeticOverflow := by
  have hok : validateIndex index shape = .ok () := validateIndex_eq_ok.mpr hvalid
  have hsize : l.totalBits < UInt32.size := Nat.lt_of_le_of_lt htotal (by decide)
  have hnot : ¬ UInt32.ofNat l.totalBits > 64 := by
    rw [gt_iff_lt, UInt32.not_lt, UInt32.le_iff_toNat_le, UInt32.toNat_ofNat_of_lt' hsize]
    exact htotal
  have hsum : (Exec.sumU32 l.mortonBits : Result UInt32) = .ok (UInt32.ofNat l.totalBits) := by
    rw [Exec.sumU32_eq]
    exact if_pos hsize
  rw [MortonLayout.elementOffset, hok, Exec.ok_bind, Exec.reject_of_not (not_not.mpr hlen),
    Exec.ok_bind, hsum, Exec.ok_bind, Exec.reject_of_not hnot, Exec.ok_bind]
  have hloop : ∀ (b : ℕ) (code : UInt64),
      (index.zip l.mortonBits).zipIdx.foldlM (mortonBit index.length b) code =
        ((index.zip l.mortonBits).zipIdx.filterMap (mortonPlaced index.length b)).foldlM
          (setBit .indexArithmeticOverflow) code := by
    intro b code
    rw [List.foldlM_filterMap]
    apply foldlM_congr
    intro c hc code
    obtain ⟨⟨i, w⟩, d⟩ := c
    obtain ⟨hi, hw⟩ := List.getElem?_zip_eq_some.mp (List.mem_zipIdx_iff_getElem?.mp hc)
    have hrank : index.length ≤ 64 := hvalid.length_eq ▸ shape.rank_le
    have hdim : d < index.length := (List.getElem?_eq_some_iff.mp hi).1
    have hbits : w.toNat ≤ 64 :=
      (List.le_sum_of_mem (List.mem_map_of_mem (List.mem_of_getElem? hw))).trans htotal
    rw [mortonBit_eq (c := ((i, w), d)) hbits hrank (Nat.lt_of_lt_of_le hdim hrank)]
    cases mortonPlaced index.length b ((i, w), d) <;> rfl
  simp only [hloop]
  rw [← foldlM_flatMap]
  show List.foldlM (setBit Error.indexArithmeticOverflow) 0 (mortonPlaces index l.mortonBits) = _
  rw [foldlM_setBit, UInt64.zero_or]

end Code

/-! ### The buffer -/

section Buffer
variable {l : MortonLayout} {index index' : List UInt64} {shape : Shape} {r : UInt64}

/-- Every element has an offset of its own in a buffer of the prescribed size. -/
structure MortonLayout.FitsBuffer (l : MortonLayout) (shape : Shape) : Prop where
  addressed : l.totalBits ≤ 64 → ∀ index, ValidIndex index shape →
    ∃ r, l.elementOffset index shape = .ok r
  injective : ∀ index index' r, l.elementOffset index shape = .ok r →
    l.elementOffset index' shape = .ok r → index = index'
  bounded : ∀ index r, l.elementOffset index shape = .ok r → r.toNat < 2 ^ l.totalBits

/-- Bit `b` of dimension `d` has its place in a word, and within the code of the prescribed
length where the dimension is long enough to set it. -/
def MortonLayout.Compact (l : MortonLayout) (shape : Shape) : Prop :=
  l.totalBits ≤ 64 → 0 ∉ shape.dims →
    ∀ d (w : UInt32) (dim : UInt64), l.mortonBits[d]? = some w → shape.dims[d]? = some dim →
      ∀ b < w.toNat, b * shape.rank + d < 64 ∧
        (2 ^ b < dim.toNat → b * shape.rank + d < l.totalBits)

theorem MortonLayout.toNat_elementOffset (h : l.elementOffset index shape = .ok r) :
    r.toNat = place (mortonPlaces index l.mortonBits) := by
  obtain ⟨hvalid, hlen, htotal⟩ := MortonLayout.of_elementOffset h
  rw [MortonLayout.elementOffset_eq hvalid hlen htotal] at h
  split at h
  · next hplaces =>
    cases h
    exact toNat_ofNat_place hplaces
  · cases h

theorem mem_places_iff {bits : List UInt32} {d b : ℕ} {i : UInt64} {w : UInt32}
    (hi : index[d]? = some i) (hw : bits[d]? = some w) (hb : b < w.toNat) :
    (true, b * index.length + d) ∈ mortonPlaces index bits ↔ i.toNat.testBit b = true := by
  rw [mem_mortonPlaces]
  constructor
  · intro h
    obtain ⟨e, j, v, c, hj, _, _, heq⟩ := h
    obtain ⟨hbit, hplace⟩ := Prod.mk.inj heq
    obtain ⟨rfl, rfl⟩ := MixedRadix.mul_add_inj (List.getElem?_eq_some_iff.mp hi).1
      (List.getElem?_eq_some_iff.mp hj).1 hplace
    obtain rfl : j = i := Option.some.inj (hj.symm.trans hi)
    exact hbit.symm
  · intro h
    exact ⟨d, i, w, b, hi, hw, hb, by rw [h]⟩

theorem MortonLayout.toNat_lt_pow (hshape : (LayoutDescriptor.morton l).FitsShape shape)
    (hvalid : ValidIndex index shape) {d : ℕ} {i : UInt64} {w : UInt32}
    (hi : index[d]? = some i) (hw : l.mortonBits[d]? = some w) : i.toNat < 2 ^ w.toNat := by
  obtain ⟨dim, hdim, hne, hlt⟩ := hvalid.getElem? hi
  have hmem : (w, dim) ∈ l.mortonBits.zip shape.dims :=
    List.mem_of_getElem? (List.getElem?_zip_eq_some.mpr ⟨hw, hdim⟩)
  exact hlt.trans_le (hshape.2 _ hmem hne)

/-- A component stays below the power of its bits, so equal codes have equal components. -/
theorem MortonLayout.elementOffset_injective (hshape : (LayoutDescriptor.morton l).FitsShape shape)
    (h : l.elementOffset index shape = .ok r) (h' : l.elementOffset index' shape = .ok r) :
    index = index' := by
  obtain ⟨hvalid, hlen, _⟩ := MortonLayout.of_elementOffset h
  obtain ⟨hvalid', _, _⟩ := MortonLayout.of_elementOffset h'
  have hlength : index.length = index'.length := by rw [hvalid.length_eq, hvalid'.length_eq]
  have hplace : place (mortonPlaces index l.mortonBits) =
      place (mortonPlaces index' l.mortonBits) := by
    rw [← MortonLayout.toNat_elementOffset h, ← MortonLayout.toNat_elementOffset h']
  apply List.ext_getElem hlength
  intro d hd hd'
  have hi : index[d]? = some index[d] := List.getElem?_eq_getElem hd
  have hi' : index'[d]? = some index'[d] := List.getElem?_eq_getElem hd'
  have hdw : d < l.mortonBits.length := by rwa [hlen, ← hvalid.length_eq]
  have hw : l.mortonBits[d]? = some l.mortonBits[d] := List.getElem?_eq_getElem hdw
  apply UInt64.toNat_inj.mp
  apply Nat.eq_of_testBit_eq
  intro b
  by_cases hb : b < l.mortonBits[d].toNat
  · rw [Bool.eq_iff_iff, ← mem_places_iff hi hw hb, ← mem_places_iff hi' hw hb, ← testBit_place,
      ← testBit_place, hplace, hlength]
  · have hpow : 2 ^ l.mortonBits[d].toNat ≤ 2 ^ b :=
      Nat.pow_le_pow_right Nat.two_pos (Nat.le_of_not_lt hb)
    rw [Nat.testBit_lt_two_pow ((MortonLayout.toNat_lt_pow hshape hvalid hi hw).trans_le hpow),
      Nat.testBit_lt_two_pow ((MortonLayout.toNat_lt_pow hshape hvalid' hi' hw).trans_le hpow)]

/-- The index that is `i` in dimension `d` and zero elsewhere. -/
def unitIndex (rank d : ℕ) (i : UInt64) : List UInt64 := (List.replicate rank 0).set d i

theorem validIndex_unitIndex {d : ℕ} {i dim : UInt64} (haddressable : shape.Addressable)
    (hdim : shape.dims[d]? = some dim) (hlt : i < dim) :
    ValidIndex (unitIndex shape.rank d i) shape := by
  refine ⟨by simp [unitIndex], ?_⟩
  intro c hmem
  obtain ⟨e, he⟩ := List.getElem?_of_mem hmem
  obtain ⟨hi, hsize⟩ := List.getElem?_zip_eq_some.mp he
  obtain ⟨hpos, hstatic⟩ := haddressable c.2 (List.mem_of_getElem? hsize)
  refine ⟨hstatic, ?_⟩
  by_cases hed : e = d
  · subst e
    obtain rfl : c.2 = dim := Option.some.inj (hsize.symm.trans hdim)
    have hd : d < (List.replicate shape.rank (0 : UInt64)).length := by
      rw [List.length_replicate]
      exact (List.getElem?_eq_some_iff.mp hsize).1
    rw [unitIndex, List.getElem?_set_self hd] at hi
    cases hi
    exact hlt
  · rw [unitIndex, List.getElem?_set_ne (Ne.symm hed)] at hi
    have hzero : c.1 = 0 := List.eq_of_mem_replicate (List.mem_of_getElem? hi)
    rw [hzero]
    exact UInt64.pos_iff_ne_zero.mpr hpos

theorem MortonLayout.fitsBuffer_of_compact (hshape : (LayoutDescriptor.morton l).FitsShape shape)
    (h : l.Compact shape) : l.FitsBuffer shape where
  injective := fun _ _ _ hr hr' => MortonLayout.elementOffset_injective hshape hr hr'
  addressed := by
    intro htotal index hvalid
    have hne : 0 ∉ shape.dims := fun hmem => (hvalid.addressable 0 hmem).1 rfl
    refine ⟨UInt64.ofNat (place (mortonPlaces index l.mortonBits)), ?_⟩
    rw [MortonLayout.elementOffset_eq hvalid hshape.1 htotal, if_pos]
    intro p hp
    obtain ⟨d, i, w, b, hi, hw, hb, rfl⟩ := mem_mortonPlaces.mp hp
    obtain ⟨dim, hdim, _, _⟩ := hvalid.getElem? hi
    show b * index.length + d < 64
    rw [hvalid.length_eq]
    exact (h htotal hne d w dim hw hdim b hb).1
  bounded := by
    intro index r hr
    obtain ⟨hvalid, _, htotal⟩ := MortonLayout.of_elementOffset hr
    have hne : 0 ∉ shape.dims := fun hmem => (hvalid.addressable 0 hmem).1 rfl
    rw [MortonLayout.toNat_elementOffset hr, place_lt_iff]
    intro n hn
    obtain ⟨d, i, w, b, hi, hw, hb, heq⟩ := mem_mortonPlaces.mp hn
    obtain ⟨hbit, rfl⟩ := Prod.mk.inj heq
    obtain ⟨dim, hdim, _, hlt⟩ := hvalid.getElem? hi
    have hpow : 2 ^ b ≤ i.toNat := Nat.ge_two_pow_of_testBit hbit.symm
    rw [hvalid.length_eq]
    exact (h htotal hne d w dim hw hdim b hb).2 (hpow.trans_lt hlt)

theorem MortonLayout.compact_of_fitsBuffer (hstatic : DYNAMIC ∉ shape.dims)
    (hshape : (LayoutDescriptor.morton l).FitsShape shape) (h : l.FitsBuffer shape) :
    l.Compact shape := by
  intro htotal hne d w dim hw hdim b hb
  have haddressable : shape.Addressable := fun x hx =>
    ⟨fun h0 => hne (h0 ▸ hx), fun hdynamic => hstatic (hdynamic ▸ hx)⟩
  have hd : d < shape.rank := (List.getElem?_eq_some_iff.mp hdim).1
  refine ⟨?_, ?_⟩
  · -- the places are checked for every index, so the origin shows it
    have hvalid := validIndex_origin haddressable
    obtain ⟨r, hr⟩ := h.addressed htotal _ hvalid
    rw [MortonLayout.elementOffset_eq hvalid hshape.1 htotal] at hr
    split at hr
    · next hplaces =>
      have horigin : (List.replicate shape.rank (0 : UInt64))[d]? = some 0 :=
        List.getElem?_replicate_of_lt hd
      have hplace := hplaces _ (mem_mortonPlaces.mpr ⟨d, 0, w, b, horigin, hw, hb, rfl⟩)
      rwa [List.length_replicate] at hplace
    · exact absurd hr Exec.fail_ne_ok
  · intro hlt
    have hword : (UInt64.ofNat (2 ^ b)).toNat = 2 ^ b :=
      UInt64.toNat_ofNat_of_lt' (hlt.trans dim.toNat_lt_size)
    have hvalid : ValidIndex (unitIndex shape.rank d (UInt64.ofNat (2 ^ b))) shape := by
      apply validIndex_unitIndex haddressable hdim
      rwa [UInt64.lt_iff_toNat_lt, hword]
    obtain ⟨r, hr⟩ := h.addressed htotal _ hvalid
    have hbound := h.bounded _ r hr
    rw [MortonLayout.toNat_elementOffset hr, place_lt_iff] at hbound
    have hi : (unitIndex shape.rank d (UInt64.ofNat (2 ^ b)))[d]? =
        some (UInt64.ofNat (2 ^ b)) := by
      rw [unitIndex, List.getElem?_set_self (by rwa [List.length_replicate])]
    rw [← hvalid.length_eq]
    apply hbound
    rw [mem_places_iff hi hw hb, hword]
    exact Nat.testBit_two_pow_self

/-- A tensor fits its buffer if and only if its bit counts leave no gap in the code. -/
theorem MortonLayout.fitsBuffer_iff_compact (l : MortonLayout) (shape : Shape)
    (hstatic : DYNAMIC ∉ shape.dims)
    (hshape : (LayoutDescriptor.morton l).validateAgainstShape shape = .ok ()) :
    l.FitsBuffer shape ↔ l.Compact shape := by
  have hfits := LayoutDescriptor.validateAgainstShape_eq_ok.mp hshape
  constructor
  · intro h
    exact MortonLayout.compact_of_fitsBuffer hstatic hfits h
  · intro h
    exact MortonLayout.fitsBuffer_of_compact hfits h

/-- Equal bit counts leave no gap. -/
theorem MortonLayout.compact_of_equal {m : ℕ} (hlen : l.mortonBits.length = shape.rank)
    (hequal : ∀ w ∈ l.mortonBits, w.toNat = m) : l.Compact shape := by
  intro htotal _ d w dim hw hdim b hb
  have htotal_eq : l.totalBits = m * shape.rank := by
    have hmap : l.mortonBits.map UInt32.toNat = List.replicate shape.rank m := by
      rw [List.eq_replicate_iff, List.length_map, hlen]
      exact ⟨rfl, List.forall_mem_map.mpr hequal⟩
    rw [MortonLayout.totalBits, hmap, List.sum_replicate_nat, Nat.mul_comm]
  have hd : d < shape.rank := (List.getElem?_eq_some_iff.mp hdim).1
  rw [hequal w (List.mem_of_getElem? hw)] at hb
  have hplace : b * shape.rank + d < m * shape.rank :=
    calc b * shape.rank + d < (b + 1) * shape.rank := by rw [Nat.succ_mul]; omega
      _ ≤ m * shape.rank := Nat.mul_le_mul_right _ hb
  omega

def oblong : Shape := ⟨[2, 8], by decide⟩

/-- The bit counts of the dimensions of `oblong`. -/
def oblongCode : MortonLayout := ⟨[1, 3]⟩

/-- The last bit of the second dimension goes to place 5 of a code of 4 bits. -/
theorem oblong_past_buffer : MortonLayout.new [1, 3] = .ok oblongCode ∧
    (LayoutDescriptor.morton oblongCode).validateAgainstShape oblong = .ok () ∧
    ¬ oblongCode.FitsBuffer oblong := by
  refine ⟨by decide, by decide, ?_⟩
  intro h
  have hoffset : oblongCode.elementOffset [0, 7] oblong = .ok 42 := by decide +kernel
  exact absurd (h.bounded [0, 7] 42 hoffset) (by decide)

def square : Shape := ⟨[4, 4], two_le_maxRank⟩

theorem fitsBuffer_iff_compact_square :
    (LayoutDescriptor.morton ⟨[2, 2]⟩).validateAgainstShape square = .ok () ∧
      (MortonLayout.FitsBuffer ⟨[2, 2]⟩ square ↔ MortonLayout.Compact ⟨[2, 2]⟩ square) := by
  have hshape : (LayoutDescriptor.morton ⟨[2, 2]⟩).validateAgainstShape square = .ok () := by decide
  exact ⟨hshape, MortonLayout.fitsBuffer_iff_compact ⟨[2, 2]⟩ square (by decide) hshape⟩

end Buffer

end Hurray.Core
