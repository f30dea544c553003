import Hurray.Base.ExactCover
import Hurray.Descriptor.CompositeVerdict
import Mathlib.Algebra.BigOperators.Fin

/-!
Partitions as exact covers. The source compares boxes pair by pair and adds up
their volumes; over the index space of the head, the boxes are finite sets of
indices, and the two checks say that these sets are disjoint and that they are
large enough to fill it.
-/
namespace Hurray.Descriptor
open Hurray.Base Hurray.Core

/-- A box of the source in `r` dimensions. -/
def toBox (r : ℕ) (b : List UInt64 × List UInt64) : Box (Fin r) where
  lo k := (b.1.getD k 0).toNat
  size k := (b.2.getD k 0).toNat

/-- The indices of a shape. -/
def indexSpace (dims : List UInt64) : Finset (Fin dims.length → ℕ) :=
  (toBox dims.length ([], dims)).cells

/-- The box is one of the head, within its dimensions. -/
structure BoxFits (dims : List UInt64) (b : List UInt64 × List UInt64) : Prop where
  offset : b.1.length = dims.length
  shape : b.2.length = dims.length
  inside : ∀ k : Fin dims.length,
    (toBox dims.length b).lo k + (toBox dims.length b).size k ≤ (dims.getD k 0).toNat

section Boxes
variable {dims : List UInt64} {a b : List UInt64 × List UInt64}

theorem mem_indexSpace {x : Fin dims.length → ℕ} :
    x ∈ indexSpace dims ↔ ∀ k, x k < (dims.getD k 0).toNat := by
  simp [indexSpace, Box.mem_cells, toBox]

theorem BoxFits.subset (h : BoxFits dims b) : (toBox dims.length b).cells ⊆ indexSpace dims := by
  have hbox : (toBox dims.length ([], dims)) = ⟨fun _ => 0, fun k => (dims.getD k 0).toNat⟩ := by
    simp [toBox]
  rw [indexSpace, hbox]
  exact Box.cells_subset h.inside

theorem prod_getD {r : ℕ} (h : dims.length = r) :
    ∏ k : Fin r, (dims.getD k 0).toNat = (dims.map UInt64.toNat).prod := by
  subst h
  induction dims with
  | nil => rfl
  | cons d dims ih =>
    rw [List.map_cons, List.prod_cons, ← ih]
    exact Fin.prod_univ_succ _

theorem card_toBox (h : BoxFits dims b) :
    (toBox dims.length b).cells.card = (b.2.map UInt64.toNat).prod := by
  rw [Box.card_cells]
  exact prod_getD h.shape

theorem card_indexSpace (dims : List UInt64) :
    (indexSpace dims).card = (dims.map UInt64.toNat).prod := by
  rw [indexSpace, Box.card_cells]
  exact prod_getD rfl

/-- Where nothing saturates, the source's test is that the boxes meet. -/
theorem boxesOverlap_iff (ha : BoxFits dims a) (hb : BoxFits dims b) :
    boxesOverlap a b = true ↔ (toBox dims.length a).Meets (toBox dims.length b) := by
  have hsum : ∀ {c : List UInt64 × List UInt64} (hc : BoxFits dims c) (k : Fin dims.length),
      (saturatingAdd (c.1.getD k 0) (c.2.getD k 0)).toNat =
        (toBox dims.length c).lo k + (toBox dims.length c).size k := by
    intro c hc k
    have hle : (c.1.getD k 0).toNat + (c.2.getD k 0).toNat ≤ (dims.getD k 0).toNat := hc.inside k
    have hlt : (dims.getD k 0).toNat < UInt64.size := UInt64.toNat_lt_size _
    have hfits : (c.1.getD k 0).toNat + (c.2.getD k 0).toNat < UInt64.size := by omega
    rw [saturatingAdd, if_pos hfits, UInt64.toNat_add, Nat.mod_eq_of_lt hfits]
    rfl
  have hlen : ((a.1.zip a.2).zip (b.1.zip b.2)).length = dims.length := by
    simp [ha.offset, ha.shape, hb.offset, hb.shape]
  have hget : ∀ (k : ℕ) (hk : k < ((a.1.zip a.2).zip (b.1.zip b.2)).length),
      ((a.1.zip a.2).zip (b.1.zip b.2))[k] =
        ((a.1.getD k 0, a.2.getD k 0), (b.1.getD k 0, b.2.getD k 0)) := by
    intro k hk
    rw [hlen] at hk
    simp [List.getD_eq_getElem?_getD, ha.offset, ha.shape, hb.offset, hb.shape, hk]
  simp only [boxesOverlap, List.all_eq_true, Bool.and_eq_true, decide_eq_true_eq,
    UInt64.lt_iff_toNat_lt]
  constructor
  · intro h k
    have hk : k.1 < ((a.1.zip a.2).zip (b.1.zip b.2)).length := by
      rw [hlen]
      exact k.2
    have hp := h _ (List.getElem_mem hk)
    rw [hget k hk, hsum ha k, hsum hb k] at hp
    exact hp
  · intro h p hp
    obtain ⟨k, hk, rfl⟩ := List.getElem_of_mem hp
    rw [hget k hk]
    rw [hlen] at hk
    have hm := h ⟨k, hk⟩
    rw [← hsum ha ⟨k, hk⟩, ← hsum hb ⟨k, hk⟩] at hm
    exact hm

end Boxes

/-! ### Volumes -/

section Volume

/-- The running product of the source. -/
def volumeFrom (acc : UInt64) (dims : List UInt64) : Option UInt64 :=
  dims.foldlM (fun acc d => if d = DYNAMIC then none else checkedMul acc d) acc

theorem volumeFrom_cons {acc d v : UInt64} {dims : List UInt64} :
    volumeFrom acc (d :: dims) = some v ↔ d ≠ DYNAMIC ∧
      acc.toNat * d.toNat < UInt64.size ∧ volumeFrom (acc * d) dims = some v := by
  rw [volumeFrom, List.foldlM_cons]
  constructor
  · intro h
    obtain ⟨w, hw, h⟩ := Option.bind_eq_some_iff.mp h
    split at hw
    · cases hw
    · next hne =>
      obtain ⟨hlt, rfl⟩ := checkedMul_eq_some.mp hw
      exact ⟨hne, hlt, h⟩
  · intro h
    obtain ⟨hne, hlt, h⟩ := h
    rw [if_neg hne, checkedMul_eq_some.mpr ⟨hlt, rfl⟩]
    exact h

theorem volumeFrom_toNat {acc v : UInt64} {dims : List UInt64} (h : volumeFrom acc dims = some v) :
    v.toNat = acc.toNat * (dims.map UInt64.toNat).prod := by
  induction dims generalizing acc with
  | nil =>
    cases h
    rw [List.map_nil, List.prod_nil, Nat.mul_one]
  | cons d dims ih =>
    obtain ⟨-, hlt, h⟩ := volumeFrom_cons.mp h
    rw [ih h, UInt64.toNat_mul, Nat.mod_eq_of_lt hlt, List.map_cons, List.prod_cons, Nat.mul_assoc]

theorem volume_toNat {dims : List UInt64} {v : UInt64} (h : volume dims = some v) :
    v.toNat = (dims.map UInt64.toNat).prod := by
  rw [volumeFrom_toNat h]
  exact Nat.one_mul _

/-- Smaller dimensions have a volume where larger ones do. -/
theorem volumeFrom_of_le {acc acc' v : UInt64} {dims parent : List UInt64}
    (hacc : acc.toNat ≤ acc'.toNat)
    (hle : List.Forall₂ (fun d p : UInt64 => d.toNat ≤ p.toNat) dims parent)
    (h : volumeFrom acc' parent = some v) : ∃ w, volumeFrom acc dims = some w := by
  induction hle generalizing acc acc' with
  | nil => exact ⟨acc, rfl⟩
  | @cons d p dims parent hd _ ih =>
    obtain ⟨hne, hlt, h⟩ := volumeFrom_cons.mp h
    have hmul : acc.toNat * d.toNat ≤ acc'.toNat * p.toNat := Nat.mul_le_mul hacc hd
    have hfits : acc.toNat * d.toNat < UInt64.size := by omega
    have hstatic : d ≠ DYNAMIC := by
      intro hdyn
      have hp := p.toNat_lt_size
      have hmax : DYNAMIC.toNat = UInt64.size - 1 := rfl
      rw [hdyn, hmax] at hd
      apply hne
      apply UInt64.toNat_inj.mp
      omega
    have hnext : (acc * d).toNat ≤ (acc' * p).toNat := by
      rw [UInt64.toNat_mul, UInt64.toNat_mul, Nat.mod_eq_of_lt hfits, Nat.mod_eq_of_lt hlt]
      exact hmul
    obtain ⟨w, hw⟩ := ih hnext h
    exact ⟨w, volumeFrom_cons.mpr ⟨hstatic, hfits, hw⟩⟩

theorem volume_of_fits {dims : List UInt64} {b : List UInt64 × List UInt64} {v : UInt64}
    (hb : BoxFits dims b) (h : volume dims = some v) : ∃ w, volume b.2 = some w := by
  refine volumeFrom_of_le le_rfl ?_ h
  rw [List.forall₂_iff_get]
  refine ⟨hb.shape, ?_⟩
  intro k hk hk'
  have hle := hb.inside ⟨k, hk'⟩
  have hsize : (b.2.getD k 0).toNat ≤ (dims.getD k 0).toNat :=
    le_trans (Nat.le_add_left _ _) hle
  rw [List.getD_eq_getElem?_getD, List.getD_eq_getElem?_getD, List.getElem?_eq_getElem hk,
    List.getElem?_eq_getElem hk'] at hsize
  exact hsize

theorem coveredVolume_eq {boxes : List (List UInt64 × List UInt64)}
    (hvolume : ∀ b ∈ boxes, ∃ v, volume b.2 = some v)
    (hsum : (boxes.map fun b => (b.2.map UInt64.toNat).prod).sum < UInt64.size) :
    ∃ c, coveredVolume boxes = some c ∧
      c.toNat = (boxes.map fun b => (b.2.map UInt64.toNat).prod).sum := by
  have hfrom : ∀ (boxes : List (List UInt64 × List UInt64)) (acc : UInt64),
      (∀ b ∈ boxes, ∃ v, volume b.2 = some v) →
      acc.toNat + (boxes.map fun b => (b.2.map UInt64.toNat).prod).sum < UInt64.size →
      ∃ c, boxes.foldl (fun covered b => do
          let c ← covered
          let v ← volume b.2
          checkedAdd c v) (some acc) = some c ∧
        c.toNat = acc.toNat + (boxes.map fun b => (b.2.map UInt64.toNat).prod).sum := by
    intro boxes
    induction boxes with
    | nil =>
      intro acc _ _
      exact ⟨acc, rfl, rfl⟩
    | cons b boxes ih =>
      intro acc hvolume hlt
      obtain ⟨⟨v, hv⟩, hrest⟩ := List.forall_mem_cons.mp hvolume
      rw [List.map_cons, List.sum_cons, ← Nat.add_assoc] at hlt ⊢
      have hnat := volume_toNat hv
      have hadd : acc.toNat + v.toNat < UInt64.size := by omega
      have hsum : (acc + v).toNat = acc.toNat + (b.2.map UInt64.toNat).prod := by
        rw [UInt64.toNat_add, Nat.mod_eq_of_lt hadd, hnat]
      obtain ⟨c, hc, hcnat⟩ := ih (acc + v) hrest (by omega)
      refine ⟨c, ?_, by omega⟩
      have hnext : (do
          let c ← some acc
          let v ← volume b.2
          checkedAdd c v) = some (acc + v) := by
        show (volume b.2).bind (fun v => checkedAdd acc v) = _
        rw [hv]
        exact checkedAdd_eq_some.mpr ⟨hadd, rfl⟩
      rw [List.foldl_cons, hnext]
      exact hc
  obtain ⟨c, hc, hnat⟩ := hfrom boxes 0 hvolume (by rwa [UInt64.toNat_zero, Nat.zero_add])
  exact ⟨c, hc, by rw [hnat, UInt64.toNat_zero, Nat.zero_add]⟩

end Volume

theorem firstOverlap_eq_none {boxes : List (List UInt64 × List UInt64)} :
    firstOverlap boxes = none ↔ boxes.Pairwise fun a b => boxesOverlap a b = false := by
  rw [List.pairwise_iff_getElem]
  simp only [firstOverlap, List.findSome?_eq_none_iff, List.mem_range, List.mem_range'_1]
  constructor
  · intro h i j hi hj hlt
    have hij := h i hi j ⟨by omega, by omega⟩
    rw [List.getElem?_eq_getElem hi, List.getElem?_eq_getElem hj] at hij
    dsimp only at hij
    split at hij
    · cases hij
    · next hfalse => exact Bool.eq_false_of_not_eq_true hfalse
  · intro h i hi j hj
    obtain ⟨hlt, hjlt⟩ := hj
    have hjlen : j < boxes.length := by omega
    rw [List.getElem?_eq_getElem hi, List.getElem?_eq_getElem hjlen]
    dsimp only
    rw [h i j hi hjlen (by omega), if_neg Bool.false_ne_true]

/-! ### Partitions -/

/-- The vectors of a shard have the rank of the tensor, as every constructor of one checks. -/
def ShardRanked (m : TensorDescriptor) : Prop :=
  ∀ s, m.shard = some s → s.parentShape.length = m.shape.rank ∧ s.shardOffset.length = m.shape.rank

theorem shardRanked_of_crossSection {m : TensorDescriptor} (h : m.CrossSection)
    (hnew : ∀ s, m.shard = some s → ShardDescriptor.new s.parentShape s.shardOffset = .ok s) :
    ShardRanked m := by
  intro s hs
  have hcheck := h.shard
  rw [hs] at hcheck
  obtain ⟨_, hrank, -⟩ := Exec.bind_eq_ok.mp hcheck
  obtain ⟨_, hlen, -⟩ := Exec.bind_eq_ok.mp (hnew s hs)
  rw [Exec.reject_eq_ok, not_not] at hrank hlen
  exact ⟨hrank, hlen.symm.trans hrank⟩

/-- The indices of the head that a member covers. -/
def memberCells (dims : List UInt64) (m : TensorDescriptor) : Finset (Fin dims.length → ℕ) :=
  (toBox dims.length (CompositeValidator.boxOf m)).cells

namespace CompositeValidator

/-- The members of a partition, apart from what they cover. -/
structure PartitionMembers (head : TensorDescriptor) (members : List TensorDescriptor) : Prop where
  shared : ∀ m ∈ members, SharedOut head.shape.dims m
  typed : ∀ m ∈ members, Typed head.elementType.tag m
  plain : ∀ m ∈ members, m.compositeMember = none

section Partition
variable {head : TensorDescriptor} {members : List TensorDescriptor} {n : UInt32}

theorem boxFits_of_shared {dims : List UInt64} {m : TensorDescriptor} (hranked : ShardRanked m)
    (h : SharedOut dims m) : BoxFits dims (boxOf m) := by
  obtain ⟨s, hs, rfl, hbounds⟩ := h
  obtain ⟨hparent, hoffset⟩ := hranked s hs
  have hbox : boxOf m = (s.shardOffset, m.shape.dims) := by
    rw [boxOf, hs]
    rfl
  rw [hbox]
  constructor
  · exact hoffset.trans hparent.symm
  · exact hparent.symm
  · intro k
    obtain ⟨dim, offset, parent, hdim, hoff, hpar, hle⟩ := hbounds k k.2
    show (s.shardOffset.getD k 0).toNat + (m.shape.dims.getD k 0).toNat ≤ _
    simp only [List.getD_eq_getElem?_getD, hdim, hoff, hpar, Option.getD_some]
    exact hle

/-- What is checked of the members of a partition and of what they cover. -/
theorem validate_partition_iff (hc : head.layout = .composite ⟨.partition, n⟩) :
    validate head members = .ok () ↔ DYNAMIC ∉ head.shape.dims ∧
      PartitionMembers head members ∧ UInt32.ofNat members.length = n ∧
        (start head ⟨.partition, n⟩).ClosesOk members := by
  rw [validate_eq_ok hc]
  simp only [ne_eq, reduceCtorEq, not_false_eq_true, forall_const]
  apply and_congr Iff.rfl
  apply and_congr _ Iff.rfl
  constructor
  · intro hall
    have hmem : ∀ m ∈ members, ∃ i, members[i]? = some m := fun m hm => List.getElem?_of_mem hm
    constructor
    · intro m hm
      obtain ⟨i, hi⟩ := hmem m hm
      exact (hall i m hi).1
    · intro m hm
      obtain ⟨i, hi⟩ := hmem m hm
      exact (hall i m hi).2.1
    · intro m hm
      obtain ⟨i, hi⟩ := hmem m hm
      exact (hall i m hi).2.2
  · intro h i m hm
    have hmem := List.mem_of_getElem? hm
    exact ⟨h.shared m hmem, h.typed m hmem, h.plain m hmem⟩

theorem validatePartitionCoverage_eq_ok (v : CompositeValidator) :
    v.validatePartitionCoverage = .ok () ↔
      v.partitionBoxes.Pairwise (fun a b => boxesOverlap a b = false) ∧
        ∀ total covered, volume v.headShapeDims = some total →
          coveredVolume v.partitionBoxes = some covered → covered = total := by
  unfold validatePartitionCoverage
  rw [← firstOverlap_eq_none]
  cases hoverlap : firstOverlap v.partitionBoxes with
  | some p => simp
  | none =>
    cases htotal : volume v.headShapeDims with
    | none => simp [pure, Except.pure]
    | some total =>
      cases hcovered : coveredVolume v.partitionBoxes with
      | none => simp [pure, Except.pure]
      | some covered => simp

/-- The close of a partition: no two boxes overlap, and the volumes agree as far as both are
known. -/
theorem closesOk_partition_iff : (start head ⟨.partition, n⟩).ClosesOk members ↔
    (members.map boxOf).Pairwise (fun a b => boxesOverlap a b = false) ∧
      ∀ total covered, volume head.shape.dims = some total →
        coveredVolume (members.map boxOf) = some covered → covered = total := by
  exact validatePartitionCoverage_eq_ok ((start head ⟨.partition, n⟩).after members)

variable (hranked : ∀ m ∈ members, ShardRanked m)
include hranked

theorem disjoint_of_pairwise (hshared : ∀ m ∈ members, SharedOut head.shape.dims m)
    (h : (members.map boxOf).Pairwise fun a b => boxesOverlap a b = false) :
    (members.map (memberCells head.shape.dims)).Pairwise Disjoint := by
  rw [List.pairwise_map] at h ⊢
  apply h.imp_of_mem
  intro a b ha hb hab
  apply Box.disjoint_of_not_meets
  rw [← boxesOverlap_iff (boxFits_of_shared (hranked a ha) (hshared a ha))
    (boxFits_of_shared (hranked b hb) (hshared b hb)), hab]
  exact Bool.false_ne_true

theorem sum_card_eq (hshared : ∀ m ∈ members, SharedOut head.shape.dims m) :
    ((members.map (memberCells head.shape.dims)).map Finset.card).sum =
      ((members.map boxOf).map fun b => (b.2.map UInt64.toNat).prod).sum := by
  rw [List.map_map, List.map_map]
  congr 1
  apply List.map_congr_left
  intro m hm
  exact card_toBox (boxFits_of_shared (hranked m hm) (hshared m hm))

theorem cells_subset (hshared : ∀ m ∈ members, SharedOut head.shape.dims m) :
    ∀ part ∈ members.map (memberCells head.shape.dims), part ⊆ indexSpace head.shape.dims := by
  intro part hpart
  obtain ⟨m, hm, rfl⟩ := List.mem_map.mp hpart
  exact (boxFits_of_shared (hranked m hm) (hshared m hm)).subset

/-- Where the head's volume is known, the volumes of disjoint boxes agree with it exactly when the
boxes cover it. -/
theorem covered_iff (hshared : ∀ m ∈ members, SharedOut head.shape.dims m)
    (hdisjoint : (members.map (memberCells head.shape.dims)).Pairwise Disjoint) {total : UInt64}
    (htotal : volume head.shape.dims = some total) :
    (∀ covered, coveredVolume (members.map boxOf) = some covered → covered = total) ↔
      ExactCover (members.map (memberCells head.shape.dims)) (indexSpace head.shape.dims) := by
  have hsub := cells_subset hranked hshared
  have hle := sum_card_le hdisjoint hsub
  rw [exactCover_iff hdisjoint hsub, card_indexSpace, ← volume_toNat htotal]
  rw [card_indexSpace, ← volume_toNat htotal] at hle
  rw [sum_card_eq hranked hshared] at hle ⊢
  have hvolume : ∀ b ∈ members.map boxOf, ∃ v, volume b.2 = some v := by
    intro b hb
    obtain ⟨m, hm, rfl⟩ := List.mem_map.mp hb
    exact volume_of_fits (boxFits_of_shared (hranked m hm) (hshared m hm)) htotal
  obtain ⟨covered, hcovered, hnat⟩ := coveredVolume_eq hvolume
    (lt_of_le_of_lt hle total.toNat_lt_size)
  rw [hcovered, ← hnat]
  constructor
  · intro h
    rw [h covered rfl]
  · intro h c hc
    cases hc
    exact UInt64.toNat_inj.mp h

/-- The boxes of an accepted partition lie apart within its head and, if the volume of the head is
known, cover it exactly. Non-empty boxes that cover a static head exactly are accepted. -/
theorem partition_covers (hc : head.layout = .composite ⟨.partition, n⟩) :
    (validate head members = .ok () →
      (∀ m ∈ members, BoxFits head.shape.dims (boxOf m)) ∧
      (members.map (memberCells head.shape.dims)).Pairwise Disjoint ∧
      (volume head.shape.dims ≠ none →
        ExactCover (members.map (memberCells head.shape.dims)) (indexSpace head.shape.dims))) ∧
    (DYNAMIC ∉ head.shape.dims → PartitionMembers head members → members.length = n.toNat →
      (∀ m ∈ members, ∀ d ∈ m.shape.dims, d ≠ 0) →
      ExactCover (members.map (memberCells head.shape.dims)) (indexSpace head.shape.dims) →
        validate head members = .ok ()) := by
  rw [validate_partition_iff hc, closesOk_partition_iff]
  constructor
  · intro h
    obtain ⟨-, hmembers, -, hpairwise, hvolumes⟩ := h
    have hdisjoint := disjoint_of_pairwise hranked hmembers.shared hpairwise
    refine ⟨fun m hm => boxFits_of_shared (hranked m hm) (hmembers.shared m hm), hdisjoint, ?_⟩
    intro hknown
    obtain ⟨total, htotal⟩ := Option.ne_none_iff_exists'.mp hknown
    exact (covered_iff hranked hmembers.shared hdisjoint htotal).mp fun covered hcovered =>
      hvolumes total covered htotal hcovered
  · intro hstatic hmembers hcount hnonempty hcover
    have hsub := cells_subset hranked hmembers.shared
    have hdisjoint := hcover.pairwise hsub
    refine ⟨hstatic, hmembers, by rw [hcount, UInt32.ofNat_toNat], ?_, ?_⟩
    · -- boxes that meet would share a cell
      rw [List.pairwise_map] at hdisjoint ⊢
      apply hdisjoint.imp_of_mem
      intro a b ha hb hab
      have hfa := boxFits_of_shared (hranked a ha) (hmembers.shared a ha)
      have hfb := boxFits_of_shared (hranked b hb) (hmembers.shared b hb)
      by_contra hmeets
      rw [Bool.not_eq_false, boxesOverlap_iff hfa hfb] at hmeets
      have hpos : ∀ {m : TensorDescriptor}, m ∈ members → BoxFits head.shape.dims (boxOf m) →
          ∀ k, 0 < (toBox head.shape.dims.length (boxOf m)).size k := by
        intro m hm hfm k
        have hk : k.1 < m.shape.dims.length := by
          rw [show m.shape.dims.length = _ from hfm.shape]
          exact k.2
        show 0 < (m.shape.dims.getD k 0).toNat
        rw [List.getD_eq_getElem?_getD, List.getElem?_eq_getElem hk, Option.getD_some]
        have hne := hnonempty m hm _ (List.getElem_mem hk)
        exact UInt64.pos_iff_ne_zero.mpr hne
      obtain ⟨x, hxa, hxb⟩ := Box.exists_of_meets hmeets (hpos ha hfa) (hpos hb hfb)
      exact Finset.disjoint_left.mp hab hxa hxb
    · intro total covered htotal hcovered
      exact (covered_iff hranked hmembers.shared hdisjoint htotal).mpr hcover covered hcovered

end Partition
end CompositeValidator

/-- A head that is partitioned into so many members, and a member of it. -/
def partitionHead (dims : List UInt64) (h : dims.length ≤ MAX_RANK) (count : UInt32) :
    TensorDescriptor :=
  { workedExample with shape := ⟨dims, h⟩, layout := .composite ⟨.partition, count⟩, buffers := [] }

def partitionMember (parent offset dims : List UInt64) (h : dims.length ≤ MAX_RANK)
    (role : Option CompositeMemberDescriptor) : TensorDescriptor :=
  { workedExample with shape := ⟨dims, h⟩, shard := some ⟨parent, offset⟩, compositeMember := role }

namespace CompositeValidator

theorem partition_covers_worked :
    validate (partitionHead [8] (by decide) 2)
        [partitionMember [8] [0] [3] (by decide) none, partitionMember [8] [3] [5] (by decide) none] =
      .ok () ∧
    ExactCover
      ([partitionMember [8] [0] [3] (by decide) none,
        partitionMember [8] [3] [5] (by decide) none].map (memberCells [8])) (indexSpace [8]) := by
  have h : validate (partitionHead [8] (by decide) 2)
      [partitionMember [8] [0] [3] (by decide) none, partitionMember [8] [3] [5] (by decide) none] =
        .ok () := by decide +kernel
  refine ⟨h, ?_⟩
  have hranked : ∀ m ∈ [partitionMember [8] [0] [3] (by decide) none,
      partitionMember [8] [3] [5] (by decide) none], ShardRanked m := by
    intro m hm
    apply shardRanked_of_crossSection
    · rcases List.mem_cons.mp hm with rfl | hm
      · constructor <;> decide +kernel
      · obtain rfl := List.mem_singleton.mp hm
        constructor <;> decide +kernel
    · intro s hs
      rcases List.mem_cons.mp hm with rfl | hm
      · cases hs
        rfl
      · obtain rfl := List.mem_singleton.mp hm
        cases hs
        rfl
  exact ((partition_covers hranked rfl).1 h).2.2 (by decide +kernel)

/-- The first cell of a square is not the whole of it. -/
theorem not_exactCover_corner {d : UInt64} (hd : 1 < d.toNat) :
    ¬ ExactCover ([partitionMember [d, d] [0, 0] [1, 1] (by decide) none].map (memberCells [d, d]))
      (indexSpace [d, d]) := by
  intro hcover
  have hmem : (fun _ => 1) ∈ indexSpace [d, d] := by
    rw [mem_indexSpace]
    intro k
    match k with
    | ⟨0, _⟩ => exact hd
    | ⟨1, _⟩ => exact hd
  obtain ⟨part, hpart, hx⟩ := hcover.exists_part hmem
  rw [List.map_singleton, List.mem_singleton] at hpart
  rw [hpart] at hx
  have hzero : 1 < 0 + 1 := (Box.mem_cells.mp hx ⟨0, Nat.zero_lt_succ _⟩).2
  exact absurd hzero (by decide)

/-- A partition with a hole, under a head whose volume is past a word, is accepted. -/
theorem partition_hole_accepted :
    validate (partitionHead [4294967296, 4294967296] (by decide) 1)
        [partitionMember [4294967296, 4294967296] [0, 0] [1, 1] (by decide) none] = .ok () ∧
      ¬ ExactCover ([partitionMember [4294967296, 4294967296] [0, 0] [1, 1] (by decide) none].map
        (memberCells [4294967296, 4294967296])) (indexSpace [4294967296, 4294967296]) :=
  ⟨by decide +kernel, not_exactCover_corner (by decide)⟩

/-- A box that is the whole head is refused where its tensor carries a member section. -/
theorem partition_section_refused :
    SharedOut [8] (partitionMember [8] [0] [8] (by decide) (some ⟨.base⟩)) ∧
      Typed (partitionHead [8] (by decide) 1).elementType.tag
        (partitionMember [8] [0] [8] (by decide) (some ⟨.base⟩)) ∧
      ExactCover ([partitionMember [8] [0] [8] (by decide) (some ⟨.base⟩)].map (memberCells [8]))
        (indexSpace [8]) ∧
      validate (partitionHead [8] (by decide) 1)
        [partitionMember [8] [0] [8] (by decide) (some ⟨.base⟩)] ≠ .ok () := by
  refine ⟨?_, ?_, ?_, by decide +kernel⟩
  · refine ⟨⟨[8], [0]⟩, rfl, rfl, ?_⟩
    intro k hk
    obtain rfl : k = 0 := Nat.lt_one_iff.mp hk
    exact ⟨8, 0, 8, rfl, rfl, rfl, le_rfl⟩
  · exact fun _ => rfl
  · intro x hx
    refine ⟨0, ⟨_, rfl, hx⟩, ?_⟩
    intro j hj
    obtain ⟨part, hpart, -⟩ := hj
    obtain ⟨hlt, -⟩ := List.getElem?_eq_some_iff.mp hpart
    rw [List.length_map, List.length_singleton] at hlt
    omega

end CompositeValidator
end Hurray.Descriptor
