import Hurray.Core.CsfAddressing
import Mathlib.Data.List.Nodup

/-!
The lookup against the depth-first iteration. On buffers that pass the validation the
descent finds the leaves that the iteration visits, and the iteration visits the leaves
in the order of the elements.
-/
namespace Hurray.Core.Csf
open Hurray.Base

/-! ### The iteration -/

/-- The leaves below position `p`, each with its coordinates in storage order. A position below the
last level is a leaf. -/
def visit : List (List UInt64 × List UInt64) → ℕ → List (List UInt64 × ℕ)
  | [], p => [([], p)]
  | (pos, crd) :: levels, p =>
      (span pos p).flatMap fun i => (crd[i]?).elim [] fun c =>
        (visit levels i).map fun leaf => (c :: leaf.1, leaf.2)

/-- The levels of a tree, root first. -/
def tree (posLevels crdLevels : List (Slice UInt64)) : List (List UInt64 × List UInt64) :=
  (posLevels.zip crdLevels).map fun level => (level.1.elems, level.2.elems)

/-- The logical index: the coordinate of a level goes to the dimension that the level stores. -/
def logicalIndex (modeOrder : List UInt32) (coords : List UInt64) : List UInt64 :=
  (List.range modeOrder.length).map fun dim =>
    (coords[(modeOrder.map UInt32.toNat).idxOf dim]?).getD 0

/-- All the stored elements, with their logical indices. -/
def iteration (modeOrder : List UInt32) (posLevels crdLevels : List (Slice UInt64)) :
    List (List UInt64 × ℕ) :=
  (visit (tree posLevels crdLevels) 0).map fun leaf => (logicalIndex modeOrder leaf.1, leaf.2)

/-- Levels that are valid one under the other, the first under `n` nodes and the last with `leaves`
nodes. -/
def ValidTree : ℕ → List (List UInt64 × List UInt64) → ℕ → Prop
  | n, [], leaves => n = leaves
  | n, (pos, crd) :: levels, leaves =>
      (∃ bound, LevelValid n bound pos crd) ∧ ValidTree crd.length levels leaves

section Visit
variable {levels : List (List UInt64 × List UInt64)} {pos crd : List UInt64} {n leaves p : ℕ}

theorem mem_visit_cons {c : UInt64} {coords : List UInt64} {leaf : ℕ} :
    (c :: coords, leaf) ∈ visit ((pos, crd) :: levels) p ↔
      ∃ i ∈ span pos p, crd[i]? = some c ∧ (coords, leaf) ∈ visit levels i := by
  rw [visit, List.mem_flatMap]
  constructor
  · intro h
    obtain ⟨i, hi, hmem⟩ := h
    cases hc : crd[i]? with
    | none => simp [hc] at hmem
    | some c' =>
      rw [hc, Option.elim_some, List.mem_map] at hmem
      obtain ⟨below, hbelow, hsame⟩ := hmem
      cases hsame
      exact ⟨i, hi, hc, hbelow⟩
  · intro h
    obtain ⟨i, hi, hc, hmem⟩ := h
    refine ⟨i, hi, ?_⟩
    rw [hc, Option.elim_some, List.mem_map]
    exact ⟨(coords, leaf), hmem, rfl⟩

theorem length_of_mem_visit {leaf : List UInt64 × ℕ} (h : leaf ∈ visit levels p) :
    leaf.1.length = levels.length := by
  induction levels generalizing p leaf with
  | nil =>
    rw [visit, List.mem_singleton] at h
    rw [h]
    rfl
  | cons level levels ih =>
    obtain ⟨pos, crd⟩ := level
    rw [visit, List.mem_flatMap] at h
    obtain ⟨i, -, hmem⟩ := h
    cases hc : crd[i]? with
    | none => simp [hc] at hmem
    | some c =>
      rw [hc, Option.elim_some, List.mem_map] at hmem
      obtain ⟨below, hbelow, rfl⟩ := hmem
      rw [List.length_cons, List.length_cons, ih hbelow]

/-- The nodes of a level are visited once each, in order, and so are the leaves. -/
theorem ValidTree.positions (h : ValidTree n levels leaves) :
    (List.range n).flatMap (fun p => (visit levels p).map Prod.snd) = List.range leaves := by
  induction levels generalizing n with
  | nil =>
    obtain rfl : n = leaves := h
    simp [visit]
  | cons level levels ih =>
    obtain ⟨pos, crd⟩ := level
    obtain ⟨⟨bound, hvalid⟩, hrest⟩ := h
    have hspans := hvalid.spans
    rw [hvalid.length_eq, Nat.add_sub_cancel] at hspans
    rw [← ih hrest, ← hspans, List.flatMap_assoc]
    apply List.flatMap_congr
    intro p hp
    have hp : p < pos.length - 1 := by
      have hrange := List.mem_range.mp hp
      have hlen := hvalid.length_eq
      omega
    rw [visit, List.map_flatMap]
    apply List.flatMap_congr
    intro i hi
    have hi := hvalid.lt_length_of_mem_span hp hi
    rw [List.getElem?_eq_getElem hi, Option.elim_some, List.map_map]
    rfl

end Visit

/-! ### The descent -/

/-- The coordinates of a query, in the order of the levels. -/
def storageOrder (modeOrder : List UInt32) (query : List UInt64) : List UInt64 :=
  modeOrder.map fun mode => (query[mode.toNat]?).getD 0

section Descent
variable {query : List UInt64} {modeOrder : List UInt32} {posLevels crdLevels : List (Slice UInt64)}

/-- A level of the descent finds the child under the coordinate, and nothing where there is none. -/
theorem lookupLevel_eq {p coord bound : UInt64} {level n : ℕ} {mode : UInt32} {pos crd : Slice UInt64}
    (hmode : modeOrder[level]? = some mode) (hcoord : query[mode.toNat]? = some coord)
    (hpos : posLevels[level]? = some pos) (hcrd : crdLevels[level]? = some crd)
    (hvalid : LevelValid n bound pos.elems crd.elems) (hp : p.toNat < n) :
    ∃ o, lookupLevel query modeOrder posLevels crdLevels p level = .ok o ∧
      ∀ i, o.map UInt64.toNat = some i ↔
        i ∈ span pos.elems p.toNat ∧ crd.elems[i]? = some coord := by
  have hlen := hvalid.length_eq
  have hposlt := pos.length_lt
  have hcrdlt := crd.length_lt
  have hstart := List.getElem?_eq_getElem (show p.toNat < pos.elems.length by omega)
  have hstop := List.getElem?_eq_getElem (show p.toNat + 1 < pos.elems.length by omega)
  have hle := hvalid.getElem?_le hstart hstop (Nat.le_succ _)
  have hwithin := hvalid.le_length hstop
  have hdim := (List.getElem?_eq_some_iff.mp hcoord).1
  have hsorted := (hvalid.increasing p.toNat (by omega)).imp Std.compare_eq_lt.mpr
  -- A place within the siblings is one of the level.
  have hchild : ∀ k c, (part crd.elems pos.elems p.toNat)[k]? = some c →
      pos.elems[p.toNat].toNat + (UInt64.ofNat k).toNat < UInt64.size ∧
        (pos.elems[p.toNat] + UInt64.ofNat k).toNat = pos.elems[p.toNat].toNat + k := by
    intro k c hk
    have hk := ((getElem?_part hstart hstop).mp hk).1
    have hword : (UInt64.ofNat k).toNat = k := UInt64.toNat_ofNat_of_lt' (by show k < 2 ^ 64; omega)
    have hfits : pos.elems[p.toNat].toNat + (UInt64.ofNat k).toNat < UInt64.size := by
      rw [hword]
      show _ < 2 ^ 64
      omega
    exact ⟨hfits, by rw [toNat_add_of_lt hfits, hword]⟩
  refine ⟨(binarySearch (part crd.elems pos.elems p.toNat) coord).map fun k =>
    pos.elems[p.toNat] + UInt64.ofNat k, ?_, ?_⟩
  · simp only [lookupLevel, Exec.index_eq_ok.mpr hmode, Exec.ok_bind,
      Exec.reject_of_not (show ¬ mode.toNat ≥ query.length by omega),
      Exec.index_eq_ok.mpr hcoord, Exec.index_eq_ok.mpr hpos, Exec.index_eq_ok.mpr hcrd,
      Exec.inBits, if_pos (show p.toNat + 1 < 2 ^ 64 by omega),
      Exec.reject_of_not (show ¬ p.toNat + 1 ≥ pos.elems.length by omega),
      Exec.index_eq_ok.mpr hstart, Exec.index_eq_ok.mpr hstop,
      Exec.reject_of_not (show ¬ pos.elems[p.toNat] > pos.elems[p.toNat + 1] by
        rw [gt_iff_lt, UInt64.lt_iff_toNat_lt]; omega),
      Exec.reject_of_not (show ¬ pos.elems[p.toNat + 1].toNat > crd.elems.length by omega),
      Exec.slice_eq_ok.mpr ⟨show pos.elems[p.toNat].toNat +
        (pos.elems[p.toNat + 1].toNat - pos.elems[p.toNat].toNat) ≤ crd.elems.length by omega,
        part_eq hstart hstop⟩]
    cases hfound : binarySearch (part crd.elems pos.elems p.toNat) coord with
    | none => rfl
    | some k =>
      have hfits := (hchild k coord (binarySearch_sound hfound)).1
      simp only [checkedAdd, if_pos hfits, Exec.orFail_some, Exec.ok_bind]
      rfl
  · intro i
    rw [Option.map_map, Option.map_eq_some_iff, span_eq hstart hstop, List.mem_range'_1]
    simp only [binarySearch_eq_some hsorted, Function.comp_apply]
    constructor
    · intro h
      obtain ⟨k, hk, rfl⟩ := h
      obtain ⟨hlt, hcoord⟩ := (getElem?_part hstart hstop).mp hk
      rw [(hchild k coord hk).2]
      exact ⟨⟨Nat.le_add_right _ _, by omega⟩, hcoord⟩
    · intro h
      obtain ⟨⟨hge, hlt⟩, hcoord⟩ := h
      have hk : (part crd.elems pos.elems p.toNat)[i - pos.elems[p.toNat].toNat]? =
          some coord := by
        rw [getElem?_part hstart hstop, Nat.add_sub_cancel' hge]
        exact ⟨by omega, hcoord⟩
      refine ⟨_, hk, ?_⟩
      rw [(hchild _ coord hk).2]
      omega

theorem getElem?_tree {level : ℕ} {pos crd : Slice UInt64} (hpos : posLevels[level]? = some pos)
    (hcrd : crdLevels[level]? = some crd) :
    (tree posLevels crdLevels)[level]? = some (pos.elems, crd.elems) := by
  have hzip : (posLevels.zip crdLevels)[level]? = some (pos, crd) :=
    List.getElem?_zip_eq_some.mpr ⟨hpos, hcrd⟩
  rw [tree, List.getElem?_map, hzip, Option.map_some]

theorem length_tree (h : posLevels.length = crdLevels.length) :
    (tree posLevels crdLevels).length = crdLevels.length := by
  rw [tree, List.length_map, List.length_zip, h, Nat.min_self]

/-- The levels from `L` on are a valid tree under the nodes above them. -/
theorem LevelsValid.validTree {nnz : UInt64} {shapeDims : List UInt64}
    (h : LevelsValid nnz modeOrder shapeDims posLevels crdLevels) (hrank : 0 < modeOrder.length)
    {m L : ℕ} (hL : L + m = modeOrder.length) :
    ValidTree (parents crdLevels L) ((tree posLevels crdLevels).drop L) nnz.toNat := by
  have htree : (tree posLevels crdLevels).length = modeOrder.length := by
    rw [length_tree (h.pos_length.trans h.crd_length.symm), h.crd_length]
  induction m generalizing L with
  | zero =>
    have hlast := List.getElem?_eq_getElem (show modeOrder.length - 1 < crdLevels.length by
      rw [h.crd_length]
      omega)
    have hparents : parents crdLevels L = nnz.toNat := by
      obtain ⟨k, rfl⟩ : ∃ k, L = k + 1 := ⟨L - 1, by omega⟩
      obtain rfl : k = modeOrder.length - 1 := by omega
      rw [parents, hlast, Option.elim_some]
      exact h.leaves _ hlast
    rw [List.drop_eq_nil_of_le (by omega)]
    exact hparents
  | succ m ih =>
    have hp := List.getElem?_eq_getElem (show L < posLevels.length by rw [h.pos_length]; omega)
    have hc := List.getElem?_eq_getElem (show L < crdLevels.length by rw [h.crd_length]; omega)
    have hlevel := getElem?_tree hp hc
    obtain ⟨hlt, helem⟩ := List.getElem?_eq_some_iff.mp hlevel
    obtain ⟨bound, -, hvalid⟩ := h.level L _ _ _ hp hc (List.getElem?_eq_getElem (by omega))
    have hrest := ih (L := L + 1) (by omega)
    rw [parents, hc, Option.elim_some] at hrest
    rw [List.drop_eq_getElem_cons hlt, helem]
    exact ⟨⟨bound, hvalid⟩, hrest⟩

/-- The descent from level `L` finds the leaf that is visited below `p` with the coordinates that
are left. -/
theorem descend_eq (hpos : posLevels.length = modeOrder.length)
    (hcrd : crdLevels.length = modeOrder.length)
    (hquery : ∀ mode ∈ modeOrder, mode.toNat < query.length) {m L n leaves : ℕ} {p : UInt64}
    (hL : L + m = modeOrder.length)
    (hvalid : ValidTree n ((tree posLevels crdLevels).drop L) leaves) (hp : p.toNat < n) :
    ∃ o, descend query modeOrder posLevels crdLevels (List.range' L m) p = .ok o ∧
      ∀ leaf, o.map UInt64.toNat = some leaf ↔ ((storageOrder modeOrder query).drop L, leaf) ∈
        visit ((tree posLevels crdLevels).drop L) p.toNat := by
  have htree : (tree posLevels crdLevels).length = modeOrder.length := by
    rw [length_tree (hpos.trans hcrd.symm), hcrd]
  have horder : (storageOrder modeOrder query).length = modeOrder.length := List.length_map _
  induction m generalizing L n p with
  | zero =>
    refine ⟨some p, rfl, ?_⟩
    intro leaf
    rw [List.drop_eq_nil_of_le (by omega), List.drop_eq_nil_of_le (by omega), visit,
      List.mem_singleton, Prod.mk.injEq, Option.map_some, Option.some_inj, eq_comm]
    simp
  | succ m ih =>
    have hposL := List.getElem?_eq_getElem (show L < posLevels.length by omega)
    have hcrdL := List.getElem?_eq_getElem (show L < crdLevels.length by omega)
    have hmode := List.getElem?_eq_getElem (show L < modeOrder.length by omega)
    have hmodeL : modeOrder[L].toNat < query.length := hquery _ (List.mem_of_getElem? hmode)
    have hstored : L < (storageOrder modeOrder query).length := by omega
    have hcoord := List.getElem?_eq_getElem hmodeL
    obtain ⟨hlt, helem⟩ := List.getElem?_eq_some_iff.mp (getElem?_tree hposL hcrdL)
    have horderL : (storageOrder modeOrder query)[L] = query[modeOrder[L].toNat] := by
      simp only [storageOrder, List.getElem_map, hcoord, Option.getD_some]
    rw [List.drop_eq_getElem_cons hlt, helem] at hvalid
    obtain ⟨⟨bound, hlevel⟩, hrest⟩ := hvalid
    obtain ⟨o, hstep, ho⟩ := lookupLevel_eq hmode hcoord hposL hcrdL hlevel hp
    rw [List.range'_succ, descend, hstep, Exec.ok_bind, List.drop_eq_getElem_cons hlt, helem,
      List.drop_eq_getElem_cons hstored, horderL]
    simp only [mem_visit_cons]
    cases o with
    | none =>
      refine ⟨none, rfl, ?_⟩
      intro leaf
      constructor
      · intro h
        cases h
      · intro h
        obtain ⟨i, hi, hc, -⟩ := h
        have hfound := (ho i).mpr ⟨hi, hc⟩
        cases hfound
    | some child =>
      obtain ⟨hspan, hc⟩ := (ho child.toNat).mp rfl
      have hchild := (List.getElem?_eq_some_iff.mp hc).1
      obtain ⟨o', hdescend, ho'⟩ := ih (L := L + 1) (by omega) hrest hchild
      refine ⟨o', hdescend, ?_⟩
      intro leaf
      rw [ho']
      constructor
      · intro h
        exact ⟨child.toNat, hspan, hc, h⟩
      · intro h
        obtain ⟨i, hi, hci, hmem⟩ := h
        have hsame := Option.some_inj.mp ((ho i).mpr ⟨hi, hci⟩)
        exact hsame ▸ hmem

end Descent

/-! ### The permutation -/

/-- The mode order names every dimension once. -/
def Permutes (modeOrder : List UInt32) : Prop :=
  (modeOrder.map UInt32.toNat).Perm (List.range modeOrder.length)

instance : DecidablePred Permutes := fun modeOrder =>
  inferInstanceAs (Decidable ((modeOrder.map UInt32.toNat).Perm (List.range modeOrder.length)))

section Permutation
variable {modeOrder : List UInt32} {query coords : List UInt64}

theorem Permutes.lt_length (h : Permutes modeOrder) {mode : UInt32} (hmem : mode ∈ modeOrder) :
    mode.toNat < modeOrder.length :=
  List.mem_range.mp (h.subset (List.mem_map_of_mem hmem))

/-- To place the coordinates at their dimensions is to undo the order of the levels. -/
theorem Permutes.logicalIndex_eq (h : Permutes modeOrder) (hquery : query.length = modeOrder.length)
    (hcoords : coords.length = modeOrder.length) :
    logicalIndex modeOrder coords = query ↔ coords = storageOrder modeOrder query := by
  have hnodup : (modeOrder.map UInt32.toNat).Nodup := h.nodup_iff.mpr List.nodup_range
  constructor
  · intro hindex
    apply List.ext_getElem
    · rw [hcoords, storageOrder, List.length_map]
    intro L hL hL'
    have hlt : L < modeOrder.length := by omega
    have hdim := h.lt_length (List.getElem_mem hlt)
    have hplace : (modeOrder.map UInt32.toNat).idxOf modeOrder[L].toNat = L := by
      have hidx := hnodup.idxOf_getElem L (by rw [List.length_map]; exact hlt)
      rwa [List.getElem_map] at hidx
    simp only [← hindex, storageOrder, logicalIndex, List.getElem_map, List.getElem?_map,
      List.getElem?_range hdim, Option.map_some, Option.getD_some, hplace,
      List.getElem?_eq_getElem hL]
  · intro horder
    apply List.ext_getElem
    · rw [logicalIndex, List.length_map, List.length_range, hquery]
    intro dim hdim hdim'
    have hmem : dim ∈ modeOrder.map UInt32.toNat :=
      h.mem_iff.mpr (List.mem_range.mpr (by omega))
    have hlt := List.idxOf_lt_length_of_mem hmem
    have hmode := List.getElem_idxOf hlt
    rw [List.getElem_map] at hmode
    rw [List.length_map] at hlt
    simp only [logicalIndex, List.getElem_map, List.getElem_range, horder, storageOrder,
      List.getElem?_map, List.getElem?_eq_getElem hlt, Option.map_some, Option.getD_some, hmode,
      List.getElem?_eq_getElem hdim']

end Permutation

section Exact
variable {nnz : UInt64} {modeOrder : List UInt32} {shapeDims : List UInt64}
  {posLevels crdLevels : List (Slice UInt64)}

theorem mem_iteration (hperm : Permutes modeOrder) {query : List UInt64}
    (hquery : query.length = modeOrder.length)
    (htree : (tree posLevels crdLevels).length = modeOrder.length) {leaf : ℕ} :
    (query, leaf) ∈ iteration modeOrder posLevels crdLevels ↔
      (storageOrder modeOrder query, leaf) ∈ visit (tree posLevels crdLevels) 0 := by
  rw [iteration, List.mem_map]
  constructor
  · intro h
    obtain ⟨⟨coords, _⟩, hmem, hsame⟩ := h
    obtain ⟨hindex, rfl⟩ := Prod.mk.inj hsame
    have hcoords := (length_of_mem_visit hmem).trans htree
    rw [← (hperm.logicalIndex_eq hquery hcoords).mp hindex]
    exact hmem
  · intro h
    have hcoords := (length_of_mem_visit h).trans htree
    exact ⟨_, h, Prod.ext ((hperm.logicalIndex_eq hquery hcoords).mpr rfl) rfl⟩

theorem elementOffset_eq (hperm : Permutes modeOrder) (hrank : 0 < modeOrder.length)
    (h : LevelsValid nnz modeOrder shapeDims posLevels crdLevels) {query : List UInt64}
    (hquery : query.length = modeOrder.length) :
    ∃ o, elementOffset query modeOrder posLevels crdLevels = .ok o ∧ ∀ leaf,
      o.map UInt64.toNat = some leaf ↔ (query, leaf) ∈ iteration modeOrder posLevels crdLevels := by
  have htree : (tree posLevels crdLevels).length = modeOrder.length := by
    rw [length_tree (h.pos_length.trans h.crd_length.symm), h.crd_length]
  have hdims : ∀ mode ∈ modeOrder, mode.toNat < query.length := by
    intro mode hmem
    rw [hquery]
    exact hperm.lt_length hmem
  obtain ⟨o, hdescend, ho⟩ := descend_eq h.pos_length h.crd_length hdims (L := 0) (p := 0)
    (Nat.zero_add _) (h.validTree hrank (Nat.zero_add _)) Nat.one_pos
  refine ⟨o, ?_, ?_⟩
  · rw [elementOffset, Exec.reject_of_not (not_not.mpr hquery), Exec.ok_bind, List.range_eq_range']
    exact hdescend
  · intro leaf
    rw [ho, mem_iteration hperm hquery htree]
    rfl

/-- The lookup and the iteration on valid buffers of a rank from 1 on: the lookup returns the
position that the iteration visits under the query, and the iteration visits each position from 0 to
`nnz` once, under different indices. -/
theorem treeLookup_exact (nnz : UInt64) (modeOrder : List UInt32) (shapeDims : List UInt64)
    (posLevels crdLevels : List (Slice UInt64)) (hrank : modeOrder ≠ []) (hperm : Permutes modeOrder)
    (hvalid : validateIndexBuffers nnz modeOrder shapeDims posLevels crdLevels = .ok ()) :
    (∀ query : List UInt64, query.length = modeOrder.length → ∃ o,
      elementOffset query modeOrder posLevels crdLevels = .ok o ∧
        ∀ p, o = some p ↔ (query, p.toNat) ∈ iteration modeOrder posLevels crdLevels) ∧
      (iteration modeOrder posLevels crdLevels).map Prod.snd = List.range nnz.toNat ∧
      ((iteration modeOrder posLevels crdLevels).map Prod.fst).Nodup := by
  have hlevels := validateIndexBuffers_eq_ok.mp hvalid
  have hpos := List.length_pos_iff.mpr hrank
  have hpositions : (iteration modeOrder posLevels crdLevels).map Prod.snd =
      List.range nnz.toNat := by
    rw [← (hlevels.validTree hpos (Nat.zero_add _)).positions, iteration, List.map_map]
    simp [parents, Function.comp_def]
  refine ⟨?_, hpositions, ?_⟩
  · intro query hquery
    obtain ⟨o, hlookup, ho⟩ := elementOffset_eq hperm hpos hlevels hquery
    refine ⟨o, hlookup, ?_⟩
    intro p
    have hinj : Function.Injective UInt64.toNat := fun _ _ h => UInt64.toNat_inj.mp h
    rw [← ho, ← Option.map_some, (Option.map_injective hinj).eq_iff]
  · have hnodup : (iteration modeOrder posLevels crdLevels).Nodup := by
      apply List.Nodup.of_map Prod.snd
      rw [hpositions]
      exact List.nodup_range
    apply hnodup.map_on
    intro a ha b hb hsame
    have hquery : a.1.length = modeOrder.length := by
      obtain ⟨leaf, -, rfl⟩ := List.mem_map.mp ha
      rw [logicalIndex, List.length_map, List.length_range]
    -- Both positions are what the lookup returns under the one index.
    obtain ⟨o, -, ho⟩ := elementOffset_eq hperm hpos hlevels hquery
    have hposition := ((ho a.2).mpr ha).symm.trans ((ho b.2).mpr (hsame ▸ hb))
    exact Prod.ext hsame (Option.some_inj.mp hposition)

theorem treeLookup_exact_small :
    (∃ o, elementOffset [1, 1, 2] [0, 1, 2]
        [⟨[0, 2], by decide⟩, ⟨[0, 2, 3], by decide⟩, ⟨[0, 1, 2, 4], by decide⟩]
        [⟨[0, 1], by decide⟩, ⟨[0, 2, 1], by decide⟩, ⟨[1, 3, 0, 2], by decide⟩] = .ok o ∧
      ∀ p, o = some p ↔ ([1, 1, 2], p.toNat) ∈ iteration [0, 1, 2]
        [⟨[0, 2], by decide⟩, ⟨[0, 2, 3], by decide⟩, ⟨[0, 1, 2, 4], by decide⟩]
        [⟨[0, 1], by decide⟩, ⟨[0, 2, 1], by decide⟩, ⟨[1, 3, 0, 2], by decide⟩]) :=
  (treeLookup_exact 4 [0, 1, 2] [2, 3, 4]
    [⟨[0, 2], by decide⟩, ⟨[0, 2, 3], by decide⟩, ⟨[0, 1, 2, 4], by decide⟩]
    [⟨[0, 1], by decide⟩, ⟨[0, 2, 1], by decide⟩, ⟨[1, 3, 0, 2], by decide⟩]
    (by decide) (by decide) (by decide +kernel)).1 [1, 1, 2] rfl

/-- Of a tree without levels the validation accepts every number of elements, and the lookup finds
one. -/
theorem rank_zero_accepted :
    Permutes [] ∧ validateIndexBuffers 5 [] [] [] [] = .ok () ∧
      elementOffset [] [] [] [] = .ok (some 0) ∧
      (iteration [] [] []).map Prod.snd ≠ List.range 5 := by
  decide +kernel

end Exact

end Hurray.Core.Csf
