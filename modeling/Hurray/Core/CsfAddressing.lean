import Hurray.Core.SparseAddressing

/-!
Compressed sparse fibers: the lookup, which descends through the levels of the tree, and
the validation of its buffers. A level holds pointers from the nodes above it to its own.
-/
namespace Hurray.Core.Csf
open Hurray.Base

section Lookup

/-- One level of the descent: the place of the child of `p` under its coordinate. -/
def lookupLevel (queryCoords : List UInt64) (modeOrder : List UInt32)
    (posLevels crdLevels : List (Slice UInt64)) (p : UInt64) (level : ℕ) :
    Result (Option UInt64) := do
  let mode ← Exec.index modeOrder level
  let dimIdx := mode.toNat
  Exec.reject (dimIdx ≥ queryCoords.length) (.invalidLayout
    s!"csf: mode_order[{level}]={dimIdx} out of range for rank {modeOrder.length}")
  let coord ← Exec.index queryCoords dimIdx
  let pos ← Exec.index posLevels level
  let crd ← Exec.index crdLevels level
  let next ← Exec.inBits 64 (p.toNat + 1)
  Exec.reject (next ≥ pos.elems.length) (.invalidLayout
    s!"csf: pos_{level}[{p}..{next}] out of bounds (pos_{level}.len()={pos.elems.length})")
  let sliceStart ← Exec.index pos.elems p.toNat
  let sliceEnd ← Exec.index pos.elems next
  Exec.reject (sliceStart > sliceEnd) (.invalidLayout (s!"csf: pos_{level}[{p}]={sliceStart} > " ++
    s!"pos_{level}[{next}]={sliceEnd} (not non-decreasing)"))
  Exec.reject (sliceEnd.toNat > crd.elems.length) (.invalidLayout
    s!"csf: pos_{level}[{next}]={sliceEnd} exceeds crd_{level}.len()={crd.elems.length}")
  let siblings ← Exec.slice crd.elems sliceStart.toNat (sliceEnd.toNat - sliceStart.toNat)
  match binarySearch siblings coord with
  | some k => do
      let child ← Exec.orFail (checkedAdd sliceStart (UInt64.ofNat k)) .addressOverflow
      pure (some child)
  | none => pure none

/-- The descent through the levels that are left. -/
def descend (queryCoords : List UInt64) (modeOrder : List UInt32)
    (posLevels crdLevels : List (Slice UInt64)) : List ℕ → UInt64 → Result (Option UInt64)
  | [], p => pure (some p)
  | level :: levels, p => do
      match ← lookupLevel queryCoords modeOrder posLevels crdLevels p level with
      | some child => descend queryCoords modeOrder posLevels crdLevels levels child
      | none => pure none

def elementOffset (queryCoords : List UInt64) (modeOrder : List UInt32)
    (posLevels crdLevels : List (Slice UInt64)) : Result (Option UInt64) := do
  let rank := modeOrder.length
  Exec.reject (queryCoords.length ≠ rank) (.indexRankMismatch queryCoords.length rank)
  descend queryCoords modeOrder posLevels crdLevels (List.range rank) 0

end Lookup

section Validation

/-- The siblings from place `j` on, after the sibling `prev`. -/
def checkSiblings (level start stop : ℕ) (coordBound : UInt64) :
    ℕ → Option UInt64 → List UInt64 → Result Unit
  | _, _, [] => pure ()
  | j, prev, coord :: rest => do
      Exec.reject (coord ≥ coordBound) (.invalidLayout
        s!"csf: crd_{level}[{start + j}]={coord} >= shape[mode_order[{level}]]={coordBound}")
      match prev with
      | some before => Exec.reject (coord ≤ before) (.invalidLayout
          (s!"csf: crd_{level}[{start}..{stop}] is not strictly increasing at index " ++
            s!"{start + j} ({before} >= {coord})"))
      | none => pure ()
      checkSiblings level start stop coordBound (j + 1) (some coord) rest

/-- The children of parent `k`. -/
def checkParent (level : ℕ) (coordBound : UInt64) (pos crd : List UInt64) (k : ℕ) :
    Result Unit := do
  let start ← Exec.index pos k
  let stop ← Exec.index pos (k + 1)
  let count ← Exec.subSize stop.toNat start.toNat
  let siblings ← Exec.slice crd start.toNat count
  checkSiblings level start.toNat stop.toNat coordBound 0 none siblings

/-- One level under `nPrev` parents; the result is the number of its nodes. -/
def validateLevel (nnz : UInt64) (modeOrder : List UInt32) (shapeDims : List UInt64)
    (posLevels crdLevels : List (Slice UInt64)) (nPrev : UInt64) (level : ℕ) : Result UInt64 := do
  let pos ← Exec.index posLevels level
  let crd ← Exec.index crdLevels level
  let pos := pos.elems
  let crd := crd.elems
  let mode ← Exec.index modeOrder level
  let dimIdx := mode.toNat
  let coordBound ← Exec.orFail shapeDims[dimIdx]? (.invalidLayout
    s!"csf: mode_order[{level}]={dimIdx} out of range for shape.len()={shapeDims.length}")
  let expectedPosLen := min (nPrev.toNat + 1) (2 ^ 64 - 1)
  Exec.reject (pos.length ≠ expectedPosLen) (.invalidLayout
    (s!"csf: pos_{level}.len()={pos.length} != n_\x7bL-1\x7d+1={expectedPosLen} " ++
      s!"(n_\x7bL-1\x7d={nPrev})"))
  let first ← Exec.index pos 0
  Exec.reject (first ≠ 0) (.invalidLayout s!"csf: pos_{level}[0]={first} must be 0")
  let pairs ← Exec.subSize pos.length 1
  (List.range pairs).forM (checkRising (fun k a b =>
    s!"csf: pos_{level}[{k}]={a} > pos_{level}[{k + 1}]={b} (not non-decreasing)") pos)
  let nL ← Exec.index pos nPrev.toNat
  let leafLevel ← Exec.subSize modeOrder.length 1
  Exec.reject (level = leafLevel ∧ nL ≠ nnz) (.invalidLayout
    s!"csf: pos_{level}[n_\x7brank-1\x7d]={nL} must equal nnz={nnz}")
  Exec.reject (UInt64.ofNat crd.length ≠ nL) (.invalidLayout
    s!"csf: crd_{level}.len()={crd.length} != n_{level}={nL}")
  (List.range nPrev.toNat).forM (checkParent level coordBound pos crd)
  pure nL

def validateIndexBuffers (nnz : UInt64) (modeOrder : List UInt32) (shapeDims : List UInt64)
    (posLevels crdLevels : List (Slice UInt64)) : Result Unit := do
  let rank := modeOrder.length
  Exec.reject (posLevels.length ≠ rank) (.invalidLayout
    s!"csf: pos_levels.len()={posLevels.length} != rank={rank}")
  Exec.reject (crdLevels.length ≠ rank) (.invalidLayout
    s!"csf: crd_levels.len()={crdLevels.length} != rank={rank}")
  let _ ← (List.range rank).foldlM
    (validateLevel nnz modeOrder shapeDims posLevels crdLevels) 1
  pure ()

end Validation

/-! ### The documented invariants -/

/-- The nodes above a level: the virtual root, or the nodes of the level before. -/
def parents (crdLevels : List (Slice UInt64)) : ℕ → ℕ
  | 0 => 1
  | level + 1 => (crdLevels[level]?).elim 0 fun crd => crd.elems.length

/-- What is documented of one level with `n` parents: the pointers of all the parents, from zero to
the number of nodes, over siblings that increase, with coordinates in bounds. -/
structure LevelValid (n : ℕ) (bound : UInt64) (pos crd : List UInt64) : Prop
    extends Compressed crd pos where
  length_eq : pos.length = n + 1
  inBounds : ∀ c ∈ crd, c < bound

/-- The invariants of every level, and the number of nodes of the last one. -/
structure LevelsValid (nnz : UInt64) (modeOrder : List UInt32) (shapeDims : List UInt64)
    (posLevels crdLevels : List (Slice UInt64)) : Prop where
  pos_length : posLevels.length = modeOrder.length
  crd_length : crdLevels.length = modeOrder.length
  level : ∀ L pos crd mode, posLevels[L]? = some pos → crdLevels[L]? = some crd →
    modeOrder[L]? = some mode → ∃ bound, shapeDims[mode.toNat]? = some bound ∧
      LevelValid (parents crdLevels L) bound pos.elems crd.elems
  leaves : ∀ crd, crdLevels[modeOrder.length - 1]? = some crd → crd.elems.length = nnz.toNat

/-- The rules for the empty tensor. -/
structure EmptyTree (posLevels crdLevels : List (Slice UInt64)) : Prop where
  root : ∃ pos, posLevels[0]? = some pos ∧ pos.elems = [0, 0]
  coordinates : ∀ crd ∈ crdLevels, crd.elems = []
  pointers : ∀ L pos, posLevels[L + 1]? = some pos → pos.elems = [0]

section ValidationSpec
variable {level start stop j : ℕ} {bound : UInt64} {pos crd : List UInt64} {k : ℕ} {u : Unit}
  {nnz : UInt64} {modeOrder : List UInt32} {shapeDims : List UInt64}
  {posLevels crdLevels : List (Slice UInt64)}

theorem checkSiblings_eq_ok {prev : Option UInt64} {rest : List UInt64} :
    checkSiblings level start stop bound j prev rest = .ok u ↔
      (∀ c ∈ rest, c < bound) ∧ (prev.toList ++ rest).IsChain (· < ·) := by
  induction rest generalizing j prev with
  | nil => cases prev <;> simp [checkSiblings, pure, Except.pure]
  | cons coord rest ih =>
    cases prev with
    | none =>
      simp only [checkSiblings, Exec.bind_eq_ok, Exec.reject_eq_ok, exists_const, ih,
        List.forall_mem_cons, Option.toList_none, Option.toList_some, List.nil_append,
        List.singleton_append, ge_iff_le, UInt64.not_le, and_assoc]
    | some before =>
      simp only [checkSiblings, Exec.bind_eq_ok, Exec.reject_eq_ok, exists_const, ih,
        List.forall_mem_cons, Option.toList_some, List.singleton_append, ge_iff_le,
        UInt64.not_le, List.isChain_cons_cons]
      tauto

theorem checkParent_eq_ok : checkParent level bound pos crd k = .ok u ↔
    ∃ start stop, pos[k]? = some start ∧ pos[k + 1]? = some stop ∧
      start.toNat ≤ stop.toNat ∧ stop.toNat ≤ crd.length ∧
      (∀ c ∈ part crd pos k, c < bound) ∧ (part crd pos k).Pairwise (· < ·) := by
  simp only [checkParent, Exec.bind_eq_ok, Exec.index_eq_ok, checkSiblings_eq_ok, Option.toList_none,
    List.nil_append, List.isChain_iff_pairwise, Exec.slice_eq_ok, Exec.subSize_eq_ok]
  constructor
  · intro h
    obtain ⟨start, hstart, stop, hstop, _, ⟨hle, rfl⟩, _, ⟨hwithin, rfl⟩, h⟩ := h
    rw [part_eq hstart hstop]
    exact ⟨start, stop, hstart, hstop, hle, by omega, h⟩
  · intro h
    obtain ⟨start, stop, hstart, hstop, hle, hwithin, h⟩ := h
    rw [part_eq hstart hstop] at h
    exact ⟨start, hstart, stop, hstop, _, ⟨hle, rfl⟩, _, ⟨by omega, rfl⟩, h⟩

/-- Every coordinate is that of a child, so the loop over the parents sees them all. -/
theorem inBounds_iff (h : Pointers crd pos) :
    (∀ c ∈ crd, c < bound) ↔ ∀ k < pos.length - 1, ∀ c ∈ part crd pos k, c < bound := by
  constructor
  · intro hall k hk c hc
    have hstart := List.getElem?_eq_getElem (show k < pos.length by omega)
    have hstop := List.getElem?_eq_getElem (show k + 1 < pos.length by omega)
    rw [part_eq hstart hstop] at hc
    exact hall c (List.mem_of_mem_drop (List.mem_of_mem_take hc))
  · intro hall c hc
    obtain ⟨j, hj, rfl⟩ := List.getElem_of_mem hc
    have hmem : j ∈ (List.range (pos.length - 1)).flatMap (span pos) := by
      rw [h.spans]
      exact List.mem_range.mpr hj
    obtain ⟨k, hk, hspan⟩ := List.mem_flatMap.mp hmem
    have hk := List.mem_range.mp hk
    have hstart := List.getElem?_eq_getElem (show k < pos.length by omega)
    have hstop := List.getElem?_eq_getElem (show k + 1 < pos.length by omega)
    rw [span_eq hstart hstop, List.mem_range'_1] at hspan
    apply hall k hk
    apply List.mem_of_getElem? (i := j - pos[k].toNat)
    rw [getElem?_part hstart hstop, Nat.add_sub_cancel' hspan.1]
    exact ⟨by omega, List.getElem?_eq_getElem hj⟩

/-- A level passes just when it keeps its invariants; what is returned is its number of nodes. -/
theorem validateLevel_eq_ok {nPrev n : UInt64} :
    validateLevel nnz modeOrder shapeDims posLevels crdLevels nPrev level = .ok n ↔
      ∃ pos crd mode bound, posLevels[level]? = some pos ∧ crdLevels[level]? = some crd ∧
        modeOrder[level]? = some mode ∧ shapeDims[mode.toNat]? = some bound ∧
        LevelValid nPrev.toNat bound pos.elems crd.elems ∧ n.toNat = crd.elems.length ∧
        (level = modeOrder.length - 1 → n = nnz) := by
  simp only [validateLevel, Exec.bind_eq_ok, Exec.index_eq_ok, Exec.orFail_eq_ok,
    Exec.reject_eq_ok, not_not, Exec.subSize_eq_ok, exists_const]
  constructor
  · intro h
    obtain ⟨pos, hpos, crd, hcrd, mode, hmode, bound, hbound, hlen, _, hfirst, rfl, _,
      ⟨-, rfl⟩, _, hrising, nL, hlast, _, ⟨-, rfl⟩, hleaf, hcount, _, hparents, hn⟩ := h
    cases hn
    have hposlt := pos.length_lt
    have hcrdlt := crd.length_lt
    have hlen : pos.elems.length = nPrev.toNat + 1 := by omega
    have hnodes : n.toNat = crd.elems.length := by
      rw [← hcount]
      exact UInt64.toNat_ofNat_of_lt' (by show crd.elems.length < 2 ^ 64; omega)
    have hpointers : Pointers crd.elems pos.elems := by
      refine ⟨hfirst, forM_checkRising_eq_ok.mp hrising, ?_⟩
      intro last h
      rw [hlen, Nat.add_sub_cancel, hlast] at h
      exact Option.some_inj.mp h ▸ hnodes
    have hparts : ∀ k < pos.elems.length - 1, (∀ c ∈ part crd.elems pos.elems k, c < bound) ∧
        (part crd.elems pos.elems k).Pairwise (· < ·) := by
      intro k hk
      have hk : k < nPrev.toNat := by omega
      obtain ⟨start, stop, -, -, -, -, h⟩ :=
        checkParent_eq_ok.mp (Exec.forM_eq_ok.mp hparents k (List.mem_range.mpr hk))
      exact h
    refine ⟨pos, crd, mode, bound, hpos, hcrd, hmode, hbound, ?_, hnodes, ?_⟩
    · exact ⟨⟨hpointers, fun k hk => (hparts k hk).2⟩, hlen,
        (inBounds_iff hpointers).mpr fun k hk => (hparts k hk).1⟩
    · intro hlevel
      by_contra hne
      exact hleaf ⟨hlevel, hne⟩
  · intro h
    obtain ⟨pos, crd, mode, bound, hpos, hcrd, hmode, hbound, hvalid, hn, hleaf⟩ := h
    have hposlt := pos.length_lt
    have hlen := hvalid.length_eq
    have hlast : pos.elems[nPrev.toNat]? = some n := by
      rw [List.getElem?_eq_getElem (by omega)]
      have hends := hvalid.ends _ (List.getElem?_eq_getElem (by omega))
      simp only [hlen, Nat.add_sub_cancel] at hends
      rw [UInt64.toNat_inj.mp (hends.trans hn.symm)]
    have hcount : UInt64.ofNat crd.elems.length = n := by
      rw [← hn]
      exact UInt64.ofNat_toNat
    have hrank := (List.getElem?_eq_some_iff.mp hmode).1
    refine ⟨pos, hpos, crd, hcrd, mode, hmode, bound, hbound, by omega, 0, hvalid.starts, rfl, _,
      ⟨by omega, rfl⟩, (), forM_checkRising_eq_ok.mpr hvalid.monotone, n, hlast, _,
      ⟨by omega, rfl⟩, ?_, hcount, (), ?_, rfl⟩
    · intro h
      exact h.2 (hleaf h.1)
    · apply Exec.forM_eq_ok.mpr
      intro k hk
      have hk : k < pos.elems.length - 1 := by
        have hrange := List.mem_range.mp hk
        omega
      have hstart := List.getElem?_eq_getElem (show k < pos.elems.length by omega)
      have hstop := List.getElem?_eq_getElem (show k + 1 < pos.elems.length by omega)
      exact checkParent_eq_ok.mpr ⟨_, _, hstart, hstop,
        hvalid.getElem?_le hstart hstop (Nat.le_succ k), hvalid.le_length hstop,
        (inBounds_iff hvalid.toPointers).mp hvalid.inBounds k hk, hvalid.increasing k hk⟩

theorem parents_lt (crdLevels : List (Slice UInt64)) (L : ℕ) : parents crdLevels L < 2 ^ 64 := by
  cases L with
  | zero => exact Nat.one_lt_two_pow (by decide)
  | succ L =>
    rw [parents]
    cases crdLevels[L]? with
    | none => decide
    | some crd =>
      have hlt := crd.length_lt
      show crd.elems.length < 2 ^ 64
      omega

/-- The validation passes just when every level keeps its invariants under the nodes of the one
before. -/
theorem validateIndexBuffers_eq_ok :
    validateIndexBuffers nnz modeOrder shapeDims posLevels crdLevels = .ok u ↔
      LevelsValid nnz modeOrder shapeDims posLevels crdLevels := by
  simp only [validateIndexBuffers, Exec.bind_eq_ok, Exec.reject_eq_ok, not_not, exists_const,
    Exec.foldlM_range_eq_ok]
  constructor
  · intro h
    obtain ⟨hpos, hcrd, n, ⟨s, hroot, -, hsteps⟩, -⟩ := h
    -- The state before a level is the number of nodes above it.
    have hnodes : ∀ L ≤ modeOrder.length, (s L).toNat = parents crdLevels L := by
      intro L hL
      cases L with
      | zero =>
        rw [hroot]
        rfl
      | succ L =>
        obtain ⟨_, crd, _, _, -, hcrd, -, -, -, hn, -⟩ := validateLevel_eq_ok.mp (hsteps L hL)
        rw [hn, parents, hcrd, Option.elim_some]
    refine ⟨hpos, hcrd, ?_, ?_⟩
    · intro L pos crd mode hp hc hm
      have hL := (List.getElem?_eq_some_iff.mp hm).1
      obtain ⟨pos', crd', mode', bound, hp', hc', hm', hbound, hvalid, -, -⟩ :=
        validateLevel_eq_ok.mp (hsteps L hL)
      obtain rfl := Option.some_inj.mp (hp.symm.trans hp')
      obtain rfl := Option.some_inj.mp (hc.symm.trans hc')
      obtain rfl := Option.some_inj.mp (hm.symm.trans hm')
      rw [hnodes L hL.le] at hvalid
      exact ⟨bound, hbound, hvalid⟩
    · intro crd hc
      have hL := (List.getElem?_eq_some_iff.mp hc).1
      obtain ⟨_, crd', _, _, -, hc', -, -, -, hn, hleaf⟩ :=
        validateLevel_eq_ok.mp (hsteps (modeOrder.length - 1) (by omega))
      obtain rfl := Option.some_inj.mp (hc.symm.trans hc')
      rw [← hn, hleaf rfl]
  · intro h
    refine ⟨h.pos_length, h.crd_length, _,
      ⟨fun L => UInt64.ofNat (parents crdLevels L), rfl, rfl, ?_⟩, rfl⟩
    intro L hL
    have hpos : L < posLevels.length := by rw [h.pos_length]; exact hL
    have hcrd : L < crdLevels.length := by rw [h.crd_length]; exact hL
    have hp := List.getElem?_eq_getElem hpos
    have hc := List.getElem?_eq_getElem hcrd
    have hm := List.getElem?_eq_getElem hL
    obtain ⟨bound, hbound, hvalid⟩ := h.level L _ _ _ hp hc hm
    have hcount : parents crdLevels (L + 1) = crdLevels[L].elems.length := by
      rw [parents, hc, Option.elim_some]
    apply validateLevel_eq_ok.mpr
    refine ⟨_, _, _, bound, hp, hc, hm, hbound, ?_, ?_, ?_⟩
    · rw [UInt64.toNat_ofNat_of_lt' (parents_lt crdLevels L)]
      exact hvalid
    · rw [UInt64.toNat_ofNat_of_lt' (parents_lt crdLevels (L + 1)), hcount]
    · intro hleaf
      dsimp only
      rw [hcount, h.leaves _ (hleaf ▸ hc)]
      exact UInt64.ofNat_toNat

/-- Where there is a level, the nodes of the last one are the leaves. -/
theorem LevelsValid.parents_eq (h : LevelsValid nnz modeOrder shapeDims posLevels crdLevels)
    (hne : modeOrder ≠ []) : parents crdLevels modeOrder.length = nnz.toNat := by
  obtain ⟨n, hn⟩ := Nat.exists_eq_succ_of_ne_zero (mt List.length_eq_zero_iff.mp hne)
  have hlt : n < crdLevels.length := by
    rw [h.crd_length, hn]
    exact Nat.lt_succ_self n
  have hc := List.getElem?_eq_getElem hlt
  have hleaves := h.leaves crdLevels[n] (by simp [hn, hlt])
  rw [hn, parents, hc, Option.elim_some, hleaves]

/-- Without a node, the invariants of the levels are the rules for the empty tensor. -/
theorem LevelsValid.emptyTree (h : LevelsValid nnz modeOrder shapeDims posLevels crdLevels)
    (hne : modeOrder ≠ []) (hempty : ∀ crd ∈ crdLevels, crd.elems = []) :
    EmptyTree posLevels crdLevels := by
  have hlevel : ∀ L pos, posLevels[L]? = some pos →
      pos.elems = List.replicate (parents crdLevels L + 1) 0 := by
    intro L pos hp
    have hL : L < modeOrder.length := by
      rw [← h.pos_length]
      exact (List.getElem?_eq_some_iff.mp hp).1
    have hc := List.getElem?_eq_getElem (show L < crdLevels.length by rw [h.crd_length]; exact hL)
    obtain ⟨bound, -, hvalid⟩ := h.level L _ _ _ hp hc (List.getElem?_eq_getElem hL)
    rw [hempty _ (List.mem_of_getElem? hc)] at hvalid
    -- No pointer is past the end, which is zero.
    apply List.eq_replicate_iff.mpr
    refine ⟨hvalid.length_eq, ?_⟩
    intro p hmem
    obtain ⟨k, hk⟩ := List.getElem?_of_mem hmem
    exact UInt64.toNat_inj.mp (Nat.le_zero.mp (hvalid.le_length hk))
  have hroot : 0 < posLevels.length := by
    rw [h.pos_length]
    exact List.length_pos_of_ne_nil hne
  have hp := List.getElem?_eq_getElem hroot
  refine ⟨⟨_, hp, hlevel 0 _ hp⟩, hempty, ?_⟩
  intro L pos hp
  have hnone : parents crdLevels (L + 1) = 0 := by
    rw [parents]
    cases hc : crdLevels[L]? with
    | none => rfl
    | some crd =>
      show crd.elems.length = 0
      rw [hempty crd (List.mem_of_getElem? hc)]
      rfl
  rw [hlevel (L + 1) pos hp, hnone]
  rfl

end ValidationSpec

/-- The documented invariants: those of the levels, a leaf for every non-zero, and the rules for
the empty tensor. The leaf of a tree without levels is the virtual root. -/
structure Documented (nnz : UInt64) (modeOrder : List UInt32) (shapeDims : List UInt64)
    (posLevels crdLevels : List (Slice UInt64)) : Prop where
  levels : LevelsValid nnz modeOrder shapeDims posLevels crdLevels
  leaves : parents crdLevels modeOrder.length = nnz.toNat
  empty : nnz = 0 → EmptyTree posLevels crdLevels

/-- The validation is the documentation, except where the levels are valid one by one and either
there is none of them, under another number of non-zeros than one, or they have nodes but no leaf. -/
theorem accepts_documented_iff (nnz : UInt64) (modeOrder : List UInt32) (shapeDims : List UInt64)
    (posLevels crdLevels : List (Slice UInt64)) :
    (validateIndexBuffers nnz modeOrder shapeDims posLevels crdLevels = .ok () ↔
        Documented nnz modeOrder shapeDims posLevels crdLevels) ↔
      ¬ (LevelsValid nnz modeOrder shapeDims posLevels crdLevels ∧
        (modeOrder = [] ∧ nnz ≠ 1 ∨ nnz = 0 ∧ ∃ crd ∈ crdLevels, crd.elems ≠ [])) := by
  rw [validateIndexBuffers_eq_ok]
  constructor
  · intro h hbroken
    obtain ⟨hvalid, ⟨rfl, hone⟩ | ⟨hzero, crd, hmem, hne⟩⟩ := hbroken
    · exact hone (UInt64.toNat_inj.mp (h.mp hvalid).leaves.symm)
    · exact hne (((h.mp hvalid).empty hzero).coordinates crd hmem)
  · intro h
    refine ⟨?_, Documented.levels⟩
    intro hvalid
    by_cases hnil : modeOrder = []
    · have hone : nnz = 1 := by
        by_contra hne
        exact h ⟨hvalid, Or.inl ⟨hnil, hne⟩⟩
      rw [hnil, hone]
      exact ⟨hnil ▸ hone ▸ hvalid, rfl, fun hzero => absurd hzero (by decide)⟩
    · refine ⟨hvalid, hvalid.parents_eq hnil, ?_⟩
      intro hzero
      apply hvalid.emptyTree hnil
      intro crd hmem
      by_contra hne
      exact h ⟨hvalid, Or.inr ⟨hzero, crd, hmem, hne⟩⟩

/-- One node at the root level that has no children, in a tensor without elements, and five
non-zeros without a level. -/
theorem childless_node_accepted :
    (validateIndexBuffers 0 [0, 1, 2] [2, 3, 4]
        [⟨[0, 1], by decide⟩, ⟨[0, 0], by decide⟩, ⟨[0], by decide⟩]
        [⟨[0], by decide⟩, ⟨[], by decide⟩, ⟨[], by decide⟩] = .ok () ∧
      ¬ Documented 0 [0, 1, 2] [2, 3, 4]
        [⟨[0, 1], by decide⟩, ⟨[0, 0], by decide⟩, ⟨[0], by decide⟩]
        [⟨[0], by decide⟩, ⟨[], by decide⟩, ⟨[], by decide⟩]) ∧
      validateIndexBuffers 5 [] [] [] [] = .ok () ∧ ¬ Documented 5 [] [] [] [] := by
  refine ⟨⟨by decide +kernel, ?_⟩, by decide, ?_⟩
  · intro h
    have hempty := (h.empty rfl).coordinates ⟨[0], by decide⟩ List.mem_cons_self
    cases hempty
  · intro h
    exact absurd h.leaves (by decide)

end Hurray.Core.Csf
