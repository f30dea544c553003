import Hurray.Core.BlockPagedAddressing
import Hurray.Core.CsfAddressing

/-!
The lookups on index buffers that nothing has checked. The coordinate list and the
compressed matrices never stop the program; the paged lookup does where a page has no
slots, and the tree lookup where the descent gets to a level that was not passed.
-/
namespace Hurray.Core
open Hurray.Base

/-- The query of a matrix is refused before a coordinate is read that it does not have. -/
theorem matrixQuery_safe {query : List UInt64} {e : Error} {f : UInt64 → UInt64 → Result α}
    (h : ∀ row col, (f row col).Safe) :
    (do Exec.reject (query.length ≠ 2) e
        let row ← Exec.index query 0
        let col ← Exec.index query 1
        f row col : Result α).Safe := by
  apply Exec.safe_bind Exec.reject_ne_panic
  intro _ hlen
  have hlen : query.length = 2 := not_not.mp (Exec.reject_eq_ok.mp hlen)
  apply Exec.safe_bind (Exec.safe_index (by omega))
  intro row _
  apply Exec.safe_bind (Exec.safe_index (by omega))
  intro col _
  exact h row col

theorem Csr.elementOffset_safe (query : List UInt64) (colIndices rowPtr : Slice UInt64) :
    (Csr.elementOffset query colIndices rowPtr).Safe :=
  matrixQuery_safe fun _ _ => compressedOffset_safe _ _ _ _ _ _

theorem Csc.elementOffset_safe (query : List UInt64) (rowIndices colPtr : Slice UInt64) :
    (Csc.elementOffset query rowIndices colPtr).Safe :=
  matrixQuery_safe fun _ _ => compressedOffset_safe _ _ _ _ _ _

/-! ### Pages -/

namespace BlockPaged

/-- The sequence, head and dimension are in range, and the pointers of the sequence do not fall. -/
def Resolvable (s h d numHeads headDim : UInt64) (seqPtr : List UInt64) : Prop :=
  h < numHeads ∧ d < headDim ∧ ∃ start stop,
    seqPtr[s.toNat]? = some start ∧ seqPtr[s.toNat + 1]? = some stop ∧ start ≤ stop

section Safety
variable {s t h d : UInt64} {pageSize : UInt32} {numPages numHeads headDim : UInt64}
  {blockTable seqPtr : Slice UInt64}

theorem lt_numSeqs_iff :
    ¬ s ≥ UInt64.ofNat (seqPtr.elems.length - 1) ↔ s.toNat + 1 < seqPtr.elems.length := by
  have hlt := seqPtr.length_lt
  rw [ge_iff_le, UInt64.le_iff_toNat_le, UInt64.toNat_ofNat_of_lt' (by show _ < 2 ^ 64; omega)]
  omega

/-- Only the division by the size of a page can stop the program. -/
theorem elementOffsetU64_safe
    (hpage : pageSize = 0 → ¬ Resolvable s h d numHeads headDim seqPtr.elems) :
    (elementOffsetU64 s t h d pageSize numPages numHeads headDim blockTable seqPtr).Safe := by
  have hlt := seqPtr.length_lt
  apply Exec.safe_bind Exec.reject_ne_panic
  intro _ hs
  have hs := lt_numSeqs_iff.mp (Exec.reject_eq_ok.mp hs)
  apply Exec.safe_bind Exec.reject_ne_panic
  intro _ hh
  apply Exec.safe_bind Exec.reject_ne_panic
  intro _ hd
  apply Exec.safe_bind (Exec.safe_index (by omega))
  intro start hstart
  rw [Exec.inBits, if_pos (by omega), Exec.ok_bind]
  apply Exec.safe_bind (Exec.safe_index hs)
  intro stop hstop
  apply Exec.safe_bind Exec.orFail_ne_panic
  intro count hcount
  have hne : pageSize.toUInt64 ≠ 0 := by
    intro hzero
    have hzero : pageSize = 0 := by
      rw [← UInt32.toNat_inj, ← toNat_pageSize, hzero]
      rfl
    have hle : start ≤ stop := by
      by_contra hgt
      rw [Exec.orFail_eq_ok, checkedSub, id, id, if_neg hgt] at hcount
      cases hcount
    exact hpage hzero ⟨UInt64.not_le.mp (Exec.reject_eq_ok.mp hh),
      UInt64.not_le.mp (Exec.reject_eq_ok.mp hd), start, stop, Exec.index_eq_ok.mp hstart,
      Exec.index_eq_ok.mp hstop, hle⟩
  rw [Exec.div, if_neg hne, Exec.ok_bind, Exec.rem, if_neg hne, Exec.ok_bind]
  apply Exec.safe_bind Exec.reject_ne_panic
  intro _ _
  apply Exec.safe_bind Exec.orFail_ne_panic
  intro place _
  apply Exec.safe_bind Exec.reject_ne_panic
  intro _ hplace
  apply Exec.safe_bind (Exec.safe_index (Nat.not_le.mp (Exec.reject_eq_ok.mp hplace)))
  intro page _
  exact Exec.safe_bind Exec.reject_ne_panic fun _ _ => Exec.orFail_ne_panic

theorem elementOffsetU64_panics (h' : Resolvable s h d numHeads headDim seqPtr.elems) :
    elementOffsetU64 s t h d 0 numPages numHeads headDim blockTable seqPtr = Exec.panic := by
  obtain ⟨hh, hd, start, stop, hstart, hstop, hle⟩ := h'
  have hlt := seqPtr.length_lt
  have hs := (List.getElem?_eq_some_iff.mp hstop).1
  simp only [elementOffsetU64, elementOffsetImpl, Exec.reject_of_not (lt_numSeqs_iff.mpr hs),
    Exec.ok_bind, Exec.reject_of_not (show ¬ h ≥ numHeads from UInt64.not_le.mpr hh),
    Exec.reject_of_not (show ¬ d ≥ headDim from UInt64.not_le.mpr hd),
    Exec.index_eq_ok.mpr hstart, Exec.inBits, if_pos (show s.toNat + 1 < 2 ^ 64 by omega),
    Exec.index_eq_ok.mpr hstop, id, checkedSub, if_pos hle, Exec.orFail_some, Exec.div,
    if_pos (show UInt32.toUInt64 0 = 0 from rfl), Exec.panic_bind]

theorem elementOffsetU64_safe_iff :
    (elementOffsetU64 s t h d pageSize numPages numHeads headDim blockTable seqPtr).Safe ↔
      (pageSize = 0 → ¬ Resolvable s h d numHeads headDim seqPtr.elems) := by
  constructor
  · intro hsafe hzero hresolvable
    subst hzero
    exact hsafe (elementOffsetU64_panics hresolvable)
  · exact elementOffsetU64_safe

end Safety
end BlockPaged

/-! ### Trees -/

namespace Csf
variable {queryCoords : List UInt64} {modeOrder : List UInt32}
  {posLevels crdLevels : List (Slice UInt64)} {L : ℕ} {p child : UInt64}

/-- The search of the siblings below `p` at level `L` finds `child`. -/
def Child (queryCoords : List UInt64) (modeOrder : List UInt32)
    (posLevels crdLevels : List (Slice UInt64)) (L : ℕ) (p child : UInt64) : Prop :=
  ∃ mode coord pos crd start stop k, modeOrder[L]? = some mode ∧
    queryCoords[mode.toNat]? = some coord ∧ posLevels[L]? = some pos ∧ crdLevels[L]? = some crd ∧
    pos.elems[p.toNat]? = some start ∧ pos.elems[p.toNat + 1]? = some stop ∧
    start.toNat ≤ stop.toNat ∧ stop.toNat ≤ crd.elems.length ∧
    binarySearch (part crd.elems pos.elems p.toNat) coord = some k ∧ child.toNat = start.toNat + k

/-- The levels that the descent gets to, each with the node above it. -/
inductive Arrives (queryCoords : List UInt64) (modeOrder : List UInt32)
    (posLevels crdLevels : List (Slice UInt64)) : ℕ → UInt64 → Prop
  | root : Arrives queryCoords modeOrder posLevels crdLevels 0 0
  | child {L : ℕ} {p child : UInt64} (above : Arrives queryCoords modeOrder posLevels crdLevels L p)
      (found : Child queryCoords modeOrder posLevels crdLevels L p child) :
      Arrives queryCoords modeOrder posLevels crdLevels (L + 1) child

/-- A child is a place among the coordinates of its level. -/
theorem Child.lt (h : Child queryCoords modeOrder posLevels crdLevels L p child) :
    child.toNat < 2 ^ 63 := by
  obtain ⟨_, _, _, crd, start, stop, k, -, -, -, -, hstart, hstop, -, hwithin, hfound, hchild⟩ := h
  have hlt := crd.length_lt
  have hk := ((getElem?_part hstart hstop).mp (binarySearch_sound hfound)).1
  omega

theorem Arrives.lt (h : Arrives queryCoords modeOrder posLevels crdLevels L p) :
    p.toNat < 2 ^ 63 := by
  cases h with
  | root => decide
  | child _ found => exact found.lt

theorem lookupLevel_eq_some :
    lookupLevel queryCoords modeOrder posLevels crdLevels p L = .ok (some child) ↔
      Child queryCoords modeOrder posLevels crdLevels L p child := by
  simp only [lookupLevel, Exec.bind_eq_ok, Exec.index_eq_ok, Exec.reject_eq_ok, exists_const,
    Exec.inBits, Exec.slice_eq_ok]
  constructor
  · intro h
    obtain ⟨mode, hmode, -, coord, hcoord, pos, hpos, crd, hcrd, next, hnext, hin, start, hstart,
      stop, hstop, hle, hwithin, siblings, ⟨-, rfl⟩, hmatch⟩ := h
    split at hnext
    · cases hnext
      rw [← part_eq hstart hstop] at hmatch
      have hle := UInt64.le_iff_toNat_le.mp (UInt64.not_lt.mp hle)
      have hlt := crd.length_lt
      split at hmatch
      · next k hfound =>
        obtain ⟨c, hc, hsome⟩ := Exec.bind_eq_ok.mp hmatch
        cases hsome
        obtain ⟨hfits, rfl⟩ := checkedAdd_eq_some.mp (Exec.orFail_eq_ok.mp hc)
        have hk := ((getElem?_part hstart hstop).mp (binarySearch_sound hfound)).1
        refine ⟨mode, coord, pos, crd, start, stop, k, hmode, hcoord, hpos, hcrd, hstart, hstop,
          hle, by omega, hfound, ?_⟩
        rw [toNat_add_of_lt hfits, UInt64.toNat_ofNat_of_lt' (by show k < 2 ^ 64; omega)]
      · cases hmatch
    · cases hnext
  · intro h
    obtain ⟨mode, coord, pos, crd, start, stop, k, hmode, hcoord, hpos, hcrd, hstart, hstop, hle,
      hwithin, hfound, hchild⟩ := h
    have hnext := (List.getElem?_eq_some_iff.mp hstop).1
    have hdim := (List.getElem?_eq_some_iff.mp hcoord).1
    have hposlt := pos.length_lt
    have hcrdlt := crd.length_lt
    have hk := ((getElem?_part hstart hstop).mp (binarySearch_sound hfound)).1
    refine ⟨mode, hmode, by omega, coord, hcoord, pos, hpos, crd, hcrd, p.toNat + 1,
      if_pos (by omega), by omega, start, hstart, stop, hstop,
      by rw [gt_iff_lt, UInt64.lt_iff_toNat_lt]; omega, by omega, _, ⟨by omega, rfl⟩, ?_⟩
    have hword : (UInt64.ofNat k).toNat = k := UInt64.toNat_ofNat_of_lt' (by show k < 2 ^ 64; omega)
    have hfits : start.toNat + (UInt64.ofNat k).toNat < UInt64.size := by
      rw [hword]
      show _ < 2 ^ 64
      omega
    have hsum : start + UInt64.ofNat k = child := by
      rw [← UInt64.toNat_inj, toNat_add_of_lt hfits, hword, hchild]
    rw [← part_eq hstart hstop, hfound]
    simp only [checkedAdd, if_pos hfits, hsum, Exec.orFail_some, Exec.ok_bind]
    rfl

/-- A level of the descent stops the program just when its buffers were not passed. -/
theorem lookupLevel_eq_panic {mode : UInt32} (hmode : modeOrder[L]? = some mode)
    (hp : p.toNat < 2 ^ 63) :
    lookupLevel queryCoords modeOrder posLevels crdLevels p L = Exec.panic ↔
      mode.toNat < queryCoords.length ∧ (posLevels.length ≤ L ∨ crdLevels.length ≤ L) := by
  rw [lookupLevel, Exec.index_eq_ok.mpr hmode, Exec.ok_bind]
  by_cases hdim : mode.toNat < queryCoords.length
  · simp only [Exec.reject_of_not (show ¬ mode.toNat ≥ queryCoords.length by omega), Exec.ok_bind,
      Exec.index_eq_ok.mpr (List.getElem?_eq_getElem hdim), hdim, true_and]
    by_cases hpos : L < posLevels.length
    · rw [Exec.index_eq_ok.mpr (List.getElem?_eq_getElem hpos), Exec.ok_bind]
      by_cases hcrd : L < crdLevels.length
      · rw [Exec.index_eq_ok.mpr (List.getElem?_eq_getElem hcrd), Exec.ok_bind, Exec.inBits,
          if_pos (by omega), Exec.ok_bind]
        apply iff_of_false _ (by omega)
        apply Exec.safe_bind Exec.reject_ne_panic
        intro _ hin
        have hin := Nat.not_le.mp (Exec.reject_eq_ok.mp hin)
        apply Exec.safe_bind (Exec.safe_index (by omega))
        intro start _
        apply Exec.safe_bind (Exec.safe_index hin)
        intro stop _
        apply Exec.safe_bind Exec.reject_ne_panic
        intro _ hle
        have hle := UInt64.le_iff_toNat_le.mp (UInt64.not_lt.mp (Exec.reject_eq_ok.mp hle))
        apply Exec.safe_bind Exec.reject_ne_panic
        intro _ hwithin
        have hwithin := Exec.reject_eq_ok.mp hwithin
        apply Exec.safe_bind (fun h => by have hlong := Exec.slice_eq_panic.mp h; omega)
        intro siblings _
        split
        · exact Exec.safe_bind Exec.orFail_ne_panic fun _ _ => Exec.ok_ne_panic
        · exact Exec.ok_ne_panic
      · rw [Exec.index_eq_panic.mpr (by omega), Exec.panic_bind]
        exact iff_of_true rfl (.inr (by omega))
    · rw [Exec.index_eq_panic.mpr (by omega), Exec.panic_bind]
      exact iff_of_true rfl (.inl (by omega))
  · simp only [Exec.reject, if_pos (show mode.toNat ≥ queryCoords.length by omega), Exec.fail_bind]
    exact iff_of_false Exec.fail_ne_panic (fun h => hdim h.1)

/-- A descent that gets to a level goes on from there. -/
theorem Arrives.descend_eq (h : Arrives queryCoords modeOrder posLevels crdLevels L p)
    (hL : L ≤ modeOrder.length) :
    descend queryCoords modeOrder posLevels crdLevels (List.range modeOrder.length) 0 =
      descend queryCoords modeOrder posLevels crdLevels
        (List.range' L (modeOrder.length - L)) p := by
  induction h with
  | root => rw [List.range_eq_range', Nat.sub_zero]
  | @child L p child above found ih =>
    have hsplit : modeOrder.length - L = modeOrder.length - (L + 1) + 1 := by omega
    rw [ih (by omega), hsplit, List.range'_succ, descend, lookupLevel_eq_some.mpr found,
      Exec.ok_bind]

/-- Every level that the descent gets to was passed. -/
def LevelsPassed (queryCoords : List UInt64) (modeOrder : List UInt32)
    (posLevels crdLevels : List (Slice UInt64)) : Prop :=
  ∀ L p mode, Arrives queryCoords modeOrder posLevels crdLevels L p → modeOrder[L]? = some mode →
    mode.toNat < queryCoords.length → L < posLevels.length ∧ L < crdLevels.length

theorem descend_safe (h : LevelsPassed queryCoords modeOrder posLevels crdLevels) {m : ℕ}
    (harrives : Arrives queryCoords modeOrder posLevels crdLevels L p)
    (hL : L + m = modeOrder.length) :
    (descend queryCoords modeOrder posLevels crdLevels (List.range' L m) p).Safe := by
  induction m generalizing L p with
  | zero => exact Exec.ok_ne_panic
  | succ m ih =>
    have hmode := List.getElem?_eq_getElem (show L < modeOrder.length by omega)
    rw [List.range'_succ, descend]
    apply Exec.safe_bind
    · intro hpanic
      obtain ⟨hdim, hmissing⟩ := (lookupLevel_eq_panic hmode harrives.lt).mp hpanic
      have hpassed := h L p _ harrives hmode hdim
      omega
    intro next hnext
    cases next with
    | none => exact Exec.ok_ne_panic
    | some child => exact ih (harrives.child (lookupLevel_eq_some.mp hnext)) (by omega)

theorem elementOffset_safe_iff :
    (elementOffset queryCoords modeOrder posLevels crdLevels).Safe ↔
      (queryCoords.length = modeOrder.length →
        LevelsPassed queryCoords modeOrder posLevels crdLevels) := by
  by_cases hlen : queryCoords.length = modeOrder.length
  · simp only [elementOffset, Exec.reject_of_not (not_not.mpr hlen), Exec.ok_bind]
    rw [imp_iff_right hlen]
    constructor
    · intro hsafe L p mode harrives hmode hdim
      have hL := (List.getElem?_eq_some_iff.mp hmode).1
      by_contra hmissing
      have hpanic : lookupLevel queryCoords modeOrder posLevels crdLevels p L = Exec.panic :=
        (lookupLevel_eq_panic hmode harrives.lt).mpr ⟨hdim, by omega⟩
      have hsplit : modeOrder.length - L = modeOrder.length - (L + 1) + 1 := by omega
      apply hsafe
      rw [harrives.descend_eq hL.le, hsplit, List.range'_succ, descend, hpanic, Exec.panic_bind]
    · intro h
      rw [List.range_eq_range']
      exact descend_safe h .root (Nat.zero_add _)
  · simp only [elementOffset, Exec.reject, ne_eq, hlen, not_false_eq_true, if_true, Exec.fail_bind,
      false_imp_iff, iff_true]
    exact Exec.fail_ne_panic

end Csf

/-- The lookups never stop the program, except for the paged one where pages have no slots and the
query gets to its division, and the tree one where its descent gets to a level that was not
passed. -/
theorem lookups_safe_iff (s t h d : UInt64) (pageSize : UInt32)
    (numPages numHeads headDim : UInt64) :
    (∀ query isSorted indices, (Coo.elementOffset query isSorted indices).Safe) ∧
    (∀ query colIndices rowPtr, (Csr.elementOffset query colIndices rowPtr).Safe) ∧
    (∀ query rowIndices colPtr, (Csc.elementOffset query rowIndices colPtr).Safe) ∧
    (∀ blockTable seqPtr,
      (BlockPaged.elementOffsetU32 s t h d pageSize numPages numHeads headDim blockTable
          seqPtr).Safe ↔
        (pageSize = 0 →
          ¬ BlockPaged.Resolvable s h d numHeads headDim (BlockPaged.widen seqPtr).elems)) ∧
    (∀ blockTable seqPtr,
      (BlockPaged.elementOffsetU64 s t h d pageSize numPages numHeads headDim blockTable
          seqPtr).Safe ↔
        (pageSize = 0 → ¬ BlockPaged.Resolvable s h d numHeads headDim seqPtr.elems)) ∧
    ∀ queryCoords modeOrder posLevels crdLevels,
      (Csf.elementOffset queryCoords modeOrder posLevels crdLevels).Safe ↔
        (queryCoords.length = modeOrder.length →
          Csf.LevelsPassed queryCoords modeOrder posLevels crdLevels) := by
  refine ⟨Coo.elementOffset_safe, Csr.elementOffset_safe, Csc.elementOffset_safe, ?_, ?_, ?_⟩
  · intro blockTable seqPtr
    rw [BlockPaged.elementOffsetU32_eq]
    exact BlockPaged.elementOffsetU64_safe_iff
  · intro blockTable seqPtr
    exact BlockPaged.elementOffsetU64_safe_iff
  · intro queryCoords modeOrder posLevels crdLevels
    exact Csf.elementOffset_safe_iff

/-- A page without slots, and a tree whose only level was not passed. -/
theorem lookups_panic :
    BlockPaged.elementOffsetU32 0 0 0 0 0 1 1 1 ⟨[0], by decide⟩ ⟨[0, 1], by decide⟩ =
        Exec.panic ∧
      Csf.elementOffset [0] [0] [] [] = Exec.panic := by
  decide +kernel

end Hurray.Core
