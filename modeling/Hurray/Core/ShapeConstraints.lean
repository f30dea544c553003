import Hurray.Core.Layout

/-! What a layout asks of the shape it is used with, beyond what its own constructor checks. -/
namespace Hurray.Core
open Hurray.Base

section Checks

/-- The largest dimension that so many bits index; the source lets the power saturate. -/
def mortonMaxDim (bits : UInt32) : UInt64 :=
  if bits.toNat ≥ 64 then 0xFFFFFFFFFFFFFFFF else 1 <<< UInt64.ofNat bits.toNat

def checkMortonDims (k : ℕ) : List (UInt32 × UInt64) → Result Unit
  | [] => pure ()
  | (bits, dim) :: rest => do
      Exec.reject (dim ≠ DYNAMIC ∧ dim > mortonMaxDim bits) (.invalidLayout
        s!"Morton layout: shape[{k}] ({dim}) > 2^morton_bits[{k}] ({mortonMaxDim bits})")
      checkMortonDims (k + 1) rest

def checkHilbertDims (expectedDim : UInt64) (k : ℕ) : List UInt64 → Result Unit
  | [] => pure ()
  | dim :: rest => do
      Exec.reject (dim ≠ DYNAMIC ∧ dim ≠ expectedDim) (.invalidLayout
        s!"Hilbert layout: shape[{k}] ({dim}) != 2^hilbert_order ({expectedDim})")
      checkHilbertDims expectedDim (k + 1) rest

/-- The modes already seen are the bits of a word in the source. -/
def checkCsfModes (rank : ℕ) (level : ℕ) (seen : List UInt32) : List UInt32 → Result Unit
  | [] => pure ()
  | dim :: rest => do
      Exec.reject (dim.toNat ≥ rank) (.invalidLayout
        s!"CSF layout: mode_order[{level}]={dim} out of range [0, {rank})")
      Exec.reject (dim ∈ seen) (.invalidLayout
        s!"CSF layout: mode_order contains duplicate value {dim}")
      checkCsfModes rank (level + 1) (dim :: seen) rest

/-- CSR and CSC are for matrices. -/
def checkMatrixRank (name : String) (shape : Shape) : Result Unit :=
  Exec.reject (shape.rank ≠ 2)
    (.invalidLayout s!"{name} layout requires rank 2, got rank {shape.rank}")

def MortonLayout.validateAgainstShape (m : MortonLayout) (shape : Shape) : Result Unit := do
  Exec.reject (m.mortonBits.length ≠ shape.rank) (.invalidLayout
    s!"Morton layout: morton_bits.len() ({m.mortonBits.length}) != shape.rank() ({shape.rank})")
  checkMortonDims 0 (m.mortonBits.zip shape.dims)

def HilbertLayout.validateAgainstShape (h : HilbertLayout) (shape : Shape) : Result Unit := do
  Exec.reject (h.hilbertRank.toNat ≠ shape.rank) (.invalidLayout
    s!"Hilbert layout: hilbert_rank ({h.hilbertRank}) != shape.rank() ({shape.rank})")
  Exec.reject (h.hilbertOrder.toNat ≥ 64) (.invalidLayout
    s!"Hilbert layout: hilbert_order ({h.hilbertOrder}) would require dimension > u64::MAX")
  checkHilbertDims (1 <<< UInt64.ofNat h.hilbertOrder.toNat) 0 shape.dims

def LayoutDescriptor.validateAgainstShape (l : LayoutDescriptor) (shape : Shape) : Result Unit :=
  match l with
  | .rowMajor => pure ()
  | .colMajor => pure ()
  | .strided s => do
      Exec.reject (s.strides.length ≠ shape.rank) (.invalidLayout
        s!"strided layout: strides.len() ({s.strides.length}) != shape.rank() ({shape.rank})")
      Exec.reject (shape.rank = 0) (.invalidLayout
        "strided layout cannot be used for rank-0 (scalar) tensors")
  | .tiled t => do
      let len := t.level.tileShape.length
      Exec.reject (len ≠ shape.rank) (.invalidLayout
        s!"tiled layout: tile_shape.len() ({len}) != shape.rank() ({shape.rank})")
      Exec.reject (shape.rank = 0) (.invalidLayout
        "tiled layout cannot be used for rank-0 (scalar) tensors")
  | .morton m => m.validateAgainstShape shape
  | .coo _ =>
      Exec.reject (shape.rank = 0) (.invalidLayout
        "COO layout cannot be used for rank-0 (scalar) tensors")
  | .csr _ => checkMatrixRank "CSR" shape
  | .csc _ => checkMatrixRank "CSC" shape
  | .csf c => do
      Exec.reject (shape.rank < 3) (.invalidLayout
        s!"CSF layout requires rank >= 3, got rank {shape.rank}")
      Exec.reject (c.modeOrder.length ≠ shape.rank) (.invalidLayout
        s!"CSF layout: mode_order.len() ({c.modeOrder.length}) != shape.rank() ({shape.rank})")
      checkCsfModes shape.rank 0 [] c.modeOrder
  | .blockPaged bp => do
      Exec.reject (shape.rank ≠ 3) (.invalidLayout
        s!"block-paged layout requires rank 3, got rank {shape.rank}")
      Exec.reject (bp.pagedAxis ≠ 0) (.invalidLayout
        s!"block-paged layout: paged_axis must be 0, got {bp.pagedAxis}")
      Exec.reject (bp.pageSize < 1) (.invalidLayout
        "block-paged layout: page_size must be >= 1")
  | .composite c =>
      Exec.reject (c.rule ≠ .group ∧ DYNAMIC ∈ shape.dims) (.invalidLayout
        ("composite head: partition/overlay composition requires a fully " ++
          "static shape (no DYNAMIC dimension)"))
  | .hilbert h => h.validateAgainstShape shape
  | .privateExtension _ => pure ()
  | .unknown _ => pure ()

end Checks

/-! ### What the checks accept -/

section Accepted
variable {shape : Shape} {u : Unit}

/-- The layout can be used with the shape. -/
def LayoutDescriptor.FitsShape (l : LayoutDescriptor) (shape : Shape) : Prop :=
  match l with
  | .rowMajor | .colMajor | .privateExtension _ | .unknown _ => True
  | .strided s => s.strides.length = shape.rank ∧ shape.rank ≠ 0
  | .tiled t => t.level.tileShape.length = shape.rank ∧ shape.rank ≠ 0
  | .morton m => m.mortonBits.length = shape.rank ∧
      ∀ p ∈ m.mortonBits.zip shape.dims, p.2 ≠ DYNAMIC → p.2.toNat ≤ 2 ^ p.1.toNat
  | .coo _ => shape.rank ≠ 0
  | .csr _ | .csc _ => shape.rank = 2
  | .csf c => 3 ≤ shape.rank ∧ c.modeOrder.length = shape.rank ∧
      (∀ m ∈ c.modeOrder, m.toNat < shape.rank) ∧ c.modeOrder.Nodup
  | .blockPaged bp => shape.rank = 3 ∧ bp.pagedAxis = 0 ∧ 1 ≤ bp.pageSize
  | .composite c => c.rule = .group ∨ DYNAMIC ∉ shape.dims
  | .hilbert h => h.hilbertRank.toNat = shape.rank ∧ h.hilbertOrder.toNat < 64 ∧
      ∀ d ∈ shape.dims, d ≠ DYNAMIC → d.toNat = 2 ^ h.hilbertOrder.toNat

theorem toNat_one_shl {n : ℕ} (h : n < 64) : ((1 : UInt64) <<< UInt64.ofNat n).toNat = 2 ^ n := by
  have hn : (UInt64.ofNat n).toNat = n := UInt64.toNat_ofNat_of_lt' (Nat.lt_trans h (by decide))
  rw [UInt64.toNat_shiftLeft, hn, Nat.mod_eq_of_lt h, UInt64.toNat_one, Nat.one_shiftLeft,
    Nat.mod_eq_of_lt (Nat.pow_lt_pow_right Nat.one_lt_two h)]

theorem le_mortonMaxDim {bits : UInt32} {dim : UInt64} :
    ¬ dim > mortonMaxDim bits ↔ dim.toNat ≤ 2 ^ bits.toNat := by
  rw [gt_iff_lt, UInt64.not_lt, UInt64.le_iff_toNat_le]
  unfold mortonMaxDim
  split
  · next hge =>
    have hsize : dim.toNat ≤ 2 ^ 64 - 1 := Nat.le_pred_of_lt dim.toNat_lt_size
    have hpow : 2 ^ 64 ≤ 2 ^ bits.toNat := Nat.pow_le_pow_right Nat.two_pos hge
    exact iff_of_true hsize (by omega)
  · next hlt => rw [toNat_one_shl (Nat.lt_of_not_ge hlt)]

theorem checkMortonDims_eq_ok {k : ℕ} {ps : List (UInt32 × UInt64)} :
    checkMortonDims k ps = .ok u ↔
      ∀ p ∈ ps, p.2 ≠ DYNAMIC → p.2.toNat ≤ 2 ^ p.1.toNat := by
  induction ps generalizing k with
  | nil => simp [checkMortonDims, pure, Except.pure]
  | cons p ps ih =>
    obtain ⟨bits, dim⟩ := p
    simp only [checkMortonDims, Exec.bind_eq_ok, Exec.reject_eq_ok, exists_const, ih,
      List.forall_mem_cons, not_and, le_mortonMaxDim]

theorem checkHilbertDims_eq_ok {expected : UInt64} {k : ℕ} {dims : List UInt64} :
    checkHilbertDims expected k dims = .ok u ↔ ∀ d ∈ dims, d ≠ DYNAMIC → d = expected := by
  induction dims generalizing k with
  | nil => simp [checkHilbertDims, pure, Except.pure]
  | cons d dims ih =>
    simp only [checkHilbertDims, Exec.bind_eq_ok, Exec.reject_eq_ok, exists_const, ih,
      List.forall_mem_cons, not_and, not_not]

theorem checkCsfModes_eq_ok {rank level : ℕ} {seen modes : List UInt32} :
    checkCsfModes rank level seen modes = .ok u ↔
      (∀ m ∈ modes, m.toNat < rank ∧ m ∉ seen) ∧ modes.Nodup := by
  induction modes generalizing level seen with
  | nil => simp [checkCsfModes, pure, Except.pure]
  | cons m modes ih =>
    simp only [checkCsfModes, Exec.bind_eq_ok, Exec.reject_eq_ok, exists_const, ih,
      List.forall_mem_cons, List.nodup_cons, ge_iff_le, Nat.not_le]
    simp only [List.mem_cons, not_or]
    constructor
    · intro h
      obtain ⟨hm, hseen, hall, hnodup⟩ := h
      refine ⟨⟨⟨hm, hseen⟩, fun x hx => ⟨(hall x hx).1, (hall x hx).2.2⟩⟩, ?_, hnodup⟩
      intro hmem
      exact (hall m hmem).2.1 rfl
    · intro h
      obtain ⟨⟨⟨hm, hseen⟩, hall⟩, hnotin, hnodup⟩ := h
      refine ⟨hm, hseen, ?_, hnodup⟩
      intro x hx
      refine ⟨(hall x hx).1, ?_, (hall x hx).2⟩
      intro heq
      exact hnotin (heq ▸ hx)

theorem HilbertLayout.validateAgainstShape_eq_ok {h : HilbertLayout} :
    h.validateAgainstShape shape = .ok u ↔ (LayoutDescriptor.hilbert h).FitsShape shape := by
  simp only [HilbertLayout.validateAgainstShape, Exec.bind_eq_ok, Exec.reject_eq_ok, exists_const,
    checkHilbertDims_eq_ok, not_not, ge_iff_le, Nat.not_le, LayoutDescriptor.FitsShape]
  refine and_congr_right fun _ => and_congr_right fun hlt => forall₃_congr fun d _ _ => ?_
  rw [← toNat_one_shl hlt, UInt64.toNat_inj]

theorem LayoutDescriptor.validateAgainstShape_eq_ok {l : LayoutDescriptor} :
    l.validateAgainstShape shape = .ok u ↔ l.FitsShape shape := by
  cases l with
  | hilbert h => exact HilbertLayout.validateAgainstShape_eq_ok
  | morton m =>
    simp only [validateAgainstShape, MortonLayout.validateAgainstShape, Exec.bind_eq_ok,
      Exec.reject_eq_ok, exists_const, checkMortonDims_eq_ok, not_not, FitsShape]
  | csf c =>
    simp only [validateAgainstShape, Exec.bind_eq_ok, Exec.reject_eq_ok, exists_const,
      checkCsfModes_eq_ok, not_not, Nat.not_lt, List.not_mem_nil, not_false_eq_true, and_true,
      FitsShape]
  | blockPaged bp =>
    simp only [validateAgainstShape, Exec.bind_eq_ok, Exec.reject_eq_ok, exists_const, not_not,
      UInt32.not_lt, FitsShape]
  | composite c =>
    simp only [validateAgainstShape, Exec.reject_eq_ok, not_and_or, not_not, FitsShape]
  | rowMajor | colMajor | privateExtension | unknown =>
    exact iff_of_true rfl trivial
  | strided | tiled =>
    simp only [validateAgainstShape, Exec.bind_eq_ok, Exec.reject_eq_ok, exists_const, not_not,
      FitsShape]
  | coo | csr | csc =>
    simp only [validateAgainstShape, checkMatrixRank, Exec.reject_eq_ok, not_not, FitsShape, ne_eq]

end Accepted
end Hurray.Core
