import Hurray.Base.Checked
import Hurray.Core.Layout
import Mathlib.Data.UInt

/-!
Element addressing of the dense layouts. A slice read, a division, a shift or a
plain sum that would stop the program is a panic here.
-/
namespace Hurray.Core
open Hurray.Base

section Index

/-- The check of one index component after another. -/
def checkComponents (dim : ℕ) : List (UInt64 × UInt64) → Result Unit
  | [] => pure ()
  | (index, size) :: rest => do
      Exec.reject (size = DYNAMIC) (.dynamicDimInIndexing (UInt32.ofNat dim))
      Exec.reject (index ≥ size) (.indexOutOfRange (UInt32.ofNat dim) index size)
      checkComponents (dim + 1) rest

def validateIndex (index : List UInt64) (shape : Shape) : Result Unit := do
  Exec.reject (index.length ≠ shape.rank) (.indexRankMismatch index.length shape.rank)
  checkComponents 0 (index.zip shape.dims)

/-- An index with a component in range for every dimension, none of them dynamic. -/
structure ValidIndex (index : List UInt64) (shape : Shape) : Prop where
  length_eq : index.length = shape.rank
  inRange : ∀ c ∈ index.zip shape.dims, c.2 ≠ DYNAMIC ∧ c.1 < c.2

theorem checkComponents_eq_ok {k : ℕ} {cs : List (UInt64 × UInt64)} {u : Unit} :
    checkComponents k cs = .ok u ↔ ∀ c ∈ cs, c.2 ≠ DYNAMIC ∧ c.1 < c.2 := by
  induction cs generalizing k with
  | nil => simp [checkComponents, pure, Except.pure]
  | cons c cs ih =>
    simp only [checkComponents, Exec.bind_eq_ok, Exec.reject_eq_ok, exists_const, ih,
      List.forall_mem_cons, ge_iff_le, UInt64.not_le, and_assoc, ne_eq]

theorem validateIndex_eq_ok {index : List UInt64} {shape : Shape} {u : Unit} :
    validateIndex index shape = .ok u ↔ ValidIndex index shape := by
  simp only [validateIndex, Exec.bind_eq_ok, Exec.reject_eq_ok, exists_const, not_not,
    checkComponents_eq_ok]
  exact ⟨fun h => ⟨h.1, h.2⟩, fun h => ⟨h.1, h.2⟩⟩

theorem checkComponents_ne_panic {k : ℕ} {cs : List (UInt64 × UInt64)} :
    checkComponents k cs ≠ Exec.panic := by
  induction cs generalizing k with
  | nil => exact Exec.ok_ne_panic
  | cons c cs ih =>
    simp only [checkComponents, ne_eq, Exec.bind_eq_panic, Exec.reject_ne_panic, false_or,
      not_exists, not_and]
    intro _ _ _ _
    exact ih

theorem yields_validateIndex {index : List UInt64} {shape : Shape} :
    Exec.Yields (validateIndex index shape) fun _ => ValidIndex index shape := by
  refine ⟨?_, fun _ h => validateIndex_eq_ok.mp h⟩
  simp only [Exec.Safe, validateIndex, ne_eq, Exec.bind_eq_panic, Exec.reject_ne_panic, false_or,
    not_exists, not_and]
  intro _ _
  exact checkComponents_ne_panic

/-- The origin is a valid index of a shape that has an element. -/
theorem validIndex_origin {shape : Shape} (h : shape.Addressable) :
    ValidIndex (List.replicate shape.rank 0) shape := by
  refine ⟨List.length_replicate, ?_⟩
  intro h hmem
  obtain ⟨i, dim⟩ := h
  obtain ⟨hi, hdim⟩ := List.of_mem_zip hmem
  have hzero : i = 0 := List.eq_of_mem_replicate hi
  subst i
  obtain ⟨hpos, hstatic⟩ := h dim hdim
  exact ⟨hstatic, UInt64.pos_iff_ne_zero.mpr hpos⟩

theorem ValidIndex.addressable {index : List UInt64} {shape : Shape}
    (h : ValidIndex index shape) : shape.Addressable := by
  intro dim hdim
  obtain ⟨k, hk, rfl⟩ := List.getElem_of_mem hdim
  have hk' : k < index.length := h.length_eq ▸ hk
  have hmem : (index[k], shape.dims[k]) ∈ index.zip shape.dims := by
    rw [List.mem_iff_getElem]
    exact ⟨k, by simp only [List.length_zip]; omega, by simp⟩
  obtain ⟨hstatic, hlt⟩ := h.inRange _ hmem
  refine ⟨?_, hstatic⟩
  intro hzero
  rw [hzero] at hlt
  exact absurd hlt UInt64.not_lt_zero

theorem ValidIndex.getElem? (h : ValidIndex index shape) {d : ℕ} {i : UInt64}
    (hi : index[d]? = some i) :
    ∃ dim, shape.dims[d]? = some dim ∧ dim ≠ DYNAMIC ∧ i.toNat < dim.toNat := by
  have hlt : d < shape.dims.length := by
    rw [shape.length_dims, ← h.length_eq]
    exact (List.getElem?_eq_some_iff.mp hi).1
  refine ⟨shape.dims[d], List.getElem?_eq_getElem hlt, ?_⟩
  have hmem : (i, shape.dims[d]) ∈ index.zip shape.dims :=
    List.mem_of_getElem? (List.getElem?_zip_eq_some.mpr ⟨hi, List.getElem?_eq_getElem hlt⟩)
  exact (h.inRange _ hmem).imp_right UInt64.lt_iff_toNat_lt.mp

end Index

section Linear

/-- The stride after dimension `k`, where the loop goes on from there. -/
def nextStride (dims : List UInt64) (stride : UInt64) (k : ℕ) (more : Bool) : Result UInt64 :=
  if more then do
    let dim ← Exec.index dims k
    Exec.orFail (checkedMul stride dim) .addressOverflow
  else pure stride

/-- One dimension of a row- or column-major offset. -/
def linearStep (index dims : List UInt64) (more : ℕ → Bool) (acc : UInt64 × UInt64) (k : ℕ) :
    Result (UInt64 × UInt64) := do
  let i ← Exec.index index k
  let term ← Exec.orFail (checkedMul i acc.2) .addressOverflow
  let offset ← Exec.orFail (checkedAdd acc.1 term) .addressOverflow
  let stride ← nextStride dims acc.2 k (more k)
  pure (offset, stride)

/-- The loop that the row- and the column-major offset share: `order` is the order of the
dimensions, and `more` says where a further stride is needed. -/
def linearOffset (index dims : List UInt64) (order : List ℕ) (more : ℕ → Bool) :
    Result UInt64 := do
  let acc ← order.foldlM (linearStep index dims more) (0, 1)
  pure acc.1

def rowMajorOffset (index dims : List UInt64) : Result UInt64 :=
  if index = [] then .ok 0
  else linearOffset index dims (List.range index.length).reverse fun k => k > 0

def colMajorOffset (index dims : List UInt64) : Result UInt64 :=
  if index = [] then .ok 0
  else linearOffset index dims (List.range index.length) fun k => k < index.length - 1

end Linear

section Strided

def stridedTerm (sum : Int64) (index : UInt64) (stride : Int64) : Result Int64 := do
  let term ← Exec.orFail (checkedMulSigned index.toInt64 stride) .addressOverflow
  Exec.orFail (checkedAddSigned sum term) .addressOverflow

def StridedLayout.elementOffset (l : StridedLayout) (index : List UInt64) (shape : Shape) :
    Result UInt64 := do
  validateIndex index shape
  Exec.reject (l.strides.length ≠ shape.rank)
    (.indexRankMismatch l.strides.length shape.rank)
  let sum ← (index.zip l.strides).foldlM (fun sum p => stridedTerm sum p.1 p.2) 0
  pure sum.toUInt64

/-- The strided offset within a tile grid or a tile, which reads the strides by position. -/
def stridedOffset (index : List UInt64) (strides : List Int64) : Result Int64 :=
  (List.range index.length).foldlM (fun sum k => do
    let i ← Exec.index index k
    let stride ← Exec.index strides k
    stridedTerm sum i stride) 0

end Strided

section Tiled

/-- The tile that holds a component of the index, and the place within that tile. -/
def tileCoordinate (index tileShape : List UInt64) (k : ℕ) : Result (UInt64 × UInt64) := do
  let i ← Exec.index index k
  let t ← Exec.index tileShape k
  let tile ← Exec.div i t
  let intra ← Exec.rem i t
  pure (tile, intra)

/-- The offset by one of the three flat arrangements. An unset stride vector is an `unwrap` of
nothing, another tag is unreachable code, and both panic. -/
def flatOffset (tag : UInt8) (strides : Option (List Int64)) (index dims : List UInt64) :
    Result Int64 :=
  match tag with
  | TAG_ROW_MAJOR => do
      let offset ← rowMajorOffset index dims
      pure offset.toInt64
  | TAG_COL_MAJOR => do
      let offset ← colMajorOffset index dims
      pure offset.toInt64
  | TAG_STRIDED =>
      match strides with
      | some s => stridedOffset index s
      | none => Exec.panic
  | _ => Exec.panic

/-- The offset within a tile: flat, or by the nested layout under its tag. -/
def intraOffset (lv : TiledLevel) (nested : Option (Result UInt64)) (intra : List UInt64) :
    Result Int64 :=
  if lv.innerLayout = TAG_TILED then
    match nested with
    | some offset => do
        let offset ← offset
        pure offset.toInt64
    | none => Exec.panic
  else flatOffset lv.innerLayout (lv.innerStrides.map InnerStrides.strides) intra lv.tileShape

/-- One level of tiling; `nested` computes the offset of an index within a tile. -/
def levelOffset (lv : TiledLevel) (nested : Option (List UInt64 → Result UInt64))
    (index dims : List UInt64) : Result UInt64 := do
  let coords ← (List.range index.length).mapM (tileCoordinate index lv.tileShape)
  let tileIdx := coords.map Prod.fst
  let intraIdx := coords.map Prod.snd
  let gridDims ← (dims.zip lv.tileShape).mapM fun p => Exec.divCeil p.1 p.2
  let tileNumber ←
    flatOffset lv.outerLayout (lv.outerStrides.map OuterStrides.strides) tileIdx gridDims
  let tileSize ← lv.tileShape.foldlM (fun acc d =>
    Exec.orFail (checkedMulSigned acc d.toInt64) .addressOverflow) 1
  let intra ← intraOffset lv (nested.map fun f => f intraIdx) intraIdx
  let base ← Exec.orFail (checkedMulSigned tileNumber tileSize) .addressOverflow
  let total ← Exec.orFail (checkedAddSigned base intra) .addressOverflow
  pure total.toUInt64

def tiledOffset : TiledLayout → List UInt64 → List UInt64 → Result UInt64
  | .flat lv => levelOffset lv none
  | .nested lv inner => levelOffset lv (some fun index => tiledOffset inner index lv.tileShape)

def TiledLayout.elementOffset (l : TiledLayout) (index : List UInt64) (shape : Shape) :
    Result UInt64 := do
  validateIndex index shape
  Exec.reject (l.level.tileShape.length ≠ shape.rank)
    (.indexRankMismatch l.level.tileShape.length shape.rank)
  tiledOffset l index shape.dims

end Tiled

section Morton

/-- Bit `b` of component `d` goes to bit `b * rank + d` of the code. -/
def mortonBit (rank b : ℕ) (code : UInt64) (c : (UInt64 × UInt32) × ℕ) : Result UInt64 :=
  if b < c.1.2.toNat then do
    let moved ← Exec.shr c.1.1 b
    let row ← Exec.inBits 32 (b * (rank % 2 ^ 32))
    let shift ← Exec.inBits 32 (row + c.2 % 2 ^ 32)
    Exec.reject (shift ≥ 64) .indexArithmeticOverflow
    let bit ← Exec.shl (moved &&& 1) shift
    pure (code ||| bit)
  else pure code

def MortonLayout.elementOffset (l : MortonLayout) (index : List UInt64) (shape : Shape) :
    Result UInt64 := do
  validateIndex index shape
  Exec.reject (l.mortonBits.length ≠ shape.rank)
    (.indexRankMismatch l.mortonBits.length shape.rank)
  let totalBits ← Exec.sumU32 l.mortonBits
  Exec.reject (totalBits > 64) .indexArithmeticOverflow
  let maxBits := (l.mortonBits.map UInt32.toNat).foldr max 0
  (List.range maxBits).foldlM (fun code b =>
    (index.zip l.mortonBits).zipIdx.foldlM (mortonBit index.length b) code) 0

end Morton

section Hilbert

/-- The exchange of component `i` with component 0 under the bit `q`. -/
def hilbertExchange (q : UInt64) (x : List UInt64) (i : ℕ) : Result (List UInt64) := do
  let mask := q - 1
  let xi ← Exec.index x i
  let x0 ← Exec.index x 0
  if xi &&& q ≠ 0 then pure (x.set 0 (x0 ^^^ mask))
  else do
    let t := (x0 ^^^ xi) &&& mask
    let x := x.set 0 (x0 ^^^ t)
    let xi ← Exec.index x i
    pure (x.set i (xi ^^^ t))

/-- The loop over `q` from `2 ^ e` down to 2. -/
def hilbertRounds (r : ℕ) : ℕ → List UInt64 → Result (List UInt64)
  | 0, x => pure x
  | e + 1, x => do
      let x ← (List.range r).foldlM (hilbertExchange (1 <<< UInt64.ofNat (e + 1))) x
      hilbertRounds r e x

/-- The Gray encoding of component `i` by the one before. -/
def hilbertGray (x : List UInt64) (i : ℕ) : Result (List UInt64) := do
  let xi ← Exec.index x i
  let prev ← Exec.index x (i - 1)
  pure (x.set i (xi ^^^ prev))

/-- The second loop over `q` from `2 ^ e` down to 2, which gathers the mask `t`. -/
def hilbertMask (r : ℕ) (x : List UInt64) : ℕ → UInt64 → Result UInt64
  | 0, t => pure t
  | e + 1, t => do
      let place ← Exec.subSize r 1
      let last ← Exec.index x place
      let q : UInt64 := 1 <<< UInt64.ofNat (e + 1)
      hilbertMask r x e (if last &&& q ≠ 0 then t ^^^ (q - 1) else t)

/-- Bit `b` of component `d` goes to bit `b * r + (r - 1 - d)` of the index. -/
def hilbertBit (r b : ℕ) (h : UInt64) (c : UInt64 × ℕ) : Result UInt64 := do
  let moved ← Exec.shr c.1 b
  let high ← Exec.subSize r 1
  let low ← Exec.subSize high c.2
  let shift := b * r + low
  Exec.reject (shift ≥ 64) .indexArithmeticOverflow
  let bit ← Exec.shl (moved &&& 1) shift
  pure (h ||| bit)

def HilbertLayout.elementOffset (l : HilbertLayout) (index : List UInt64) (shape : Shape) :
    Result UInt64 := do
  validateIndex index shape
  let r := l.hilbertRank.toNat
  let p := l.hilbertOrder.toNat
  Exec.reject (r * p > 64) .indexArithmeticOverflow
  let e ← Exec.subSize p 1
  let _ ← Exec.shl 1 e
  let x ← hilbertRounds r e index
  let x ← (List.range' 1 (r - 1)).foldlM hilbertGray x
  let t ← hilbertMask r x e 0
  let x := (x.take r).map (· ^^^ t)
  (List.range p).foldlM (fun h b => x.zipIdx.foldlM (hilbertBit r b) h) 0

end Hilbert

def LayoutDescriptor.elementOffset (l : LayoutDescriptor) (index : List UInt64) (shape : Shape) :
    Result UInt64 :=
  match l with
  | .rowMajor => do
      validateIndex index shape
      rowMajorOffset index shape.dims
  | .colMajor => do
      validateIndex index shape
      colMajorOffset index shape.dims
  | .strided s => s.elementOffset index shape
  | .tiled t => t.elementOffset index shape
  | .morton m => m.elementOffset index shape
  | .hilbert h => h.elementOffset index shape
  | .coo _ => Exec.fail (.layoutRequiresMultiBuffer TAG_COO)
  | .csr _ => Exec.fail (.layoutRequiresMultiBuffer TAG_CSR)
  | .csc _ => Exec.fail (.layoutRequiresMultiBuffer TAG_CSC)
  | .csf _ => Exec.fail (.layoutRequiresMultiBuffer TAG_CSF)
  | .blockPaged _ => Exec.fail (.layoutRequiresMultiBuffer TAG_BLOCK_PAGED)
  | .composite _ => Exec.fail (.layoutIsVirtual TAG_COMPOSITE)
  | .privateExtension p => Exec.fail (.privateLayoutTag p.tag)
  | .unknown u => Exec.fail (.unknownLayoutTag u.tag)

example : (LayoutDescriptor.morton ⟨[2, 2]⟩).elementOffset [2, 3] ⟨[4, 4], by decide⟩ = .ok 14 := by
  decide +kernel

end Hurray.Core
