import Hurray.Core.Layout
import Hurray.Descriptor.Cursor

/-!
The layout-specific payload of a descriptor: its writer, its reader, and the
format both agree on. The reader takes every per-rank vector by the rank of the
header, the writer by the vector's own length.
-/
namespace Hurray.Descriptor
open Hurray.Base Hurray.Core

section Strided

def encodeStrided (l : StridedLayout) : Bytes := l.strides.flatMap i64Bytes

def decodeStrided (rank : UInt32) : Decoder LayoutDescriptor := do
  let strides ← Reader.many readI64 rank.toNat
  pure (.strided ⟨strides⟩)

end Strided

section Tiled

/-- The strides a level writes: only under the strided tag, and only if present. -/
def stridesBytes (tag : UInt8) (strides : Option (List Int64)) : Bytes :=
  if tag = TAG_STRIDED then (strides.getD []).flatMap i64Bytes else []

/-- The fields of one level, in wire order. -/
def tiledLevelBytes (lv : TiledLevel) : Bytes :=
  lv.tileShape.flatMap u64Bytes ++ [lv.outerLayout, lv.innerLayout, 0, 0] ++
    stridesBytes lv.outerLayout (lv.outerStrides.map OuterStrides.strides) ++
    stridesBytes lv.innerLayout (lv.innerStrides.map InnerStrides.strides)

def encodeTiled : ℕ → TiledLayout → Result Bytes
  | depth, .flat lv => do
      Exec.reject (depth ≥ MAX_TILED_DEPTH) .subpavingNestingTooDeep
      pure (tiledLevelBytes lv)
  | depth, .nested lv inner => do
      Exec.reject (depth ≥ MAX_TILED_DEPTH) .subpavingNestingTooDeep
      if lv.innerLayout = TAG_TILED then
        let nestedBytes ← encodeTiled (depth + 1) inner
        pure (tiledLevelBytes lv ++ nestedBytes)
      else pure (tiledLevelBytes lv)

/-- The strides announced by `tag`. -/
def decodeStrides (rank : UInt32) (tag : UInt8) : Decoder (Option (List Int64)) :=
  if tag = TAG_STRIDED then do
    let strides ← Reader.many readI64 rank.toNat
    pure (some strides)
  else pure none

def decodeTiledLevel (rank : UInt32) : Decoder TiledLevel := do
  let tileShape ← Reader.many readU64 rank.toNat
  let outerLayout ← readU8
  let innerLayout ← readU8
  let reserved ← readBytes 2
  Reader.reject (reserved ≠ [0, 0]) (.reservedBytesNonZero "tiled._reserved")
  let outerStrides ← decodeStrides rank outerLayout
  let innerStrides ← decodeStrides rank innerLayout
  pure ⟨tileShape, outerLayout, innerLayout, outerStrides.map OuterStrides.mk,
    innerStrides.map InnerStrides.mk⟩

/-- The nested layout announced by `tag`. -/
def decodeInnerTiled (tag : UInt8) (inner : Decoder TiledLayout) : Decoder (Option TiledLayout) :=
  if tag = TAG_TILED then do
    let layout ← inner
    pure (some layout)
  else pure none

/-- The recursion runs on the number of levels still allowed, `MAX_TILED_DEPTH - depth`. -/
def decodeTiled (rank : UInt32) : ℕ → Decoder TiledLayout
  | 0 => Reader.lift (Exec.fail .subpavingNestingTooDeep)
  | room + 1 => do
      let lv ← decodeTiledLevel rank
      let innerTiled ← decodeInnerTiled lv.innerLayout (decodeTiled rank room)
      Reader.lift (TiledLayout.new lv innerTiled)

end Tiled

section Morton

def encodeMorton (l : MortonLayout) : Bytes := l.mortonBits.flatMap u32Bytes

def decodeMorton (rank : UInt32) : Decoder LayoutDescriptor := do
  let bits ← Reader.many readU32 rank.toNat
  let layout ← Reader.lift (MortonLayout.new bits)
  pure (.morton layout)

end Morton

section Sparse

def encodeCoo (l : CooLayout) : Bytes :=
  u64Bytes l.nnz ++ [if l.isSorted then 1 else 0] ++ List.replicate 7 0

def decodeCoo : Decoder LayoutDescriptor := do
  let nnz ← readU64
  let isSorted ← readBool
  let reserved ← readBytes 7
  Reader.reject (∃ b ∈ reserved, b ≠ 0) (.reservedBytesNonZero "coo._reserved")
  pure (.coo ⟨nnz, isSorted⟩)

/-- CSR and CSC share one payload, a count and eight reserved bytes. -/
def encodeNnz (nnz : UInt64) : Bytes := u64Bytes nnz ++ List.replicate 8 0

def decodeNnz (field : String) : Decoder UInt64 := do
  let nnz ← readU64
  let reserved ← readBytes 8
  Reader.reject (∃ b ∈ reserved, b ≠ 0) (.reservedBytesNonZero field)
  pure nnz

def encodeCsr (l : CsrLayout) : Bytes := encodeNnz l.nnz

def decodeCsr : Decoder LayoutDescriptor := do
  let nnz ← decodeNnz "csr._reserved"
  pure (.csr ⟨nnz⟩)

def encodeCsc (l : CscLayout) : Bytes := encodeNnz l.nnz

def decodeCsc : Decoder LayoutDescriptor := do
  let nnz ← decodeNnz "csc._reserved"
  pure (.csc ⟨nnz⟩)

def encodeCsf (l : CsfLayout) (rank : UInt32) : Result Bytes := do
  let moLen := UInt32.ofNat l.modeOrder.length
  Exec.reject (moLen ≠ rank) (.invalidLayout
    (s!"csf encode: mode_order.len() ({moLen}) != rank ({rank}); " ++
      "call validate_against_shape before encoding"))
  pure (u64Bytes l.nnz ++ l.modeOrder.flatMap u32Bytes ++ List.replicate 8 0)

/-- The loop that finds a mode out of range or seen before. The source keeps the modes
already seen as the bits of a word. -/
def checkModeOrder (rank : UInt32) (level : ℕ) (seen : List UInt32) : List UInt32 → Result Unit
  | [] => pure ()
  | dim :: rest => do
      Exec.reject (dim.toNat ≥ rank.toNat) (.invalidLayout
        s!"csf: mode_order[{level}]={dim} out of range [0, {rank})")
      Exec.reject (dim ∈ seen) (.invalidLayout
        s!"csf: mode_order contains duplicate value {dim}")
      checkModeOrder rank (level + 1) (dim :: seen) rest

def decodeCsf (rank : UInt32) : Decoder LayoutDescriptor := do
  let nnz ← readU64
  let modeOrder ← Reader.many readU32 rank.toNat
  let reserved ← readBytes 8
  Reader.reject (∃ b ∈ reserved, b ≠ 0) (.reservedBytesNonZero "csf._reserved")
  Reader.lift (checkModeOrder rank 0 [] modeOrder)
  pure (.csf ⟨nnz, modeOrder⟩)

end Sparse

section BlockPaged

def encodeBlockPaged (l : BlockPagedLayout) : Bytes :=
  u32Bytes l.pageSize ++ u64Bytes l.numPages ++ u32Bytes l.pagedAxis ++ u32Bytes l.numSeqs ++
    [l.kvRole.wireByte] ++ u32Bytes (l.layerIndex.getD LAYER_INDEX_NONE) ++
    [l.blockTableIndexType.wireByte] ++ List.replicate 6 0

def decodeBlockPaged : Decoder LayoutDescriptor := do
  let pageSize ← readU32
  let numPages ← readU64
  let pagedAxis ← readU32
  let numSeqs ← readU32
  let kvRoleByte ← readU8
  let kvRole ← Reader.lift (Exec.orFail (KvRole.fromWire kvRoleByte)
    (.invalidLayout s!"block-paged: unknown kv_role byte 0x{hexByte kvRoleByte}"))
  let layerIndexWire ← readU32
  let layerIndex := if layerIndexWire = LAYER_INDEX_NONE then none else some layerIndexWire
  let indexTypeByte ← readU8
  let blockTableIndexType ← Reader.lift (Exec.orFail (BlockTableIndexType.fromWire indexTypeByte)
    (.invalidLayout
      s!"block-paged: unknown block_table_index_type byte 0x{hexByte indexTypeByte}"))
  let reserved ← readBytes 6
  Reader.reject (∃ b ∈ reserved, b ≠ 0) (.reservedBytesNonZero "block_paged._reserved")
  pure (.blockPaged ⟨pageSize, numPages, pagedAxis, numSeqs, kvRole, layerIndex,
    blockTableIndexType⟩)

end BlockPaged

section Composite

def encodeComposite (l : CompositeLayout) : Bytes :=
  [l.rule.ruleByte, l.rule.combineOpByte, 0, 0] ++ u32Bytes l.memberCount

def decodeComposite : Decoder LayoutDescriptor := do
  let ruleByte ← readU8
  let combineOpByte ← readU8
  let reserved ← readBytes 2
  Reader.reject (∃ b ∈ reserved, b ≠ 0) (.reservedBytesNonZero "composite._reserved")
  let memberCount ← readU32
  let rule ← Reader.lift (CompositionRule.fromWire ruleByte combineOpByte)
  let layout ← Reader.lift (CompositeLayout.new rule memberCount)
  pure (.composite layout)

end Composite

section Hilbert

def encodeHilbert (l : HilbertLayout) : Bytes := u32Bytes l.hilbertOrder ++ u32Bytes l.hilbertRank

def decodeHilbert : Decoder LayoutDescriptor := do
  let hilbertOrder ← readU32
  let hilbertRank ← readU32
  let layout ← Reader.lift (HilbertLayout.new hilbertOrder hilbertRank)
  pure (.hilbert layout)

end Hilbert

section PrivateExtension

def encodePrivateExtension (l : PrivateExtensionLayout) : Bytes :=
  u64Bytes l.extensionLayoutId ++ u32Bytes (UInt32.ofNat l.extensionData.length) ++
    l.extensionData

def decodePrivateExtension (tag : UInt8) : Decoder LayoutDescriptor := do
  let extensionLayoutId ← readU64
  let extensionDataLength ← readU32
  let data ← readBytes extensionDataLength.toNat
  let layout ← Reader.lift (PrivateExtensionLayout.new tag extensionLayoutId data)
  pure (.privateExtension layout)

end PrivateExtension

def encodeLayoutPayload (layout : LayoutDescriptor) (rank : UInt32) : Result Bytes :=
  match layout with
  | .rowMajor | .colMajor => pure []
  | .strided l => pure (encodeStrided l)
  | .tiled l => encodeTiled 0 l
  | .morton l => pure (encodeMorton l)
  | .coo l => pure (encodeCoo l)
  | .csr l => pure (encodeCsr l)
  | .csc l => pure (encodeCsc l)
  | .csf l => encodeCsf l rank
  | .blockPaged l => pure (encodeBlockPaged l)
  | .composite l => pure (encodeComposite l)
  | .hilbert l => pure (encodeHilbert l)
  | .privateExtension l => pure (encodePrivateExtension l)
  | .unknown l => Exec.fail (.unknownLayoutTag l.tag)

def decodeLayoutPayload (tag : UInt8) (rank : UInt32) : Decoder LayoutDescriptor :=
  match tag with
  | TAG_ROW_MAJOR => pure .rowMajor
  | TAG_COL_MAJOR => pure .colMajor
  | TAG_STRIDED => decodeStrided rank
  | TAG_TILED => do
      let layout ← decodeTiled rank MAX_TILED_DEPTH
      pure (.tiled layout)
  | TAG_MORTON => decodeMorton rank
  | TAG_COO => decodeCoo
  | TAG_CSR => decodeCsr
  | TAG_CSC => decodeCsc
  | TAG_CSF => decodeCsf rank
  | TAG_BLOCK_PAGED => decodeBlockPaged
  | TAG_COMPOSITE => decodeComposite
  | TAG_HILBERT => decodeHilbert
  | _ =>
      if isPrivateTag tag then decodePrivateExtension tag
      else if isInvalidTag tag then Reader.lift (Exec.fail (.invalidLayoutTag tag))
      else if isReservedTag tag then Reader.lift (Exec.fail (.reservedLayoutTag tag))
      else Reader.lift (Exec.fail (.unknownLayoutTag tag))

end Hurray.Descriptor
