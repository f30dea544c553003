import Hurray.Core.Shape

/-!
Layout descriptors and their constructors. The fields are public in the source,
so a value need not come from its constructor; what a constructor checks is
stated as a predicate beside it.
-/
namespace Hurray.Core
open Hurray.Base

@[match_pattern] def TAG_ROW_MAJOR : UInt8 := 0x01
@[match_pattern] def TAG_COL_MAJOR : UInt8 := 0x02
@[match_pattern] def TAG_STRIDED : UInt8 := 0x03
@[match_pattern] def TAG_TILED : UInt8 := 0x04
@[match_pattern] def TAG_MORTON : UInt8 := 0x05
@[match_pattern] def TAG_COO : UInt8 := 0x06
@[match_pattern] def TAG_CSR : UInt8 := 0x07
@[match_pattern] def TAG_CSC : UInt8 := 0x08
@[match_pattern] def TAG_CSF : UInt8 := 0x09
@[match_pattern] def TAG_BLOCK_PAGED : UInt8 := 0x0A
@[match_pattern] def TAG_COMPOSITE : UInt8 := 0x0B
@[match_pattern] def TAG_HILBERT : UInt8 := 0x40

def isInvalidTag (tag : UInt8) : Prop := tag = 0x00 ∨ tag = 0xFF

def isReservedTag (tag : UInt8) : Prop :=
  (0x0C ≤ tag ∧ tag ≤ 0x3F) ∨ (0x41 ≤ tag ∧ tag ≤ 0x7F) ∨ (0x80 ≤ tag ∧ tag ≤ 0xEF)

def isPrivateTag (tag : UInt8) : Prop := 0xF0 ≤ tag ∧ tag ≤ 0xFE

def isNamedTag (tag : UInt8) : Prop :=
  tag ∈ [TAG_ROW_MAJOR, TAG_COL_MAJOR, TAG_STRIDED, TAG_TILED, TAG_MORTON, TAG_COO, TAG_CSR,
    TAG_CSC, TAG_CSF, TAG_BLOCK_PAGED, TAG_COMPOSITE, TAG_HILBERT]

instance : DecidablePred isInvalidTag := fun tag =>
  inferInstanceAs (Decidable (tag = 0x00 ∨ tag = 0xFF))

instance : DecidablePred isReservedTag := fun tag =>
  inferInstanceAs (Decidable
    ((0x0C ≤ tag ∧ tag ≤ 0x3F) ∨ (0x41 ≤ tag ∧ tag ≤ 0x7F) ∨ (0x80 ≤ tag ∧ tag ≤ 0xEF)))

instance : DecidablePred isPrivateTag := fun tag =>
  inferInstanceAs (Decidable (0xF0 ≤ tag ∧ tag ≤ 0xFE))

instance : DecidablePred isNamedTag := fun tag =>
  inferInstanceAs (Decidable (tag ∈ [TAG_ROW_MAJOR, TAG_COL_MAJOR, TAG_STRIDED, TAG_TILED,
    TAG_MORTON, TAG_COO, TAG_CSR, TAG_CSC, TAG_CSF, TAG_BLOCK_PAGED, TAG_COMPOSITE, TAG_HILBERT]))

structure StridedLayout where
  strides : List Int64
  deriving DecidableEq

def MAX_TILED_DEPTH : ℕ := 8

structure OuterStrides where
  strides : List Int64
  deriving DecidableEq

structure InnerStrides where
  strides : List Int64
  deriving DecidableEq

/-- The fields of one tiling level other than the nested layout. -/
structure TiledLevel where
  tileShape : List UInt64
  outerLayout : UInt8
  innerLayout : UInt8
  outerStrides : Option OuterStrides
  innerStrides : Option InnerStrides
  deriving DecidableEq

/-- A chain of tiling levels. The field `inner_tiled` is absent in a `flat` layout. -/
inductive TiledLayout where
  | flat (level : TiledLevel)
  | nested (level : TiledLevel) (innerTiled : TiledLayout)
  deriving DecidableEq

namespace TiledLevel
variable (lv : TiledLevel)

/-- The checks the constructor makes on the fields of a level, in its order. -/
def check (hasInner : Bool) : Result Unit := do
  Exec.reject (lv.tileShape = []) (.invalidLayout "tile_shape must not be empty")
  let first := lv.tileShape.idxOf 0
  Exec.reject (0 ∈ lv.tileShape) (.invalidLayout s!"tile_shape[{first}] must be > 0, got 0")
  Exec.reject (¬ (0x01 ≤ lv.outerLayout ∧ lv.outerLayout ≤ 0x03)) (.invalidLayout
    s!"outer_layout 0x{hexByte lv.outerLayout} is invalid: must be 0x01, 0x02, or 0x03")
  Exec.reject (¬ (0x01 ≤ lv.innerLayout ∧ lv.innerLayout ≤ 0x04)) (.invalidLayout
    s!"inner_layout 0x{hexByte lv.innerLayout} is invalid: must be 0x01, 0x02, 0x03, or 0x04")
  Exec.reject (lv.outerLayout = 0x03 ∧ lv.outerStrides = none) (.invalidLayout
    "outer_strides must be present when outer_layout is 0x03 (strided)")
  Exec.reject (lv.outerLayout ≠ 0x03 ∧ lv.outerStrides ≠ none) (.invalidLayout
    s!"outer_strides present but outer_layout is 0x{hexByte lv.outerLayout} (not strided)")
  Exec.reject (lv.innerLayout = 0x03 ∧ lv.innerStrides = none) (.invalidLayout
    "inner_strides must be present when inner_layout is 0x03 (strided)")
  Exec.reject (lv.innerLayout ≠ 0x03 ∧ lv.innerStrides ≠ none) (.invalidLayout
    s!"inner_strides present but inner_layout is 0x{hexByte lv.innerLayout} (not strided)")
  Exec.reject (lv.innerLayout = 0x04 ∧ hasInner = false) (.invalidLayout
    "inner_tiled must be present when inner_layout is 0x04 (tiled)")
  Exec.reject (lv.innerLayout ≠ 0x04 ∧ hasInner = true) (.invalidLayout
    s!"inner_tiled present but inner_layout is 0x{hexByte lv.innerLayout} (not tiled)")

/-- What `check` asks of a level: legal tags, with each optional field present exactly
when its tag announces it. -/
structure WellFormed (hasInner : Bool) : Prop where
  tileShape_ne_nil : lv.tileShape ≠ []
  tileShape_pos : 0 ∉ lv.tileShape
  outerLayout_mem : 0x01 ≤ lv.outerLayout ∧ lv.outerLayout ≤ 0x03
  innerLayout_mem : 0x01 ≤ lv.innerLayout ∧ lv.innerLayout ≤ 0x04
  outerStrides_iff : lv.outerStrides = none ↔ lv.outerLayout ≠ 0x03
  innerStrides_iff : lv.innerStrides = none ↔ lv.innerLayout ≠ 0x03
  innerTiled_iff : hasInner = false ↔ lv.innerLayout ≠ 0x04

/-- A field is neither absent where it is announced nor present where it is not. -/
theorem absent_iff {announced absent : Prop} :
    ¬ (announced ∧ absent) ∧ ¬ (¬ announced ∧ ¬ absent) ↔ (absent ↔ ¬ announced) := by
  constructor
  · intro h
    obtain ⟨hmissing, hstray⟩ := h
    exact ⟨fun ha hann => hmissing ⟨hann, ha⟩, fun hann => by_contra fun ha => hstray ⟨hann, ha⟩⟩
  · intro h
    exact ⟨fun hmissing => h.mp hmissing.2 hmissing.1, fun hstray => hstray.2 (h.mpr hstray.1)⟩

theorem check_eq_ok {hasInner : Bool} {u : Unit} :
    lv.check hasInner = .ok u ↔ lv.WellFormed hasInner := by
  simp only [check, Exec.bind_eq_ok, Exec.reject_eq_ok, exists_const, ← Bool.not_eq_false]
  constructor
  · intro h
    obtain ⟨h1, h2, h3, h4, h5, h6, h7, h8, h9, h10⟩ := h
    exact ⟨h1, h2, not_not.mp h3, not_not.mp h4, absent_iff.mp ⟨h5, h6⟩, absent_iff.mp ⟨h7, h8⟩,
      absent_iff.mp ⟨h9, h10⟩⟩
  · intro h
    obtain ⟨h5, h6⟩ := absent_iff.mpr h.outerStrides_iff
    obtain ⟨h7, h8⟩ := absent_iff.mpr h.innerStrides_iff
    obtain ⟨h9, h10⟩ := absent_iff.mpr h.innerTiled_iff
    exact ⟨h.tileShape_ne_nil, h.tileShape_pos, not_not.mpr h.outerLayout_mem,
      not_not.mpr h.innerLayout_mem, h5, h6, h7, h8, h9, h10⟩

end TiledLevel

namespace TiledLayout

def level : TiledLayout → TiledLevel
  | flat lv => lv
  | nested lv _ => lv

def innerTiled : TiledLayout → Option TiledLayout
  | flat _ => none
  | nested _ inner => some inner

def ofParts (lv : TiledLevel) : Option TiledLayout → TiledLayout
  | none => flat lv
  | some inner => nested lv inner

/-- The number of levels. -/
def depth : TiledLayout → ℕ
  | flat _ => 1
  | nested _ inner => inner.depth + 1

/-- The constructor rebuilds every nested level to enforce the depth limit. -/
def newAtDepth : ℕ → TiledLayout → Result TiledLayout
  | depth, flat lv => do
      Exec.reject (depth ≥ MAX_TILED_DEPTH) (.invalidLayout
        s!"tiled layout recursion depth {depth} exceeds maximum of {MAX_TILED_DEPTH}")
      lv.check false
      pure (flat lv)
  | depth, nested lv inner => do
      Exec.reject (depth ≥ MAX_TILED_DEPTH) (.invalidLayout
        s!"tiled layout recursion depth {depth} exceeds maximum of {MAX_TILED_DEPTH}")
      lv.check true
      let validated ← newAtDepth (depth + 1) inner
      pure (nested lv validated)

def new (lv : TiledLevel) (inner : Option TiledLayout) : Result TiledLayout :=
  newAtDepth 0 (ofParts lv inner)

def WellFormed : TiledLayout → Prop
  | flat lv => lv.WellFormed false
  | nested lv inner => lv.WellFormed true ∧ inner.WellFormed

/-- Every level satisfies `p`. -/
def AllLevels (p : TiledLevel → Prop) : TiledLayout → Prop
  | flat lv => p lv
  | nested lv inner => p lv ∧ inner.AllLevels p

theorem newAtDepth_eq_ok {k : ℕ} {t u : TiledLayout} :
    newAtDepth k t = .ok u ↔ u = t ∧ t.WellFormed ∧ k + t.depth ≤ MAX_TILED_DEPTH := by
  induction t generalizing k u with
  | flat lv =>
    simp only [newAtDepth, Exec.bind_eq_ok, Exec.reject_eq_ok, TiledLevel.check_eq_ok,
      exists_const, WellFormed, depth]
    constructor
    · intro h
      obtain ⟨hk, hlv, hu⟩ := h
      cases hu
      exact ⟨rfl, hlv, by omega⟩
    · intro h
      obtain ⟨rfl, hlv, hk⟩ := h
      exact ⟨by omega, hlv, rfl⟩
  | nested lv inner ih =>
    simp only [newAtDepth, Exec.bind_eq_ok, Exec.reject_eq_ok, TiledLevel.check_eq_ok,
      exists_const, WellFormed, depth, ih]
    constructor
    · intro h
      obtain ⟨hk, hlv, v, ⟨rfl, hinner, hd⟩, hu⟩ := h
      cases hu
      exact ⟨rfl, ⟨hlv, hinner⟩, by omega⟩
    · intro h
      obtain ⟨rfl, ⟨hlv, hinner⟩, hd⟩ := h
      exact ⟨by omega, hlv, inner, ⟨rfl, hinner, by omega⟩, rfl⟩

theorem new_eq_ok {lv : TiledLevel} {inner : Option TiledLayout} {t : TiledLayout} :
    new lv inner = .ok t ↔ t = ofParts lv inner ∧ t.WellFormed ∧ t.depth ≤ MAX_TILED_DEPTH := by
  rw [new, newAtDepth_eq_ok, Nat.zero_add]
  constructor
  · intro h
    obtain ⟨rfl, h⟩ := h
    exact ⟨rfl, h⟩
  · intro h
    obtain ⟨rfl, h⟩ := h
    exact ⟨rfl, h⟩

end TiledLayout

structure MortonLayout where
  mortonBits : List UInt32
  deriving DecidableEq

namespace MortonLayout

def new (mortonBits : List UInt32) : Result MortonLayout := do
  Exec.reject (mortonBits = []) (.invalidLayout "morton_bits must not be empty")
  let first := mortonBits.idxOf 0
  Exec.reject (0 ∈ mortonBits) (.invalidLayout s!"morton_bits[{first}] must be > 0, got 0")
  pure ⟨mortonBits⟩

structure WellFormed (l : MortonLayout) : Prop where
  ne_nil : l.mortonBits ≠ []
  pos : 0 ∉ l.mortonBits

theorem new_eq_ok {bits : List UInt32} {l : MortonLayout} :
    new bits = .ok l ↔ l.mortonBits = bits ∧ l.WellFormed := by
  simp only [new, Exec.bind_eq_ok, Exec.reject_eq_ok, exists_const]
  constructor
  · intro h
    obtain ⟨hne, hpos, hl⟩ := h
    cases hl
    exact ⟨rfl, hne, hpos⟩
  · intro h
    obtain ⟨rfl, hne, hpos⟩ := h
    exact ⟨hne, hpos, rfl⟩

end MortonLayout

structure CooLayout where
  nnz : UInt64
  isSorted : Bool
  deriving DecidableEq

structure CsrLayout where
  nnz : UInt64
  deriving DecidableEq

structure CscLayout where
  nnz : UInt64
  deriving DecidableEq

structure CsfLayout where
  nnz : UInt64
  modeOrder : List UInt32
  deriving DecidableEq

inductive KvRole where
  | key | value | fused
  deriving DecidableEq

namespace KvRole

def wireByte : KvRole → UInt8
  | key => 0x00
  | value => 0x01
  | fused => 0x02

def fromWire (byte : UInt8) : Option KvRole :=
  if byte = 0x00 then some key
  else if byte = 0x01 then some value
  else if byte = 0x02 then some fused
  else none

theorem fromWire_eq_some {b : UInt8} {r : KvRole} : fromWire b = some r ↔ r.wireByte = b := by
  constructor
  · intro h
    unfold fromWire at h
    split_ifs at h with h0 h1 h2 <;> cases h
    · exact h0.symm
    · exact h1.symm
    · exact h2.symm
  · rintro rfl
    cases r <;> rfl

end KvRole

inductive BlockTableIndexType where
  | u32 | u64
  deriving DecidableEq

namespace BlockTableIndexType

def wireByte : BlockTableIndexType → UInt8
  | u32 => 0x00
  | u64 => 0x01

def fromWire (byte : UInt8) : Option BlockTableIndexType :=
  if byte = 0x00 then some u32
  else if byte = 0x01 then some u64
  else none

theorem fromWire_eq_some {b : UInt8} {t : BlockTableIndexType} :
    fromWire b = some t ↔ t.wireByte = b := by
  constructor
  · intro h
    unfold fromWire at h
    split_ifs at h with h0 h1 <;> cases h
    · exact h0.symm
    · exact h1.symm
  · rintro rfl
    cases t <;> rfl

end BlockTableIndexType

def LAYER_INDEX_NONE : UInt32 := 0xFFFFFFFF

structure BlockPagedLayout where
  pageSize : UInt32
  numPages : UInt64
  pagedAxis : UInt32
  numSeqs : UInt32
  kvRole : KvRole
  layerIndex : Option UInt32
  blockTableIndexType : BlockTableIndexType
  deriving DecidableEq

namespace BlockPagedLayout

def validateQuantizationCompatibility (l : BlockPagedLayout) (schemeTag : UInt8)
    (quantAxis quantBlockSize : UInt32) : Result Unit :=
  if schemeTag = 0x02 then
    Exec.reject (quantAxis = 0) (.invalidQuantization
      ("block-paged: per-channel quantization (scheme 0x02) MUST NOT be applied " ++
        "to the paged axis (axis 0); use axis 1 (num_heads) or axis 2 (head_dim)"))
  else if schemeTag = 0x03 then do
    Exec.reject (quantAxis ≠ 0) (.invalidQuantization
      ("block-paged: per-block-affine quantization (scheme 0x03) requires " ++
        s!"axis = 0, got axis = {quantAxis}"))
    Exec.reject (quantBlockSize ≠ l.pageSize) (.invalidQuantization
      ("block-paged: per-block-affine quantization (scheme 0x03) requires " ++
        s!"block_size == page_size ({l.pageSize}), got block_size = {quantBlockSize}"))
  else pure ()

end BlockPagedLayout

inductive CombineOp where
  | replace | add
  deriving DecidableEq

def CombineOp.wireByte : CombineOp → UInt8
  | replace => 0x01
  | add => 0x02

inductive CompositionRule where
  | partition
  | overlay (op : CombineOp)
  | group
  deriving DecidableEq

namespace CompositionRule

def ruleByte : CompositionRule → UInt8
  | partition => 0x01
  | overlay _ => 0x02
  | group => 0x03

def combineOpByte : CompositionRule → UInt8
  | overlay op => op.wireByte
  | partition | group => 0x00

def fromWire (rule combineOp : UInt8) : Result CompositionRule :=
  if rule = 0xFF then Exec.fail (.invalidCompositionRule rule)
  else if rule = 0x00 ∨ (0x04 ≤ rule ∧ rule ≤ 0xEF) then Exec.fail (.reservedCompositionRule rule)
  else if 0xF0 ≤ rule ∧ rule ≤ 0xFE then Exec.fail (.privateCompositionRule rule)
  else if rule = 0x01 ∧ combineOp = 0x00 then .ok partition
  else if rule = 0x03 ∧ combineOp = 0x00 then .ok group
  else if rule = 0x02 ∧ combineOp = 0x01 then .ok (overlay .replace)
  else if rule = 0x02 ∧ combineOp = 0x02 then .ok (overlay .add)
  else Exec.fail (.invalidCombineOp rule combineOp)

theorem fromWire_eq_ok {b c : UInt8} {r : CompositionRule} :
    fromWire b c = .ok r ↔ r.ruleByte = b ∧ r.combineOpByte = c := by
  constructor
  · intro h
    unfold fromWire at h
    split_ifs at h with _ _ _ h1 h3 h2 h2' <;> cases h
    · exact ⟨h1.1.symm, h1.2.symm⟩
    · exact ⟨h3.1.symm, h3.2.symm⟩
    · exact ⟨h2.1.symm, h2.2.symm⟩
    · exact ⟨h2'.1.symm, h2'.2.symm⟩
  · intro h
    obtain ⟨rfl, rfl⟩ := h
    rcases r with _ | (_ | _) | _ <;> decide

end CompositionRule

def OPEN_COMPOSITE_SENTINEL : UInt32 := 0xFFFFFFFF

structure CompositeLayout where
  rule : CompositionRule
  memberCount : UInt32
  deriving DecidableEq

namespace CompositeLayout

def new (rule : CompositionRule) (memberCount : UInt32) : Result CompositeLayout := do
  Exec.reject (memberCount = OPEN_COMPOSITE_SENTINEL) .openCompositeReserved
  pure ⟨rule, memberCount⟩

def WellFormed (l : CompositeLayout) : Prop := l.memberCount ≠ OPEN_COMPOSITE_SENTINEL

theorem new_eq_ok {rule : CompositionRule} {count : UInt32} {l : CompositeLayout} :
    new rule count = .ok l ↔ l.rule = rule ∧ l.memberCount = count ∧ l.WellFormed := by
  simp only [new, Exec.bind_eq_ok, Exec.reject_eq_ok, exists_const]
  constructor
  · intro h
    obtain ⟨hne, hl⟩ := h
    cases hl
    exact ⟨rfl, rfl, hne⟩
  · intro h
    obtain ⟨rfl, rfl, hne⟩ := h
    exact ⟨hne, rfl⟩

end CompositeLayout

structure HilbertLayout where
  hilbertOrder : UInt32
  hilbertRank : UInt32
  deriving DecidableEq

namespace HilbertLayout

def new (hilbertOrder hilbertRank : UInt32) : Result HilbertLayout := do
  Exec.reject (hilbertOrder = 0) (.invalidLayout "hilbert_order must be > 0")
  Exec.reject (hilbertRank < 2) (.invalidLayout s!"hilbert_rank must be >= 2, got {hilbertRank}")
  pure ⟨hilbertOrder, hilbertRank⟩

structure WellFormed (l : HilbertLayout) : Prop where
  order_ne : l.hilbertOrder ≠ 0
  rank_ge : ¬ l.hilbertRank < 2

theorem new_eq_ok {order rank : UInt32} {l : HilbertLayout} : new order rank = .ok l ↔
    l.hilbertOrder = order ∧ l.hilbertRank = rank ∧ l.WellFormed := by
  simp only [new, Exec.bind_eq_ok, Exec.reject_eq_ok, exists_const]
  constructor
  · intro h
    obtain ⟨horder, hrank, hl⟩ := h
    cases hl
    exact ⟨rfl, rfl, horder, hrank⟩
  · intro h
    obtain ⟨rfl, rfl, horder, hrank⟩ := h
    exact ⟨horder, hrank, rfl⟩

end HilbertLayout

structure PrivateExtensionLayout where
  tag : UInt8
  extensionLayoutId : UInt64
  extensionData : List UInt8
  deriving DecidableEq

namespace PrivateExtensionLayout

def new (tag : UInt8) (extensionLayoutId : UInt64) (extensionData : List UInt8) :
    Result PrivateExtensionLayout := do
  Exec.reject (¬ isPrivateTag tag) (.invalidLayout
    (s!"private extension layout tag 0x{hexByte tag} is outside the valid range " ++
      s!"0x{hexByte 0xF0}–0x{hexByte 0xFE}"))
  pure ⟨tag, extensionLayoutId, extensionData⟩

def WellFormed (l : PrivateExtensionLayout) : Prop := isPrivateTag l.tag

theorem new_eq_ok {tag : UInt8} {id : UInt64} {data : List UInt8} {l : PrivateExtensionLayout} :
    new tag id data = .ok l ↔
      l.tag = tag ∧ l.extensionLayoutId = id ∧ l.extensionData = data ∧ l.WellFormed := by
  simp only [new, Exec.bind_eq_ok, Exec.reject_eq_ok, exists_const, not_not]
  constructor
  · intro h
    obtain ⟨htag, hl⟩ := h
    cases hl
    exact ⟨rfl, rfl, rfl, htag⟩
  · intro h
    obtain ⟨rfl, rfl, rfl, htag⟩ := h
    exact ⟨htag, rfl⟩

end PrivateExtensionLayout

structure UnknownLayout where
  tag : UInt8
  rawBytes : List UInt8
  deriving DecidableEq

namespace UnknownLayout

def new (tag : UInt8) (rawBytes : List UInt8) : Result UnknownLayout := do
  Exec.reject (isInvalidTag tag) (.invalidLayoutTag tag)
  Exec.reject (isNamedTag tag) (.namedLayoutTag tag)
  Exec.reject (isPrivateTag tag) (.privateLayoutTag tag)
  pure ⟨tag, rawBytes⟩

structure WellFormed (l : UnknownLayout) : Prop where
  not_invalid : ¬ isInvalidTag l.tag
  not_named : ¬ isNamedTag l.tag
  not_private : ¬ isPrivateTag l.tag

end UnknownLayout

inductive LayoutDescriptor where
  | rowMajor
  | colMajor
  | strided (l : StridedLayout)
  | tiled (l : TiledLayout)
  | morton (l : MortonLayout)
  | coo (l : CooLayout)
  | csr (l : CsrLayout)
  | csc (l : CscLayout)
  | csf (l : CsfLayout)
  | blockPaged (l : BlockPagedLayout)
  | composite (l : CompositeLayout)
  | hilbert (l : HilbertLayout)
  | privateExtension (l : PrivateExtensionLayout)
  | unknown (l : UnknownLayout)
  deriving DecidableEq

namespace LayoutDescriptor

def tag : LayoutDescriptor → UInt8
  | rowMajor => TAG_ROW_MAJOR
  | colMajor => TAG_COL_MAJOR
  | strided _ => TAG_STRIDED
  | tiled _ => TAG_TILED
  | morton _ => TAG_MORTON
  | coo _ => TAG_COO
  | csr _ => TAG_CSR
  | csc _ => TAG_CSC
  | csf _ => TAG_CSF
  | blockPaged _ => TAG_BLOCK_PAGED
  | composite _ => TAG_COMPOSITE
  | hilbert _ => TAG_HILBERT
  | privateExtension l => l.tag
  | unknown l => l.tag

def isVirtual : LayoutDescriptor → Bool
  | composite _ => true
  | _ => false

/-- The layout satisfies what its own constructor checks. -/
def WellFormed : LayoutDescriptor → Prop
  | tiled l => l.WellFormed ∧ l.depth ≤ MAX_TILED_DEPTH
  | morton l => l.WellFormed
  | composite l => l.WellFormed
  | hilbert l => l.WellFormed
  | privateExtension l => l.WellFormed
  | unknown l => l.WellFormed
  | _ => True

end LayoutDescriptor
end Hurray.Core
