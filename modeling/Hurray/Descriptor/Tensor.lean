import Hurray.Core.Quantization
import Hurray.Descriptor.LayoutCodec
import Hurray.Descriptor.Sections

/-! Tensor descriptors, their constructor, and the two halves of the codec. -/
namespace Hurray.Descriptor
open Hurray.Base Hurray.Core

def MAGIC : Bytes := [0x48, 0x52, 0x52, 0x59]
def DESCRIPTOR_VERSION_MAJOR : UInt8 := 1
def DESCRIPTOR_VERSION_MINOR : UInt8 := 0
def MIN_DESCRIPTOR_LEN : UInt32 := 20

namespace DescriptorFlags

def HAS_QUANTIZATION : UInt32 := 1
def HAS_SHARD : UInt32 := 2
def HAS_EXTENSION_TYPE : UInt32 := 4
def HAS_STATISTICS : UInt32 := 8
def HAS_COMPOSITE_MEMBER : UInt32 := 16
def RESERVED_FLAGS_MASK : UInt32 := ~~~0x1F

/-- The flag `bit` is set. -/
def has (flags bit : UInt32) : Bool := decide (flags &&& bit ≠ 0)

/-- The flags word built from the presence of each section. -/
def ofPresence (quantization shard extensionType statistics compositeMember : Bool) : UInt32 :=
  let flags := if quantization then 0 ||| HAS_QUANTIZATION else 0
  let flags := if shard then flags ||| HAS_SHARD else flags
  let flags := if extensionType then flags ||| HAS_EXTENSION_TYPE else flags
  let flags := if statistics then flags ||| HAS_STATISTICS else flags
  if compositeMember then flags ||| HAS_COMPOSITE_MEMBER else flags

private theorem toNat_lt_of_reserved {x : UInt32} (h : x &&& RESERVED_FLAGS_MASK = 0) :
    x.toNat < 32 := by
  have hsplit : x.toBitVec = x.toBitVec &&& (RESERVED_FLAGS_MASK ||| 0x1F).toBitVec := by
    rw [show (RESERVED_FLAGS_MASK ||| 0x1F).toBitVec = BitVec.allOnes 32 by decide,
      BitVec.and_allOnes]
  have hzero : x.toBitVec &&& RESERVED_FLAGS_MASK.toBitVec = 0 := congrArg UInt32.toBitVec h
  have hlow : x.toBitVec = x.toBitVec &&& 0x1F := by
    rw [UInt32.toBitVec_or, BitVec.and_or_distrib_left, hzero] at hsplit
    simpa using hsplit
  have hnat : x.toNat = x.toNat &&& 0x1F := congrArg BitVec.toNat hlow
  rw [hnat]
  exact Nat.and_lt_two_pow _ (by decide : 0x1F < 2 ^ 5)

/-- A flags word without reserved bits is the one its own five bits build. -/
theorem eq_ofPresence {x : UInt32} (h : x &&& RESERVED_FLAGS_MASK = 0) :
    x = ofPresence (has x HAS_QUANTIZATION) (has x HAS_SHARD) (has x HAS_EXTENSION_TYPE)
      (has x HAS_STATISTICS) (has x HAS_COMPOSITE_MEMBER) := by
  have hall : ∀ k < 32, UInt32.ofNat k = ofPresence (has (UInt32.ofNat k) HAS_QUANTIZATION)
      (has (UInt32.ofNat k) HAS_SHARD) (has (UInt32.ofNat k) HAS_EXTENSION_TYPE)
      (has (UInt32.ofNat k) HAS_STATISTICS) (has (UInt32.ofNat k) HAS_COMPOSITE_MEMBER) := by
    decide
  have hx := hall x.toNat (toNat_lt_of_reserved h)
  rwa [UInt32.ofNat_toNat] at hx

theorem has_ofPresence (q s e st m : Bool) :
    has (ofPresence q s e st m) HAS_QUANTIZATION = q ∧ has (ofPresence q s e st m) HAS_SHARD = s ∧
      has (ofPresence q s e st m) HAS_EXTENSION_TYPE = e ∧
      has (ofPresence q s e st m) HAS_STATISTICS = st ∧
      has (ofPresence q s e st m) HAS_COMPOSITE_MEMBER = m := by
  cases q <;> cases s <;> cases e <;> cases st <;> cases m <;> decide

theorem ofPresence_inj {q s e st m q' s' e' st' m' : Bool}
    (h : ofPresence q s e st m = ofPresence q' s' e' st' m') :
    q = q' ∧ s = s' ∧ e = e' ∧ st = st' ∧ m = m' := by
  obtain ⟨hq, hs, he, hst, hm⟩ := has_ofPresence q s e st m
  rw [h] at hq hs he hst hm
  obtain ⟨hq', hs', he', hst', hm'⟩ := has_ofPresence q' s' e' st' m'
  exact ⟨hq.symm.trans hq', hs.symm.trans hs', he.symm.trans he', hst.symm.trans hst',
    hm.symm.trans hm'⟩

theorem ofPresence_reserved (q s e st m : Bool) :
    ofPresence q s e st m &&& RESERVED_FLAGS_MASK = 0 := by
  cases q <;> cases s <;> cases e <;> cases st <;> cases m <;> decide

end DescriptorFlags

structure TensorDescriptor where
  versionMajor : UInt8
  versionMinor : UInt8
  elementType : ElementType
  shape : Shape
  byteOffset : UInt64
  layout : LayoutDescriptor
  buffers : List BufferHandle
  quantization : Option Bytes
  shard : Option ShardDescriptor
  statistics : Option Statistics
  extensionType : Option ExtensionTypeDescriptor
  compositeMember : Option CompositeMemberDescriptor
  deriving DecidableEq

namespace TensorDescriptor

def isComposite : LayoutDescriptor → Bool := LayoutDescriptor.isVirtual

def isBlockPaged : LayoutDescriptor → Bool
  | .blockPaged _ => true
  | _ => false

def isCsf : LayoutDescriptor → Bool
  | .csf _ => true
  | _ => false

/-- The axis and block size the block-paged compatibility rule is asked about. -/
def quantAxisAndBlockSize : QuantizationDescriptor → UInt32 × UInt32
  | .perChannelAffine x => (x.axis, 0)
  | .perBlockAffine x => (x.axis, x.blockSize)
  | .nf4 x => (x.axis, x.blockSize)
  | .mxfp x => (x.axis, x.blockSize)
  | .perTensorAffine _ => (0, 0)

def checkBuffers (byteOffset : UInt64) (layout : LayoutDescriptor) (buffers : List BufferHandle)
    (quantization : Option Bytes) : Result Unit := do
  if isComposite layout then
    Exec.reject (buffers ≠ [])
      (.compositeHeadHasBuffers (UInt8.ofNat (min buffers.length 255)))
    Exec.reject (byteOffset ≠ 0) (.compositeHeadHasByteOffset byteOffset)
    Exec.reject (quantization.isSome) .compositeHeadHasQuantization
  else
    Exec.reject (buffers = []) .emptyBufferTable

def checkShard (shape : Shape) (layout : LayoutDescriptor) : Option ShardDescriptor → Result Unit
  | none => pure ()
  | some s => do
      Exec.reject (s.parentShape.length ≠ shape.rank) (.invalidShape
        (s!"shard.parent_shape.len() ({s.parentShape.length}) != shape.rank() " ++
          s!"({shape.rank})"))
      Exec.reject (isBlockPaged layout) (.invalidLayout
        "block-paged layout MUST NOT carry a shard descriptor (spec § Sharding)")
      Exec.reject (isCsf layout) (.invalidLayout
        "CSF layout MUST NOT carry a shard descriptor (spec § Sharding)")

def checkPagedQuantization : LayoutDescriptor → Option Bytes → Result Unit
  | .blockPaged bp, some q => do
      let (qd, _) ← QuantizationDescriptor.decode q
      let (axis, blockSize) := quantAxisAndBlockSize qd
      bp.validateQuantizationCompatibility qd.schemeTag.tag axis blockSize
  | _, _ => pure ()

def new (versionMajor versionMinor : UInt8) (elementType : ElementType) (shape : Shape)
    (byteOffset : UInt64) (layout : LayoutDescriptor) (buffers : List BufferHandle)
    (quantization : Option Bytes) (shard : Option ShardDescriptor)
    (statistics : Option Statistics) (extensionType : Option ExtensionTypeDescriptor) :
    Result TensorDescriptor := do
  checkBuffers byteOffset layout buffers quantization
  Exec.reject (buffers.length > 255) (.invalidLayout
    s!"buffer_count {buffers.length} exceeds the maximum of 255 (uint8 ceiling)")
  let isExtTag := decide (ElementType.IsExtensionTag elementType.tag)
  let hasExt := extensionType.isSome
  Exec.reject (isExtTag ≠ hasExt) (.extensionTypeFlagMismatch hasExt elementType.tag
    (if isExtTag then "in 0xF0-0xFE" else "not in 0xF0-0xFE"))
  checkShard shape layout shard
  checkPagedQuantization layout quantization
  pure { versionMajor, versionMinor, elementType, shape, byteOffset, layout, buffers,
         quantization, shard, statistics, extensionType, compositeMember := none }

def withCompositeMember (d : TensorDescriptor) (cm : CompositeMemberDescriptor) :
    TensorDescriptor :=
  { d with compositeMember := some cm }

def flags (d : TensorDescriptor) : UInt32 :=
  DescriptorFlags.ofPresence d.quantization.isSome d.shard.isSome d.extensionType.isSome
    d.statistics.isSome d.compositeMember.isSome

/-- The rules across sections that the constructor checks. -/
structure CrossSection (d : TensorDescriptor) : Prop where
  buffers : checkBuffers d.byteOffset d.layout d.buffers d.quantization = .ok ()
  bufferCount : d.buffers.length ≤ 255
  extension : d.extensionType.isSome = decide (ElementType.IsExtensionTag d.elementType.tag)
  shard : checkShard d.shape d.layout d.shard = .ok ()
  pagedQuantization : checkPagedQuantization d.layout d.quantization = .ok ()

theorem new_eq_ok {major minor : UInt8} {ty : ElementType} {shape : Shape} {off : UInt64}
    {layout : LayoutDescriptor} {buffers : List BufferHandle} {q : Option Bytes}
    {shard : Option ShardDescriptor} {st : Option Statistics}
    {ext : Option ExtensionTypeDescriptor} {d : TensorDescriptor} :
    new major minor ty shape off layout buffers q shard st ext = .ok d ↔
      d = ⟨major, minor, ty, shape, off, layout, buffers, q, shard, st, ext, none⟩ ∧
        d.CrossSection := by
  simp only [new, Exec.bind_eq_ok, Exec.reject_eq_ok, exists_const, not_not, not_lt, gt_iff_lt,
    pure, Except.pure, Except.ok.injEq]
  constructor
  · rintro ⟨_, hbuf, hcount, hext, _, hshard, _, hquant, rfl⟩
    exact ⟨rfl, hbuf, hcount, hext.symm, hshard, hquant⟩
  · rintro ⟨rfl, hbuf, hcount, hext, hshard, hquant⟩
    exact ⟨(), hbuf, hcount, hext.symm, (), hshard, (), hquant, rfl⟩

end TensorDescriptor

def encodeBufferHandle (h : BufferHandle) : Bytes :=
  u64Bytes h.byteSize ++ u32Bytes h.alignment ++
    [h.deviceTag.toByte, h.syncMode.toByte, h.memoryClass.toByte, 0]

def encodeQuantization (q : Bytes) : Bytes := u32Bytes (UInt32.ofNat q.length) ++ q

/-- The error for a composite member section on a composite head. -/
def memberOnHead : Error := .invalidLayout
  "composite head MUST NOT carry a Composite Member section (HAS_COMPOSITE_MEMBER)"

/-- The bytes of a descriptor before the length field is patched. -/
def encodeUnpatched (d : TensorDescriptor) : Result Bytes := do
  let rank := UInt32.ofNat d.shape.rank
  let layoutPayload ← encodeLayoutPayload d.layout rank
  Exec.reject (d.buffers.length > 255) (.invalidLayout
    s!"buffer_count {d.buffers.length} exceeds the maximum of 255 (uint8 ceiling)")
  Exec.reject (d.compositeMember.isSome ∧ d.layout.isVirtual) memberOnHead
  pure (MAGIC ++ [d.versionMajor, d.versionMinor] ++ u32Bytes 0 ++ u32Bytes d.flags ++
    [d.elementType.tag, d.layout.tag] ++ u32Bytes rank ++ d.shape.dims.flatMap u64Bytes ++
    u64Bytes d.byteOffset ++ layoutPayload ++ [UInt8.ofNat d.buffers.length] ++
    d.buffers.flatMap encodeBufferHandle ++ d.quantization.elim [] encodeQuantization ++
    d.shard.elim [] ShardDescriptor.encode ++ d.statistics.elim [] Statistics.encode ++
    d.extensionType.elim [] ExtensionTypeDescriptor.encode ++
    d.compositeMember.elim [] CompositeMemberDescriptor.encode)

/-- The length field sits at bytes 6 to 9. -/
def encode (d : TensorDescriptor) : Result Bytes := do
  let buf ← encodeUnpatched d
  Exec.reject (buf.length > 0xFFFFFFFF) (.descriptorLengthMismatch 0xFFFFFFFF buf.length)
  pure (buf.take 6 ++ u32Bytes (UInt32.ofNat buf.length) ++ buf.drop 10)

/-- The fields of the fixed header that follow the length. -/
structure FixedHeader where
  flags : UInt32
  elementType : ElementType
  layoutTag : UInt8
  rank : UInt32

def decodeHeader : Decoder FixedHeader := do
  let flags ← readU32
  Reader.reject (flags &&& DescriptorFlags.RESERVED_FLAGS_MASK ≠ 0)
    (.reservedDescriptorFlagBitsSet flags DescriptorFlags.RESERVED_FLAGS_MASK)
  let typeTag ← readU8
  let elementType ← Reader.lift (ElementType.fromTag typeTag)
  let layoutTag ← readU8
  let rank ← readU32
  Reader.reject (rank.toNat > MAX_RANK) (.rankExceedsMaximum rank (UInt32.ofNat MAX_RANK))
  pure ⟨flags, elementType, layoutTag, rank⟩

def decodeShape (rank : UInt32) : Decoder Shape := do
  let dims ← Reader.many readU64 rank.toNat
  Reader.lift (Shape.new dims)

def decodeBufferHandle : Decoder BufferHandle := do
  let byteSize ← readU64
  let alignment ← readU32
  let deviceTagByte ← readU8
  let syncModeByte ← readU8
  let memoryClassByte ← readU8
  let reserved ← readU8
  Reader.reject (reserved ≠ 0) (.reservedBytesNonZero "buffer_handle._reserved")
  let deviceTag ← Reader.lift (DeviceTag.fromByte deviceTagByte)
  let syncMode ← Reader.lift (SyncMode.fromByte syncModeByte)
  let memoryClass ← Reader.lift (MemoryClass.fromByte memoryClassByte)
  Reader.lift (BufferHandle.withMemoryClass byteSize alignment deviceTag syncMode memoryClass)

def decodeBufferTable (isCompositeHead : Bool) : Decoder (List BufferHandle) := do
  let bufferCount ← readU8
  Reader.reject (bufferCount = 0 ∧ isCompositeHead = false) .emptyBufferTable
  Reader.many decodeBufferHandle bufferCount.toNat

def decodeQuantization : Decoder Bytes := do
  let quantLen ← readU32
  readBytes quantLen.toNat

def decodeShard (rank : UInt32) (shape : Shape) : Decoder ShardDescriptor := do
  let s ← ShardDescriptor.decode rank
  Reader.lift (s.validateAgainstShape shape)
  pure s

def isExtension : ElementType → Bool
  | .extension _ => true
  | _ => false

/-- The fields after the length, read in wire order. -/
def decodeFields (versionMajor versionMinor : UInt8) : Decoder TensorDescriptor := do
  let header ← decodeHeader
  let shape ← decodeShape header.rank
  let byteOffset ← readU64
  let layout ← decodeLayoutPayload header.layoutTag header.rank
  let hasExt := DescriptorFlags.has header.flags DescriptorFlags.HAS_EXTENSION_TYPE
  Reader.reject (isExtension header.elementType ≠ hasExt)
    (.extensionTypeFlagMismatch hasExt header.elementType.tag
      (if isExtension header.elementType then "in 0xF0-0xFE" else "not in 0xF0-0xFE"))
  let buffers ← decodeBufferTable layout.isVirtual
  let quantization ← Reader.optional
    (DescriptorFlags.has header.flags DescriptorFlags.HAS_QUANTIZATION) decodeQuantization
  let shard ← Reader.optional
    (DescriptorFlags.has header.flags DescriptorFlags.HAS_SHARD) (decodeShard header.rank shape)
  let statistics ← Reader.optional
    (DescriptorFlags.has header.flags DescriptorFlags.HAS_STATISTICS) Statistics.decode
  let extensionType ← Reader.optional hasExt ExtensionTypeDescriptor.decode
  let compositeMember ← Reader.optional
    (DescriptorFlags.has header.flags DescriptorFlags.HAS_COMPOSITE_MEMBER)
    CompositeMemberDescriptor.decode
  pure { versionMajor, versionMinor, elementType := header.elementType, shape, byteOffset, layout,
         buffers, quantization, shard, statistics, extensionType, compositeMember }

/-- The constructor call that ends the decoder, and the check that only it can make. -/
def finishDecode (f : TensorDescriptor) : Result TensorDescriptor := do
  let descriptor ← TensorDescriptor.new f.versionMajor f.versionMinor f.elementType f.shape
    f.byteOffset f.layout f.buffers f.quantization f.shard f.statistics f.extensionType
  match f.compositeMember with
  | some cm => do
      Exec.reject (f.layout.isVirtual) memberOnHead
      pure (descriptor.withCompositeMember cm)
  | none => pure descriptor

def decode (bytes : Bytes) : Result TensorDescriptor := do
  Exec.reject (bytes.length < 10) (.descriptorTruncated 0 10 bytes.length)
  let magic ← Exec.slice bytes 0 4
  Exec.reject (magic ≠ MAGIC) (.invalidMagic magic)
  let versionMajor ← Exec.index bytes 4
  let versionMinor ← Exec.index bytes 5
  Exec.reject (versionMajor > DESCRIPTOR_VERSION_MAJOR)
    (.unsupportedDescriptorVersion versionMajor versionMinor)
  let lengthBytes ← Exec.slice bytes 6 4
  let descriptorLength := u32OfBytes lengthBytes
  Exec.reject (descriptorLength < MIN_DESCRIPTOR_LEN) (.descriptorTooShort descriptorLength)
  -- The limit is clamped to the bytes at hand before the cursor clamps it again.
  let start := ByteCursor.new bytes (min descriptorLength.toNat bytes.length)
  let skipped ← readBytes 10 start
  let (fields, cursor) ← decodeFields versionMajor versionMinor skipped.2
  -- Only a known minor version has its length checked against what was read.
  Exec.reject (versionMinor = DESCRIPTOR_VERSION_MINOR ∧ cursor.pos ≠ descriptorLength.toNat)
    (.descriptorLengthMismatch descriptorLength cursor.pos)
  finishDecode fields

end Hurray.Descriptor
