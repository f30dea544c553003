import Hurray.Base.Exec

/-! The error type of the core crate, with the text each error displays. -/
namespace Hurray.Core
open Hurray.Base

inductive Error where
  | invalidShape (reason : String)
  | alignmentNotPowerOfTwo (alignment : UInt32)
  | alignmentBelowMinimum (alignment minimum : UInt32)
  | invalidDeviceTag (tag : UInt8)
  | reservedDeviceTag (tag : UInt8)
  | deviceTagMismatch (expected found : UInt8)
  | emptyBufferList
  | invalidMemoryClass (byte : UInt8)
  | reservedMemoryClass (byte : UInt8)
  | memoryClassMismatch (expected found : UInt8)
  | invalidQuantization (reason : String)
  | quantizationDescriptorTooShort (found needed : ℕ)
  | invalidQuantizationSchemeTag (tag : UInt8)
  | reservedQuantizationSchemeTag (tag : UInt8)
  | privateQuantizationSchemeTag (tag : UInt8)
  | unknownQuantizationSchemeTag (tag : UInt8)
  | unsupportedSchemeVersion (tag version supported : UInt8)
  | reservedQuantizationFlagsBits (flags mask : UInt16)
  | invalidBlockSize (schemeTag : UInt8) (blockSize min max : UInt32)
  | invalidTypeTag (tag : UInt8)
  | reservedTypeTag (tag : UInt8)
  | unknownTypeTag (tag : UInt8)
  | rankExceedsMaximum (rank max : UInt32)
  | invalidLayoutTag (tag : UInt8)
  | reservedLayoutTag (tag : UInt8)
  | namedLayoutTag (tag : UInt8)
  | privateLayoutTag (tag : UInt8)
  | unknownLayoutTag (tag : UInt8)
  | invalidLayout (reason : String)
  | indexRankMismatch (indexRank shapeRank : ℕ)
  | indexOutOfRange (dim : UInt32) (index size : UInt64)
  | addressOverflow
  | byteAddressOverflow (bufferSize : UInt64)
  | layoutRequiresMultiBuffer (layoutTag : UInt8)
  | subpavingNestingTooDeep
  | dynamicDimInIndexing (dim : UInt32)
  | indexArithmeticOverflow
  | invalidSyncMode (byte : UInt8)
  | invalidMagic (got : List UInt8)
  | unsupportedDescriptorVersion (major minor : UInt8)
  | descriptorTooShort (length : UInt32)
  | descriptorTruncated (offset needed available : ℕ)
  | reservedDescriptorFlagBitsSet (flags mask : UInt32)
  | reservedBytesNonZero (field : String)
  | emptyBufferTable
  | extensionTypeFlagMismatch (flagSet : Bool) (typeTag : UInt8) (typeTagInRange : String)
  | extensionTypePackingInvalid (bitWidth : UInt32) (packingFactor : UInt8)
  | extensionTypeFieldInvalid (reason : String)
  | shardOutOfBounds (dim : ℕ) (offset size parent : UInt64)
  | statisticsReservedMaskBitsSet (mask : UInt32)
  | descriptorLengthMismatch (declared : UInt32) (actual : ℕ)
  | compositeHeadHasBuffers (count : UInt8)
  | compositeHeadHasByteOffset (byteOffset : UInt64)
  | compositeHeadHasQuantization
  | invalidCompositionRule (rule : UInt8)
  | reservedCompositionRule (rule : UInt8)
  | privateCompositionRule (rule : UInt8)
  | invalidCombineOp (rule combineOp : UInt8)
  | openCompositeReserved
  | invalidMemberRole (role : UInt8)
  | compositeMemberFlagMismatch (rule : UInt8) (hasFlag : Bool)
  | compositeMemberCountMismatch (declared : UInt32) (actual : ℕ)
  | compositeMemberMissingShard (index : ℕ)
  | compositeMemberParentShapeMismatch (index : ℕ)
  | compositeMemberTypeMismatch (index : ℕ) (member head : UInt8)
  | compositeOverlayBaseNotFirst
  | compositeOverlayBaseNotSpanning
  | compositeOverlayEmpty
  | compositePartitionGap
  | compositePartitionOverlap (a b : ℕ)
  | layoutIsVirtual (layoutTag : UInt8)
  deriving DecidableEq, Repr

abbrev Result := Exec Error

/-- Upper-case hexadecimal digits, padded with zeros to `width`. -/
def hex (width n : ℕ) : String :=
  let digits := (Nat.toDigits 16 n).map Char.toUpper
  String.ofList (List.replicate (width - digits.length) '0' ++ digits)

def hexByte (b : UInt8) : String := hex 2 b.toNat

namespace Error

def message : Error → String
  | invalidShape reason => s!"invalid shape or stride: {reason}"
  | alignmentNotPowerOfTwo alignment => s!"alignment {alignment} is not a power of two"
  | alignmentBelowMinimum alignment minimum =>
      s!"alignment {alignment} is below the minimum of {minimum} bytes required for non-empty " ++
        "buffers"
  | invalidDeviceTag tag => s!"invalid device tag: 0x{hexByte tag} is permanently reserved"
  | reservedDeviceTag tag =>
      s!"reserved device tag: 0x{hexByte tag} is reserved for future specification versions"
  | deviceTagMismatch expected found =>
      s!"device tag mismatch: expected 0x{hexByte expected}, found 0x{hexByte found}"
  | emptyBufferList => "buffer list is empty"
  | invalidMemoryClass byte => s!"invalid memory class: 0x{hexByte byte} is permanently reserved"
  | reservedMemoryClass byte =>
      s!"reserved memory class: 0x{hexByte byte} is reserved for future specification versions"
  | memoryClassMismatch expected found =>
      s!"memory class mismatch: expected 0x{hexByte expected}, found 0x{hexByte found}"
  | invalidQuantization reason => s!"invalid quantization descriptor: {reason}"
  | quantizationDescriptorTooShort found needed =>
      s!"quantization descriptor too short: have {found} bytes, need {needed}"
  | invalidQuantizationSchemeTag tag =>
      s!"invalid quantization scheme tag: 0x{hexByte tag} is permanently reserved"
  | reservedQuantizationSchemeTag tag =>
      s!"reserved quantization scheme tag: 0x{hexByte tag} is reserved for future specification " ++
        "versions"
  | privateQuantizationSchemeTag tag =>
      s!"private quantization scheme tag: 0x{hexByte tag} is implementation-private and not " ++
        "interpretable by this crate"
  | unknownQuantizationSchemeTag tag => s!"unknown quantization scheme tag: 0x{hexByte tag}"
  | unsupportedSchemeVersion tag version supported =>
      s!"unsupported scheme version: scheme tag 0x{hexByte tag} version {version} is not " ++
        s!"supported (highest supported: {supported})"
  | reservedQuantizationFlagsBits flags mask =>
      s!"reserved quantization flags bits set: 0x{hex 4 flags.toNat} " ++
        s!"(reserved mask: 0x{hex 4 mask.toNat})"
  | invalidBlockSize schemeTag blockSize min max =>
      s!"invalid block_size {blockSize} for scheme 0x{hexByte schemeTag}: must be a power of two " ++
        s!"in [{min}, {max}]"
  | invalidTypeTag tag =>
      s!"invalid type tag: 0x{hexByte tag} is permanently reserved and must never appear in a " ++
        "descriptor"
  | reservedTypeTag tag =>
      s!"reserved type tag: 0x{hexByte tag} is reserved for future specification versions"
  | unknownTypeTag tag =>
      s!"unknown type tag: 0x{hexByte tag} is not recognized by this implementation"
  | rankExceedsMaximum rank max => s!"rank {rank} exceeds the maximum permitted rank of {max}"
  | invalidLayoutTag tag => s!"invalid layout tag: 0x{hexByte tag} is permanently reserved"
  | reservedLayoutTag tag =>
      s!"reserved layout tag: 0x{hexByte tag} is reserved for future specification versions"
  | namedLayoutTag tag =>
      s!"layout tag 0x{hexByte tag} has a named descriptor and must not be wrapped as unknown"
  | privateLayoutTag tag =>
      s!"private layout tag: 0x{hexByte tag} is in the private-extension range (0xF0–0xFE)"
  | unknownLayoutTag tag =>
      s!"unknown layout tag: 0x{hexByte tag} is not recognized by this implementation"
  | invalidLayout reason => s!"invalid layout descriptor: {reason}"
  | indexRankMismatch indexRank shapeRank =>
      s!"index rank {indexRank} does not match shape rank {shapeRank}"
  | indexOutOfRange dim index size => s!"index[{dim}] = {index} is out of range [0, {size})"
  | addressOverflow => "address arithmetic overflow"
  | byteAddressOverflow bufferSize =>
      s!"byte address falls outside buffer bounds [0, {bufferSize})"
  | layoutRequiresMultiBuffer layoutTag =>
      s!"layout tag 0x{hexByte layoutTag} requires multi-buffer access; use the layout-specific " ++
        "method"
  | subpavingNestingTooDeep =>
      "layout nesting depth exceeds the implementation limit of 8 levels"
  | dynamicDimInIndexing dim =>
      s!"dimension {dim} is DYNAMIC and cannot be used for element addressing"
  | indexArithmeticOverflow =>
      "index arithmetic overflow in space-filling curve computation"
  | invalidSyncMode byte => s!"invalid sync mode byte: 0x{hexByte byte} (reserved or invalid)"
  | invalidMagic got =>
      let bytes := ", ".intercalate (got.map hexByte)
      s!"invalid magic: expected 48 52 52 59, got [{bytes}]"
  | unsupportedDescriptorVersion major minor => s!"unsupported descriptor version {major}.{minor}"
  | descriptorTooShort length =>
      s!"descriptor_length {length} is below the minimum of 20 bytes"
  | descriptorTruncated offset needed available =>
      s!"descriptor truncated: need {needed} bytes at offset {offset}, have {available}"
  | reservedDescriptorFlagBitsSet flags mask =>
      s!"reserved flag bits set: 0x{hex 8 flags.toNat} (reserved mask: 0x{hex 8 mask.toNat})"
  | reservedBytesNonZero field => s!"reserved field '{field}' must be 0x00"
  | emptyBufferTable => "buffer_count is 0; at least one buffer handle is required"
  | extensionTypeFlagMismatch flagSet typeTag typeTagInRange =>
      s!"HAS_EXTENSION_TYPE flag is {flagSet} but type_tag 0x{hexByte typeTag} is {typeTagInRange}"
  | extensionTypePackingInvalid bitWidth packingFactor =>
      s!"extension type packing invalid: bit_width={bitWidth}, packing_factor={packingFactor}"
  | extensionTypeFieldInvalid reason => s!"extension type field invalid: {reason}"
  | shardOutOfBounds dim offset size parent =>
      s!"shard out of bounds on dim {dim}: offset {offset} + size {size} > parent {parent}"
  | statisticsReservedMaskBitsSet mask =>
      s!"statistics computed_mask 0x{hex 8 mask.toNat} has reserved bits set"
  | descriptorLengthMismatch declared actual =>
      s!"descriptor_length mismatch: declared {declared}, actual {actual}"
  | compositeHeadHasBuffers count =>
      s!"composite head has {count} buffer(s); a composite head (layout_tag 0x0B) MUST have " ++
        "buffer_count = 0"
  | compositeHeadHasByteOffset byteOffset =>
      s!"composite head has byte_offset {byteOffset}; a composite head MUST have byte_offset = 0"
  | compositeHeadHasQuantization =>
      "composite head MUST NOT set HAS_QUANTIZATION (a virtual head owns no stored data)"
  | invalidCompositionRule rule =>
      s!"invalid composition rule: 0x{hexByte rule} is permanently reserved"
  | reservedCompositionRule rule =>
      s!"reserved composition rule: 0x{hexByte rule} is reserved for future specification versions"
  | privateCompositionRule rule =>
      s!"private composition rule: 0x{hexByte rule} is implementation-private and not " ++
        "interpretable by this crate"
  | invalidCombineOp rule combineOp =>
      s!"invalid combine_op 0x{hexByte combineOp} for composition rule 0x{hexByte rule}"
  | openCompositeReserved =>
      "member_count = 0xFFFFFFFF (open composite) is reserved and not usable in v1.0"
  | invalidMemberRole role =>
      s!"invalid composite member_role: 0x{hexByte role} (MUST be 0x00 correction or 0x01 base)"
  | compositeMemberFlagMismatch rule hasFlag =>
      s!"composite member HAS_COMPOSITE_MEMBER presence ({hasFlag}) disagrees with composition " ++
        s!"rule 0x{hexByte rule}"
  | compositeMemberCountMismatch declared actual =>
      s!"composite member_count mismatch: head declared {declared}, but {actual} member(s) were " ++
        "supplied"
  | compositeMemberMissingShard index =>
      s!"composite member {index} is missing a shard section (partition/overlay members MUST " ++
        "carry HAS_SHARD)"
  | compositeMemberParentShapeMismatch index =>
      s!"composite member {index}: shard parent_shape does not equal the head's shape"
  | compositeMemberTypeMismatch index member head =>
      s!"composite member {index}: decoded type 0x{hexByte member} does not equal head type_tag " ++
        s!"0x{hexByte head}"
  | compositeOverlayBaseNotFirst =>
      "overlay composite: the base member (member_role = 0x01) MUST be first, and only the first " ++
        "member may be the base"
  | compositeOverlayBaseNotSpanning =>
      "overlay composite: the base member MUST span the whole index space (zero shard_offset, " ++
        "shape == head shape)"
  | compositeOverlayEmpty =>
      "overlay composite MUST have at least one member (the base); member_count = 0 is rejected"
  | compositePartitionGap =>
      "partition composite: member boxes do not exactly cover the head's index space (gap " ++
        "detected)"
  | compositePartitionOverlap a b => s!"partition composite: member {a} and member {b} boxes overlap"
  | layoutIsVirtual layoutTag =>
      s!"layout tag 0x{hexByte layoutTag} is virtual (owns no data) and does not support element " ++
        "addressing"

end Error
end Hurray.Core
