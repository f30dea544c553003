import Hurray.Descriptor.Contract

/-! The values that a stream carries, and the errors of the stream and file cores. -/
namespace Hurray.Stream
open Hurray.Base Hurray.Core Hurray.Descriptor

/-- Why a core may no longer be used. -/
inductive Unusable where
  | lostReadCount | lostWriteCount | incompleteOutput
  deriving DecidableEq, Repr

inductive Error where
  | core (e : Core.Error)
  | unexpectedEof
  | invalidHeader (reason : String)
  | multiBufferLengthMismatch (declared actual : ℕ)
  | bufferSizeMismatch (index : ℕ) (declared actual : UInt64)
  | frameTooLarge (kind : String) (value limit : UInt64)
  | invalidCrossMachineSyncMode (index : ℕ) (actual : UInt8)
  | unallocatableBuffer (index : ℕ) (byteSize : UInt64) (alignment : UInt32)
  | tornComposite (declared actual : UInt32)
  | compositeNestingTooDeep (limit : ℕ)
  | notAComposite (name : String)
  | coreUnusable (reason : Unusable)
  | coreFailed
  | invalidProgressReport (reported offered : ℕ)
  | zeroLengthWrite
  | sinkClosed
  | io (kind : String)
  | headerNotWritten
  | invalidFileMagic
  | invalidTrailerMagic
  | unsupportedContainerVersion (major : UInt8)
  | tensorNotFound (name : String)
  | duplicateTensorName (name : String)
  | tensorNameEmpty
  | tensorNameTooLong (len : ℕ)
  | indexCrc32cMismatch (stored computed : UInt32)
  | duplicateKvKey (key : String)
  | kvKeyEmpty
  | kvKeyTooLong (len : ℕ)
  | reservedFileFlagBits (flags : UInt32)
  | indexOverrunsTrailer
  deriving DecidableEq, Repr

abbrev Result := Exec Error

structure StreamReaderOptions where
  maxDescriptorBytes : UInt64
  maxBufferBytes : UInt64
  enforceCrossMachineSync : Bool
  maxCompositeDepth : ℕ

def DEFAULT_MAX_DESCRIPTOR_BYTES : UInt64 := 16 * 1024 * 1024
def DEFAULT_MAX_COMPOSITE_DEPTH : ℕ := 64

def StreamReaderOptions.default : StreamReaderOptions where
  maxDescriptorBytes := DEFAULT_MAX_DESCRIPTOR_BYTES
  maxBufferBytes := 0xFFFFFFFFFFFFFFFF
  enforceCrossMachineSync := false
  maxCompositeDepth := DEFAULT_MAX_COMPOSITE_DEPTH

structure StreamTensor where
  descriptor : TensorDescriptor
  buffers : List Bytes
  deriving DecidableEq

/-- A composite as it is written. -/
inductive CompositeNode where
  | tensor (descriptor : TensorDescriptor) (buffers : List Bytes)
  | composite (head : TensorDescriptor) (members : List CompositeNode)

/-- What a reader with reassembly delivers. -/
inductive StreamItem where
  | tensor (t : StreamTensor)
  | composite (head : TensorDescriptor) (members : List StreamItem)

namespace CompositeNode

def descriptor : CompositeNode → TensorDescriptor
  | tensor d _ => d
  | composite head _ => head

/-- The tensors of a node in the order of the wire: a head, then its members. -/
def tensors : CompositeNode → List StreamTensor
  | tensor d buffers => [⟨d, buffers⟩]
  | composite head members => ⟨head, []⟩ :: members.flatMap tensors

/-- The item that reads back a node. -/
def toItem : CompositeNode → StreamItem
  | tensor d buffers => .tensor ⟨d, buffers⟩
  | composite head members => .composite head (members.map toItem)

end CompositeNode

namespace StreamItem

def descriptor : StreamItem → TensorDescriptor
  | tensor t => t.descriptor
  | composite head _ => head

def tensors : StreamItem → List StreamTensor
  | tensor t => [t]
  | composite head members => ⟨head, []⟩ :: members.flatMap tensors

end StreamItem

/-- The worked example with a payload. -/
def workedTensor : StreamTensor := ⟨workedExample, [List.replicate 192 7]⟩

/-- A group over the worked example. -/
def workedGroup (memberCount : UInt32) : TensorDescriptor :=
  { workedExample with layout := .composite ⟨.group, memberCount⟩, buffers := [] }

end Hurray.Stream
