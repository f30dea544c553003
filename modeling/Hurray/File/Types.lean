import Hurray.Base.Utf8
import Hurray.Stream.Types

/-! The values that a file container holds, and the constants of its format. -/
namespace Hurray.File
open Hurray.Base Hurray.Core Hurray.Descriptor Hurray.Stream

abbrev Error := Stream.Error

abbrev Result := Stream.Result

def FILE_MAGIC : Bytes := [0x48, 0x52, 0x52, 0x59, 0x46, 0x49, 0x4C, 0x45]
def TRAILER_MAGIC : Bytes := [0x48, 0x52, 0x52, 0x59]
def FILE_HEADER_SIZE : UInt64 := 64
def TRAILER_SIZE : UInt64 := 40
def SUPPORTED_CONTAINER_VERSION_MAJOR : UInt8 := 1
def MIN_DATA_BUFFER_ALIGNMENT : UInt32 := 4096
def MAX_DATA_BUFFER_ALIGNMENT : UInt32 := 2 * 1024 * 1024

def HAS_KV_METADATA : UInt32 := (1 : UInt32) <<< 0
def SORTED_INDEX : UInt32 := (1 : UInt32) <<< 1
def HAS_INDEX_CRC32C : UInt32 := (1 : UInt32) <<< 2

/-- The bits of the file flags above the three assigned ones. -/
def RESERVED_FLAGS : UInt32 := ~~~0x07

structure FileWriterOptions where
  dataBufferAlignment : UInt32
  sortedIndex : Bool
  deriving DecidableEq

namespace FileWriterOptions

def default : FileWriterOptions where
  dataBufferAlignment := MIN_DATA_BUFFER_ALIGNMENT
  sortedIndex := false

def Valid (options : FileWriterOptions) : Prop :=
  isPowerOfTwo options.dataBufferAlignment ∧
    MIN_DATA_BUFFER_ALIGNMENT ≤ options.dataBufferAlignment ∧
    options.dataBufferAlignment ≤ MAX_DATA_BUFFER_ALIGNMENT

instance : DecidablePred Valid := fun _ => inferInstanceAs (Decidable (_ ∧ _))

def validate (options : FileWriterOptions) : Exec String Unit :=
  Exec.reject (¬ options.Valid)
    (s!"data_buffer_alignment {options.dataBufferAlignment} is invalid (must be a power of two " ++
      s!"in [{MIN_DATA_BUFFER_ALIGNMENT}, {MAX_DATA_BUFFER_ALIGNMENT}])")

end FileWriterOptions

inductive KvValue where
  | string (s : String)
  | int64 (v : Int64)
  | uint64 (v : UInt64)
  | float64 (v : F64)
  | bool (v : Bool)
  | bytes (v : Bytes)
  | array (elements : List KvValue)

structure IndexEntry where
  name : String
  descriptorOffset : UInt64
  descriptorLength : UInt32
  dataOffset : UInt64
  dataLength : UInt64
  deriving DecidableEq, Repr

def DEFAULT_MAX_COMPOSITE_DEPTH : ℕ := 64

structure FileTensor where
  name : String
  descriptor : TensorDescriptor
  buffers : List Bytes
  deriving DecidableEq

/-- A member of a composite as it is read: a tensor, or a composite of its own. -/
inductive FileItem where
  | tensor (t : FileTensor)
  | composite (name : String) (head : TensorDescriptor) (members : List FileItem)

structure FileComposite where
  name : String
  head : TensorDescriptor
  members : List FileItem

/-- A node of a composite as it is written. -/
inductive FileCompositeNode where
  | tensor (name : String) (descriptor : TensorDescriptor) (buffers : List Bytes)
  | composite (name : String) (head : TensorDescriptor) (members : List FileCompositeNode)

namespace FileItem

def descriptor : FileItem → TensorDescriptor
  | tensor t => t.descriptor
  | composite _ head _ => head

end FileItem

namespace FileCompositeNode

def descriptor : FileCompositeNode → TensorDescriptor
  | tensor _ d _ => d
  | composite _ head _ => head

end FileCompositeNode
end Hurray.File
