import Hurray.Descriptor.Composite
import Hurray.File.Sections
import Hurray.Stream.Reader

/-!
The reader of a file: a state machine that asks for ranges of the file. It opens
the file by its header, trailer, index and key-value section, and then reads
what it is asked for by name: a descriptor, a tensor, or a composite, whose
members are the tensors written after its head.
-/
namespace Hurray.File
open Hurray.Base Hurray.Core Hurray.Descriptor Hurray.Stream

inductive FileStep where
  | range (offset : UInt64) (len : ℕ)
  | ready
  | descriptor
  | tensor
  | composite
  deriving DecidableEq, Repr

inductive Job where
  | descriptor
  | tensor
  | walk
  deriving DecidableEq, Repr

inductive Done where
  | descriptor
  | tensor
  | composite
  deriving DecidableEq, Repr

inductive FileState where
  | header
  | trailer
  | index
  | kv
  | ready
  | descriptor
  | buffer (index : ℕ)
  | done (d : Done)
  | failed
  deriving DecidableEq, Repr

/-- A composite head whose members are still arriving. -/
structure Open where
  name : String
  head : TensorDescriptor
  memberCount : UInt32
  members : List FileItem
  validator : CompositeValidator

/-- A traversal of the names in the order of the file. The innermost head is the first of the
stack. -/
structure Walk where
  names : List String
  cursor : ℕ
  stack : List Open

/-- The tensor being assembled. -/
structure FilePending where
  name : String
  descriptor : TensorDescriptor
  buffers : List Bytes
  dest : Option Bytes
  nextOffset : UInt64

structure FileReaderCore (A : Type) where
  size : UInt64
  dataBufferAlignment : UInt64
  maxCompositeDepth : ℕ
  destinations : A
  state : FileState
  job : Option Job
  flags : UInt32
  index : List IndexEntry
  kv : List (String × KvValue)
  kvRange : UInt64 × UInt32
  storedCrc : UInt32
  cursor : UInt64
  target : ℕ
  filled : ℕ
  staging : Bytes
  entryName : String
  entryDataOffset : UInt64
  pending : Option FilePending
  walk : Option Walk
  descriptorOut : Option TensorDescriptor
  tensorOut : Option FileTensor
  compositeOut : Option FileComposite

/-! ### The sections that locate the others -/

structure Trailer where
  indexOffset : UInt64
  indexLength : UInt64
  kvOffset : UInt64
  kvLength : UInt32
  indexCrc : UInt32
  deriving DecidableEq, Repr

/-- The checks of a header up to its flags. -/
def headerFlags (header : Bytes) : Result UInt32 := do
  let magic ← Exec.slice header 0 8
  Exec.reject (magic ≠ FILE_MAGIC) .invalidFileMagic
  let major ← Exec.index header 8
  Exec.reject (SUPPORTED_CONTAINER_VERSION_MAJOR < major) (.unsupportedContainerVersion major)
  let flags ← Exec.slice header 12 4
  Exec.reject (u32OfBytes flags &&& RESERVED_FLAGS ≠ 0) (.reservedFileFlagBits (u32OfBytes flags))
  pure (u32OfBytes flags)

def headerAlignment (header : Bytes) : Result UInt32 := do
  let field ← Exec.slice header 16 4
  let alignment := u32OfBytes field
  Exec.reject (¬ isPowerOfTwo alignment ∨ MAX_DATA_BUFFER_ALIGNMENT < alignment)
    (.invalidHeader (s!"data_buffer_alignment {alignment} is not a power of two in " ++
      s!"[1, {MAX_DATA_BUFFER_ALIGNMENT}]"))
  pure alignment

def readTrailer (trailer : Bytes) : Result Trailer := do
  let magic ← Exec.slice trailer 36 4
  Exec.reject (magic ≠ TRAILER_MAGIC) .invalidTrailerMagic
  let indexOffset ← Exec.slice trailer 0 8
  let indexLength ← Exec.slice trailer 8 8
  let kvOffset ← Exec.slice trailer 16 8
  let kvLength ← Exec.slice trailer 24 4
  let indexCrc ← Exec.slice trailer 28 4
  pure ⟨u64OfBytes indexOffset, u64OfBytes indexLength, u64OfBytes kvOffset, u32OfBytes kvLength,
    u32OfBytes indexCrc⟩

def checkIndexRange (size offset length : UInt64) : Result Unit := do
  let stop ← Exec.orFail (checkedAdd offset length) .indexOverrunsTrailer
  let limit ← Exec.subU64 size TRAILER_SIZE
  Exec.reject (limit < stop) .indexOverrunsTrailer

def checkIndexCrc (flags stored computed : UInt32) : Result Unit :=
  Exec.reject (flags &&& HAS_INDEX_CRC32C ≠ 0 ∧ computed ≠ stored)
    (.indexCrc32cMismatch stored computed)

/-- The names of an index in the order of the descriptors in the file. The source sorts by an
unstable sort; where two entries have one offset, their order there is its own. -/
def orderedNames (index : List IndexEntry) : List String :=
  (index.mergeSort fun e f => e.descriptorOffset ≤ f.descriptorOffset).map IndexEntry.name

namespace FileReaderCore
variable {A : Type}

def withDestinations (size : UInt64) (destinations : A) : FileReaderCore A where
  size := size
  dataBufferAlignment := 1
  maxCompositeDepth := DEFAULT_MAX_COMPOSITE_DEPTH
  destinations := destinations
  state := .header
  job := none
  flags := 0
  index := []
  kv := []
  kvRange := (0, 0)
  storedCrc := 0
  cursor := 0
  target := FILE_HEADER_SIZE.toNat
  filled := 0
  staging := List.replicate FILE_HEADER_SIZE.toNat 0
  entryName := ""
  entryDataOffset := 0
  pending := none
  walk := none
  descriptorOut := none
  tensorOut := none
  compositeOut := none

def new (size : UInt64) : FileReaderCore SystemDestinations :=
  withDestinations size SystemDestinations.mk

variable (c : FileReaderCore A)

def withMaxCompositeDepth (maxCompositeDepth : ℕ) : FileReaderCore A :=
  { c with maxCompositeDepth }

def isOpen : Bool :=
  match c.state with
  | .header | .trailer | .index | .kv | .failed => false
  | _ => true

def failOpen (e : Error) : Result Unit × FileReaderCore A :=
  (Exec.fail e, { c with state := .failed })

def fail (e : Error) : Result Unit × FileReaderCore A :=
  match c.state with
  | .header | .trailer | .index | .kv => c.failOpen e
  | _ => (Exec.fail e, { c with state := .ready, job := none, pending := none, walk := none })

/-- Goes on with a value; its absence ends the open sequence. -/
def orFailOpen {α : Type} (r : Result α) (next : α → Result Unit × FileReaderCore A) :
    Result Unit × FileReaderCore A :=
  match r with
  | .ok a => next a
  | .error (.error e) => c.failOpen e
  | .error .panic => (Exec.panic, c)

/-- Goes on with a value; its absence ends the job. -/
def orFail {α : Type} (r : Result α) (next : α → Result Unit × FileReaderCore A) :
    Result Unit × FileReaderCore A :=
  match r with
  | .ok a => next a
  | .error (.error e) => c.fail e
  | .error .panic => (Exec.panic, c)

def beginJob (job : Job) : Result Unit × FileReaderCore A :=
  if c.isOpen then
    (.ok (), { c with job := some job, pending := none, walk := none, descriptorOut := none,
                      tensorOut := none, compositeOut := none })
  else (Exec.fail .coreFailed, c)

def finishJob : FileReaderCore A := { c with job := none, state := .ready }

/-- Memory for a range. A vector longer than the largest allocation panics. -/
def request (offset : UInt64) (len : ℕ) (state : FileState) : Result Unit × FileReaderCore A :=
  let c := { c with cursor := offset, target := len, filled := 0, staging := [] }
  if ISIZE_MAX < len then (Exec.panic, c)
  else (.ok (), { c with staging := List.replicate len 0, state })

/-! ### The open sequence -/

def finishHeader : Result Unit × FileReaderCore A :=
  if c.size < FILE_HEADER_SIZE + TRAILER_SIZE then
    c.failOpen (.invalidHeader "file too small to contain a valid trailer")
  else
    c.orFailOpen (headerFlags c.staging) fun flags =>
      let c := { c with flags }
      c.orFailOpen (headerAlignment c.staging) fun alignment =>
        let c := { c with dataBufferAlignment := alignment.toUInt64 }
        c.orFailOpen (Exec.subU64 c.size TRAILER_SIZE) fun offset =>
          c.request offset TRAILER_SIZE.toNat .trailer

def finishTrailer : Result Unit × FileReaderCore A :=
  c.orFailOpen (readTrailer c.staging) fun t =>
    let c := { c with storedCrc := t.indexCrc, kvRange := (t.kvOffset, t.kvLength) }
    c.orFailOpen (checkIndexRange c.size t.indexOffset t.indexLength) fun _ =>
      c.request t.indexOffset t.indexLength.toNat .index

/-- There is a key-value section if the header says so or the trailer locates one. -/
def finishIndex (crc32c : Bytes → UInt32) : Result Unit × FileReaderCore A :=
  c.orFailOpen (checkIndexCrc c.flags c.storedCrc (crc32c c.staging)) fun _ =>
    c.orFailOpen (parseIndex c.staging) fun index =>
      let c := { c with index }
      if (c.flags &&& HAS_KV_METADATA ≠ 0 ∨ c.kvRange.1 ≠ 0) ∧ c.kvRange.1 ≠ 0 ∧
          c.kvRange.2 ≠ 0 then
        c.request c.kvRange.1 c.kvRange.2.toNat .kv
      else (.ok (), { c with state := .ready })

def finishKv : Result Unit × FileReaderCore A :=
  c.orFailOpen (parseKv c.staging) fun kv => (.ok (), { c with kv, state := .ready })

/-! ### Jobs -/

/-- Asks for the descriptor of the tensor of a name. -/
def startDescriptor (name : String) : Result Unit × FileReaderCore A :=
  match c.index.find? fun e => e.name = name with
  | none => (Exec.fail (.tensorNotFound name), c)
  | some e =>
      { c with entryName := e.name, entryDataOffset := e.dataOffset }.request e.descriptorOffset
        e.descriptorLength.toNat .descriptor

/-- The next tensor of the walk. At the end of the file the innermost head is the torn one. -/
def walkNext : Result Unit × FileReaderCore A :=
  match c.walk with
  | none => c.fail .coreFailed
  | some walk =>
      match walk.names[walk.cursor]? with
      | some name => { c with walk := some { walk with cursor := walk.cursor + 1 } }.startDescriptor
          name
      | none =>
          match walk.stack with
          | top :: _ =>
              c.fail (.tornComposite top.memberCount (UInt32.ofNat top.members.length))
          | [] => c.fail .coreFailed

/-- The item goes to the innermost head of the stack, and a head that is complete with it to the
head below. -/
def deliverTo (walk : Walk) : List Open → FileItem → Result Unit × FileReaderCore A
  | [], .composite name head members =>
      (.ok (), { c with compositeOut := some ⟨name, head, members⟩, walk := none,
                        state := .done .composite })
  | [], .tensor _ => c.fail .coreFailed
  | top :: rest, item =>
      c.orFail (Exec.mapError .core (top.validator.pushMember item.descriptor)) fun validator =>
        let members := top.members ++ [item]
        if UInt32.ofNat members.length < top.memberCount then
          { c with walk := some { walk with stack := { top with members, validator } ::
            rest } }.walkNext
        else
          c.orFail (Exec.mapError .core validator.finish) fun _ =>
            deliverTo walk rest (.composite top.name top.head members)

def deliver (item : FileItem) : Result Unit × FileReaderCore A :=
  match c.walk with
  | none => c.fail .coreFailed
  | some walk => c.deliverTo walk walk.stack item

def completeTensor : Result Unit × FileReaderCore A :=
  match c.pending with
  | none => c.fail .coreFailed
  | some p =>
      let c := { c with pending := none }
      let tensor := ⟨p.name, p.descriptor, p.buffers⟩
      match c.job with
      | some .tensor => (.ok (), { c with tensorOut := some tensor, state := .done .tensor })
      | some .walk => c.deliver (.tensor tensor)
      | _ => c.fail .coreFailed

variable [DestinationAlloc A]

def beginBuffer (index : ℕ) : Result Unit × FileReaderCore A :=
  match c.pending with
  | none => c.fail .coreFailed
  | some p =>
      match p.descriptor.buffers[index]? with
      | none => c.fail .coreFailed
      | some handle =>
          match DestinationAlloc.allocate ⟨index, handle.byteSize, handle.alignment⟩
              c.destinations with
          | (dest, destinations) =>
              { c with destinations }.orFail dest fun dest =>
                (.ok (), { c with destinations, pending := some { p with dest := some dest },
                                  cursor := p.nextOffset, target := handle.byteSize.toNat,
                                  filled := 0, state := .buffer index })

def beginBuffers (descriptor : TensorDescriptor) : Result Unit × FileReaderCore A :=
  let c := { c with pending := some ⟨c.entryName, descriptor, [], none, c.entryDataOffset⟩,
                    entryName := "" }
  if descriptor.buffers.length = 0 then c.completeTensor else c.beginBuffer 0

/-- The padding after a buffer is skipped, as each of them begins on the alignment. -/
def finishBuffer (index : ℕ) : Result Unit × FileReaderCore A :=
  match c.pending with
  | none => c.fail .coreFailed
  | some p =>
      match p.dest with
      | none => c.fail .coreFailed
      | some dest =>
          let p := { p with buffers := p.buffers ++ [dest], dest := none }
          let c := { c with pending := some p }
          if index + 1 < p.descriptor.buffers.length then
            c.orFail (alignUp c.cursor c.dataBufferAlignment) fun offset =>
              { c with pending := some { p with nextOffset := offset } }.beginBuffer (index + 1)
          else c.completeTensor

/-- The walk starts at a head, and what is no head has its buffers read. -/
def walkDescriptor (descriptor : TensorDescriptor) : Result Unit × FileReaderCore A :=
  match descriptor.layout with
  | .composite layout =>
      match c.walk with
      | none => c.fail .coreFailed
      | some walk =>
          if c.maxCompositeDepth ≤ walk.stack.length then
            c.fail (.compositeNestingTooDeep c.maxCompositeDepth)
          else
            c.orFail (Exec.mapError .core (CompositeValidator.new descriptor)) fun validator =>
              { c with entryName := "",
                       walk := some { walk with stack := ⟨c.entryName, descriptor,
                         layout.memberCount, [], validator⟩ :: walk.stack } }.walkNext
  | _ =>
      if c.walk.any fun walk => walk.stack.isEmpty then
        { c with entryName := "" }.fail (.notAComposite c.entryName)
      else c.beginBuffers descriptor

def finishDescriptor : Result Unit × FileReaderCore A :=
  c.orFail (Exec.mapError .core (decode c.staging)) fun descriptor =>
    match c.job with
    | some .descriptor =>
        (.ok (), { c with descriptorOut := some descriptor, state := .done .descriptor })
    | some .tensor => c.beginBuffers descriptor
    | some .walk => c.walkDescriptor descriptor
    | none => c.fail .coreFailed

def advance (crc32c : Bytes → UInt32) : Result Unit × FileReaderCore A :=
  match c.state with
  | .header => c.finishHeader
  | .trailer => c.finishTrailer
  | .index => c.finishIndex crc32c
  | .kv => c.finishKv
  | .descriptor => c.finishDescriptor
  | .buffer index => c.finishBuffer index
  | _ => c.fail .coreFailed

end FileReaderCore
end Hurray.File
