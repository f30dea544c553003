import Hurray.File.Sections
import Hurray.Stream.Writer

/-!
The writer of a file. Every item becomes an operation, which holds the stretches
of bytes that it has to emit in file order and what it changes on the core once
they are out. Nothing of the core but its offset changes before that.
-/
namespace Hurray.File
open Hurray.Base Hurray.Core Hurray.Descriptor Hurray.Stream

/-- The padding that is offered at a time. -/
def ZEROS_LEN : ℕ := 4096

inductive Seg where
  | owned
  | zeros (len : ℕ)
  | payload (index : ℕ)
  deriving DecidableEq, Repr

structure FileWriterCore where
  alignment : UInt64
  sortedIndex : Bool
  /-- Where the first byte goes that was not reported yet. -/
  offset : UInt64
  entries : List IndexEntry
  seenNames : List String
  unusable : Option Unusable
  torn : Bool
  headerWritten : Bool
  finished : Bool
  deriving DecidableEq, Repr

/-- What an operation changes on the core once its last byte is out. -/
inductive Commit where
  | header
  | tensor (entry : IndexEntry)
  | footer
  deriving DecidableEq, Repr

structure FileWriteOp where
  core : FileWriterCore
  plan : List Seg
  bytes : Bytes
  payloads : List Bytes
  cursor : ℕ
  written : ℕ
  emittedBytes : ℕ
  commit : Option Commit
  failed : Bool

/-! ### Submission -/

namespace FileWriterCore

def build (options : FileWriterOptions) : FileWriterCore where
  alignment := options.dataBufferAlignment.toUInt64
  sortedIndex := options.sortedIndex
  offset := 0
  entries := []
  seenNames := []
  unusable := none
  torn := false
  headerWritten := false
  finished := false

def new : FileWriterCore := build .default

def withOptions (options : FileWriterOptions) : Result FileWriterCore := do
  Exec.mapError .invalidHeader options.validate
  pure (build options)

variable (core : FileWriterCore)

def retired : Option Unusable :=
  core.unusable.or (if core.torn then some .incompleteOutput else none)

def checkRetired : Result Unit :=
  match core.retired with
  | some reason => Exec.fail (.coreUnusable reason)
  | none => pure ()

def poison (reason : Unusable) : FileWriterCore := { core with unusable := some reason }

def fileFlags : UInt32 :=
  if core.sortedIndex then HAS_INDEX_CRC32C ||| SORTED_INDEX else HAS_INDEX_CRC32C

def encodeHeader : Bytes :=
  FILE_MAGIC ++ [1, 0, 0, 0] ++ u32Bytes core.fileFlags ++ u32Bytes core.alignment.toUInt32 ++
    u64Bytes FILE_HEADER_SIZE ++ u64Bytes 0xFFFFFFFFFFFFFFFF ++ List.replicate 28 0

def header : Result FileWriteOp := do
  core.checkRetired
  Exec.reject (core.finished = true ∨ core.headerWritten = true) .coreFailed
  pure { core, plan := [.owned], bytes := core.encodeHeader, payloads := [], cursor := 0,
         written := 0, emittedBytes := 0, commit := some .header, failed := false }

def zeros (len : ℕ) : List Seg := if len > 0 then [.zeros len] else []

/-- The payloads of a tensor from an index on, each but the last padded to the alignment, and
where they end. -/
def planPayloads : List Bytes → ℕ → UInt64 → Result (List Seg × UInt64)
  | [], _, cursor => pure ([], cursor)
  | payload :: rest, index, cursor => do
      let cursor ← addSize cursor payload.length
      let padding ← (if rest.isEmpty then pure 0 else padTo cursor core.alignment)
      let cursor ← Exec.addU64 cursor padding
      let (segs, cursor) ← planPayloads rest (index + 1) cursor
      pure (.payload index :: zeros padding.toNat ++ segs, cursor)

def checkName (name : String) : Result Unit := do
  Exec.reject ((utf8Bytes name).length = 0) .tensorNameEmpty
  Exec.reject (65535 < (utf8Bytes name).length) (.tensorNameTooLong (utf8Bytes name).length)
  Exec.reject (name ∈ core.seenNames) (.duplicateTensorName name)

def checkBuffers (descriptor : TensorDescriptor) (buffers : List Bytes) : Result Unit := do
  Exec.reject (buffers.length ≠ descriptor.buffers.length)
    (.multiBufferLengthMismatch descriptor.buffers.length buffers.length)
  (descriptor.buffers.zip buffers).zipIdx.forM fun p =>
    Exec.reject (p.1.1.byteSize.toNat ≠ p.1.2.length)
      (.bufferSizeMismatch p.2 p.1.1.byteSize (UInt64.ofNat p.1.2.length))

/-- The stretches of a tensor at the current offset: its descriptor, the padding to its first
buffer, its buffers, and the padding to the next descriptor. -/
def planTensor (name : String) (encoded : Bytes) (buffers : List Bytes) : Result FileWriteOp := do
  let descriptorOffset := core.offset
  let descriptorLength := UInt32.ofNat encoded.length
  let descriptorEnd ← Exec.addU64 descriptorOffset descriptorLength.toUInt64
  let dataOffset ←
    (if buffers.isEmpty then pure descriptorEnd else alignUp descriptorEnd core.alignment)
  let (segs, cursor) ← core.planPayloads buffers 0 dataOffset
  let dataLength := cursor - dataOffset
  let padding ← padTo cursor 8
  pure { core, bytes := encoded, payloads := buffers, cursor := 0, written := 0, emittedBytes := 0,
         plan := .owned :: zeros (dataOffset - descriptorEnd).toNat ++ segs ++ zeros padding.toNat,
         commit := some (.tensor ⟨name, descriptorOffset, descriptorLength, dataOffset, dataLength⟩),
         failed := false }

def tensor (name : String) (descriptor : TensorDescriptor) (buffers : List Bytes) :
    Result FileWriteOp := do
  core.checkRetired
  Exec.reject (core.finished = true) .coreFailed
  Exec.reject (core.headerWritten = false) .headerNotWritten
  core.checkName name
  checkBuffers descriptor buffers
  let encoded ← Exec.mapError .core (encode descriptor)
  core.planTensor name encoded buffers

/-- The order of the index, by the bytes of the names when it is sorted. -/
def indexOrder : List IndexEntry :=
  if core.sortedIndex then
    core.entries.mergeSort fun a b => decide (utf8Bytes a.name ≤ utf8Bytes b.name)
  else core.entries

/-- The metadata at the start of the footer with its padding, its offset and its length. -/
def planKv (kv : List (String × KvValue)) : Result (Bytes × UInt64 × UInt32) :=
  if kv.isEmpty then pure ([], 0, 0)
  else do
    let kvBytes ← encodeKvSection kv
    let kvEnd ← addSize core.offset kvBytes.length
    let padding ← padTo kvEnd 8
    pure (kvBytes ++ List.replicate padding.toNat 0, core.offset, UInt32.ofNat kvBytes.length)

def encodeTrailer (indexOffset indexLength kvOffset : UInt64) (kvLength indexCrc32c : UInt32) :
    Bytes :=
  u64Bytes indexOffset ++ u64Bytes indexLength ++ u64Bytes kvOffset ++ u32Bytes kvLength ++
    u32Bytes indexCrc32c ++ [0, 0, 0, 0] ++ TRAILER_MAGIC

/-- The footer. The checksum comes from a library. -/
def finish (crc32c : Bytes → UInt32) (kv : List (String × KvValue)) : Result FileWriteOp := do
  core.checkRetired
  Exec.reject (core.finished = true) .coreFailed
  Exec.reject (core.headerWritten = false) .headerNotWritten
  validateKvKeys kv
  let (footer, kvOffset, kvLength) ← core.planKv kv
  let indexBytes := encodeIndexSection core.indexOrder
  let indexOffset ← addSize core.offset footer.length
  pure { core, plan := [.owned], payloads := [], cursor := 0, written := 0, emittedBytes := 0,
         bytes := footer ++ indexBytes ++ encodeTrailer indexOffset
           (UInt64.ofNat indexBytes.length) kvOffset kvLength (crc32c indexBytes),
         commit := some .footer, failed := false }

end FileWriterCore

/-! ### Operations -/

/-- The core after the item is out. -/
def Commit.apply (core : FileWriterCore) : Commit → FileWriterCore
  | .header => { core with headerWritten := true }
  | .tensor entry =>
      { core with seenNames := entry.name :: core.seenNames, entries := core.entries ++ [entry] }
  | .footer => { core with finished := true }

namespace FileWriteOp

/-- All bytes of a stretch. -/
def segBytes (op : FileWriteOp) : Seg → Bytes
  | .owned => op.bytes
  | .zeros len => List.replicate len 0
  | .payload index => op.payloads[index]?.getD []

def remainingIn (op : FileWriteOp) : Seg → ℕ
  | .owned => op.bytes.length - op.written
  | .zeros len => min (len - op.written) ZEROS_LEN
  | .payload index => op.payloads[index]?.elim 0 fun payload => payload.length - op.written

/-- The bytes on offer: a part of one stretch. -/
def outputSrc (op : FileWriteOp) : Bytes :=
  match op.plan[op.cursor]? with
  | some .owned => op.bytes.drop op.written
  | some (.zeros len) => List.replicate (min (len - op.written) ZEROS_LEN) 0
  | some (.payload index) => op.payloads[index]?.elim [] fun payload => payload.drop op.written
  | none => []

/-- How many bytes are on offer. -/
def offered (op : FileWriteOp) : ℕ := op.plan[op.cursor]?.elim 0 op.remainingIn

/-- The item is out. What it owes the core is paid once. -/
def complete (op : FileWriteOp) : FileWriteOp :=
  let core := { op.core with torn := false }
  { op with core := op.commit.elim core (Commit.apply core), commit := none }

def stepLoop (op : FileWriteOp) : Result WriteStep × FileWriteOp :=
  match _h : op.plan[op.cursor]? with
  | none => (.ok .itemWritten, op.complete)
  | some seg =>
      if op.remainingIn seg = 0 then stepLoop { op with cursor := op.cursor + 1, written := 0 }
      else (.ok (.output (op.remainingIn seg)), op)
termination_by op.plan.length - op.cursor
decreasing_by
  have hlt := (List.getElem?_eq_some_iff.mp ‹_›).1
  omega

def step (op : FileWriteOp) : Result WriteStep × FileWriteOp :=
  match op.core.unusable with
  | some reason => (Exec.fail (.coreUnusable reason), op)
  | none => if op.failed then (Exec.fail .coreFailed, op) else op.stepLoop

/-- The sink has accepted `n` bytes of what is on offer. -/
def reportWritten (op : FileWriteOp) (n : ℕ) : Result Unit × FileWriteOp :=
  match op.core.unusable with
  | some reason => (Exec.fail (.coreUnusable reason), op)
  | none =>
      if op.failed then (Exec.fail .coreFailed, op)
      else if n = 0 then (Exec.fail .zeroLengthWrite, op)
      else
        match op.plan[op.cursor]? with
        | none => (Exec.fail (.invalidProgressReport n 0), op)
        | some seg =>
            if op.remainingIn seg < n then
              (Exec.fail (.invalidProgressReport n (op.remainingIn seg)),
                { op with core := { op.core with unusable := some .lostWriteCount },
                          failed := true })
            else
              let core := if op.emittedBytes = 0 then { op.core with torn := true } else op.core
              let op := { op with core, emittedBytes := op.emittedBytes + n }
              match addSize core.offset n with
              | .error e => (.error e, op)
              | .ok offset =>
                  (.ok (), { op with core := { core with offset }, written := op.written + n })

def reportSinkClosed (op : FileWriteOp) : Error × FileWriteOp :=
  (.sinkClosed,
    { op with core := { op.core with unusable := some .incompleteOutput }, failed := true })

end FileWriteOp
end Hurray.File
