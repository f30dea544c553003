import Hurray.Stream.Types

/-!
The reader of a stream: a state machine that asks for bytes, is told how many
arrived, and hands over a tensor when its descriptor and buffers are complete.
The memory that buffers are read into comes from an allocator.
-/
namespace Hurray.Stream
open Hurray.Base Hurray.Core Hurray.Descriptor

structure DestinationRequest where
  index : ℕ
  byteSize : UInt64
  alignment : UInt32
  deriving DecidableEq, Repr

/-- A destination is the memory it hands out. -/
class DestinationAlloc (A : Type) where
  allocate : DestinationRequest → A → Result Bytes × A

/-- The default allocator. -/
structure SystemDestinations where
  deriving DecidableEq, Repr, Inhabited

def ISIZE_MAX : ℕ := 0x7FFFFFFFFFFFFFFF

/-- Zeroed memory, if the size and the alignment form a valid layout of the host. -/
def alignedZeroed (byteSize : UInt64) (alignment : UInt32) : Option Bytes :=
  if byteSize = 0 then some []
  else if isPowerOfTwo alignment ∧ byteSize.toNat + (alignment.toNat - 1) ≤ ISIZE_MAX then
    some (List.replicate byteSize.toNat 0)
  else none

instance : DestinationAlloc SystemDestinations where
  allocate request a :=
    (Exec.orFail (alignedZeroed request.byteSize request.alignment)
      (.unallocatableBuffer request.index request.byteSize request.alignment), a)

/-- The contract of an allocator: zeroed memory of the size of the request, and no panic. -/
structure LawfulAlloc (A : Type) [DestinationAlloc A] : Prop where
  zeroed : ∀ (request : DestinationRequest) (a : A) (dest : Bytes),
    (DestinationAlloc.allocate request a).1 = .ok dest →
      dest = List.replicate request.byteSize.toNat 0
  safe : ∀ (request : DestinationRequest) (a : A), (DestinationAlloc.allocate request a).1.Safe

theorem lawfulAlloc_systemDestinations : LawfulAlloc SystemDestinations where
  zeroed := by
    intro request a dest h
    have halloc : alignedZeroed request.byteSize request.alignment = some dest :=
      Exec.orFail_eq_ok.mp h
    unfold alignedZeroed at halloc
    split_ifs at halloc with hzero hlayout
    · cases halloc
      rw [hzero]
      rfl
    · exact (Option.some.inj halloc).symm
  safe := fun _ _ => Exec.orFail_ne_panic

inductive ReadStep where
  | input (len : ℕ)
  | tensor
  | finished
  deriving DecidableEq, Repr

/-- The tensor being assembled. -/
structure Pending where
  descriptor : TensorDescriptor
  buffers : List Bytes
  dest : Option Bytes

inductive ReadState where
  | descriptorPrefix
  | descriptor
  | buffer (index : ℕ)
  | tensorReady
  | finished
  | failed
  | unusable (reason : Unusable)
  deriving DecidableEq, Repr

def PREFIX_LEN : ℕ := 10

structure StreamReaderCore (A : Type) where
  options : StreamReaderOptions
  destinations : A
  state : ReadState
  staging : Bytes
  target : ℕ
  filled : ℕ
  pending : Option Pending
  tensor : Option StreamTensor

/-- A vector cut or padded with zeros to a length. -/
def resize (v : Bytes) (n : ℕ) : Bytes := v.take n ++ List.replicate (n - v.length) 0

/-- Memory in which the bytes from index `i` on were replaced by `data`. -/
def overwrite (mem : Bytes) (i : ℕ) (data : Bytes) : Bytes :=
  mem.take i ++ data ++ mem.drop (i + data.length)

namespace StreamReaderCore
variable {A : Type}

def withDestinations (options : StreamReaderOptions) (destinations : A) : StreamReaderCore A where
  options := options
  destinations := destinations
  state := .descriptorPrefix
  staging := List.replicate PREFIX_LEN 0
  target := PREFIX_LEN
  filled := 0
  pending := none
  tensor := none

variable (c : StreamReaderCore A)

def remaining : ℕ :=
  match c.state with
  | .descriptorPrefix | .descriptor | .buffer _ => c.target - c.filled
  | _ => 0

def fail (e : Error) : Result Unit × StreamReaderCore A :=
  (Exec.fail e, { c with state := .failed })

def beginDescriptor : Result Unit × StreamReaderCore A :=
  let descriptorLength := lengthField c.staging
  if descriptorLength < PREFIX_LEN then
    c.fail (.invalidHeader
      s!"descriptor_length {descriptorLength} is below minimum {PREFIX_LEN}")
  else if c.options.maxDescriptorBytes.toNat < descriptorLength then
    c.fail (.frameTooLarge "descriptor" (UInt64.ofNat descriptorLength)
      c.options.maxDescriptorBytes)
  else
    (.ok (), { c with staging := resize c.staging descriptorLength, target := descriptorLength,
                      state := .descriptor })

def bufferHandle (index : ℕ) : Option BufferHandle :=
  c.pending.bind fun p => p.descriptor.buffers[index]?

def completeTensor : Result Unit × StreamReaderCore A :=
  match c.pending with
  | none => c.fail .coreFailed
  | some p => (.ok (), { c with pending := none, tensor := some ⟨p.descriptor, p.buffers⟩,
                                state := .tensorReady })

/-- The buffers of the pending tensor from an index on. -/
def buffersFrom (index : ℕ) : ℕ :=
  c.pending.elim 0 fun p => p.descriptor.buffers.length - index

/-- How far the tensor has come; every turn of the loop takes it further. -/
def phase : ℕ × ℕ :=
  match c.state with
  | .descriptorPrefix => (3, 0)
  | .descriptor => (2, 0)
  | .buffer index => (1, c.buffersFrom index)
  | _ => (0, 0)

theorem beginDescriptor_phase {c c' : StreamReaderCore A} {u : Unit}
    (h : c.beginDescriptor = (.ok u, c')) : c'.phase = (2, 0) := by
  unfold beginDescriptor at h
  dsimp only at h
  split_ifs at h
  · cases h
  · cases h
  · cases h
    rfl

theorem completeTensor_phase {c c' : StreamReaderCore A} {u : Unit}
    (h : c.completeTensor = (.ok u, c')) : c'.phase = (0, 0) := by
  unfold completeTensor at h
  split at h
  · cases h
  · cases h
    rfl

variable [DestinationAlloc A]

def beginBuffer (index : ℕ) : Result Unit × StreamReaderCore A :=
  match c.bufferHandle index with
  | none => c.fail .coreFailed
  | some handle =>
      if c.options.enforceCrossMachineSync = true ∧ handle.syncMode ≠ .producerSynced then
        c.fail (.invalidCrossMachineSyncMode index handle.syncMode.toByte)
      else if c.options.maxBufferBytes < handle.byteSize then
        c.fail (.frameTooLarge "buffer" handle.byteSize c.options.maxBufferBytes)
      else
        match DestinationAlloc.allocate ⟨index, handle.byteSize, handle.alignment⟩
            c.destinations with
        | (.error e, destinations) => (.error e, { c with destinations, state := .failed })
        | (.ok dest, destinations) =>
            match c.pending with
            | none => { c with destinations }.fail .coreFailed
            | some p =>
                (.ok (), { c with destinations, pending := some { p with dest := some dest },
                                  target := handle.byteSize.toNat, filled := 0,
                                  state := .buffer index })

def decodeDescriptor : Result Unit × StreamReaderCore A :=
  match Exec.mapError .core (decode c.staging) with
  | .error e => (.error e, { c with state := .failed })
  | .ok descriptor =>
      let c := { c with pending := some ⟨descriptor, [], none⟩ }
      if descriptor.buffers.length = 0 then c.completeTensor else c.beginBuffer 0

def finishBuffer (index : ℕ) : Result Unit × StreamReaderCore A :=
  match c.pending with
  | none => c.fail .coreFailed
  | some p =>
      match p.dest with
      | none => c.fail .coreFailed
      | some dest =>
          let c := { c with pending := some { p with buffers := p.buffers ++ [dest], dest := none } }
          if index + 1 < p.descriptor.buffers.length then c.beginBuffer (index + 1)
          else c.completeTensor

variable {c}

theorem beginBuffer_phase {c' : StreamReaderCore A} {index : ℕ} {u : Unit}
    (h : c.beginBuffer index = (.ok u, c')) :
    c'.phase = (1, c.buffersFrom index) ∧ 0 < c.buffersFrom index := by
  unfold beginBuffer at h
  split at h
  · cases h
  · next handle hhandle =>
    obtain ⟨p, hp, hget⟩ := Option.bind_eq_some_iff.mp hhandle
    have hlt := (List.getElem?_eq_some_iff.mp hget).1
    rw [hp] at h
    split_ifs at h
    · cases h
    · cases h
    · split at h
      · cases h
      · cases h
        simp only [phase, buffersFrom, hp, Option.elim_some]
        exact ⟨trivial, by omega⟩

theorem decodeDescriptor_phase {c' : StreamReaderCore A} {u : Unit}
    (h : c.decodeDescriptor = (.ok u, c')) : c'.phase.1 < 2 := by
  unfold decodeDescriptor at h
  split at h
  · cases h
  · dsimp only at h
    split_ifs at h
    · rw [completeTensor_phase h]
      exact Nat.zero_lt_two
    · rw [(beginBuffer_phase h).1]
      exact Nat.one_lt_two

theorem finishBuffer_phase {c' : StreamReaderCore A} {index : ℕ} {u : Unit}
    (h : c.finishBuffer index = (.ok u, c')) :
    c'.phase.1 < 1 ∨ c'.phase.1 = 1 ∧ c'.phase.2 < c.buffersFrom index := by
  unfold finishBuffer at h
  split at h
  · cases h
  · next p hp =>
    split at h
    · cases h
    · dsimp only at h
      split_ifs at h
      · obtain ⟨hphase, hpos⟩ := beginBuffer_phase h
        right
        rw [hphase]
        refine ⟨rfl, ?_⟩
        simp only [buffersFrom, hp, Option.elim_some] at hpos ⊢
        omega
      · left
        rw [completeTensor_phase h]
        exact Nat.zero_lt_one

/-- The next request. Every target that is full is left behind first. -/
def step (c : StreamReaderCore A) : Result ReadStep × StreamReaderCore A :=
  match _hstate : c.state with
  | .unusable reason => (Exec.fail (.coreUnusable reason), c)
  | .failed => (Exec.fail .coreFailed, c)
  | .finished => (.ok .finished, c)
  | .tensorReady => (.ok .tensor, c)
  | .descriptorPrefix =>
      if c.remaining = 0 then
        match _h : c.beginDescriptor with
        | (.ok _, c') => step c'
        | (.error e, c') => (.error e, c')
      else (.ok (.input c.remaining), c)
  | .descriptor =>
      if c.remaining = 0 then
        match _h : c.decodeDescriptor with
        | (.ok _, c') => step c'
        | (.error e, c') => (.error e, c')
      else (.ok (.input c.remaining), c)
  | .buffer index =>
      if c.remaining = 0 then
        match _h : c.finishBuffer index with
        | (.ok _, c') => step c'
        | (.error e, c') => (.error e, c')
      else (.ok (.input c.remaining), c)
termination_by c.phase
decreasing_by
  · rw [Prod.lex_def, beginDescriptor_phase ‹_›]
    simp [phase, _hstate]
  · have hlt := decodeDescriptor_phase ‹_›
    rw [Prod.lex_def]
    left
    simpa [phase, _hstate] using hlt
  · have hlt := finishBuffer_phase ‹_›
    rw [Prod.lex_def]
    simpa [phase, _hstate] using hlt

/-- The transport has put `data` at the front of what is on offer. -/
def fillDst (c : StreamReaderCore A) (data : Bytes) : StreamReaderCore A :=
  match c.state with
  | .descriptorPrefix | .descriptor => { c with staging := overwrite c.staging c.filled data }
  | .buffer _ =>
      { c with pending := c.pending.map fun p =>
                 { p with dest := p.dest.map fun mem => overwrite mem c.filled data } }
  | _ => c

def reportFilled (c : StreamReaderCore A) (n : ℕ) : Result Unit × StreamReaderCore A :=
  match c.state with
  | .unusable reason => (Exec.fail (.coreUnusable reason), c)
  | .failed => (Exec.fail .coreFailed, c)
  | .finished | .tensorReady => (Exec.fail (.invalidProgressReport n 0), c)
  | _ =>
      if n = 0 then
        if c.state = .descriptorPrefix ∧ c.filled = 0 then (.ok (), { c with state := .finished })
        else c.fail .unexpectedEof
      else if c.remaining < n then
        (Exec.fail (.invalidProgressReport n c.remaining),
          { c with state := .unusable .lostReadCount })
      else (.ok (), { c with filled := c.filled + n })

def resetToPrefix (c : StreamReaderCore A) : StreamReaderCore A :=
  { c with filled := 0, staging := List.replicate PREFIX_LEN 0, target := PREFIX_LEN,
           state := .descriptorPrefix }

def takeTensor (c : StreamReaderCore A) : Option StreamTensor × StreamReaderCore A :=
  if c.state = .tensorReady then (c.tensor, { c with tensor := none }.resetToPrefix) else (none, c)

def markUnusable (c : StreamReaderCore A) : StreamReaderCore A :=
  { c with state := .unusable .lostReadCount }

end StreamReaderCore
end Hurray.Stream
