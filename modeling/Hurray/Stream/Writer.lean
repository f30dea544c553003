import Hurray.Descriptor.Composite
import Hurray.Stream.Types

/-!
The writer of a stream. An item is submitted to the core and becomes an
operation, which offers its bytes one slice at a time. What is left of an
operation is a property of its state, and each call is described by what it does
to it.
-/
namespace Hurray.Stream
open Hurray.Base Hurray.Core Hurray.Descriptor

structure StreamWriterCore where
  enforceCrossMachineSync : Bool
  /-- Set once the core may no longer be used. -/
  unusable : Option Unusable
  /-- The item in flight has had a byte accepted and is not complete. -/
  torn : Bool
  deriving DecidableEq, Repr

/-- The members still to be emitted at one level of nesting. -/
structure Frame where
  members : List CompositeNode
  next : ℕ

inductive OpState where
  | descriptor
  | payload (index : ℕ)
  | done
  | failed
  deriving DecidableEq, Repr

/-- An item being written. The innermost frame is the head of the stack. -/
structure WriteOp where
  core : StreamWriterCore
  staging : Bytes
  payloads : List Bytes
  state : OpState
  written : ℕ
  emittedBytes : ℕ
  stack : List Frame

inductive WriteStep where
  | output (len : ℕ)
  | itemWritten
  deriving DecidableEq, Repr

/-! ### Submission -/

namespace StreamWriterCore

def new : StreamWriterCore := ⟨false, none, false⟩

def crossMachine : StreamWriterCore := ⟨true, none, false⟩

variable (core : StreamWriterCore)

/-- A lost count is worse than an incomplete item, and is the reason reported. -/
def retired : Option Unusable :=
  core.unusable.or (if core.torn then some .incompleteOutput else none)

def checkRetired : Result Unit :=
  match core.retired with
  | some reason => Exec.fail (.coreUnusable reason)
  | none => pure ()

def validateBuffer (handle : BufferHandle) (buf : Bytes) (i : ℕ) : Result Unit := do
  Exec.reject (handle.byteSize.toNat ≠ buf.length)
    (.bufferSizeMismatch i handle.byteSize (UInt64.ofNat buf.length))
  Exec.reject (core.enforceCrossMachineSync = true ∧ handle.syncMode ≠ .producerSynced)
    (.invalidCrossMachineSyncMode i handle.syncMode.toByte)

def validateTensor (descriptor : TensorDescriptor) (buffers : List Bytes) : Result Unit := do
  Exec.reject (buffers.length ≠ descriptor.buffers.length)
    (.multiBufferLengthMismatch descriptor.buffers.length buffers.length)
  (descriptor.buffers.zip buffers).zipIdx.forM fun p => core.validateBuffer p.1.1 p.1.2 p.2

/-- The rule of one head over its members, nested members included only by their head. -/
def validateGroup (head : TensorDescriptor) (members : List CompositeNode) : Result Unit :=
  Exec.mapError .core do
    let validator ← CompositeValidator.new head
    let validator ← members.foldlM (fun v m => v.pushMember m.descriptor) validator
    validator.finish

mutual

def validateNode : CompositeNode → Result Unit
  | .tensor descriptor buffers => core.validateTensor descriptor buffers
  | .composite head members => do
      validateGroup head members
      validateMembers members

def validateMembers : List CompositeNode → Result Unit
  | [] => pure ()
  | m :: ms => do
      validateNode m
      validateMembers ms

end

def validateComposite (head : TensorDescriptor) (members : List CompositeNode) : Result Unit := do
  validateGroup head members
  core.validateMembers members

def tensor (descriptor : TensorDescriptor) (buffers : List Bytes) : Result WriteOp := do
  core.checkRetired
  core.validateTensor descriptor buffers
  let staging ← Exec.mapError .core (encode descriptor)
  pure { core, staging, payloads := buffers, state := .descriptor, written := 0,
         emittedBytes := 0, stack := [] }

def composite (head : TensorDescriptor) (members : List CompositeNode) : Result WriteOp := do
  core.checkRetired
  core.validateComposite head members
  let staging ← Exec.mapError .core (encode head)
  pure { core, staging, payloads := [], state := .descriptor, written := 0,
         emittedBytes := 0, stack := [⟨members, 0⟩] }

/-- The two ways to submit an item, as one. -/
def submit : CompositeNode → Result WriteOp
  | .tensor descriptor buffers => core.tensor descriptor buffers
  | .composite head members => core.composite head members

end StreamWriterCore

/-! ### The nodes still to come -/

namespace Frame

/-- The tensors that a frame still has to emit. -/
def pending (f : Frame) : List StreamTensor :=
  (f.members.drop f.next).flatMap CompositeNode.tensors

/-- The next node of the innermost frame that has one. Frames that have none are popped. -/
def takeNext : List Frame → Option (CompositeNode × List Frame)
  | [] => none
  | f :: rest =>
      match f.members[f.next]? with
      | none => takeNext rest
      | some node => some (node, { f with next := f.next + 1 } :: rest)

theorem pending_of_getElem?_none {f : Frame} (h : f.members[f.next]? = none) : f.pending = [] := by
  rw [pending, List.drop_eq_nil_of_le (List.getElem?_eq_none_iff.mp h), List.flatMap_nil]

theorem pending_of_getElem? {f : Frame} {node : CompositeNode}
    (h : f.members[f.next]? = some node) :
    f.pending = node.tensors ++ ({ f with next := f.next + 1 } : Frame).pending := by
  obtain ⟨hlt, rfl⟩ := List.getElem?_eq_some_iff.mp h
  rw [pending, pending, List.drop_eq_getElem_cons hlt, List.flatMap_cons]

theorem takeNext_none {stack : List Frame} (h : takeNext stack = none) :
    stack.flatMap pending = [] := by
  induction stack with
  | nil => rfl
  | cons f rest ih =>
    unfold takeNext at h
    split at h
    · next hf => rw [List.flatMap_cons, pending_of_getElem?_none hf, ih h, List.append_nil]
    · cases h

theorem takeNext_some {stack stack' : List Frame} {node : CompositeNode}
    (h : takeNext stack = some (node, stack')) :
    stack.flatMap pending = node.tensors ++ stack'.flatMap pending := by
  induction stack with
  | nil => cases h
  | cons f rest ih =>
    unfold takeNext at h
    split at h
    · next hf => rw [List.flatMap_cons, pending_of_getElem?_none hf, ih h, List.nil_append]
    · next hf =>
      cases h
      rw [List.flatMap_cons, List.flatMap_cons, pending_of_getElem? hf, List.append_assoc]

theorem pending_start (members : List CompositeNode) :
    (⟨members, 0⟩ : Frame).pending = members.flatMap CompositeNode.tensors := rfl

end Frame

/-! ### Operations -/

namespace WriteOp

/-- The bytes still to write for the current slice. -/
def remaining (op : WriteOp) : ℕ :=
  match op.state with
  | .descriptor => op.staging.length - op.written
  | .payload index => op.payloads[index]?.elim 0 fun payload => payload.length - op.written
  | .done => 0
  | .failed => 0

/-- One of the slices, from the position that was reached. -/
def outputSrc (op : WriteOp) : Bytes :=
  match op.state with
  | .descriptor => op.staging.drop op.written
  | .payload index => op.payloads[index]?.elim [] fun payload => payload.drop op.written
  | .done => []
  | .failed => []

/-- The bytes of the next node are staged. A composite's members come after its head. -/
def beginNode (op : WriteOp) (node : CompositeNode) (stack : List Frame) : Result Unit × WriteOp :=
  match Exec.mapError .core (encode node.descriptor) with
  | .error e => (.error e, { op with stack, state := .failed })
  | .ok staging =>
      match node with
      | .tensor _ buffers =>
          (.ok (), { op with staging, payloads := buffers, stack, written := 0,
                             state := .descriptor })
      | .composite _ members =>
          (.ok (), { op with staging, payloads := [], stack := ⟨members, 0⟩ :: stack, written := 0,
                             state := .descriptor })

def nextNode (op : WriteOp) : Result Unit × WriteOp :=
  match Frame.takeNext op.stack with
  | none => (.ok (), { op with stack := [], payloads := [], state := .done })
  | some (node, stack) => op.beginNode node stack

def beginPayload (op : WriteOp) (index : ℕ) : Result Unit × WriteOp :=
  if index < op.payloads.length then (.ok (), { op with written := 0, state := .payload index })
  else nextNode { op with written := 0 }

/-- The tensors after the current one. -/
def upcoming (op : WriteOp) : List StreamTensor := op.stack.flatMap Frame.pending

/-- How many slices can still be entered. -/
def slicesLeft (op : WriteOp) : ℕ :=
  (op.upcoming.map fun t => t.buffers.length + 3).sum +
    match op.state with
    | .descriptor => op.payloads.length + 2
    | .payload index => op.payloads.length - index + 1
    | .done => 0
    | .failed => 0

theorem beginNode_slicesLeft {op op' : WriteOp} {node : CompositeNode} {stack : List Frame}
    {r : Unit} (h : op.beginNode node stack = (.ok r, op')) :
    op'.slicesLeft < ((node.tensors ++ stack.flatMap Frame.pending).map
      fun t => t.buffers.length + 3).sum := by
  unfold beginNode at h
  split at h
  · cases h
  · split at h
    all_goals
      cases h
      simp [slicesLeft, upcoming, CompositeNode.tensors, Frame.pending_start]
      omega

/-- Each slice is entered once. -/
theorem beginPayload_slicesLeft {op op' : WriteOp} {index : ℕ} {r : Unit}
    (h : op.beginPayload index = (.ok r, op')) :
    op'.slicesLeft ≤ (op.upcoming.map fun t => t.buffers.length + 3).sum +
      if index < op.payloads.length then op.payloads.length - index + 1 else 0 := by
  unfold beginPayload at h
  split at h
  · next hlt =>
    cases h
    simp only [slicesLeft, upcoming, if_pos hlt, le_refl]
  · unfold nextNode at h
    split at h
    · cases h
      simp [slicesLeft, upcoming]
    · next node stack hnext =>
      have hlt := beginNode_slicesLeft h
      rw [upcoming, Frame.takeNext_some hnext]
      omega

/-- Slices are entered until one has bytes to offer. -/
def stepLoop (op : WriteOp) : Result WriteStep × WriteOp :=
  match _hstate : op.state with
  | .failed => (Exec.fail .coreFailed, op)
  | .done => (.ok .itemWritten, { op with core := { op.core with torn := false } })
  | .descriptor =>
      if op.written < op.staging.length then
        (.ok (.output (op.staging.length - op.written)), op)
      else
        match _h : op.beginPayload 0 with
        | (.ok _, op') => stepLoop op'
        | (.error e, op') => (.error e, op')
  | .payload index =>
      if 0 < op.remaining then (.ok (.output op.remaining), op)
      else
        match _h : op.beginPayload (index + 1) with
        | (.ok _, op') => stepLoop op'
        | (.error e, op') => (.error e, op')
termination_by op.slicesLeft
decreasing_by
  all_goals
    have hlt := beginPayload_slicesLeft ‹_›
    conv => rhs; simp only [slicesLeft, _hstate]
    split_ifs at hlt <;> omega

/-- The next request of the operation. An operation may go on while the core is torn by it. -/
def step (op : WriteOp) : Result WriteStep × WriteOp :=
  match op.core.unusable with
  | some reason => (Exec.fail (.coreUnusable reason), op)
  | none => op.stepLoop

/-- The sink has accepted `n` bytes of the slice on offer. -/
def reportWritten (op : WriteOp) (n : ℕ) : Result Unit × WriteOp :=
  match op.core.unusable with
  | some reason => (Exec.fail (.coreUnusable reason), op)
  | none =>
      if op.state = .failed then (Exec.fail .coreFailed, op)
      else if n = 0 then (Exec.fail .zeroLengthWrite, op)
      else if op.remaining < n then
        (Exec.fail (.invalidProgressReport n op.remaining),
          { op with core := { op.core with unusable := some .lostWriteCount }, state := .failed })
      else
        (.ok (), { op with core := if op.emittedBytes = 0 then { op.core with torn := true } else op.core,
                           emittedBytes := op.emittedBytes + n, written := op.written + n })

def reportSinkClosed (op : WriteOp) : Error × WriteOp :=
  (.sinkClosed,
    { op with core := { op.core with unusable := some .incompleteOutput }, state := .failed })

def markUnusable (op : WriteOp) : WriteOp :=
  { op with core := { op.core with unusable := some .lostWriteCount }, state := .failed }

end WriteOp
end Hurray.Stream
