import Hurray.Ffi.CompositeTree
import Hurray.File.WalkAgreement

/-!
A read item as C sees it, one array of nodes in preorder. A caller relays what it has read: each node
is handed back with the handles it came with, and lists what it listed when it was read.
-/
namespace Hurray.Ffi
open Hurray.Base Hurray.Core Hurray.Descriptor Hurray.Stream Hurray.File

structure HurrayBuffer where
  data : Bytes
  handle : BufferHandle

/-- A buffer as a slice to write. -/
def HurrayBuffer.lent (b : HurrayBuffer) : HurrayIoSlice := ⟨some b.data, b.handle.byteSize.toNat⟩

structure HurrayTensor where
  descriptor : TensorDescriptor
  buffers : List HurrayBuffer

def tensorHandle (descriptor : TensorDescriptor) (buffers : List Bytes) : HurrayTensor :=
  ⟨descriptor, (buffers.zip descriptor.buffers).map fun b => ⟨b.1, b.2⟩⟩

structure OwnedNode where
  kind : UInt8
  name : Option String
  tensor : HurrayTensor
  memberCount : UInt32

def ownedNode (kind : UInt8) (name : Option String) (descriptor : TensorDescriptor)
    (buffers : List Bytes) (memberCount : UInt32) : OwnedNode :=
  ⟨kind, name, tensorHandle descriptor buffers, memberCount⟩

/-- The node of an item and the items that are pushed for it. -/
def streamNode : StreamItem → OwnedNode × List StreamItem
  | .tensor t => (ownedNode HURRAY_ITEM_TENSOR none t.descriptor t.buffers 0, [])
  | .composite head members =>
      (ownedNode HURRAY_ITEM_COMPOSITE none head [] (UInt32.ofNat members.length), members)

def fileNode : FileItem → OwnedNode × List FileItem
  | .tensor t => (ownedNode HURRAY_ITEM_TENSOR (some t.name) t.descriptor t.buffers 0, [])
  | .composite name head members =>
      (ownedNode HURRAY_ITEM_COMPOSITE (some name) head [] (UInt32.ofNat members.length), members)

def streamNodeCount : StreamItem → ℕ
  | .tensor _ => 1
  | .composite _ members => (members.map streamNodeCount).sum + 1

def fileNodeCount : FileItem → ℕ
  | .tensor _ => 1
  | .composite _ _ members => (members.map fileNodeCount).sum + 1

theorem streamNodeCount_lt (item : StreamItem) :
    ((streamNode item).2.map streamNodeCount).sum < streamNodeCount item := by
  cases item <;> simp [streamNode, streamNodeCount]

theorem fileNodeCount_lt (item : FileItem) :
    ((fileNode item).2.map fileNodeCount).sum < fileNodeCount item := by
  cases item <;> simp [fileNode, fileNodeCount]

def itemHandle (item : StreamItem) : List OwnedNode :=
  RoseTree.walk streamNode streamNodeCount streamNodeCount_lt [item]

def fileItemHandle (item : FileItem) : List OwnedNode :=
  RoseTree.walk fileNode fileNodeCount fileNodeCount_lt [item]

structure HurrayItemNode where
  kind : UInt8
  name : Pointer UInt8
  nameLen : ℕ
  tensor : HurrayTensor
  memberCount : UInt32

/-- The node that is copied out. -/
def OwnedNode.toC (node : OwnedNode) : HurrayItemNode where
  kind := node.kind
  name := node.name.map utf8Bytes
  nameLen := node.name.elim 0 fun name => (utf8Bytes name).length
  tensor := node.tensor
  memberCount := node.memberCount

/-- A node that was read, as a node to write. -/
def HurrayItemNode.relay (node : HurrayItemNode) : HurrayCompositeNode where
  kind := node.kind
  name := node.name
  nameLen := node.nameLen
  descriptor := some node.tensor.descriptor
  payloads := some (node.tensor.buffers.map HurrayBuffer.lent)
  payloadCount := node.tensor.buffers.length
  memberCount := node.memberCount

/-! ### What is read and handed back -/

/-- The payloads have the sizes that the descriptor tells. -/
def Filled (t : StreamTensor) : Prop :=
  t.descriptor.buffers.map (fun h => h.byteSize.toNat) = t.buffers.map List.length

/-- The payloads that were read are lent as they are. -/
theorem forall₂_lent {handles : List BufferHandle} {buffers : List Bytes}
    (h : handles.map (fun h => h.byteSize.toNat) = buffers.map List.length) :
    List.Forall₂ (fun slice bytes => bytesFromC slice.ptr slice.len = .ok bytes)
      ((buffers.zip handles).map (HurrayBuffer.lent ∘ fun b => ⟨b.1, b.2⟩)) buffers := by
  induction buffers generalizing handles with
  | nil => simp
  | cons bytes buffers ih =>
    cases handles with
    | nil => simp at h
    | cons handle handles =>
      rw [List.map_cons, List.map_cons, List.cons.injEq] at h
      exact .cons (bytesFromC_of h.1) (ih h.2)

theorem payloadsFromC_relay {kind : UInt8} {name : Option String} {descriptor : TensorDescriptor}
    {buffers : List Bytes} {count : UInt32} (h : Filled ⟨descriptor, buffers⟩) :
    payloadsFromC (ownedNode kind name descriptor buffers count).toC.relay = .ok buffers := by
  have hlen : descriptor.buffers.length = buffers.length := by simpa using congrArg List.length h
  have hcount : (ownedNode kind name descriptor buffers count).toC.relay.payloadCount =
      buffers.length := by
    simp [HurrayItemNode.relay, OwnedNode.toC, ownedNode, tensorHandle, hlen]
  unfold payloadsFromC
  split
  · next hzero =>
    have hnil : buffers = [] := List.eq_nil_of_length_eq_zero (hcount ▸ hzero)
    rw [hnil]
  · have hread := Exec.mapM_eq_ok (forall₂_lent h)
    rw [← List.map_map] at hread
    have htake : ((tensorHandle descriptor buffers).buffers.map HurrayBuffer.lent).take
        buffers.length = (tensorHandle descriptor buffers).buffers.map HurrayBuffer.lent :=
      List.take_of_length_le (by simp [tensorHandle])
    simp only [hcount]
    simp only [HurrayItemNode.relay, OwnedNode.toC, ownedNode, Exec.orFail_some, Exec.ok_bind, htake]
    exact hread

/-- The entry of a tensor that is handed back. -/
theorem entry_relay_tensor {ρ β : Type} {surface : Surface ρ β} {name : Option String}
    {descriptor : TensorDescriptor} {buffers : List Bytes} {head : ρ}
    (h : Filled ⟨descriptor, buffers⟩) (hread : surface.read (ownedNode HURRAY_ITEM_TENSOR name descriptor buffers 0).toC.relay =
      .ok head) :
    surface.entry (ownedNode HURRAY_ITEM_TENSOR name descriptor buffers 0).toC.relay =
      .ok (.tensor head buffers) := by
  have hkind : ¬ (ownedNode HURRAY_ITEM_TENSOR name descriptor buffers 0).toC.relay.kind =
      HURRAY_ITEM_COMPOSITE := by
    show ¬ HURRAY_ITEM_TENSOR = HURRAY_ITEM_COMPOSITE
    decide
  simp [Surface.entry, hread, hkind, payloadsFromC_relay h]

/-- The entry of a head that is handed back. A count of members that a head can tell is not cut. -/
theorem entry_relay_composite {ρ β : Type} {surface : Surface ρ β} {name : Option String}
    {descriptor : TensorDescriptor} {count : ℕ} {head : ρ}
    (h : ∃ c, descriptor.layout = .composite c ∧ count = c.memberCount.toNat)
    (hread : surface.read (ownedNode HURRAY_ITEM_COMPOSITE name descriptor []
      (UInt32.ofNat count)).toC.relay = .ok head) :
    surface.entry (ownedNode HURRAY_ITEM_COMPOSITE name descriptor []
      (UInt32.ofNat count)).toC.relay = .ok (.composite head count) := by
  have hcount : (UInt32.ofNat count).toNat = count := by
    obtain ⟨c, -, rfl⟩ := h
    simp
  have hkind : (ownedNode HURRAY_ITEM_COMPOSITE name descriptor []
      (UInt32.ofNat count)).toC.relay.kind = HURRAY_ITEM_COMPOSITE := rfl
  have hmembers : (ownedNode HURRAY_ITEM_COMPOSITE name descriptor []
      (UInt32.ofNat count)).toC.relay.memberCount = UInt32.ofNat count := rfl
  simp [Surface.entry, hread, hkind, hmembers, hcount]

/-- The nodes of an item, under their parents. -/
def streamItemTree : StreamItem → RoseTree OwnedNode
  | .tensor t => .node (streamNode (.tensor t)).1 []
  | .composite head members =>
      .node (streamNode (.composite head members)).1 (members.map streamItemTree)

def fileItemTree : FileItem → RoseTree OwnedNode
  | .tensor t => .node (fileNode (.tensor t)).1 []
  | .composite name head members =>
      .node (fileNode (.composite name head members)).1 (members.map fileItemTree)

theorem itemHandle_eq (item : StreamItem) : itemHandle item = (streamItemTree item).preorder := by
  have htree : ∀ x, streamItemTree x = .node (streamNode x).1 ((streamNode x).2.map streamItemTree) := by
    intro x
    cases x <;> simp [streamItemTree, streamNode]
  rw [itemHandle, RoseTree.walk_eq _ htree]
  simp

theorem fileItemHandle_eq (item : FileItem) :
    fileItemHandle item = (fileItemTree item).preorder := by
  have htree : ∀ x, fileItemTree x = .node (fileNode x).1 ((fileNode x).2.map fileItemTree) := by
    intro x
    cases x <;> simp [fileItemTree, fileNode]
  rw [fileItemHandle, RoseTree.walk_eq _ htree]
  simp

theorem related_stream {node : CompositeNode} (h : node.toItem.Counted Filled) :
    RoseTree.Related (fun owned e => streamSurface.entry owned.toC.relay = .ok e)
      (streamItemTree node.toItem) (streamTreeOf node) := by
  induction node using CompositeNode.induct with
  | tensor descriptor buffers =>
    rw [CompositeNode.toItem, StreamItem.Counted] at h
    simp only [CompositeNode.toItem, streamItemTree, streamTreeOf]
    exact .node (entry_relay_tensor h rfl) .nil
  | composite head members ih =>
    rw [CompositeNode.toItem, StreamItem.Counted, List.length_map] at h
    obtain ⟨-, hcount, hmembers⟩ := h
    simp only [CompositeNode.toItem, streamItemTree, streamTreeOf, streamNode, List.length_map]
    refine .node (entry_relay_composite hcount rfl) ?_
    simp only [List.forall₂_map_left_iff, List.forall₂_map_right_iff, List.forall₂_same]
    intro m hm
    exact ih m hm (hmembers _ (List.mem_map_of_mem hm))

theorem fileSurface_read {kind : UInt8} {name : String} {descriptor : TensorDescriptor}
    {buffers : List Bytes} {count : UInt32} :
    fileSurface.read (ownedNode kind (some name) descriptor buffers count).toC.relay =
      .ok (descriptor, name) := by
  simp [fileSurface, descriptorFromC, HurrayItemNode.relay, OwnedNode.toC, ownedNode, tensorHandle]

theorem related_file {node : FileCompositeNode} (h : node.toItem.unnamed.Counted Filled) :
    RoseTree.Related (fun owned e => fileSurface.entry owned.toC.relay = .ok e)
      (fileItemTree node.toItem) (fileTreeOf node) := by
  induction node using FileCompositeNode.induct with
  | tensor name descriptor buffers =>
    rw [FileCompositeNode.toItem, FileItem.unnamed, StreamItem.Counted] at h
    simp only [FileCompositeNode.toItem, fileItemTree, fileTreeOf]
    exact .node (entry_relay_tensor h fileSurface_read) .nil
  | composite name head members ih =>
    rw [FileCompositeNode.toItem, FileItem.unnamed, StreamItem.Counted, List.length_map,
      List.length_map] at h
    obtain ⟨-, hcount, hmembers⟩ := h
    simp only [FileCompositeNode.toItem, fileItemTree, fileTreeOf, fileNode, List.length_map]
    refine .node (entry_relay_composite hcount fileSurface_read) ?_
    simp only [List.forall₂_map_left_iff, List.forall₂_map_right_iff, List.forall₂_same]
    intro m hm
    exact ih m hm (hmembers _ (List.mem_map_of_mem (List.mem_map_of_mem hm)))

end Hurray.Ffi
