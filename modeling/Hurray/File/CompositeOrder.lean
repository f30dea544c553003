import Hurray.Base.RoseTree
import Hurray.File.CompositeRoundtrip
import Hurray.Stream.EmissionOrder

/-!
A composite is written in one order. The loop of the file and the lazy stack of the stream list
the preorder of the tree; only the loop is sure to come to its end, since the stream encodes a
member when its turn has come.
-/
namespace Hurray.File
open Hurray.Base Hurray.Core Hurray.Descriptor Hurray.Stream StateTransition

/-! ### The tree of a composite -/

def FileTensor.unnamed (t : FileTensor) : StreamTensor := ⟨t.descriptor, t.buffers⟩

namespace FileCompositeNode

/-- The tree of a node. Every node is its own label. -/
def tree : FileCompositeNode → RoseTree FileCompositeNode
  | tensor name d buffers => .node (.tensor name d buffers) []
  | composite name head members => .node (.composite name head members) (members.map tree)

/-- What a node itself contributes to the order. -/
def entry : FileCompositeNode → CompositeWrite
  | tensor name d buffers => ⟨name, d, buffers⟩
  | composite name head _ => ⟨name, head, []⟩

/-- A head passes the validator over the descriptors of its direct members. -/
def HeadPasses : FileCompositeNode → Prop
  | tensor _ _ _ => True
  | composite _ head members => ∃ v w, CompositeValidator.new head = .ok v ∧
      (members.map descriptor).foldlM CompositeValidator.pushMember v = .ok w ∧ w.finish = .ok ()

theorem validateLevel_eq_ok_iff {name : String} {head : TensorDescriptor}
    {members : List FileCompositeNode} :
    validateLevel head members = .ok () ↔ (composite name head members).HeadPasses := by
  rw [validateLevel, Exec.mapError_eq_ok, Exec.bind_eq_ok]
  simp only [Exec.bind_eq_ok, HeadPasses, List.foldlM_map]
  constructor
  · intro h
    obtain ⟨v, hnew, w, hfold, hfinish⟩ := h
    exact ⟨v, w, hnew, hfold, hfinish⟩
  · intro h
    obtain ⟨v, w, hnew, hfold, hfinish⟩ := h
    exact ⟨v, hnew, w, hfold, hfinish⟩

theorem tensors_eq_preorder (node : FileCompositeNode) :
    node.tensors = node.tree.preorder.map entry := by
  induction node using FileCompositeNode.induct with
  | tensor name d buffers => simp [tensors, tree, RoseTree.preorder, entry]
  | composite name head members ih =>
    rw [tensors, tree, RoseTree.preorder, List.map_cons, List.flatMap_map, List.map_flatMap]
    congr 1
    exact List.flatMap_congr ih

theorem levelsValid_iff (node : FileCompositeNode) :
    node.LevelsValid ↔ ∀ n ∈ node.tree.preorder, n.HeadPasses := by
  induction node using FileCompositeNode.induct with
  | tensor name d buffers => simp [LevelsValid, tree, RoseTree.preorder, HeadPasses]
  | composite name head members ih =>
    rw [LevelsValid, tree, RoseTree.preorder, List.forall_mem_cons, List.flatMap_map,
      ← validateLevel_eq_ok_iff, List.forall_mem_flatMap]
    exact and_congr_right fun _ => forall₂_congr ih

/-- The stream has the same tensors in the same order. -/
theorem tensors_unnamed (node : FileCompositeNode) :
    node.unnamed.tensors = node.tensors.map FileTensor.unnamed := by
  induction node using FileCompositeNode.induct with
  | tensor name d buffers => simp [unnamed, tensors, CompositeNode.tensors, FileTensor.unnamed]
  | composite name head members ih =>
    rw [unnamed, tensors, CompositeNode.tensors, List.map_cons, List.flatMap_map, List.map_flatMap]
    congr 1
    exact List.flatMap_congr ih

theorem validateGroup_unnamed (head : TensorDescriptor) (members : List FileCompositeNode) :
    StreamWriterCore.validateGroup head (members.map unnamed) = validateLevel head members := by
  have hdescriptor (m : FileCompositeNode) : m.unnamed.descriptor = m.descriptor := by
    cases m <;> simp [unnamed, descriptor, CompositeNode.descriptor]
  unfold StreamWriterCore.validateGroup validateLevel
  simp only [List.foldlM_map, hdescriptor]

/-- The stream validates every level of the tree before it accepts it. -/
theorem levelsValid_of_validateNode {core : StreamWriterCore} (node : FileCompositeNode)
    (h : core.validateNode node.unnamed = .ok ()) : node.LevelsValid := by
  induction node using FileCompositeNode.induct with
  | tensor name d buffers => simp [LevelsValid]
  | composite name head members ih =>
    rw [unnamed, StreamWriterCore.validateNode] at h
    obtain ⟨_, hgroup, hmembers⟩ := Exec.bind_eq_ok.mp h
    have hnodes := validateMembers_eq_ok hmembers
    rw [List.forall_mem_map] at hnodes
    rw [LevelsValid, ← validateGroup_unnamed]
    exact ⟨hgroup, fun m hm => ih m hm (hnodes m hm)⟩

end FileCompositeNode

/-! ### One order -/

section Order
variable {name : String} {head : TensorDescriptor} {members : List FileCompositeNode}
  {core : StreamWriterCore} {op : WriteOp}

/-- The loop succeeds exactly when every head in the tree passes its validator. -/
theorem flattenComposite_isOk : (∃ order, flattenComposite name head members = .ok order) ↔
    ∀ path n, (FileCompositeNode.composite name head members).tree.labelAt path = some n →
      n.HeadPasses := by
  have hlevels := (FileCompositeNode.composite name head members).levelsValid_iff
  have horder := (FileCompositeNode.composite name head members).tree.inPreorder
  simp only [flattenComposite_eq_ok, exists_and_left, exists_eq, and_true, hlevels,
    horder.mem_iff, forall_exists_index]
  exact forall_comm

/-- It lists every node of the tree once, in preorder. -/
theorem flattenComposite_inPreorder {order : List CompositeWrite}
    (h : flattenComposite name head members = .ok order) :
    ∃ nodes, (FileCompositeNode.composite name head members).tree.InPreorder nodes ∧
      order = nodes.map FileCompositeNode.entry := by
  obtain ⟨-, rfl⟩ := flattenComposite_eq_ok.mp h
  exact ⟨_, RoseTree.inPreorder _, FileCompositeNode.tensors_eq_preorder _⟩

/-- A tree that the stream accepts is listed by the loop, in the order of the stream. -/
theorem flattenComposite_of_submit
    (h : core.submit (FileCompositeNode.composite name head members).unnamed = .ok op) :
    ∃ order, flattenComposite name head members = .ok order ∧
      (FileCompositeNode.composite name head members).unnamed.tensors =
        order.map FileTensor.unnamed := by
  obtain ⟨-, hvalid, -⟩ := StreamWriterCore.submit_eq_ok.mp h
  have hlevels := FileCompositeNode.levelsValid_of_validateNode _ hvalid
  exact ⟨_, flattenComposite_eq_ok.mpr ⟨hlevels, rfl⟩, FileCompositeNode.tensors_unnamed _⟩

/-- Of the tensors of a node, each is that of a node at the end of a path. -/
theorem forall_tensors_iff {P : TensorDescriptor → Prop} (node : FileCompositeNode) :
    (∀ t ∈ node.tensors, P t.descriptor) ↔
      ∀ path n, node.tree.labelAt path = some n → P n.descriptor := by
  have hentry (n : FileCompositeNode) : n.entry.descriptor = n.descriptor := by
    cases n <;> simp [FileCompositeNode.entry, FileCompositeNode.descriptor]
  rw [FileCompositeNode.tensors_eq_preorder, List.forall_mem_map]
  simp only [hentry, node.tree.inPreorder.mem_iff, forall_exists_index]
  exact forall_comm

/-- The loop lists every node once and in preorder, and fails only for a head that does not pass.
The stream emits the same tensors for a tree that it accepts exactly when every node in it
encodes. -/
theorem composite_order (name : String) (head : TensorDescriptor)
    (members : List FileCompositeNode) :
    ((∃ order, flattenComposite name head members = .ok order) ↔
      ∀ path n, (FileCompositeNode.composite name head members).tree.labelAt path = some n →
        n.HeadPasses) ∧
    (∀ order, flattenComposite name head members = .ok order →
      ∃ nodes, (FileCompositeNode.composite name head members).tree.InPreorder nodes ∧
        order = nodes.map FileCompositeNode.entry) ∧
    ∀ core op, StreamWriterCore.composite core head (members.map FileCompositeNode.unnamed) = .ok op →
      ∃ order, flattenComposite name head members = .ok order ∧
        (op.Emits (order.map FileTensor.unnamed) ↔
          ∀ path n, (FileCompositeNode.composite name head members).tree.labelAt path = some n →
            Encodable n.descriptor) := by
  refine ⟨flattenComposite_isOk, fun _ => flattenComposite_inPreorder, ?_⟩
  intro core op h
  have hsubmit : core.submit (FileCompositeNode.composite name head members).unnamed = .ok op := by
    rw [FileCompositeNode.unnamed]
    exact h
  obtain ⟨order, horder, htensors⟩ := flattenComposite_of_submit hsubmit
  refine ⟨order, horder, ?_⟩
  obtain ⟨-, hlisted⟩ := flattenComposite_eq_ok.mp horder
  rw [← htensors, emits_iff_encodable hsubmit, htensors, List.forall_mem_map, hlisted]
  exact forall_tensors_iff (FileCompositeNode.composite name head members)

end Order

def workedMember (d : TensorDescriptor) : FileCompositeNode :=
  .tensor "g.0" d [List.replicate 192 7]

theorem accepted_of_valid {d : TensorDescriptor} (h : StreamWriterCore.new.validateNode
      (.composite (workedGroup 1) [.tensor d [List.replicate 192 7]]) = .ok ()) :
    ∃ op, StreamWriterCore.new.composite (workedGroup 1)
      ([workedMember d].map FileCompositeNode.unnamed) = .ok op := by
  obtain ⟨op, hop⟩ := submit_of_valid 1 _ h
  refine ⟨op, ?_⟩
  rw [List.map_singleton, workedMember, FileCompositeNode.unnamed]
  exact hop

theorem composite_order_worked : ∃ op,
    StreamWriterCore.new.composite (workedGroup 1)
      ([workedMember workedExample].map FileCompositeNode.unnamed) = .ok op ∧
    ∃ order, flattenComposite "g" (workedGroup 1) [workedMember workedExample] = .ok order ∧
      (op.Emits (order.map FileTensor.unnamed) ↔
        ∀ path n, (FileCompositeNode.composite "g" (workedGroup 1)
          [workedMember workedExample]).tree.labelAt path = some n → Encodable n.descriptor) := by
  obtain ⟨op, hop⟩ := accepted_of_valid (d := workedExample) (by decide +kernel)
  exact ⟨op, hop, (composite_order "g" (workedGroup 1) [workedMember workedExample]).2.2 _ op hop⟩

/-- A group over a member that does not encode is accepted and listed, but not emitted. -/
theorem listed_not_emitted : ∃ op order,
    StreamWriterCore.new.composite (workedGroup 1)
      ([workedMember unevenCsf].map FileCompositeNode.unnamed) = .ok op ∧
    flattenComposite "g" (workedGroup 1) [workedMember unevenCsf] = .ok order ∧
    ¬ op.Emits (order.map FileTensor.unnamed) := by
  obtain ⟨op, hop⟩ := accepted_of_valid (d := unevenCsf) (by decide +kernel)
  have hsubmit : StreamWriterCore.new.submit
      (FileCompositeNode.composite "g" (workedGroup 1) [workedMember unevenCsf]).unnamed = .ok op := by
    rw [FileCompositeNode.unnamed]
    exact hop
  obtain ⟨order, horder, htensors⟩ := flattenComposite_of_submit hsubmit
  refine ⟨op, order, hop, horder, ?_⟩
  rw [← htensors, emits_iff_encodable hsubmit]
  intro h
  have hmember : (⟨unevenCsf, [List.replicate 192 7]⟩ : StreamTensor) ∈
      (FileCompositeNode.composite "g" (workedGroup 1) [workedMember unevenCsf]).unnamed.tensors := by
    simp [FileCompositeNode.unnamed, workedMember, CompositeNode.tensors]
  have hlayout : UInt32.ofNat 0 = UInt32.ofNat 2 := (h _ hmember).layout
  exact absurd hlayout (by decide)

end Hurray.File
