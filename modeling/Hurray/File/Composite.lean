import Hurray.Descriptor.Composite
import Hurray.File.Types

/-!
A composite on its way into a file: every level of the tree is checked, and its
tensors are listed in the order in which they are written. The traversal is a loop
over a stack of open heads, and what it lists is the preorder of the tree.
-/
namespace Hurray.File
open Hurray.Base Hurray.Core Hurray.Descriptor Hurray.Stream

/-- One tensor of a flattened composite. -/
abbrev CompositeWrite := FileTensor

namespace FileCompositeNode

/-- The tensors of a node in the order of the file: a head, then its members. -/
def tensors : FileCompositeNode → List CompositeWrite
  | tensor name d buffers => [⟨name, d, buffers⟩]
  | composite name head members => ⟨name, head, []⟩ :: members.flatMap tensors

/-- The item that reads back a node. -/
def toItem : FileCompositeNode → FileItem
  | tensor name d buffers => .tensor ⟨name, d, buffers⟩
  | composite name head members => .composite name head (members.map toItem)

/-- A property of every tree, from the leaves to the heads. -/
theorem induct {P : FileCompositeNode → Prop}
    (tensor : ∀ name d buffers, P (.tensor name d buffers))
    (composite : ∀ name head members, (∀ m ∈ members, P m) → P (.composite name head members)) :
    ∀ node, P node
  | .tensor name d buffers => tensor name d buffers
  | .composite name head members =>
      composite name head members fun m _ => induct tensor composite m

end FileCompositeNode

/-- The rule of one head over its members. -/
def validateLevel (head : TensorDescriptor) (nodes : List FileCompositeNode) : Result Unit :=
  Exec.mapError .core do
    let validator ← CompositeValidator.new head
    let validator ← nodes.foldlM (fun v node => v.pushMember node.descriptor) validator
    validator.finish

/-- An open head, with the members that it has and the next of them to list. -/
structure OpenHead where
  head : TensorDescriptor
  nodes : List FileCompositeNode
  next : ℕ

namespace OpenHead

/-- The tensors that a head has still to list. -/
def pending (f : OpenHead) : List CompositeWrite :=
  (f.nodes.drop f.next).flatMap FileCompositeNode.tensors

/-- A level is checked once, on the way in. -/
def check (f : OpenHead) : Result Unit :=
  if f.next = 0 then validateLevel f.head f.nodes else pure ()

def step (f : OpenHead) : OpenHead := { f with next := f.next + 1 }

variable {f : OpenHead} {node : FileCompositeNode}

theorem pending_start (head : TensorDescriptor) (members : List FileCompositeNode) :
    (⟨head, members, 0⟩ : OpenHead).pending = members.flatMap FileCompositeNode.tensors := rfl

theorem pending_of_none (h : f.nodes[f.next]? = none) : f.pending = [] := by
  rw [pending, List.drop_eq_nil_of_le (List.getElem?_eq_none_iff.mp h), List.flatMap_nil]

theorem drop_of_some (h : f.nodes[f.next]? = some node) :
    f.nodes.drop f.next = node :: f.nodes.drop (f.next + 1) := by
  obtain ⟨hlt, rfl⟩ := List.getElem?_eq_some_iff.mp h
  exact List.drop_eq_getElem_cons hlt

theorem pending_of_some (h : f.nodes[f.next]? = some node) :
    f.pending = node.tensors ++ f.step.pending := by
  rw [pending, drop_of_some h, List.flatMap_cons]
  rfl

end OpenHead

/-- How often the loop can still go round. -/
def headsLeft (stack : List OpenHead) : ℕ :=
  (stack.map fun f => 2 * f.pending.length + 1).sum

def flattenLoop (stack : List OpenHead) (order : List CompositeWrite) :
    Result (List CompositeWrite) :=
  match stack with
  | [] => .ok order
  | f :: rest =>
      match f.check with
      | .error e => .error e
      | .ok _ =>
          match _h : f.nodes[f.next]? with
          | none => flattenLoop rest order
          | some (.tensor name d buffers) =>
              flattenLoop (f.step :: rest) (order ++ [⟨name, d, buffers⟩])
          | some (.composite name head members) =>
              flattenLoop (⟨head, members, 0⟩ :: f.step :: rest) (order ++ [⟨name, head, []⟩])
termination_by headsLeft stack
decreasing_by
  · simp only [headsLeft, List.map_cons, List.sum_cons]
    omega
  · simp only [headsLeft, List.map_cons, List.sum_cons, OpenHead.pending_of_some ‹_›,
      FileCompositeNode.tensors, List.length_append, List.length_singleton]
    omega
  · simp only [headsLeft, List.map_cons, List.sum_cons, OpenHead.pending_of_some ‹_›,
      OpenHead.pending_start, FileCompositeNode.tensors, List.length_append, List.length_cons]
    omega

/-- The tensors of a composite in the order of the file. -/
def flattenComposite (headName : String) (head : TensorDescriptor)
    (members : List FileCompositeNode) : Result (List CompositeWrite) :=
  flattenLoop [⟨head, members, 0⟩] [⟨headName, head, []⟩]

namespace FileCompositeNode

/-- Every level of the tree passes the checks of its head. -/
def LevelsValid : FileCompositeNode → Prop
  | tensor _ _ _ => True
  | composite _ head members =>
      validateLevel head members = .ok () ∧ ∀ m ∈ members, LevelsValid m

end FileCompositeNode

/-- What the loop checks of one open head. -/
structure OpenHead.Valid (f : OpenHead) : Prop where
  level : f.check = .ok ()
  nodes : ∀ node ∈ f.nodes.drop f.next, node.LevelsValid

section Flatten
variable {stack : List OpenHead} {order result : List CompositeWrite}

theorem OpenHead.valid_of_none {f : OpenHead} (h : f.nodes[f.next]? = none) :
    f.Valid ↔ f.check = .ok () := by
  constructor
  · intro hf
    exact hf.level
  · intro hcheck
    refine ⟨hcheck, ?_⟩
    rw [List.drop_eq_nil_of_le (List.getElem?_eq_none_iff.mp h)]
    exact fun _ hm => absurd hm List.not_mem_nil

theorem OpenHead.valid_of_some {f : OpenHead} {node : FileCompositeNode}
    (h : f.nodes[f.next]? = some node) :
    f.Valid ↔ f.check = .ok () ∧ node.LevelsValid ∧ f.step.Valid := by
  have hnext : f.step.check = .ok () := rfl
  constructor
  · intro hf
    have hnodes := hf.nodes
    rw [drop_of_some h, List.forall_mem_cons] at hnodes
    exact ⟨hf.level, hnodes.1, hnext, hnodes.2⟩
  · intro hf
    obtain ⟨hcheck, hnode, hstep⟩ := hf
    refine ⟨hcheck, ?_⟩
    rw [drop_of_some h, List.forall_mem_cons]
    exact ⟨hnode, hstep.nodes⟩

/-- The loop lists what is pending on its stack, as long as every level is valid. -/
theorem flattenLoop_eq_ok : flattenLoop stack order = .ok result ↔
    (∀ f ∈ stack, f.Valid) ∧ result = order ++ stack.flatMap OpenHead.pending := by
  induction stack, order using flattenLoop.induct with
  | case1 order => simp [flattenLoop, eq_comm]
  | case2 order f rest e hcheck =>
    rw [flattenLoop, hcheck]
    simp only [reduceCtorEq, List.forall_mem_cons, false_iff, not_and]
    intro hf
    rw [hf.1.level] at hcheck
    cases hcheck
  | case3 order f rest u hcheck hnone ih =>
    rw [flattenLoop, hcheck]
    simp only
    split
    · rw [ih, List.forall_mem_cons, OpenHead.valid_of_none hnone, List.flatMap_cons,
        OpenHead.pending_of_none hnone, List.nil_append]
      exact and_congr_left fun _ => (and_iff_right hcheck).symm
    · next h => rw [hnone] at h; cases h
    · next h => rw [hnone] at h; cases h
  | case4 order f rest u hcheck name d buffers hsome ih =>
    rw [flattenLoop, hcheck]
    simp only
    split
    · next h => rw [hsome] at h; cases h
    · next h =>
      rw [hsome] at h
      cases h
      rw [ih, List.forall_mem_cons, List.forall_mem_cons, OpenHead.valid_of_some hsome,
        List.flatMap_cons, List.flatMap_cons, OpenHead.pending_of_some hsome]
      simp [FileCompositeNode.LevelsValid, FileCompositeNode.tensors, hcheck]
    · next h => rw [hsome] at h; cases h
  | case5 order f rest u hcheck name head members hsome ih =>
    rw [flattenLoop, hcheck]
    simp only
    split
    · next h => rw [hsome] at h; cases h
    · next h => rw [hsome] at h; cases h
    · next h =>
      rw [hsome] at h
      cases h
      have hlevel : (⟨head, members, 0⟩ : OpenHead).Valid ↔
          (FileCompositeNode.composite name head members).LevelsValid := by
        rw [FileCompositeNode.LevelsValid]
        constructor
        · intro hf
          exact ⟨hf.level, hf.nodes⟩
        · intro hf
          exact ⟨hf.1, hf.2⟩
      rw [ih, List.forall_mem_cons, List.forall_mem_cons, List.forall_mem_cons, hlevel,
        OpenHead.valid_of_some hsome, List.flatMap_cons, List.flatMap_cons, List.flatMap_cons,
        OpenHead.pending_of_some hsome]
      simp [FileCompositeNode.tensors, OpenHead.pending, hcheck, and_assoc]

/-- A composite is listed in preorder, when all its levels are valid. -/
theorem flattenComposite_eq_ok {name : String} {head : TensorDescriptor}
    {members : List FileCompositeNode} : flattenComposite name head members = .ok result ↔
      (FileCompositeNode.composite name head members).LevelsValid ∧
        result = (FileCompositeNode.composite name head members).tensors := by
  rw [flattenComposite, flattenLoop_eq_ok, FileCompositeNode.LevelsValid,
    FileCompositeNode.tensors]
  have hvalid : (∀ f ∈ [(⟨head, members, 0⟩ : OpenHead)], f.Valid) ↔
      validateLevel head members = .ok () ∧ ∀ m ∈ members, m.LevelsValid := by
    rw [List.forall_mem_singleton]
    constructor
    · intro hf
      exact ⟨hf.level, hf.nodes⟩
    · intro hf
      exact ⟨hf.1, hf.2⟩
  rw [hvalid, List.flatMap_singleton]
  rfl

end Flatten
end Hurray.File
