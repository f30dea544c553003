import Hurray.Base.Checked
import Hurray.Descriptor.Tensor

/-!
The checks of a composite group: what each member must be under the rule of the
head, and what must hold once the last member has been seen.
-/
namespace Hurray.Descriptor
open Hurray.Base Hurray.Core

def hasDynamic (s : Shape) : Bool := s.dims.contains DYNAMIC

/-- The progress of one group. -/
structure CompositeValidator where
  rule : CompositionRule
  declaredMemberCount : UInt32
  headShapeDims : List UInt64
  headTypeTag : UInt8
  membersSeen : ℕ
  partitionBoxes : List (List UInt64 × List UInt64)
  deriving DecidableEq

/-- Two boxes share a cell in every dimension. -/
def boxesOverlap (a b : List UInt64 × List UInt64) : Bool :=
  ((a.1.zip a.2).zip (b.1.zip b.2)).all fun p =>
    decide (p.1.1 < saturatingAdd p.2.1 p.2.2) && decide (p.2.1 < saturatingAdd p.1.1 p.1.2)

/-- The number of cells, if it is known and fits a word. -/
def volume (dims : List UInt64) : Option UInt64 :=
  dims.foldlM (fun acc d => if d = DYNAMIC then none else checkedMul acc d) 1

/-- The cells covered by the boxes, if every volume and every partial sum is known. -/
def coveredVolume (boxes : List (List UInt64 × List UInt64)) : Option UInt64 :=
  boxes.foldl (fun covered b => do
    let c ← covered
    let v ← volume b.2
    checkedAdd c v) (some 0)

/-- The first two boxes that overlap, in the order of the source's nested loops. -/
def firstOverlap (boxes : List (List UInt64 × List UInt64)) : Option (ℕ × ℕ) :=
  (List.range boxes.length).findSome? fun i =>
    (List.range' (i + 1) (boxes.length - (i + 1))).findSome? fun j =>
      match boxes[i]?, boxes[j]? with
      | some a, some b => if boxesOverlap a b then some (i, j) else none
      | _, _ => none

namespace CompositeValidator

def new (head : TensorDescriptor) : Result CompositeValidator :=
  match head.layout with
  | .composite c => do
      Exec.reject (c.rule ≠ .group ∧ hasDynamic head.shape) (.invalidLayout
        ("partition/overlay composite head shape MUST NOT contain a DYNAMIC dimension " ++
          "(coverage/volume math requires a fully static shape)"))
      pure { rule := c.rule, declaredMemberCount := c.memberCount,
             headShapeDims := head.shape.dims, headTypeTag := head.elementType.tag,
             membersSeen := 0, partitionBoxes := [] }
  | other => Exec.fail (.invalidLayout
      s!"composite head's layout_tag must be 0x0B (Composite), got 0x{hexByte other.tag}")

variable (v : CompositeValidator)

def shardBox (member : TensorDescriptor) (index : ℕ) : Result ShardDescriptor := do
  let shard ← Exec.orFail member.shard (.compositeMemberMissingShard index)
  Exec.reject (shard.parentShape ≠ v.headShapeDims) (.compositeMemberParentShapeMismatch index)
  shard.validateAgainstShape member.shape
  pure shard

def checkMemberType (member : TensorDescriptor) (index : ℕ) : Result Unit :=
  if member.quantization.isSome then pure ()
  else Exec.reject (member.elementType.tag ≠ v.headTypeTag)
    (.compositeMemberTypeMismatch index member.elementType.tag v.headTypeTag)

/-- The base of an overlay covers the head's whole index space. -/
def spansFully (shard : ShardDescriptor) (member : TensorDescriptor) : Bool :=
  shard.shardOffset.all (· == 0) && member.shape.dims == v.headShapeDims

def checkOverlayMemberRole (member : TensorDescriptor) (index : ℕ) : Result Unit := do
  let cm ← Exec.orFail member.compositeMember
    (.compositeMemberFlagMismatch v.rule.ruleByte false)
  if index = 0 then do
    Exec.reject (cm.memberRole ≠ .base) .compositeOverlayBaseNotFirst
    let shard ← Exec.orFail member.shard (.compositeMemberMissingShard index)
    Exec.reject (v.spansFully shard member = false) .compositeOverlayBaseNotSpanning
  else Exec.reject (cm.memberRole ≠ .correction) .compositeOverlayBaseNotFirst

def rejectCompositeMemberFlag (member : TensorDescriptor) : Result Unit :=
  Exec.reject (member.compositeMember.isSome)
    (.compositeMemberFlagMismatch v.rule.ruleByte true)

/-- The checks of one member, and the boxes they leave behind. -/
def checkMember (member : TensorDescriptor) : Result (List (List UInt64 × List UInt64)) :=
  match v.rule with
  | .partition => do
      let shard ← v.shardBox member v.membersSeen
      v.checkMemberType member v.membersSeen
      v.rejectCompositeMemberFlag member
      pure (v.partitionBoxes ++ [(shard.shardOffset, member.shape.dims)])
  | .overlay _ => do
      let _ ← v.shardBox member v.membersSeen
      v.checkMemberType member v.membersSeen
      v.checkOverlayMemberRole member v.membersSeen
      pure v.partitionBoxes
  | .group => do
      v.rejectCompositeMemberFlag member
      pure v.partitionBoxes

def pushMember (member : TensorDescriptor) : Result CompositeValidator := do
  let boxes ← v.checkMember member
  pure { v with partitionBoxes := boxes, membersSeen := v.membersSeen + 1 }

/-- The exact cover: no two boxes overlap, and their volumes add up to the head's. An unknown
volume is let through. -/
def validatePartitionCoverage : Result Unit :=
  match firstOverlap v.partitionBoxes with
  | some (a, b) => Exec.fail (.compositePartitionOverlap a b)
  | none =>
      match volume v.headShapeDims, coveredVolume v.partitionBoxes with
      | some total, some covered => Exec.reject (covered ≠ total) .compositePartitionGap
      | _, _ => pure ()

def finish : Result Unit := do
  Exec.reject (UInt32.ofNat v.membersSeen ≠ v.declaredMemberCount)
    (.compositeMemberCountMismatch v.declaredMemberCount v.membersSeen)
  match v.rule with
  | .partition => v.validatePartitionCoverage
  | .overlay _ => Exec.reject (v.membersSeen = 0) .compositeOverlayEmpty
  | .group => pure ()

section
variable {v} {head member : TensorDescriptor} {w : CompositeValidator}

/-- A new validator counts from zero, and was made for a composite head. -/
theorem new_eq_ok (h : new head = .ok w) : ∃ c, head.layout = .composite c ∧
    w.membersSeen = 0 ∧ w.declaredMemberCount = c.memberCount := by
  unfold new at h
  split at h
  · next c hc =>
    obtain ⟨_, -, hw⟩ := Exec.bind_eq_ok.mp h
    cases hw
    exact ⟨c, hc, rfl, rfl⟩
  · exact absurd h Exec.fail_ne_ok

theorem pushMember_eq_ok (h : v.pushMember member = .ok w) :
    w.membersSeen = v.membersSeen + 1 ∧ w.declaredMemberCount = v.declaredMemberCount := by
  obtain ⟨boxes, -, hw⟩ := Exec.bind_eq_ok.mp h
  cases hw
  exact ⟨rfl, rfl⟩

theorem finish_eq_ok (h : v.finish = .ok ()) :
    UInt32.ofNat v.membersSeen = v.declaredMemberCount := by
  obtain ⟨_, hcount, -⟩ := Exec.bind_eq_ok.mp h
  simpa using hcount

/-! A validator reports what it finds. Only a member whose shard was not checked against its own
shape makes it panic. -/

theorem new_safe : (new head).Safe := by
  unfold new
  split
  · exact Exec.safe_bind Exec.reject_ne_panic fun _ _ => Exec.ok_ne_panic
  · exact Exec.fail_ne_panic

theorem shardBox_safe {i : ℕ} (h : ∀ s, member.shard = some s → s.FitsShape member.shape) :
    (v.shardBox member i).Safe := by
  unfold shardBox
  apply Exec.safe_bind Exec.orFail_ne_panic
  intro s hs
  apply Exec.safe_bind Exec.reject_ne_panic
  intro _ _
  rw [(h s (Exec.orFail_eq_ok.mp hs)).inBounds]
  exact Exec.ok_ne_panic

theorem checkMemberType_safe {i : ℕ} : (v.checkMemberType member i).Safe := by
  unfold checkMemberType
  split
  · exact Exec.ok_ne_panic
  · exact Exec.reject_ne_panic

theorem checkOverlayMemberRole_safe {i : ℕ} : (v.checkOverlayMemberRole member i).Safe := by
  unfold checkOverlayMemberRole
  apply Exec.safe_bind Exec.orFail_ne_panic
  intro cm _
  split
  · apply Exec.safe_bind Exec.reject_ne_panic
    intro _ _
    exact Exec.safe_bind Exec.orFail_ne_panic fun _ _ => Exec.reject_ne_panic
  · exact Exec.reject_ne_panic

theorem pushMember_safe (h : ∀ s, member.shard = some s → s.FitsShape member.shape) :
    (v.pushMember member).Safe := by
  apply Exec.safe_bind _ fun _ _ => Exec.ok_ne_panic
  unfold checkMember
  split
  · apply Exec.safe_bind (shardBox_safe h)
    intro _ _
    apply Exec.safe_bind checkMemberType_safe
    intro _ _
    exact Exec.safe_bind Exec.reject_ne_panic fun _ _ => Exec.ok_ne_panic
  · apply Exec.safe_bind (shardBox_safe h)
    intro _ _
    apply Exec.safe_bind checkMemberType_safe
    intro _ _
    exact Exec.safe_bind checkOverlayMemberRole_safe fun _ _ => Exec.ok_ne_panic
  · exact Exec.safe_bind Exec.reject_ne_panic fun _ _ => Exec.ok_ne_panic

theorem finish_safe : v.finish.Safe := by
  apply Exec.safe_bind Exec.reject_ne_panic
  intro _ _
  split
  · unfold validatePartitionCoverage
    split
    · exact Exec.fail_ne_panic
    · split
      · exact Exec.reject_ne_panic
      · exact Exec.ok_ne_panic
  · exact Exec.reject_ne_panic
  · exact Exec.ok_ne_panic

end
end CompositeValidator
end Hurray.Descriptor
