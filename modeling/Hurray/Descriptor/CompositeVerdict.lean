import Hurray.Descriptor.Composite
import Hurray.Descriptor.Contract

/-!
The verdict on a whole composite: the members are checked one after another,
each against the head and its place in the sequence, and then the group as a
whole.
-/
namespace Hurray.Descriptor
open Hurray.Base Hurray.Core

theorem saturatingAdd_le {a b c : UInt64} (hc : c ≠ DYNAMIC) :
    ¬ saturatingAdd a b > c ↔ a.toNat + b.toNat ≤ c.toNat := by
  have hmax : (0xFFFFFFFFFFFFFFFF : UInt64).toNat = 2 ^ 64 - 1 := rfl
  have hlt : c.toNat < 2 ^ 64 := c.toNat_lt_size
  have hne : c.toNat ≠ 2 ^ 64 - 1 := by
    intro h
    exact hc (UInt64.toNat_inj.mp (h.trans hmax.symm))
  have hsize : UInt64.size = 2 ^ 64 := rfl
  rw [gt_iff_lt, UInt64.not_lt, UInt64.le_iff_toNat_le]
  unfold saturatingAdd
  split
  · next hfits => rw [UInt64.toNat_add, Nat.mod_eq_of_lt (by omega)]
  · next hover =>
    rw [hmax]
    omega

/-- The box of a shard lies in the shape it is part of. -/
def ShardDescriptor.InBounds (s : ShardDescriptor) (shape : Shape) : Prop :=
  ∀ k < s.parentShape.length, ∃ dim offset parent, shape.dims[k]? = some dim ∧
    s.shardOffset[k]? = some offset ∧ s.parentShape[k]? = some parent ∧
      offset.toNat + dim.toNat ≤ parent.toNat

theorem ShardDescriptor.validateAgainstShape_eq_ok {s : ShardDescriptor} {shape : Shape}
    (hstatic : DYNAMIC ∉ s.parentShape) : s.validateAgainstShape shape = .ok () ↔ s.InBounds shape := by
  rw [validateAgainstShape, Exec.forM_eq_ok]
  simp only [List.mem_range, validateDim, Exec.bind_eq_ok, Exec.index_eq_ok, Exec.reject_eq_ok]
  apply forall₂_congr
  intro k _
  constructor
  · intro h
    obtain ⟨dim, hdim, offset, hoffset, parent, hparent, hle⟩ := h
    have hne : parent ≠ DYNAMIC := by
      intro heq
      exact hstatic (heq ▸ List.mem_of_getElem? hparent)
    exact ⟨dim, offset, parent, hdim, hoffset, hparent, (saturatingAdd_le hne).mp hle⟩
  · intro h
    obtain ⟨dim, offset, parent, hdim, hoffset, hparent, hle⟩ := h
    have hne : parent ≠ DYNAMIC := by
      intro heq
      exact hstatic (heq ▸ List.mem_of_getElem? hparent)
    exact ⟨dim, hdim, offset, hoffset, parent, hparent, (saturatingAdd_le hne).mpr hle⟩

namespace CompositeValidator

/-- The verdict on a head and its members. -/
def validate (head : TensorDescriptor) (members : List TensorDescriptor) : Result Unit := do
  let v ← new head
  let v ← members.foldlM pushMember v
  v.finish

/-! ### One member -/

/-- The member is a part of a shape. -/
def SharedOut (dims : List UInt64) (member : TensorDescriptor) : Prop :=
  ∃ s, member.shard = some s ∧ s.parentShape = dims ∧ s.InBounds member.shape

/-- An unquantized member has the type tag of the head. -/
def Typed (tag : UInt8) (member : TensorDescriptor) : Prop :=
  member.quantization = none → member.elementType.tag = tag

/-- The base covers the whole shape. -/
def IsBase (dims : List UInt64) (member : TensorDescriptor) : Prop :=
  member.compositeMember = some ⟨.base⟩ ∧ member.shape.dims = dims ∧
    ∃ s, member.shard = some s ∧ ∀ o ∈ s.shardOffset, o = 0

def IsCorrection (member : TensorDescriptor) : Prop :=
  member.compositeMember = some ⟨.correction⟩

/-- What the member at an index has to be. -/
def MemberOk (v : CompositeValidator) (index : ℕ) (member : TensorDescriptor) : Prop :=
  match v.rule with
  | .partition => SharedOut v.headShapeDims member ∧ Typed v.headTypeTag member ∧
      member.compositeMember = none
  | .overlay _ => SharedOut v.headShapeDims member ∧ Typed v.headTypeTag member ∧
      (index = 0 → IsBase v.headShapeDims member) ∧ (index ≠ 0 → IsCorrection member)
  | .group => member.compositeMember = none

def boxOf (member : TensorDescriptor) : List UInt64 × List UInt64 :=
  (member.shard.elim [] ShardDescriptor.shardOffset, member.shape.dims)

/-- The boxes that are kept of some members. -/
def boxesOf (rule : CompositionRule) (members : List TensorDescriptor) :
    List (List UInt64 × List UInt64) :=
  match rule with
  | .partition => members.map boxOf
  | _ => []

/-- Nothing is compared with a dimension that is not known. -/
def Static (v : CompositeValidator) : Prop := v.rule ≠ .group → DYNAMIC ∉ v.headShapeDims

section Member
variable {v : CompositeValidator} {member : TensorDescriptor} {index : ℕ}

theorem shardBox_eq_ok (hstatic : DYNAMIC ∉ v.headShapeDims) {s : ShardDescriptor} :
    v.shardBox member index = .ok s ↔
      member.shard = some s ∧ s.parentShape = v.headShapeDims ∧ s.InBounds member.shape := by
  simp only [shardBox, Exec.bind_eq_ok, Exec.orFail_eq_ok, Exec.reject_eq_ok, not_not, pure,
    Except.pure, Except.ok.injEq, exists_const]
  constructor
  · intro h
    obtain ⟨s, hs, hparent, _, hbounds, rfl⟩ := h
    refine ⟨hs, hparent, ?_⟩
    rw [← ShardDescriptor.validateAgainstShape_eq_ok (by rwa [hparent])]
    exact hbounds
  · intro h
    obtain ⟨hs, hparent, hbounds⟩ := h
    refine ⟨s, hs, hparent, (), ?_, rfl⟩
    rw [ShardDescriptor.validateAgainstShape_eq_ok (by rwa [hparent])]
    exact hbounds

theorem checkMemberType_eq_ok :
    v.checkMemberType member index = .ok () ↔ Typed v.headTypeTag member := by
  unfold checkMemberType Typed
  cases hq : member.quantization with
  | none => simp [Exec.reject_eq_ok]
  | some q => simp [pure, Except.pure]

theorem rejectCompositeMemberFlag_eq_ok :
    v.rejectCompositeMemberFlag member = .ok () ↔ member.compositeMember = none := by
  rw [rejectCompositeMemberFlag, Exec.reject_eq_ok]
  simp

theorem spansFully_eq_true {s : ShardDescriptor} : v.spansFully s member = true ↔
    (∀ o ∈ s.shardOffset, o = 0) ∧ member.shape.dims = v.headShapeDims := by
  simp [spansFully]

theorem checkOverlayMemberRole_eq_ok {s : ShardDescriptor} (hs : member.shard = some s) :
    v.checkOverlayMemberRole member index = .ok () ↔
      (index = 0 → IsBase v.headShapeDims member) ∧ (index ≠ 0 → IsCorrection member) := by
  have hrole : ∀ {cm : CompositeMemberDescriptor} {role : MemberRole}, cm.memberRole = role ↔
      cm = ⟨role⟩ := by
    intro cm role
    cases cm
    simp
  simp only [checkOverlayMemberRole, Exec.bind_eq_ok, Exec.orFail_eq_ok]
  by_cases hindex : index = 0
  · simp only [hindex, if_true, Exec.bind_eq_ok, Exec.reject_eq_ok, Exec.orFail_eq_ok, not_not,
      hrole, Bool.not_eq_false, spansFully_eq_true, forall_const, ne_eq, not_true, IsEmpty.forall_iff,
      and_true, IsBase, hs]
    constructor
    · intro h
      obtain ⟨cm, hcm, _, rfl, s', hs', hzero, hdims⟩ := h
      exact ⟨hcm, hdims, s', hs', hzero⟩
    · intro h
      obtain ⟨hcm, hdims, s', hs', hzero⟩ := h
      exact ⟨_, hcm, (), rfl, s', hs', hzero, hdims⟩
  · simp only [hindex, if_false, Exec.reject_eq_ok, not_not, hrole, IsEmpty.forall_iff, true_and,
      ne_eq, not_false_eq_true, forall_const, IsCorrection]
    constructor
    · intro h
      obtain ⟨cm, hcm, rfl⟩ := h
      exact hcm
    · intro h
      exact ⟨_, h, rfl⟩

theorem checkMember_eq_ok (hstatic : v.Static) {boxes : List (List UInt64 × List UInt64)} :
    v.checkMember member = .ok boxes ↔ v.MemberOk v.membersSeen member ∧
      boxes = v.partitionBoxes ++ boxesOf v.rule [member] := by
  unfold checkMember MemberOk
  cases hrule : v.rule with
  | partition =>
    have hstatic := hstatic (by rw [hrule]; nofun)
    simp only [Exec.bind_eq_ok, shardBox_eq_ok hstatic, pure, Except.pure, Except.ok.injEq]
    constructor
    · intro h
      obtain ⟨s, ⟨hs, hparent, hbounds⟩, _, htype, _, hflag, rfl⟩ := h
      refine ⟨⟨⟨s, hs, hparent, hbounds⟩, checkMemberType_eq_ok.mp htype,
        rejectCompositeMemberFlag_eq_ok.mp hflag⟩, ?_⟩
      rw [boxesOf, List.map_singleton, boxOf, hs]
      rfl
    · intro h
      obtain ⟨⟨⟨s, hs, hparent, hbounds⟩, htype, hflag⟩, rfl⟩ := h
      refine ⟨s, ⟨hs, hparent, hbounds⟩, (), checkMemberType_eq_ok.mpr htype, (),
        rejectCompositeMemberFlag_eq_ok.mpr hflag, ?_⟩
      rw [boxesOf, List.map_singleton, boxOf, hs]
      rfl
  | overlay op =>
    have hstatic := hstatic (by rw [hrule]; nofun)
    simp only [Exec.bind_eq_ok, shardBox_eq_ok hstatic, pure, Except.pure, Except.ok.injEq,
      boxesOf, List.append_nil]
    constructor
    · intro h
      obtain ⟨s, ⟨hs, hparent, hbounds⟩, _, htype, _, hrole, rfl⟩ := h
      exact ⟨⟨⟨s, hs, hparent, hbounds⟩, checkMemberType_eq_ok.mp htype,
        (checkOverlayMemberRole_eq_ok hs).mp hrole⟩, rfl⟩
    · intro h
      obtain ⟨⟨⟨s, hs, hparent, hbounds⟩, htype, hrole⟩, rfl⟩ := h
      exact ⟨s, ⟨hs, hparent, hbounds⟩, (), checkMemberType_eq_ok.mpr htype, (),
        (checkOverlayMemberRole_eq_ok hs).mpr hrole, rfl⟩
  | group =>
    simp only [Exec.bind_eq_ok, pure, Except.pure, Except.ok.injEq, boxesOf, List.append_nil]
    constructor
    · intro h
      obtain ⟨_, hflag, rfl⟩ := h
      exact ⟨rejectCompositeMemberFlag_eq_ok.mp hflag, rfl⟩
    · intro h
      obtain ⟨hflag, rfl⟩ := h
      exact ⟨(), rejectCompositeMemberFlag_eq_ok.mpr hflag, rfl⟩

/-- The validator after some members. -/
def after (v : CompositeValidator) (members : List TensorDescriptor) : CompositeValidator :=
  { v with membersSeen := v.membersSeen + members.length,
           partitionBoxes := v.partitionBoxes ++ boxesOf v.rule members }

theorem pushMember_eq_ok_iff (hstatic : v.Static) {w : CompositeValidator} :
    v.pushMember member = .ok w ↔ v.MemberOk v.membersSeen member ∧ w = v.after [member] := by
  simp only [pushMember, Exec.bind_eq_ok, checkMember_eq_ok hstatic, pure, Except.pure,
    Except.ok.injEq]
  constructor
  · intro h
    obtain ⟨boxes, ⟨hok, rfl⟩, rfl⟩ := h
    exact ⟨hok, rfl⟩
  · intro h
    obtain ⟨hok, rfl⟩ := h
    exact ⟨_, ⟨hok, rfl⟩, rfl⟩

end Member

/-! ### All members -/

section Members
variable {v w : CompositeValidator} {members : List TensorDescriptor}

theorem boxesOf_cons (rule : CompositionRule) (member : TensorDescriptor)
    (members : List TensorDescriptor) :
    boxesOf rule (member :: members) = boxesOf rule [member] ++ boxesOf rule members := by
  cases rule <;> rfl

theorem after_cons (v : CompositeValidator) (member : TensorDescriptor)
    (members : List TensorDescriptor) :
    v.after (member :: members) = (v.after [member]).after members := by
  simp only [after, boxesOf_cons v.rule member members, List.append_assoc, List.length_cons,
    List.length_nil]
  congr 1
  omega

/-- The checks of the members, each at its place. -/
theorem pushMembers_eq_ok (hstatic : v.Static) : members.foldlM pushMember v = .ok w ↔
    (∀ i member, members[i]? = some member → v.MemberOk (v.membersSeen + i) member) ∧
      w = v.after members := by
  induction members generalizing v with
  | nil =>
    simp only [List.foldlM_nil, pure, Except.pure, Except.ok.injEq, after, boxesOf]
    constructor
    · intro h
      subst h
      refine ⟨fun i member h => by simp at h, ?_⟩
      cases hrule : v.rule <;> simp [← hrule]
    · intro h
      obtain ⟨-, rfl⟩ := h
      cases hrule : v.rule <;> simp [← hrule]
  | cons member members ih =>
    rw [List.foldlM_cons, Exec.bind_eq_ok]
    simp only [pushMember_eq_ok_iff hstatic]
    have hnext : (v.after [member]).Static := hstatic
    constructor
    · intro h
      obtain ⟨_, ⟨hok, rfl⟩, h⟩ := h
      obtain ⟨hrest, rfl⟩ := (ih hnext).mp h
      refine ⟨?_, (after_cons v member members).symm⟩
      intro i m hm
      cases i with
      | zero =>
        cases hm
        exact hok
      | succ i =>
        have hi := hrest i m hm
        rw [Nat.add_comm i 1, ← Nat.add_assoc]
        exact hi
    · intro h
      obtain ⟨hall, rfl⟩ := h
      refine ⟨_, ⟨hall 0 member rfl, rfl⟩, (ih hnext).mpr ⟨?_, after_cons v member members⟩⟩
      intro i m hm
      have hi := hall (i + 1) m hm
      rw [Nat.add_comm i 1, ← Nat.add_assoc] at hi
      exact hi

end Members
/-! ### The group -/

/-- What a rule asks of the group once all its members are there. -/
def ClosesOk (v : CompositeValidator) (members : List TensorDescriptor) : Prop :=
  match v.rule with
  | .partition => (v.after members).validatePartitionCoverage = .ok ()
  | .overlay _ => members ≠ []
  | .group => True

section Verdict
variable {head : TensorDescriptor} {members : List TensorDescriptor} {c : CompositeLayout}

/-- The validator that a head is given. -/
def start (head : TensorDescriptor) (c : CompositeLayout) : CompositeValidator where
  rule := c.rule
  declaredMemberCount := c.memberCount
  headShapeDims := head.shape.dims
  headTypeTag := head.elementType.tag
  membersSeen := 0
  partitionBoxes := []

theorem new_eq_ok_iff (hc : head.layout = .composite c) {v : CompositeValidator} :
    new head = .ok v ↔ (c.rule ≠ .group → DYNAMIC ∉ head.shape.dims) ∧ v = start head c := by
  have hdynamic : hasDynamic head.shape = true ↔ DYNAMIC ∈ head.shape.dims := by simp [hasDynamic]
  unfold new
  rw [hc]
  simp only [Exec.bind_eq_ok, Exec.reject_eq_ok, hdynamic, not_and, pure, Except.pure,
    Except.ok.injEq, start, exists_const]
  exact and_congr_right fun _ => eq_comm

theorem finish_after :
    ((start head c).after members).finish = .ok () ↔
      UInt32.ofNat members.length = c.memberCount ∧ (start head c).ClosesOk members := by
  have hseen : ((start head c).after members).membersSeen = members.length := Nat.zero_add _
  have hempty : members.length = 0 ↔ members = [] := List.length_eq_zero_iff
  simp only [finish, Exec.bind_eq_ok, Exec.reject_eq_ok, not_not, hseen, exists_const]
  apply and_congr Iff.rfl
  unfold ClosesOk
  show (match c.rule with
    | .partition => ((start head c).after members).validatePartitionCoverage
    | .overlay _ => Exec.reject (members.length = 0) .compositeOverlayEmpty
    | .group => pure ()) = .ok () ↔ _
  cases hrule : c.rule with
  | partition => simp only [start, hrule]
  | overlay op => simp only [start, hrule, Exec.reject_eq_ok, hempty, ne_eq]
  | group => simp only [start, hrule, pure, Except.pure]

/-- The verdict, rule by rule. -/
theorem validate_eq_ok (hc : head.layout = .composite c) : validate head members = .ok () ↔
    (c.rule ≠ .group → DYNAMIC ∉ head.shape.dims) ∧
      (∀ i member, members[i]? = some member → (start head c).MemberOk i member) ∧
        UInt32.ofNat members.length = c.memberCount ∧ (start head c).ClosesOk members := by
  simp only [validate, Exec.bind_eq_ok, new_eq_ok_iff hc]
  constructor
  · intro h
    obtain ⟨_, ⟨hstatic, rfl⟩, w, hpush, hfinish⟩ := h
    obtain ⟨hall, rfl⟩ := (pushMembers_eq_ok (v := start head c) hstatic).mp hpush
    refine ⟨hstatic, ?_, finish_after.mp hfinish⟩
    intro i member hm
    have hi := hall i member hm
    rw [show (start head c).membersSeen = 0 from rfl, Nat.zero_add] at hi
    exact hi
  · intro h
    obtain ⟨hstatic, hall, hclose⟩ := h
    refine ⟨_, ⟨hstatic, rfl⟩, _,
      (pushMembers_eq_ok (v := start head c) hstatic).mpr ⟨?_, rfl⟩, finish_after.mpr hclose⟩
    intro i member hm
    rw [show (start head c).membersSeen = 0 from rfl, Nat.zero_add]
    exact hall i member hm

/-! ### Overlays and groups -/

/-- The members of an overlay: a base, and corrections to it. -/
structure OverlayMembers (head : TensorDescriptor) (members : List TensorDescriptor) : Prop where
  nonempty : members ≠ []
  shared : ∀ m ∈ members, SharedOut head.shape.dims m
  typed : ∀ m ∈ members, Typed head.elementType.tag m
  base : ∀ m, members.head? = some m → IsBase head.shape.dims m
  corrections : ∀ m ∈ members.tail, IsCorrection m

theorem overlay_members_iff {op : CombineOp} {n : UInt32} (hrule : c = ⟨.overlay op, n⟩) :
    (∀ i member, members[i]? = some member → (start head c).MemberOk i member) ∧
      (start head c).ClosesOk members ↔ OverlayMembers head members := by
  subst hrule
  constructor
  · intro h
    obtain ⟨hall, hne⟩ := h
    have hmem : ∀ m ∈ members, ∃ i, members[i]? = some m := fun m hm => List.getElem?_of_mem hm
    constructor
    · exact hne
    · intro m hm
      obtain ⟨i, hi⟩ := hmem m hm
      exact (hall i m hi).1
    · intro m hm
      obtain ⟨i, hi⟩ := hmem m hm
      exact (hall i m hi).2.1
    · intro m hm
      rw [List.head?_eq_getElem?] at hm
      exact (hall 0 m hm).2.2.1 rfl
    · intro m hm
      obtain ⟨i, hi⟩ := List.getElem?_of_mem hm
      rw [List.getElem?_tail] at hi
      exact (hall (i + 1) m hi).2.2.2 (Nat.succ_ne_zero i)
  · intro h
    refine ⟨?_, h.nonempty⟩
    intro i m hm
    have hmem := List.mem_of_getElem? hm
    refine ⟨h.shared m hmem, h.typed m hmem, ?_, ?_⟩
    · intro hi
      subst hi
      exact h.base m (by rw [List.head?_eq_getElem?, hm])
    · intro hi
      obtain ⟨k, rfl⟩ := Nat.exists_eq_succ_of_ne_zero hi
      apply h.corrections m
      apply List.mem_of_getElem?
      rw [List.getElem?_tail]
      exact hm

theorem ofNat_eq_iff (hlt : members.length < UInt32.size) {n : UInt32} :
    UInt32.ofNat members.length = n ↔ members.length = n.toNat := by
  constructor
  · intro h
    rw [← h, UInt32.toNat_ofNat_of_lt' hlt]
  · intro h
    rw [h, UInt32.ofNat_toNat]

/-- An overlay is accepted when its head has only known dimensions and its members are a base and
corrections, as many as declared; a group when its members are as many as declared and carry no
member section. -/
theorem validate_overlay_group_iff (hlt : members.length < UInt32.size) :
    (∀ op n, head.layout = .composite ⟨.overlay op, n⟩ → (validate head members = .ok () ↔
      DYNAMIC ∉ head.shape.dims ∧ members.length = n.toNat ∧ OverlayMembers head members)) ∧
    (∀ n, head.layout = .composite ⟨.group, n⟩ → (validate head members = .ok () ↔
      members.length = n.toNat ∧ ∀ m ∈ members, m.compositeMember = none)) := by
  constructor
  · intro op n hc
    rw [validate_eq_ok hc, ofNat_eq_iff hlt, ← overlay_members_iff rfl]
    simp only [ne_eq, reduceCtorEq, not_false_eq_true, forall_const]
    constructor
    · intro h
      obtain ⟨hstatic, hall, hcount, hclose⟩ := h
      exact ⟨hstatic, hcount, hall, hclose⟩
    · intro h
      obtain ⟨hstatic, hcount, hall, hclose⟩ := h
      exact ⟨hstatic, hall, hcount, hclose⟩
  · intro n hc
    rw [validate_eq_ok hc, ofNat_eq_iff hlt]
    constructor
    · intro h
      obtain ⟨-, hall, hcount, -⟩ := h
      refine ⟨hcount, ?_⟩
      intro m hm
      obtain ⟨i, hi⟩ := List.getElem?_of_mem hm
      exact hall i m hi
    · intro h
      obtain ⟨hcount, hall⟩ := h
      refine ⟨fun hne => absurd rfl hne, ?_, hcount, trivial⟩
      intro i m hm
      exact hall m (List.mem_of_getElem? hm)

end Verdict
end CompositeValidator

/-- The head and the base of an overlay of one member and one dimension. -/
def overlayHead (dim : UInt64) : TensorDescriptor :=
  { workedExample with shape := ⟨[dim], (by decide : 1 ≤ MAX_RANK)⟩, layout := .composite ⟨.overlay .replace, 1⟩,
                       buffers := [] }

def overlayBase (dim : UInt64) : TensorDescriptor :=
  { workedExample with shape := ⟨[dim], (by decide : 1 ≤ MAX_RANK)⟩, shard := some ⟨[dim], [0]⟩,
                       compositeMember := some ⟨.base⟩ }

namespace CompositeValidator

theorem overlayMembers_base (dim : UInt64) : OverlayMembers (overlayHead dim) [overlayBase dim] := by
  constructor
  · exact List.cons_ne_nil _ _
  · rw [List.forall_mem_singleton]
    refine ⟨_, rfl, rfl, ?_⟩
    intro k hk
    obtain rfl : k = 0 := by
      have hlt : k < 1 := hk
      omega
    exact ⟨dim, 0, dim, rfl, rfl, rfl, le_of_eq (Nat.zero_add _)⟩
  · rw [List.forall_mem_singleton]
    exact fun _ => rfl
  · intro m hm
    cases hm
    refine ⟨rfl, rfl, _, rfl, ?_⟩
    rw [List.forall_mem_singleton]
  · exact List.forall_mem_nil _

theorem validate_overlay_group_iff_worked :
    validate (overlayHead 8) [overlayBase 8] = .ok () ↔
      DYNAMIC ∉ (overlayHead 8).shape.dims ∧ [overlayBase 8].length = (1 : UInt32).toNat ∧
        OverlayMembers (overlayHead 8) [overlayBase 8] :=
  (validate_overlay_group_iff (by decide)).1 .replace 1 rfl

/-- All that an overlay asks of its members, under a head with a dimension that is not known. -/
theorem dynamic_overlay_refused :
    (overlayHead DYNAMIC).CrossSection ∧ (overlayBase DYNAMIC).CrossSection ∧
      (overlayHead DYNAMIC).layout = .composite ⟨.overlay .replace, 1⟩ ∧
      [overlayBase DYNAMIC].length = (1 : UInt32).toNat ∧
      OverlayMembers (overlayHead DYNAMIC) [overlayBase DYNAMIC] ∧
      validate (overlayHead DYNAMIC) [overlayBase DYNAMIC] ≠ .ok () := by
  refine ⟨?_, ?_, rfl, rfl, overlayMembers_base DYNAMIC, by decide +kernel⟩
  · constructor <;> decide +kernel
  · constructor <;> decide +kernel

end CompositeValidator
end Hurray.Descriptor
