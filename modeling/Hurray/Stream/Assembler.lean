import Hurray.Descriptor.Composite
import Hurray.Stream.Types

/-!
Composites put back together from the flat tensors of a stream. A head opens a
group, which is on a stack until its members have come; a closed group is a
member of the group below it. What a run has accepted is accounted for by what it
returned and what is still open, as long as no open group rejects a member.
-/
namespace Hurray.Stream
open Hurray.Base Hurray.Core Hurray.Descriptor

/-- A composite head whose members have not all arrived. -/
structure OpenGroup where
  head : TensorDescriptor
  memberCount : UInt32
  members : List StreamItem
  validator : CompositeValidator

/-- The innermost group is the head of the stack. -/
structure CompositeAssembler where
  maxDepth : ℕ
  stack : List OpenGroup

namespace CompositeAssembler

def new (maxDepth : ℕ) : CompositeAssembler := ⟨maxDepth, []⟩

/-- The item goes to the innermost group, which is popped for it and put back only if it is still
open and neither check has failed. -/
def deliver : List OpenGroup → StreamItem → Result (Option StreamItem) × List OpenGroup
  | [], item => (.ok (some item), [])
  | top :: rest, item =>
      match Exec.mapError Error.core (top.validator.pushMember item.descriptor) with
      | .error e => (.error e, rest)
      | .ok validator =>
          let members := top.members ++ [item]
          if UInt32.ofNat members.length < top.memberCount then
            (.ok none, { top with members, validator } :: rest)
          else
            match Exec.mapError Error.core validator.finish with
            | .error e => (.error e, rest)
            | .ok _ => deliver rest (.composite top.head members)

def push (a : CompositeAssembler) (t : StreamTensor) :
    Result (Option StreamItem) × CompositeAssembler :=
  match t.descriptor.layout with
  | .composite layout =>
      if a.maxDepth ≤ a.stack.length then (Exec.fail (.compositeNestingTooDeep a.maxDepth), a)
      else
        match Exec.mapError Error.core (CompositeValidator.new t.descriptor) with
        | .error e => (.error e, a)
        | .ok validator =>
            (.ok none, { a with stack := ⟨t.descriptor, layout.memberCount, [], validator⟩ :: a.stack })
  | _ => ((deliver a.stack (.tensor t)).1, { a with stack := (deliver a.stack (.tensor t)).2 })

def finish (a : CompositeAssembler) : Result Unit :=
  match a.stack with
  | [] => .ok ()
  | top :: _ => Exec.fail (.tornComposite top.memberCount (UInt32.ofNat top.members.length))

/-- No group rejects the item: the innermost one takes it as a member, and if that closes the
group, the closed group passes its own checks and is taken in turn. -/
def Accepts : List OpenGroup → StreamItem → Prop
  | [], _ => True
  | top :: rest, item => ∃ v, top.validator.pushMember item.descriptor = .ok v ∧
      (UInt32.ofNat (top.members.length + 1) < top.memberCount ∨
        v.finish = .ok () ∧ Accepts rest (.composite top.head (top.members ++ [item])))

/-- A tensor that no open group rejects. A head is no member of a group until it is closed. -/
def Takes (a : CompositeAssembler) (t : StreamTensor) : Prop :=
  t.descriptor.layout.isVirtual = true ∨ Accepts a.stack (.tensor t)

theorem exists_deliver {stack : List OpenGroup} {item : StreamItem} (h : Accepts stack item) :
    ∃ r stack', deliver stack item = (.ok r, stack') := by
  induction stack generalizing item with
  | nil => exact ⟨_, _, rfl⟩
  | cons top rest ih =>
    obtain ⟨v, hv, hclose⟩ := h
    unfold deliver
    rw [Exec.mapError_eq_ok.mpr hv]
    dsimp only
    split
    · exact ⟨_, _, rfl⟩
    · next hlt =>
      rw [List.length_append, List.length_singleton] at hlt
      obtain ⟨hfinish, hrest⟩ := hclose.resolve_left hlt
      rw [Exec.mapError_eq_ok.mpr hfinish]
      exact ih hrest

/-- The ways in which a delivery succeeds. -/
theorem deliver_cons_eq_ok {top : OpenGroup} {rest stack' : List OpenGroup} {item : StreamItem}
    {r : Option StreamItem} (h : deliver (top :: rest) item = (.ok r, stack')) :
    ∃ v, top.validator.pushMember item.descriptor = .ok v ∧
      ((UInt32.ofNat (top.members.length + 1) < top.memberCount ∧ r = none ∧
          stack' = { top with members := top.members ++ [item], validator := v } :: rest) ∨
        (¬ UInt32.ofNat (top.members.length + 1) < top.memberCount ∧ v.finish = .ok () ∧
          deliver rest (.composite top.head (top.members ++ [item])) = (.ok r, stack'))) := by
  unfold deliver at h
  split at h
  · cases h
  · next v hv =>
    refine ⟨v, Exec.mapError_eq_ok.mp hv, ?_⟩
    dsimp only at h
    rw [List.length_append, List.length_singleton] at h
    split at h
    · next hlt =>
      cases h
      exact .inl ⟨hlt, rfl, rfl⟩
    · next hlt =>
      split at h
      · cases h
      · next hfinish => exact .inr ⟨hlt, Exec.mapError_eq_ok.mp hfinish, h⟩

theorem layout_of_isVirtual {l : LayoutDescriptor} (h : l.isVirtual = true) :
    ∃ c, l = .composite c := by
  cases l with
  | composite c => exact ⟨c, rfl⟩
  | _ => cases h

/-- The two kinds of a push. -/
theorem push_of_virtual {a : CompositeAssembler} {t : StreamTensor} {c : CompositeLayout}
    (h : t.descriptor.layout = .composite c) :
    (∃ e, a.push t = (.error e, a)) ∨
      ∃ v, CompositeValidator.new t.descriptor = .ok v ∧ a.push t =
        (.ok none, { a with stack := ⟨t.descriptor, c.memberCount, [], v⟩ :: a.stack }) := by
  unfold push
  rw [h]
  dsimp only
  split
  · exact .inl ⟨_, rfl⟩
  · split
    · exact .inl ⟨_, rfl⟩
    · next v hv => exact .inr ⟨v, Exec.mapError_eq_ok.mp hv, rfl⟩

theorem push_of_not_virtual {a : CompositeAssembler} {t : StreamTensor}
    (h : t.descriptor.layout.isVirtual = false) :
    a.push t = ((deliver a.stack (.tensor t)).1, { a with stack := (deliver a.stack (.tensor t)).2 }) := by
  unfold push
  split
  · next hl =>
    rw [hl] at h
    cases h
  · rfl

end CompositeAssembler

/-! ### Runs -/

/-- The heads inside of an item, in the order of the wire. -/
def StreamItem.heads : StreamItem → List TensorDescriptor
  | .tensor _ => []
  | .composite head members => head :: members.flatMap heads

/-- An assembler with the tensors it accepted and the items it returned. -/
structure AssemblyRun where
  assembler : CompositeAssembler
  accepted : List StreamTensor
  returned : List StreamItem

namespace AssemblyRun

def start (maxDepth : ℕ) : AssemblyRun := ⟨.new maxDepth, [], []⟩

def feed (s : AssemblyRun) (t : StreamTensor) : AssemblyRun :=
  match s.assembler.push t with
  | (.ok (some item), assembler) => ⟨assembler, s.accepted ++ [t], s.returned ++ [item]⟩
  | (.ok none, assembler) => ⟨assembler, s.accepted ++ [t], s.returned⟩
  | (.error _, assembler) => { s with assembler }

def run (maxDepth : ℕ) (ts : List StreamTensor) : AssemblyRun := ts.foldl feed (start maxDepth)

/-- The heads that were accepted. -/
def acceptedHeads (s : AssemblyRun) : List TensorDescriptor :=
  (s.accepted.filter fun t => t.descriptor.layout.isVirtual).map StreamTensor.descriptor

/-- The heads that were returned inside of an item. -/
def returnedHeads (s : AssemblyRun) : List TensorDescriptor := s.returned.flatMap StreamItem.heads

/-- The heads of a stack, and of the groups that were closed inside of it. -/
def openHeads (stack : List OpenGroup) : List TensorDescriptor :=
  stack.reverse.flatMap fun top => top.head :: top.members.flatMap StreamItem.heads

/-- No tensor of the run is rejected by an open group. -/
def Undisturbed : AssemblyRun → List StreamTensor → Prop
  | _, [] => True
  | s, t :: ts => s.assembler.Takes t ∧ Undisturbed (s.feed t) ts

section
variable {s : AssemblyRun} {stack stack' : List OpenGroup} {item : StreamItem}
  {r : Option StreamItem} {t : StreamTensor}

open CompositeAssembler

@[simp] theorem openHeads_nil : openHeads [] = [] := rfl

@[simp] theorem openHeads_cons (top : OpenGroup) : openHeads (top :: stack) =
    openHeads stack ++ top.head :: top.members.flatMap StreamItem.heads := by
  simp [openHeads, List.flatMap_append]

/-- A delivery that succeeds loses no head. -/
theorem deliver_heads (h : deliver stack item = (.ok r, stack')) :
    r.toList.flatMap StreamItem.heads ++ openHeads stack' = openHeads stack ++ item.heads := by
  induction stack generalizing item with
  | nil =>
    cases h
    simp
  | cons top rest ih =>
    obtain ⟨v, -, ⟨-, rfl, rfl⟩ | ⟨-, -, hrest⟩⟩ := deliver_cons_eq_ok h
    · simp
    · rw [ih hrest]
      simp [StreamItem.heads]

/-- An item is returned only when no group is left open. -/
theorem stack_of_deliver_some {i : StreamItem} (h : deliver stack item = (.ok (some i), stack')) :
    stack' = [] := by
  induction stack generalizing item with
  | nil =>
    cases h
    rfl
  | cons top rest ih =>
    obtain ⟨v, -, ⟨-, hr, -⟩ | ⟨-, -, hrest⟩⟩ := deliver_cons_eq_ok h
    · cases hr
    · exact ih hrest

/-- What was accepted is what was returned and what is still open. -/
def Conserved (s : AssemblyRun) : Prop :=
  s.acceptedHeads = s.returnedHeads ++ openHeads s.assembler.stack

theorem conserved_start (maxDepth : ℕ) : (start maxDepth).Conserved := rfl

/-- The state after a delivery that succeeds. -/
theorem feed_of_deliver (hleaf : t.descriptor.layout.isVirtual = false)
    (h : deliver s.assembler.stack (.tensor t) = (.ok r, stack')) :
    s.feed t = ⟨{ s.assembler with stack := stack' }, s.accepted ++ [t], s.returned ++ r.toList⟩ := by
  unfold feed
  rw [push_of_not_virtual hleaf, h]
  cases r with
  | none => simp
  | some i => rfl

theorem Conserved.feed (h : s.Conserved) (hok : t.descriptor.layout.isVirtual = true ∨
    ∃ r stack', deliver s.assembler.stack (.tensor t) = (.ok r, stack')) : (s.feed t).Conserved := by
  unfold Conserved acceptedHeads returnedHeads at h ⊢
  cases hv : t.descriptor.layout.isVirtual with
  | true =>
    obtain ⟨c, hc⟩ := layout_of_isVirtual hv
    unfold AssemblyRun.feed
    rcases push_of_virtual (a := s.assembler) hc with ⟨e, hpush⟩ | ⟨v, -, hpush⟩
    · rw [hpush]
      exact h
    · rw [hpush]
      simp [hv, h]
  | false =>
    obtain ⟨r, stack', hdeliver⟩ := hok.resolve_left (by simp [hv])
    have hheads := deliver_heads hdeliver
    rw [feed_of_deliver hv hdeliver]
    simp only [StreamItem.heads, List.append_nil] at hheads
    simp [hv, h, hheads]

theorem Conserved.foldl {ts : List StreamTensor} (h : s.Conserved) (hts : s.Undisturbed ts) :
    (ts.foldl AssemblyRun.feed s).Conserved := by
  induction ts generalizing s with
  | nil => exact h
  | cons t ts ih => exact ih (h.feed (hts.1.imp_right exists_deliver)) hts.2

/-- The end of input is clean only with no group open. -/
theorem stack_of_finish {a : CompositeAssembler} (h : a.finish = .ok ()) : a.stack = [] := by
  unfold finish at h
  split at h
  · assumption
  · exact absurd h Exec.fail_ne_ok

theorem deliver_of_push_some {a : CompositeAssembler} {i : StreamItem}
    (h : (a.push t).1 = .ok (some i)) : t.descriptor.layout.isVirtual = false ∧
      ∃ stack', deliver a.stack (.tensor t) = (.ok (some i), stack') := by
  cases hv : t.descriptor.layout.isVirtual with
  | true =>
    exfalso
    obtain ⟨c, hc⟩ := layout_of_isVirtual hv
    rcases push_of_virtual (a := a) hc with ⟨e, hpush⟩ | ⟨v, -, hpush⟩
    · rw [hpush] at h
      cases h
    · rw [hpush] at h
      cases h
  | false =>
    rw [push_of_not_virtual hv] at h
    exact ⟨rfl, _, Prod.ext h rfl⟩

end

/-! A group that rejects a member is dropped with the members it had. -/

/-- A tensor that says it is a member of an overlay, which a group does not allow. -/
def flaggedTensor : StreamTensor :=
  ⟨workedExample.withCompositeMember ⟨.base⟩, [List.replicate 192 7]⟩

def groupTensor (memberCount : UInt32) : StreamTensor := ⟨workedGroup memberCount, []⟩

end AssemblyRun
end Hurray.Stream
