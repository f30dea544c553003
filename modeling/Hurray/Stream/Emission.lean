import Hurray.Descriptor.Roundtrip
import Hurray.Stream.Writer

/-!
What an operation emits. The bytes that are left of an operation are stated from
its state alone; a step never changes them, and an accepted report takes the
reported bytes off the front.
-/
namespace Hurray.Stream
open Hurray.Base Hurray.Core Hurray.Descriptor

/-! ### The bytes of tensors -/

/-- A descriptor and its payloads, if the descriptor encodes. -/
def StreamTensor.bytes (t : StreamTensor) : Option Bytes :=
  (encode t.descriptor).toOption.map (· ++ t.buffers.flatten)

/-- The bytes of tensors in a row. -/
def bytesOf : List StreamTensor → Option Bytes
  | [] => some []
  | t :: ts => t.bytes.bind fun b => (bytesOf ts).map (b ++ ·)

section Bytes
variable {t : StreamTensor} {ts us : List StreamTensor} {b c : Bytes}

@[simp] theorem bytesOf_nil : bytesOf [] = some [] := rfl

theorem bytesOf_singleton : bytesOf [t] = t.bytes := by
  unfold bytesOf
  cases t.bytes <;> simp

theorem bytesOf_cons_eq_some : bytesOf (t :: ts) = some c ↔
    ∃ b, t.bytes = some b ∧ ∃ bs, bytesOf ts = some bs ∧ c = b ++ bs := by
  simp only [bytesOf, Option.bind_eq_some_iff, Option.map_eq_some_iff, @eq_comm _ _ c]

theorem bytesOf_append (ts us : List StreamTensor) :
    bytesOf (ts ++ us) = (bytesOf ts).bind fun b => (bytesOf us).map (b ++ ·) := by
  induction ts with
  | nil => simp
  | cons t ts ih =>
    rw [List.cons_append, bytesOf, bytesOf, ih]
    cases t.bytes <;> cases bytesOf ts <;> cases bytesOf us <;> simp

theorem StreamTensor.bytes_eq_some : t.bytes = some b ↔
    ∃ e, encode t.descriptor = .ok e ∧ b = e ++ t.buffers.flatten := by
  unfold StreamTensor.bytes
  cases encode t.descriptor <;> simp [Except.toOption, eq_comm]

/-- Every tensor has bytes exactly when every descriptor encodes. -/
theorem bytesOf_isSome : (bytesOf ts).isSome ↔ ∀ t ∈ ts, Encodable t.descriptor := by
  induction ts with
  | nil => simp
  | cons t ts ih =>
    rw [List.forall_mem_cons, ← ih]
    have ht : t.bytes.isSome ↔ Encodable t.descriptor := by
      rw [Option.isSome_iff_exists]
      simp [StreamTensor.bytes_eq_some, encode_eq_ok_iff]
    rw [← ht, bytesOf]
    cases t.bytes <;> cases bytesOf ts <;> simp

end Bytes

/-! ### What is left of an operation -/

namespace WriteOp

/-- The slices of the current node after the one on offer. -/
def following (op : WriteOp) : List Bytes :=
  match op.state with
  | .descriptor => op.payloads
  | .payload index => op.payloads.drop (index + 1)
  | .done => []
  | .failed => []

/-- The bytes the operation has still to emit, if all of them can be produced. -/
def left (op : WriteOp) : Option Bytes :=
  match op.state with
  | .descriptor | .payload _ =>
      (bytesOf op.upcoming).map (op.outputSrc ++ op.following.flatten ++ ·)
  | .done => some []
  | .failed => none

section
variable {op op' : WriteOp}

theorem length_outputSrc (op : WriteOp) : op.outputSrc.length = op.remaining := by
  unfold outputSrc remaining
  cases op.state with
  | payload index => cases h : op.payloads[index]? <;> simp [h]
  | _ => simp

theorem left_of_failed (h : op.state = .failed) : op.left = none := by
  unfold left
  rw [h]

theorem left_of_done (h : op.state = .done) : op.left = some [] := by
  unfold left
  rw [h]

/-- What is left starts with the slice on offer. -/
theorem outputSrc_prefix_left {b : Bytes} (h : op.left = some b) : op.outputSrc <+: b := by
  unfold left at h
  split at h
  · obtain ⟨c, -, rfl⟩ := Option.map_eq_some_iff.mp h
    exact ⟨op.following.flatten ++ c, (List.append_assoc _ _ _).symm⟩
  · obtain ⟨c, -, rfl⟩ := Option.map_eq_some_iff.mp h
    exact ⟨op.following.flatten ++ c, (List.append_assoc _ _ _).symm⟩
  · next hdone => simp [outputSrc, hdone]
  · cases h

/-- A call that keeps the core and the count, and fails only by ending the operation. -/
structure Moves (op : WriteOp) (r : Result Unit) (op' : WriteOp) : Prop where
  core : op'.core = op.core
  emitted : op'.emittedBytes = op.emittedBytes
  failed : (∃ f, r = .error f) → op'.state = .failed

theorem ok_ne_error {u : Unit} : ¬ ∃ f, (.ok u : Result Unit) = .error f := by
  intro h
  obtain ⟨f, hf⟩ := h
  cases hf

theorem beginNode_moves (node : CompositeNode) (stack : List Frame) :
    op.Moves (op.beginNode node stack).1 (op.beginNode node stack).2 := by
  unfold beginNode
  split
  · exact ⟨rfl, rfl, fun _ => rfl⟩
  · split <;> exact ⟨rfl, rfl, fun h => absurd h ok_ne_error⟩

theorem nextNode_moves (op : WriteOp) : op.Moves op.nextNode.1 op.nextNode.2 := by
  unfold nextNode
  split
  · exact ⟨rfl, rfl, fun h => absurd h ok_ne_error⟩
  · exact beginNode_moves _ _

theorem beginPayload_moves (op : WriteOp) (index : ℕ) :
    op.Moves (op.beginPayload index).1 (op.beginPayload index).2 := by
  unfold beginPayload
  split
  · exact ⟨rfl, rfl, fun h => absurd h ok_ne_error⟩
  · obtain ⟨hcore, hemitted, hfailed⟩ := nextNode_moves { op with written := 0 }
    exact ⟨hcore, hemitted, hfailed⟩

theorem moves_of_beginPayload {index : ℕ} {r : Result Unit}
    (h : op.beginPayload index = (r, op')) : op.Moves r op' := by
  have hmoves := beginPayload_moves op index
  rwa [h] at hmoves

theorem beginNode_left (node : CompositeNode) (stack : List Frame) :
    (op.beginNode node stack).2.left = bytesOf (node.tensors ++ stack.flatMap Frame.pending) := by
  obtain ⟨e, he⟩ | ⟨b, hb⟩ : (∃ e, encode node.descriptor = .error e) ∨
      ∃ b, encode node.descriptor = .ok b := by
    cases encode node.descriptor <;> simp
  · have hnone : bytesOf (node.tensors ++ stack.flatMap Frame.pending) = none := by
      cases node with
      | tensor d buffers =>
        simp only [CompositeNode.descriptor] at he
        simp [CompositeNode.tensors, bytesOf, StreamTensor.bytes, he, Except.toOption]
      | composite head members =>
        simp only [CompositeNode.descriptor] at he
        simp [CompositeNode.tensors, bytesOf, StreamTensor.bytes, he, Except.toOption]
    rw [hnone]
    apply left_of_failed
    unfold beginNode
    split
    · rfl
    · next hok =>
      rw [Exec.mapError_eq_ok, he] at hok
      cases hok
  · unfold beginNode
    rw [Exec.mapError_eq_ok.mpr hb]
    cases node with
    | tensor d buffers =>
      simp only [CompositeNode.descriptor] at hb
      simp [left, upcoming, outputSrc, following, CompositeNode.tensors, bytesOf,
        StreamTensor.bytes, hb, Except.toOption]
    | composite head members =>
      simp only [CompositeNode.descriptor] at hb
      simp [left, upcoming, outputSrc, following, CompositeNode.tensors, bytesOf,
        StreamTensor.bytes, hb, Except.toOption, Frame.pending_start]

theorem nextNode_left (op : WriteOp) : op.nextNode.2.left = bytesOf op.upcoming := by
  unfold nextNode
  split
  · next h => rw [upcoming, Frame.takeNext_none h, left_of_done rfl, bytesOf_nil]
  · next h => rw [upcoming, Frame.takeNext_some h, beginNode_left]

/-- Entering a payload, or the node after the last one, emits nothing. -/
theorem beginPayload_left (op : WriteOp) (index : ℕ) :
    (op.beginPayload index).2.left =
      (bytesOf op.upcoming).map ((op.payloads.drop index).flatten ++ ·) := by
  unfold beginPayload
  split
  · next h =>
    simp only [left, upcoming, outputSrc, following, List.getElem?_eq_getElem h, Option.elim_some,
      List.drop_zero]
    rw [List.drop_eq_getElem_cons h, List.flatten_cons]
  · next h =>
    rw [nextNode_left, List.drop_eq_nil_of_le (by omega)]
    simp [upcoming]

/-- The slice on offer is exhausted, and the payload `index` is the next. -/
structure Exhausted (op : WriteOp) (index : ℕ) : Prop where
  state : op.state = .descriptor ∧ index = 0 ∨ ∃ i, op.state = .payload i ∧ index = i + 1
  remaining : op.remaining = 0

/-- An exhausted slice is left behind without a change to what is left. -/
theorem Exhausted.left {index : ℕ} (h : op.Exhausted index) :
    op.left = (bytesOf op.upcoming).map ((op.payloads.drop index).flatten ++ ·) := by
  have hsrc : op.outputSrc = [] := List.length_eq_zero_iff.mp (op.length_outputSrc.trans h.remaining)
  rcases h.state with ⟨hs, rfl⟩ | ⟨i, hs, rfl⟩
  · simp [WriteOp.left, hs, hsrc, following]
  · simp [WriteOp.left, hs, hsrc, following]

/-- What entering the next slice keeps, and the end of the item, a step keeps. -/
theorem stepLoop_keeps {β : Type} {Q : WriteOp → β}
    (henter : ∀ op index, Exhausted op index → Q (op.beginPayload index).2 = Q op)
    (hend : ∀ op : WriteOp, op.state = .done →
      Q { op with core := { op.core with torn := false } } = Q op)
    (op : WriteOp) : Q op.stepLoop.2 = Q op := by
  fun_induction stepLoop op with
  | case1 op hstate => rfl
  | case2 op hstate => exact hend op hstate
  | case3 op hstate hlt => rfl
  | case4 op hstate hlt u op' h ih =>
    have hnext := henter op 0 ⟨.inl ⟨hstate, rfl⟩, by simp [remaining, hstate]; omega⟩
    rw [h] at hnext
    exact ih.trans hnext
  | case5 op hstate hlt f op' h =>
    have hnext := henter op 0 ⟨.inl ⟨hstate, rfl⟩, by simp [remaining, hstate]; omega⟩
    rw [h] at hnext
    exact hnext
  | case6 op index hstate hlt => rfl
  | case7 op index hstate hlt u op' h ih =>
    have hnext := henter op (index + 1) ⟨.inr ⟨index, hstate, rfl⟩, by omega⟩
    rw [h] at hnext
    exact ih.trans hnext
  | case8 op index hstate hlt f op' h =>
    have hnext := henter op (index + 1) ⟨.inr ⟨index, hstate, rfl⟩, by omega⟩
    rw [h] at hnext
    exact hnext

/-- What a step does: it offers bytes, ends the item or fails. What is left stays the same. -/
structure StepEffect (op : WriteOp) (r : Result WriteStep) (op' : WriteOp) : Prop where
  left : op'.left = op.left
  emitted : op'.emittedBytes = op.emittedBytes
  outcome :
    (r = .ok (.output op'.remaining) ∧ 0 < op'.remaining ∧ op'.core = op.core) ∨
    (r = .ok .itemWritten ∧ op'.state = .done ∧ op'.core = { op.core with torn := false }) ∨
    ((∃ f, r = .error f) ∧ op'.state = .failed ∧ op'.core = op.core)

/-- How a step ends. On the way it enters slices, and keeps the core. -/
theorem stepLoop_outcome (op : WriteOp) :
    (op.stepLoop.1 = .ok (.output op.stepLoop.2.remaining) ∧ 0 < op.stepLoop.2.remaining ∧
      op.stepLoop.2.core = op.core) ∨
    (op.stepLoop.1 = .ok .itemWritten ∧ op.stepLoop.2.state = .done ∧
      op.stepLoop.2.core = { op.core with torn := false }) ∨
    ((∃ f, op.stepLoop.1 = .error f) ∧ op.stepLoop.2.state = .failed ∧
      op.stepLoop.2.core = op.core) := by
  fun_induction stepLoop op with
  | case1 op hstate => exact .inr (.inr ⟨⟨_, rfl⟩, hstate, rfl⟩)
  | case2 op hstate => exact .inr (.inl ⟨rfl, hstate, rfl⟩)
  | case3 op hstate hlt =>
    have hrem : op.remaining = op.staging.length - op.written := by simp [remaining, hstate]
    exact .inl ⟨by rw [hrem], by rw [hrem]; omega, rfl⟩
  | case4 op hstate hlt u op' h ih | case7 op index hstate hlt u op' h ih =>
    rwa [(moves_of_beginPayload h).core] at ih
  | case5 op hstate hlt f op' h | case8 op index hstate hlt f op' h =>
    have hmoves := moves_of_beginPayload h
    exact .inr (.inr ⟨⟨f, rfl⟩, hmoves.failed ⟨f, rfl⟩, hmoves.core⟩)
  | case6 op index hstate hlt => exact .inl ⟨rfl, hlt, rfl⟩

theorem stepLoop_effect (op : WriteOp) : StepEffect op op.stepLoop.1 op.stepLoop.2 := by
  refine ⟨?_, ?_, op.stepLoop_outcome⟩
  · apply stepLoop_keeps
    · intro op index h
      rw [beginPayload_left, h.left]
    · intro op hstate
      rw [left_of_done hstate]
      exact left_of_done hstate
  · apply stepLoop_keeps
    · intro op index _
      exact (beginPayload_moves op index).emitted
    · intro op _
      rfl

theorem stepLoop_of_failed (h : op.state = .failed) :
    op.stepLoop = (Exec.fail .coreFailed, op) := by
  unfold stepLoop
  split
  · rfl
  all_goals next hs => simp [h] at hs

/-- An operation with bytes on offer is left as it is. -/
theorem stepLoop_of_remaining (h : 0 < op.remaining) :
    op.stepLoop = (.ok (.output op.remaining), op) := by
  unfold stepLoop
  split
  · next hs => simp [remaining, hs] at h
  · next hs => simp [remaining, hs] at h
  · next hs =>
    have hrem : op.remaining = op.staging.length - op.written := by simp [remaining, hs]
    rw [if_pos (by omega), hrem]
  · next hs => rw [if_pos h]

theorem step_eq_stepLoop (h : op.core.unusable = none) : op.step = op.stepLoop := by
  unfold step
  rw [h]

theorem step_effect (h : op.core.unusable = none) : StepEffect op op.step.1 op.step.2 := by
  rw [step_eq_stepLoop h]
  exact stepLoop_effect op

theorem remaining_of_failed (h : op.state = .failed) : op.remaining = 0 := by
  unfold remaining
  rw [h]

/-- The operation after `n` more bytes of its slice were accepted. -/
def accepted (op : WriteOp) (n : ℕ) : WriteOp :=
  { op with core := if op.emittedBytes = 0 then { op.core with torn := true } else op.core,
            emittedBytes := op.emittedBytes + n, written := op.written + n }

theorem reportWritten_accepted {n : ℕ} (hu : op.core.unusable = none) (hn : 0 < n)
    (hle : n ≤ op.remaining) : op.reportWritten n = (.ok (), op.accepted n) := by
  have hfailed : op.state ≠ .failed := by
    intro h
    have hzero := remaining_of_failed h
    omega
  unfold reportWritten
  rw [hu]
  simp [hfailed, Nat.pos_iff_ne_zero.mp hn, Nat.not_lt.mpr hle, accepted]

/-- The operation is in one of its slices. -/
def Running (op : WriteOp) : Prop := op.state ≠ .done ∧ op.state ≠ .failed

theorem running_of_remaining (h : 0 < op.remaining) : op.Running := by
  unfold remaining at h
  refine ⟨?_, ?_⟩
  all_goals
    intro hs
    simp [hs] at h

theorem left_of_running (h : op.Running) :
    op.left = (bytesOf op.upcoming).map (op.outputSrc ++ op.following.flatten ++ ·) := by
  unfold left
  split
  · rfl
  · rfl
  · next hs => exact absurd hs h.1
  · next hs => exact absurd hs h.2

theorem outputSrc_accepted (op : WriteOp) (n : ℕ) :
    (op.accepted n).outputSrc = op.outputSrc.drop n := by
  unfold outputSrc accepted
  dsimp only
  cases op.state with
  | payload index => cases h : op.payloads[index]? <;> simp [h]
  | _ => simp

/-- The reported bytes are the front of what was left. -/
theorem left_eq_of_accepted {n : ℕ} (h : op.Running) :
    op.left = (op.accepted n).left.map (op.outputSrc.take n ++ ·) := by
  have hsplit : op.outputSrc = op.outputSrc.take n ++ op.outputSrc.drop n :=
    (List.take_append_drop n _).symm
  have hleft : (op.accepted n).left = (bytesOf op.upcoming).map
      ((op.accepted n).outputSrc ++ op.following.flatten ++ ·) := left_of_running h
  rw [hleft, left_of_running h, outputSrc_accepted, Option.map_map]
  conv_lhs => rw [hsplit]
  simp only [Function.comp_def, List.append_assoc]

end
end WriteOp
end Hurray.Stream
