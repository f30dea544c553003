import Hurray.Base.Runs
import Hurray.Stream.Emission

/-!
Driving the writer. Every item is submitted, and its bytes go to a sink that
accepts at least one byte of what it is offered and otherwise as few as it likes.
-/
namespace Hurray.Stream
open Hurray.Base Hurray.Core Hurray.Descriptor StateTransition

/-! ### What is submitted -/

section Submit
variable {core : StreamWriterCore} {node : CompositeNode} {op : WriteOp}

/-- The operation of a freshly submitted node. -/
def WriteOp.start (core : StreamWriterCore) (node : CompositeNode) (staging : Bytes) : WriteOp where
  core := core
  staging := staging
  payloads := match node with
    | .tensor _ buffers => buffers
    | .composite _ _ => []
  state := .descriptor
  written := 0
  emittedBytes := 0
  stack := match node with
    | .tensor _ _ => []
    | .composite _ members => [⟨members, 0⟩]

theorem StreamWriterCore.checkRetired_eq_ok {u : Unit} :
    core.checkRetired = .ok u ↔ core.retired = none := by
  unfold checkRetired
  cases core.retired with
  | none => simp [pure, Except.pure]
  | some reason => simp

theorem StreamWriterCore.retired_eq_none :
    core.retired = none ↔ core.unusable = none ∧ core.torn = false := by
  unfold retired
  cases core.unusable <;> cases core.torn <;> simp

/-- What it takes for a node to be accepted. -/
theorem StreamWriterCore.submit_eq_ok : core.submit node = .ok op ↔ core.retired = none ∧
    core.validateNode node = .ok () ∧
    ∃ staging, encode node.descriptor = .ok staging ∧ op = .start core node staging := by
  cases node with
  | tensor d buffers =>
    simp only [submit, tensor, validateNode, Exec.bind_eq_ok, checkRetired_eq_ok,
      Exec.mapError_eq_ok, Unique.exists_iff,
      PUnit.default_eq_unit, CompositeNode.descriptor, pure, Except.pure, Except.ok.injEq,
      WriteOp.start, @eq_comm _ _ op]
  | composite head members =>
    simp only [submit, composite, validateComposite, validateNode, Exec.bind_eq_ok,
      checkRetired_eq_ok, Exec.mapError_eq_ok, Unique.exists_iff,
      PUnit.default_eq_unit, CompositeNode.descriptor, pure, Except.pure, Except.ok.injEq,
      WriteOp.start, @eq_comm _ _ op]

/-- The checks of a tensor: a payload of the declared size for each buffer, and no buffer that
still has to be synchronised when the stream crosses machines. -/
theorem StreamWriterCore.validateTensor_eq_ok {d : TensorDescriptor} {buffers : List Bytes}
    {u : Unit} : core.validateTensor d buffers = .ok u ↔
      d.buffers.map (fun h => h.byteSize.toNat) = buffers.map List.length ∧
      (core.enforceCrossMachineSync = true → ∀ h ∈ d.buffers, h.syncMode = .producerSynced) := by
  have hbuf (h : BufferHandle) (b : Bytes) (i : ℕ) : core.validateBuffer h b i = .ok () ↔
      h.byteSize.toNat = b.length ∧
        (core.enforceCrossMachineSync = true → h.syncMode = .producerSynced) := by
    simp [StreamWriterCore.validateBuffer, Exec.bind_eq_ok]
  have hlist (handles : List BufferHandle) (k : ℕ) (hlen : buffers.length = handles.length) :
      (∀ p ∈ (handles.zip buffers).zipIdx k, core.validateBuffer p.1.1 p.1.2 p.2 = .ok ()) ↔
        handles.map (fun h => h.byteSize.toNat) = buffers.map List.length ∧
        (core.enforceCrossMachineSync = true → ∀ h ∈ handles, h.syncMode = .producerSynced) := by
    induction handles generalizing buffers k with
    | nil =>
      obtain rfl := List.length_eq_zero_iff.mp hlen
      simp
    | cons h handles ih =>
      cases buffers with
      | nil => cases hlen
      | cons b buffers =>
        have hih := ih (k := k + 1) (by simpa using hlen)
        rw [List.zip_cons_cons, List.zipIdx_cons, List.forall_mem_cons, hih, hbuf]
        simp only [List.map_cons, List.cons.injEq, List.forall_mem_cons]
        constructor
        · rintro ⟨⟨hsize, hsync⟩, hsizes, hsyncs⟩
          exact ⟨⟨hsize, hsizes⟩, fun hx => ⟨hsync hx, hsyncs hx⟩⟩
        · rintro ⟨⟨hsize, hsizes⟩, hsync⟩
          exact ⟨⟨hsize, fun hx => (hsync hx).1⟩, hsizes, fun hx => (hsync hx).2⟩
  unfold StreamWriterCore.validateTensor
  simp only [Exec.bind_eq_ok, Exec.forM_eq_ok, Exec.reject_eq_ok, exists_const, not_not]
  constructor
  · rintro ⟨hlen, h⟩
    exact (hlist d.buffers 0 hlen).mp h
  · rintro ⟨hsizes, hsync⟩
    have hlen : buffers.length = d.buffers.length := by simpa using (congrArg List.length hsizes).symm
    exact ⟨hlen, (hlist d.buffers 0 hlen).mpr ⟨hsizes, hsync⟩⟩

theorem WriteOp.left_start {staging : Bytes} (h : encode node.descriptor = .ok staging) :
    (start core node staging).left = bytesOf node.tensors := by
  cases node with
  | tensor d buffers =>
    simp only [CompositeNode.descriptor] at h
    simp [start, left, upcoming, outputSrc, following, CompositeNode.tensors, bytesOf,
      StreamTensor.bytes, h, Except.toOption]
  | composite head members =>
    simp only [CompositeNode.descriptor] at h
    simp [start, left, upcoming, outputSrc, following, CompositeNode.tensors, bytesOf,
      StreamTensor.bytes, h, Except.toOption, Frame.pending_start]

theorem encode_of_bytesOf_tensors {b : Bytes} (h : bytesOf node.tensors = some b) :
    ∃ staging, encode node.descriptor = .ok staging := by
  cases node with
  | tensor d buffers =>
    rw [CompositeNode.tensors, bytesOf_singleton] at h
    obtain ⟨e, he, -⟩ := StreamTensor.bytes_eq_some.mp h
    exact ⟨e, he⟩
  | composite head members =>
    rw [CompositeNode.tensors] at h
    obtain ⟨c, hc, -⟩ := bytesOf_cons_eq_some.mp h
    obtain ⟨e, he, -⟩ := StreamTensor.bytes_eq_some.mp hc
    exact ⟨e, he⟩

/-- An accepted item starts at its first byte, over a core that is not retired. -/
theorem StreamWriterCore.left_of_submit (h : core.submit node = .ok op) :
    op.core = core ∧ core.retired = none ∧ op.left = bytesOf node.tensors := by
  obtain ⟨hretired, -, staging, henc, rfl⟩ := submit_eq_ok.mp h
  exact ⟨rfl, hretired, WriteOp.left_start henc⟩

end Submit

/-! ### The driver -/

structure WriteDriver where
  core : StreamWriterCore
  flight : Option WriteOp
  todo : List CompositeNode
  sent : Bytes
  calls : ℕ

namespace WriteDriver

/-- One round: an item is submitted, or bytes are offered and some accepted, or an item is
complete. `accept` says by how much the sink exceeds one byte at each call. -/
def round (accept : ℕ → ℕ) (d : WriteDriver) : Option WriteDriver :=
  match d.flight with
  | none =>
      match d.todo with
      | [] => none
      | node :: todo =>
          match d.core.submit node with
          | .ok op => some { d with flight := some op, todo }
          | .error _ => none
  | some op =>
      match op.step with
      | (.ok (.output len), op) =>
          let n := min len (accept d.calls + 1)
          some { d with flight := some (op.reportWritten n).2, sent := d.sent ++ op.outputSrc.take n,
                        calls := d.calls + 1 }
      | (.ok .itemWritten, op) => some { d with core := op.core, flight := none }
      | (.error _, _) => none

variable {d e : WriteDriver} {op : WriteOp}

/-- A round over an item in flight: the item is complete, or a non-empty chunk is accepted, or
the bytes that are left cannot be produced. -/
theorem round_flight (accept : ℕ → ℕ) (hflight : d.flight = some op) (hu : op.core.unusable = none) :
    (op.left = some [] ∧
      round accept d = some { d with core := { op.core with torn := false }, flight := none }) ∨
    (∃ next chunk, chunk ≠ [] ∧ next.core.unusable = none ∧
      { next.core with torn := false } = { op.core with torn := false } ∧
      op.left = next.left.map (chunk ++ ·) ∧
      round accept d = some { d with flight := some next, calls := d.calls + 1,
                                     sent := d.sent ++ chunk }) ∨
    (op.left = none ∧ round accept d = none) := by
  obtain ⟨hleft, -, houtcome⟩ := WriteOp.step_effect hu
  unfold round
  rw [hflight]
  rcases hstep : op.step with ⟨r, op'⟩
  rw [hstep] at hleft houtcome
  dsimp only at hleft houtcome ⊢
  rcases houtcome with ⟨rfl, hpos, hcore⟩ | ⟨rfl, hdone, hcore⟩ | ⟨⟨f, rfl⟩, hfailed, hcore⟩
  · right; left
    obtain ⟨n, hn⟩ : ∃ n, n = min op'.remaining (accept d.calls + 1) := ⟨_, rfl⟩
    have hle : n ≤ op'.remaining := by omega
    have hpos' : 0 < n := by omega
    have hu' : op'.core.unusable = none := by rw [hcore, hu]
    refine ⟨op'.accepted n, op'.outputSrc.take n, ?_, ?_, ?_, ?_, ?_⟩
    · have hlen : (op'.outputSrc.take n).length = n := by
        rw [List.length_take, WriteOp.length_outputSrc, Nat.min_eq_left hle]
      exact List.length_pos_iff.mp (hlen.symm ▸ hpos')
    · unfold WriteOp.accepted
      split <;> exact hu'
    · unfold WriteOp.accepted
      rw [← hcore]
      split <;> rfl
    · rw [← hleft, ← WriteOp.left_eq_of_accepted (WriteOp.running_of_remaining hpos)]
    · rw [hstep]
      dsimp only
      rw [← hn, WriteOp.reportWritten_accepted hu' hpos' hle]
  · refine .inl ⟨by rw [← hleft, WriteOp.left_of_done hdone], ?_⟩
    rw [hstep]
    dsimp only
    rw [hcore]
  · refine .inr (.inr ⟨by rw [← hleft, WriteOp.left_of_failed hfailed], ?_⟩)
    rw [hstep]

/-- An item whose bytes can be produced is written to the end, however short the writes. -/
theorem reaches_itemWritten (accept : ℕ → ℕ) {b : Bytes} (hflight : d.flight = some op)
    (hu : op.core.unusable = none) (hleft : op.left = some b) :
    ∃ calls, Reaches (round accept) d
      { d with core := { op.core with torn := false }, flight := none, sent := d.sent ++ b, calls } := by
  induction hn : b.length using Nat.strong_induction_on generalizing d op b with
  | h n ih =>
    rcases round_flight accept hflight hu with ⟨hnil, hround⟩ | hmore | ⟨hnone, -⟩
    · rw [hleft] at hnil
      cases hnil
      refine ⟨d.calls, .single ?_⟩
      rw [hround, List.append_nil]
      rfl
    · obtain ⟨next, chunk, hchunk, hu', hcore, hleft', hround⟩ := hmore
      rw [hleft] at hleft'
      obtain ⟨c, hc, rfl⟩ := Option.map_eq_some_iff.mp hleft'.symm
      have hlt : c.length < n := by
        have hpos := List.length_pos_iff.mpr hchunk
        rw [List.length_append] at hn
        omega
      obtain ⟨calls, hreach⟩ := ih c.length hlt (d := { d with flight := some next, calls := d.calls + 1,
                                                               sent := d.sent ++ chunk }) rfl hu' hc rfl
      refine ⟨calls, .head hround ?_⟩
      rw [← List.append_assoc, ← hcore]
      exact hreach
    · rw [hleft] at hnone
      cases hnone

/-- Accepted items are written one after the other. -/
theorem reaches_all (accept : ℕ → ℕ) {b : Bytes} (hflight : d.flight = none)
    (hretired : d.core.retired = none)
    (hvalid : ∀ node ∈ d.todo, d.core.validateNode node = .ok ())
    (hb : bytesOf (d.todo.flatMap CompositeNode.tensors) = some b) :
    ∃ calls, Reaches (round accept) d { d with todo := [], sent := d.sent ++ b, calls } := by
  obtain ⟨core, flight, todo, sent, calls⟩ := d
  obtain rfl : flight = none := hflight
  induction todo generalizing sent calls b with
  | nil =>
    cases hb
    exact ⟨calls, by rw [List.append_nil]; exact .refl⟩
  | cons node todo ih =>
    rw [List.flatMap_cons, bytesOf_append] at hb
    obtain ⟨b₁, hb₁, hb⟩ := Option.bind_eq_some_iff.mp hb
    obtain ⟨b₂, hb₂, rfl⟩ := Option.map_eq_some_iff.mp hb
    obtain ⟨staging, henc⟩ := encode_of_bytesOf_tensors hb₁
    have hsubmit : core.submit node = .ok (.start core node staging) :=
      StreamWriterCore.submit_eq_ok.mpr
        ⟨hretired, hvalid node List.mem_cons_self, staging, henc, rfl⟩
    obtain ⟨hu, htorn⟩ := StreamWriterCore.retired_eq_none.mp hretired
    have hcore : { core with torn := false } = core := by rw [← htorn]
    obtain ⟨calls₁, hfirst⟩ := reaches_itemWritten accept
      (d := ⟨core, some (.start core node staging), todo, sent, calls⟩) rfl hu
      ((WriteOp.left_start henc).trans hb₁)
    obtain ⟨calls₂, hrest⟩ := ih (sent ++ b₁) calls₁ hretired
      (fun m hm => hvalid m (List.mem_cons_of_mem node hm)) hb₂
    refine ⟨calls₂, .head ?_ (.trans hfirst ?_)⟩
    · show round accept ⟨core, none, node :: todo, sent, calls⟩ = _
      simp [round, hsubmit]
    · rw [← List.append_assoc]
      exact hcore.symm ▸ hrest

end WriteDriver
end Hurray.Stream
