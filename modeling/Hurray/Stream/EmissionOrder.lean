import Hurray.Stream.WriteDriver
import Mathlib.Data.List.TakeWhile

/-!
The order in which an operation emits. A driver keeps apart the slices that it was offered, however
short the writes: they are the descriptors and payloads of the item in the order of the wire, up to
the first descriptor that does not encode.
-/
namespace Hurray.Stream
open Hurray.Base Hurray.Core Hurray.Descriptor StateTransition

/-! ### The slices of tensors -/

namespace StreamTensor

def encodes (t : StreamTensor) : Bool := (encode t.descriptor).toOption.isSome

/-- The descriptor and the payloads. An empty payload is not offered. -/
def slices (t : StreamTensor) : List Bytes :=
  ((encode t.descriptor).toOption.getD [] :: t.buffers).filter (· ≠ [])

end StreamTensor

/-- The slices of the tensors before the first that does not encode. -/
def slicesOf (ts : List StreamTensor) : List Bytes :=
  (ts.takeWhile StreamTensor.encodes).flatMap StreamTensor.slices

section Slices
variable {t : StreamTensor} {ts : List StreamTensor} {b : Bytes}

theorem encodes_iff : t.encodes = true ↔ Encodable t.descriptor := by
  rw [StreamTensor.encodes, Option.isSome_iff_exists]
  constructor
  · intro h
    obtain ⟨b, hb⟩ := h
    cases henc : encode t.descriptor with
    | error e =>
      rw [henc] at hb
      cases hb
    | ok w => exact (encode_eq_ok_iff.mp henc).1
  · intro h
    have henc := encode_eq_ok_iff.mpr ⟨h, rfl⟩
    rw [henc]
    exact ⟨_, rfl⟩

theorem slicesOf_cons_of_ok (h : encode t.descriptor = .ok b) :
    slicesOf (t :: ts) = [b].filter (· ≠ []) ++ (t.buffers.filter (· ≠ []) ++ slicesOf ts) := by
  have henc : t.encodes = true := by
    rw [StreamTensor.encodes, h]
    rfl
  rw [slicesOf, List.takeWhile_cons_of_pos henc, List.flatMap_cons, StreamTensor.slices, h,
    ← List.singleton_append, List.filter_append, List.append_assoc]
  rfl

theorem slicesOf_cons_of_error {e : Fault Core.Error} (h : encode t.descriptor = .error e) :
    slicesOf (t :: ts) = [] := by
  have henc : ¬ t.encodes = true := by
    rw [StreamTensor.encodes, h]
    exact Bool.false_ne_true
  rw [slicesOf, List.takeWhile_cons_of_neg henc, List.flatMap_nil]

theorem slicesOf_of_encodes (h : ∀ t ∈ ts, Encodable t.descriptor) :
    slicesOf ts = ts.flatMap StreamTensor.slices := by
  rw [slicesOf, List.takeWhile_eq_self_iff.mpr fun t ht => encodes_iff.mpr (h t ht)]

end Slices

/-! ### The slices that are ahead of an operation -/

namespace WriteOp

/-- The whole of the slice on offer. -/
def current (op : WriteOp) : Bytes :=
  match op.state with
  | .descriptor => op.staging
  | .payload index => op.payloads[index]?.getD []
  | .done => []
  | .failed => []

/-- The slices after the one on offer. -/
def behind (op : WriteOp) : List Bytes :=
  match op.state with
  | .descriptor | .payload _ => op.following.filter (· ≠ []) ++ slicesOf op.upcoming
  | .done => []
  | .failed => []

/-- The slices that are not yet whole. -/
def ahead (op : WriteOp) : List Bytes :=
  if 0 < op.remaining then op.current :: op.behind else op.behind

/-- The front of the slice on offer that was accepted. -/
def begun (op : WriteOp) : Bytes := if 0 < op.remaining then op.current.take op.written else []

section
variable {op op' : WriteOp}

theorem outputSrc_eq (op : WriteOp) : op.outputSrc = op.current.drop op.written := by
  unfold outputSrc current
  cases op.state with
  | payload index => cases h : op.payloads[index]? <;> simp [h]
  | _ => simp

theorem ahead_fresh (h : op.written = 0) : op.ahead = [op.current].filter (· ≠ []) ++ op.behind := by
  have hlen : op.remaining = op.current.length := by
    rw [← op.length_outputSrc, op.outputSrc_eq, h, List.drop_zero]
  rw [ahead, hlen]
  by_cases hnil : op.current = []
  · rw [hnil]
    rfl
  · have hkept : [op.current].filter (· ≠ []) = [op.current] := by simp [hnil]
    rw [if_pos (List.length_pos_iff.mpr hnil), hkept]
    rfl

theorem begun_fresh (h : op.written = 0) : op.begun = [] := by
  rw [begun, h, List.take_zero, ite_self]

/-- What was begun is the front of what is ahead. -/
theorem begun_prefix (op : WriteOp) : op.begun <+: op.ahead.flatten := by
  unfold begun ahead
  split
  · rw [List.flatten_cons]
    exact (List.take_prefix _ _).trans (List.prefix_append _ _)
  · exact List.nil_prefix

theorem begun_of_remaining (h : op.remaining = 0) : op.begun = [] := by
  rw [begun, h, if_neg (Nat.lt_irrefl 0)]

theorem ahead_of_remaining (h : op.remaining = 0) : op.ahead = op.behind := by
  rw [ahead, h, if_neg (Nat.lt_irrefl 0)]

theorem beginNode_ahead (node : CompositeNode) (stack : List Frame) :
    (op.beginNode node stack).2.ahead = slicesOf (node.tensors ++ stack.flatMap Frame.pending) := by
  obtain ⟨e, he⟩ | ⟨b, hb⟩ : (∃ e, encode node.descriptor = .error e) ∨
      ∃ b, encode node.descriptor = .ok b := by
    cases encode node.descriptor <;> simp
  · have hnil : slicesOf (node.tensors ++ stack.flatMap Frame.pending) = [] := by
      cases node with
      | tensor d buffers =>
        rw [CompositeNode.tensors, List.singleton_append, slicesOf_cons_of_error he]
      | composite head members =>
        rw [CompositeNode.tensors, List.cons_append, slicesOf_cons_of_error he]
    rw [hnil]
    unfold beginNode
    split
    · rfl
    · next hok =>
      rw [Exec.mapError_eq_ok, he] at hok
      cases hok
  · unfold beginNode
    rw [Exec.mapError_eq_ok.mpr hb]
    cases node with
    | tensor d buffers =>
      rw [CompositeNode.tensors, List.singleton_append, slicesOf_cons_of_ok hb, ahead_fresh rfl]
      simp [current, behind, following, upcoming]
    | composite head members =>
      rw [CompositeNode.tensors, List.cons_append, slicesOf_cons_of_ok hb, ahead_fresh rfl]
      simp [current, behind, following, upcoming, Frame.pending_start]

theorem nextNode_ahead (op : WriteOp) : op.nextNode.2.ahead = slicesOf op.upcoming := by
  unfold nextNode
  split
  · next h =>
    rw [upcoming, Frame.takeNext_none h]
    rfl
  · next h => rw [upcoming, Frame.takeNext_some h, beginNode_ahead]

theorem beginPayload_ahead (op : WriteOp) (index : ℕ) : (op.beginPayload index).2.ahead =
    (op.payloads.drop index).filter (· ≠ []) ++ slicesOf op.upcoming := by
  unfold beginPayload
  split
  · next h =>
    rw [List.drop_eq_getElem_cons h, ahead_fresh rfl]
    simp only [current, behind, following, upcoming, List.getElem?_eq_getElem h, Option.getD_some]
    rw [← List.append_assoc, ← List.filter_append]
    rfl
  · next h =>
    rw [nextNode_ahead, List.drop_eq_nil_of_le (by omega)]
    rfl

/-- A slice is entered at its first byte. -/
theorem beginPayload_written (op : WriteOp) (index : ℕ) : (op.beginPayload index).2.written = 0 := by
  unfold beginPayload nextNode beginNode
  split
  · rfl
  · split
    · rfl
    · split
      · rfl
      · split <;> rfl

/-- An exhausted slice is left behind without a change to what is ahead. -/
theorem Exhausted.ahead {index : ℕ} (h : op.Exhausted index) :
    op.ahead = (op.payloads.drop index).filter (· ≠ []) ++ slicesOf op.upcoming := by
  rw [ahead_of_remaining h.remaining]
  rcases h.state with ⟨hs, rfl⟩ | ⟨i, hs, rfl⟩
  · simp [behind, hs, following]
  · simp [behind, hs, following]

/-- A step goes over exhausted slices only: it changes nothing of what is ahead or begun. -/
theorem stepLoop_ahead (op : WriteOp) : op.stepLoop.2.ahead = op.ahead := by
  apply stepLoop_keeps
  · intro op index h
    rw [beginPayload_ahead, h.ahead]
  · intro op _
    rfl

theorem stepLoop_begun (op : WriteOp) : op.stepLoop.2.begun = op.begun := by
  apply stepLoop_keeps
  · intro op index h
    rw [begun_fresh (beginPayload_written op index), begun_of_remaining h.remaining]
  · intro op _
    rfl

/-! ### Reports -/

/-- How many bytes are still to be accepted. -/
def owed (op : WriteOp) : ℕ := op.remaining + op.behind.flatten.length

theorem length_ahead (op : WriteOp) : op.ahead.flatten.length = op.begun.length + op.owed := by
  have hlen := op.length_outputSrc
  rw [op.outputSrc_eq, List.length_drop] at hlen
  unfold ahead begun owed
  split
  · rw [List.flatten_cons, List.length_append, List.length_take]
    omega
  · rw [List.length_nil]
    omega

theorem remaining_accepted (op : WriteOp) (n : ℕ) :
    (op.accepted n).remaining = op.remaining - n := by
  rw [← length_outputSrc, ← length_outputSrc, outputSrc_accepted, List.length_drop]

theorem begun_append {n : ℕ} (h : 0 < op.remaining) :
    op.begun ++ op.outputSrc.take n = op.current.take (op.written + n) := by
  rw [begun, if_pos h, outputSrc_eq, List.take_add]

theorem owed_accepted {n : ℕ} (h : n ≤ op.remaining) : (op.accepted n).owed + n = op.owed := by
  have hbehind : (op.accepted n).behind = op.behind := rfl
  rw [owed, owed, remaining_accepted, hbehind]
  omega

/-- A slice that is accepted in part stays the one on offer. -/
theorem accepted_part {n : ℕ} (h : n < op.remaining) :
    (op.accepted n).ahead = op.ahead ∧ (op.accepted n).begun = op.begun ++ op.outputSrc.take n := by
  have hpos : 0 < op.remaining := by omega
  have hpos' : 0 < (op.accepted n).remaining := by
    rw [remaining_accepted]
    omega
  rw [begun_append hpos]
  refine ⟨?_, if_pos hpos'⟩
  rw [ahead, ahead, if_pos hpos, if_pos hpos']
  rfl

/-- A slice that is accepted to its end is the first of those that were ahead. -/
theorem accepted_whole {n : ℕ} (h : n = op.remaining) (hpos : 0 < op.remaining) :
    op.ahead = (op.begun ++ op.outputSrc.take n) :: (op.accepted n).ahead ∧
      (op.accepted n).begun = [] := by
  have hrem : (op.accepted n).remaining = 0 := by
    rw [remaining_accepted]
    omega
  have hlen := op.length_outputSrc
  rw [op.outputSrc_eq, List.length_drop] at hlen
  refine ⟨?_, begun_of_remaining hrem⟩
  rw [begun_append hpos, ahead_of_remaining hrem, ahead, if_pos hpos,
    List.take_of_length_le (by omega)]
  rfl

end
end WriteOp

/-! ### The driver -/

structure SliceDriver where
  op : WriteOp
  slices : List Bytes
  begun : Bytes
  calls : ℕ
  complete : Bool

namespace SliceDriver

def start (op : WriteOp) : SliceDriver where
  op := op
  slices := []
  begun := []
  calls := 0
  complete := false

/-- One round: bytes are offered and some accepted, or the item is complete. A slice is kept when
the sink has accepted all of it. -/
def round (accept : ℕ → ℕ) (d : SliceDriver) : Option SliceDriver :=
  if d.complete then none
  else
    match d.op.step with
    | (.ok (.output len), op) =>
        let n := min len (accept d.calls + 1)
        let begun := d.begun ++ op.outputSrc.take n
        let d := { d with op := (op.reportWritten n).2, calls := d.calls + 1 }
        if n = len then some { d with slices := d.slices ++ [begun], begun := [] }
        else some { d with begun }
    | (.ok .itemWritten, op) => some { d with op, complete := true }
    | (.error _, _) => none

variable {d : SliceDriver}

/-- A round goes on by a chunk that is accepted, or ends with nothing ahead. -/
theorem round_effect (accept : ℕ → ℕ) (hu : d.op.core.unusable = none)
    (hbegun : d.begun = d.op.begun) (hcomplete : d.complete = false) :
    (∃ e, round accept d = some e ∧ e.op.core.unusable = none ∧ e.begun = e.op.begun ∧
      e.complete = false ∧ e.slices ++ e.op.ahead = d.slices ++ d.op.ahead ∧
      e.op.left.isSome = d.op.left.isSome ∧ e.op.owed < d.op.owed) ∨
    (d.begun = [] ∧ d.op.ahead = [] ∧
      ((d.op.left = some [] ∧ ∃ op, round accept d = some { d with op, complete := true }) ∨
        (d.op.left = none ∧ round accept d = none))) := by
  obtain ⟨hleft, -, houtcome⟩ := WriteOp.step_effect hu
  have hahead := WriteOp.stepLoop_ahead d.op
  have hfront := WriteOp.stepLoop_begun d.op
  rw [← WriteOp.step_eq_stepLoop hu] at hahead hfront
  unfold round
  rw [if_neg (by rw [hcomplete]; exact Bool.false_ne_true)]
  rcases hd : d.op.step with ⟨r, op⟩
  rw [hd] at hleft houtcome hahead hfront
  dsimp only at hleft houtcome hahead hfront ⊢
  have hend (hrem : op.remaining = 0) (hbehind : op.behind = []) :
      d.begun = [] ∧ d.op.ahead = [] := by
    rw [hbegun, ← hfront, ← hahead, WriteOp.ahead_of_remaining hrem]
    exact ⟨WriteOp.begun_of_remaining hrem, hbehind⟩
  rcases houtcome with ⟨rfl, hpos, hcore⟩ | ⟨rfl, hdone, hcore⟩ | ⟨⟨f, rfl⟩, hfailed, hcore⟩
  · left
    obtain ⟨n, hn⟩ : ∃ n, n = min op.remaining (accept d.calls + 1) := ⟨_, rfl⟩
    have hle : n ≤ op.remaining := by omega
    have hpos' : 0 < n := by omega
    have hu' : op.core.unusable = none := by rw [hcore, hu]
    have hdebt : (op.accepted n).owed < d.op.owed := by
      have hlen := op.length_ahead
      rw [hahead, hfront, d.op.length_ahead] at hlen
      have hpaid := WriteOp.owed_accepted hle
      omega
    have husable : (op.accepted n).core.unusable = none := by
      unfold WriteOp.accepted
      split <;> exact hu'
    have hsome : (op.accepted n).left.isSome = d.op.left.isSome := by
      rw [← hleft, WriteOp.left_eq_of_accepted (n := n) (WriteOp.running_of_remaining hpos),
        Option.isSome_map]
    dsimp only
    rw [← hn, WriteOp.reportWritten_accepted hu' hpos' hle, hbegun, ← hfront, ← hahead]
    by_cases hwhole : n = op.remaining
    · obtain ⟨hnext, hnone⟩ := WriteOp.accepted_whole hwhole hpos
      rw [if_pos hwhole]
      refine ⟨_, rfl, husable, hnone.symm, hcomplete, ?_, hsome, hdebt⟩
      rw [hnext, List.append_assoc]
      rfl
    · have hpart : n < op.remaining := by omega
      obtain ⟨hsame, hlonger⟩ := WriteOp.accepted_part hpart
      rw [if_neg hwhole]
      exact ⟨_, rfl, husable, hlonger.symm, hcomplete, by rw [hsame], hsome, hdebt⟩
  · have hrem : op.remaining = 0 := by simp [WriteOp.remaining, hdone]
    have hbehind : op.behind = [] := by rw [WriteOp.behind, hdone]
    obtain ⟨hnil, hnone⟩ := hend hrem hbehind
    exact .inr ⟨hnil, hnone, .inl ⟨hleft.symm.trans (WriteOp.left_of_done hdone), op, rfl⟩⟩
  · have hbehind : op.behind = [] := by rw [WriteOp.behind, hfailed]
    obtain ⟨hnil, hnone⟩ := hend (WriteOp.remaining_of_failed hfailed) hbehind
    exact .inr ⟨hnil, hnone, .inr ⟨hleft.symm.trans (WriteOp.left_of_failed hfailed), rfl⟩⟩

/-- The run goes through all that is ahead of its operation, and ends with the item complete when
the rest of it can be produced. -/
theorem reaches_end (accept : ℕ → ℕ) (hu : d.op.core.unusable = none)
    (hbegun : d.begun = d.op.begun) (hcomplete : d.complete = false) :
    ∃ e ∈ eval (round accept) d, e.begun = [] ∧ e.slices = d.slices ++ d.op.ahead ∧
      e.complete = d.op.left.isSome := by
  induction hn : d.op.owed using Nat.strong_induction_on generalizing d with
  | h n ih =>
    rcases round_effect accept hu hbegun hcomplete with hmore | ⟨hnil, hahead, hend⟩
    · obtain ⟨e, hround, hu', hbegun', hcomplete', hslices, hsome, hdebt⟩ := hmore
      rw [hn] at hdebt
      obtain ⟨f, hf, hfbegun, hfslices, hfcomplete⟩ := ih _ hdebt hu' hbegun' hcomplete' rfl
      obtain ⟨hreach, hstop⟩ := mem_eval.mp hf
      refine ⟨f, mem_eval.mpr ⟨.head hround hreach, hstop⟩, hfbegun, ?_, ?_⟩
      · rw [hfslices, hslices]
      · rw [hfcomplete, hsome]
    · rw [hahead, List.append_nil]
      rcases hend with ⟨hleft, op, hround⟩ | ⟨hleft, hround⟩
      · refine ⟨_, mem_eval.mpr ⟨.single hround, ?_⟩, hnil, rfl, ?_⟩
        · rw [round, if_pos rfl]
        · rw [hleft]
          rfl
      · refine ⟨d, mem_eval.mpr ⟨.refl, hround⟩, hnil, rfl, ?_⟩
        rw [hcomplete, hleft]
        rfl

end SliceDriver

/-! ### The slices of an accepted item -/

/-- Whatever the sink accepts, the slices are those of the tensors in a row, and the item
completes after the last of them. -/
def WriteOp.Emits (op : WriteOp) (ts : List StreamTensor) : Prop :=
  ∀ accept, ∃ e ∈ eval (SliceDriver.round accept) (.start op),
    e.complete = true ∧ e.begun = [] ∧ e.slices = ts.flatMap StreamTensor.slices

section
variable {core : StreamWriterCore} {node : CompositeNode} {op : WriteOp}

theorem WriteOp.start_ahead {staging : Bytes} (h : encode node.descriptor = .ok staging) :
    (start core node staging).ahead = slicesOf node.tensors := by
  have hbegin : ((start core node staging).beginNode node []).2.ahead = _ := beginNode_ahead node []
  rw [List.flatMap_nil, List.append_nil] at hbegin
  rw [← hbegin]
  unfold beginNode
  rw [Exec.mapError_eq_ok.mpr h]
  cases node <;> rfl

/-- An accepted item emits its tensors in a row, as far as they encode. -/
theorem slices_of_submit (accept : ℕ → ℕ) (h : core.submit node = .ok op) :
    ∃ e ∈ eval (SliceDriver.round accept) (.start op), e.begun = [] ∧
      e.slices = slicesOf node.tensors ∧
      (e.complete = true ↔ ∀ t ∈ node.tensors, Encodable t.descriptor) := by
  obtain ⟨hcore, hretired, hleft⟩ := StreamWriterCore.left_of_submit h
  obtain ⟨-, -, staging, henc, hop⟩ := StreamWriterCore.submit_eq_ok.mp h
  have hwritten : op.written = 0 := by rw [hop]; rfl
  have hu : op.core.unusable = none := by
    rw [hcore]
    exact (StreamWriterCore.retired_eq_none.mp hretired).1
  obtain ⟨e, he, hbegun, hslices, hcomplete⟩ := SliceDriver.reaches_end accept
    (d := .start op) hu (WriteOp.begun_fresh hwritten).symm rfl
  have hahead : op.ahead = slicesOf node.tensors := by rw [hop, WriteOp.start_ahead henc]
  refine ⟨e, he, hbegun, ?_, ?_⟩
  · rw [hslices, ← hahead]
    rfl
  · rw [hcomplete, ← bytesOf_isSome, ← hleft]
    rfl

/-- An accepted item emits all its tensors exactly when every descriptor in it encodes. -/
theorem emits_iff_encodable (h : core.submit node = .ok op) :
    op.Emits node.tensors ↔ ∀ t ∈ node.tensors, Encodable t.descriptor := by
  constructor
  · intro hemits
    obtain ⟨e, he, hcomplete, -⟩ := hemits fun _ => 0
    obtain ⟨e', he', -, -, hiff⟩ := slices_of_submit (fun _ => 0) h
    obtain rfl := Part.mem_unique he he'
    exact hiff.mp hcomplete
  · intro hencodes accept
    obtain ⟨e, he, hbegun, hslices, hiff⟩ := slices_of_submit accept h
    refine ⟨e, he, hiff.mpr hencodes, hbegun, ?_⟩
    rw [hslices, slicesOf_of_encodes hencodes]

end
end Hurray.Stream
