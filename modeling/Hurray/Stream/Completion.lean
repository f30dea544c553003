import Hurray.Stream.WriteDriver

/-!
Whether an accepted item can be written to its end. Members are encoded only
when their turn comes, so an item completes when all its descriptors encode, and
the checks at submission do not ask for that.
-/
namespace Hurray.Stream
open Hurray.Base Hurray.Core Hurray.Descriptor StateTransition Relation

namespace WriteOp

/-- One call of a legal schedule: a step, or a report of between one byte and all on offer. -/
def Advance (op op' : WriteOp) : Prop :=
  op' = op.step.2 ∨ ∃ n, 0 < n ∧ n ≤ op.remaining ∧ op' = (op.reportWritten n).2

/-- Wherever a legal schedule has taken the operation, a step returns no error, and going on
from there ends with the item written and the core not retired, whatever the sink accepts. -/
def Completes (op : WriteOp) : Prop :=
  ∀ op', ReflTransGen Advance op op' →
    (∃ r, op'.step.1 = .ok r) ∧
    ∀ accept, ∃ d ∈ eval (WriteDriver.round accept) ⟨op'.core, some op', [], [], 0⟩,
      d.flight = none ∧ d.core.retired = none

section
variable {op op' : WriteOp}

/-- A legal call keeps the core usable, and never changes whether the rest can be produced. -/
theorem Advance.preserves (h : op.Advance op') (hu : op.core.unusable = none) :
    op'.core.unusable = none ∧ (op'.left.isSome ↔ op.left.isSome) := by
  rcases h with rfl | ⟨n, hn, hle, rfl⟩
  · obtain ⟨hleft, -, houtcome⟩ := step_effect hu
    refine ⟨?_, by rw [hleft]⟩
    rcases houtcome with ⟨-, -, hcore⟩ | ⟨-, -, hcore⟩ | ⟨-, -, hcore⟩
    all_goals
      rw [hcore]
      exact hu
  · have hrun : op.Running := running_of_remaining (by omega)
    rw [reportWritten_accepted hu hn hle, left_eq_of_accepted (n := n) hrun, Option.isSome_map]
    refine ⟨?_, Iff.rfl⟩
    show (op.accepted n).core.unusable = none
    unfold accepted
    split <;> exact hu

theorem schedule_preserves (h : ReflTransGen Advance op op') (hu : op.core.unusable = none) :
    op'.core.unusable = none ∧ (op'.left.isSome ↔ op.left.isSome) := by
  apply run_invariant (I := fun o => o.core.unusable = none ∧ (o.left.isSome ↔ op.left.isSome)) _ h
  · exact ⟨hu, Iff.rfl⟩
  · intro o o' hadv ho
    obtain ⟨hu', hiff⟩ := hadv.preserves ho.1
    exact ⟨hu', hiff.trans ho.2⟩

theorem step_ok_of_left (hu : op.core.unusable = none) (h : op.left.isSome) :
    ∃ r, op.step.1 = .ok r := by
  obtain ⟨hleft, -, ⟨hr, -⟩ | ⟨hr, -⟩ | ⟨-, hfailed, -⟩⟩ := step_effect hu
  · exact ⟨_, hr⟩
  · exact ⟨_, hr⟩
  · rw [← hleft, left_of_failed hfailed] at h
    cases h

/-- A driver never gets past an item whose bytes cannot all be produced. -/
theorem flight_of_left_none {accept : ℕ → ℕ} {d e : WriteDriver}
    (h : Reaches (WriteDriver.round accept) d e)
    (hd : ∃ o, d.flight = some o ∧ o.core.unusable = none ∧ o.left = none) :
    ∃ o, e.flight = some o ∧ o.core.unusable = none ∧ o.left = none := by
  apply reaches_invariant
    (I := fun d => ∃ o, d.flight = some o ∧ o.core.unusable = none ∧ o.left = none) _ h hd
  intro d e he ho
  obtain ⟨o, hflight, hu, hleft⟩ := ho
  rcases WriteDriver.round_flight accept hflight hu with ⟨hnil, -⟩ | hmore | ⟨-, hstop⟩
  · rw [hleft] at hnil
    cases hnil
  · obtain ⟨next, chunk, -, hu', -, hleft', hround⟩ := hmore
    rw [hleft] at hleft'
    rw [hround] at he
    cases he
    exact ⟨next, rfl, hu', Option.map_eq_none_iff.mp hleft'.symm⟩
  · rw [hstop] at he
    cases he

theorem completes_iff_left (hu : op.core.unusable = none) : op.Completes ↔ op.left.isSome := by
  constructor
  · intro h
    by_contra hleft
    obtain ⟨d, hd, hflight, -⟩ := (h op .refl).2 fun _ => 0
    obtain ⟨o, ho, -⟩ := flight_of_left_none (mem_eval.mp hd).1
      ⟨op, rfl, hu, by simpa using hleft⟩
    rw [hflight] at ho
    cases ho
  · intro hleft op' hsched
    obtain ⟨hu', hiff⟩ := schedule_preserves hsched hu
    refine ⟨step_ok_of_left hu' (hiff.mpr hleft), ?_⟩
    intro accept
    obtain ⟨b, hb⟩ := Option.isSome_iff_exists.mp (hiff.mpr hleft)
    obtain ⟨calls, hreach⟩ := WriteDriver.reaches_itemWritten accept
      (d := ⟨op'.core, some op', [], [], 0⟩) rfl hu' hb
    refine ⟨_, mem_eval.mpr ⟨hreach, rfl⟩, rfl, ?_⟩
    exact StreamWriterCore.retired_eq_none.mpr ⟨hu', rfl⟩

end
end WriteOp

/-- An accepted item completes exactly when every descriptor in it encodes. -/
theorem completes_iff_encodable {core : StreamWriterCore} {node : CompositeNode} {op : WriteOp}
    (h : core.submit node = .ok op) :
    op.Completes ↔ ∀ t ∈ node.tensors, Encodable t.descriptor := by
  obtain ⟨hcore, hretired, hleft⟩ := StreamWriterCore.left_of_submit h
  have hu : op.core.unusable = none := by
    rw [hcore]
    exact (StreamWriterCore.retired_eq_none.mp hretired).1
  rw [WriteOp.completes_iff_left hu, hleft, bytesOf_isSome]

def workedNode : CompositeNode :=
  .composite (workedGroup 1) [.tensor workedExample [List.replicate 192 7]]

theorem encodable_workedGroup (memberCount : UInt32) : Encodable (workedGroup memberCount) where
  layout := trivial
  bufferCount := Nat.zero_le _
  member := by simp [workedGroup, workedExample]
  length := by
    simp [descriptorCells, fieldCells, workedGroup, workedExample, layoutCells,
      bufferTableCells, encodeComposite]

theorem submit_of_valid (memberCount : UInt32) (members : List CompositeNode)
    (h : StreamWriterCore.new.validateNode (.composite (workedGroup memberCount) members) = .ok ()) :
    ∃ op, StreamWriterCore.new.submit (.composite (workedGroup memberCount) members) = .ok op :=
  ⟨_, StreamWriterCore.submit_eq_ok.mpr ⟨rfl, h, _,
    encode_eq_ok_iff.mpr ⟨encodable_workedGroup memberCount, rfl⟩, rfl⟩⟩

theorem workedNode_completes : ∃ op, StreamWriterCore.new.submit workedNode = .ok op ∧
    (op.Completes ↔ ∀ t ∈ workedNode.tensors, Encodable t.descriptor) := by
  obtain ⟨op, hop⟩ := submit_of_valid 1 [.tensor workedExample [List.replicate 192 7]]
    (by decide +kernel)
  exact ⟨op, hop, completes_iff_encodable hop⟩

/-- A member in the CSF layout whose modes do not match its rank. -/
def unevenCsf : TensorDescriptor := { workedExample with layout := .csf ⟨0, []⟩ }

def unevenNode : CompositeNode :=
  .composite (workedGroup 1) [.tensor unevenCsf [List.replicate 192 7]]

/-- The group is accepted, and is torn when the turn of its member comes. -/
theorem unevenNode_tears : ∃ op, StreamWriterCore.new.submit unevenNode = .ok op ∧
    ¬ op.Completes := by
  obtain ⟨op, hop⟩ := submit_of_valid 1 [.tensor unevenCsf [List.replicate 192 7]]
    (by decide +kernel)
  obtain ⟨hcore, hretired, hleft⟩ := StreamWriterCore.left_of_submit hop
  refine ⟨op, hop, ?_⟩
  rw [WriteOp.completes_iff_left (by rw [hcore]; rfl), hleft, bytesOf_isSome]
  intro h
  have hlayout : UInt32.ofNat 0 = UInt32.ofNat 2 :=
    (h ⟨unevenCsf, [List.replicate 192 7]⟩ (by simp [CompositeNode.tensors])).layout
  exact absurd hlayout (by decide)

end Hurray.Stream
