import Hurray.File.Writer

/-!
What an operation has left to emit. A step skips what is empty and changes
nothing else until the item is out, and a report takes the reported bytes off the
front.
-/
namespace Hurray.File
open Hurray.Base Hurray.Core Hurray.Descriptor Hurray.Stream

namespace FileWriteOp

/-- All bytes of the item. -/
def image (op : FileWriteOp) : Bytes := op.plan.flatMap op.segBytes

/-- The bytes that were not reported yet. -/
def left (op : FileWriteOp) : Bytes :=
  match op.plan[op.cursor]? with
  | none => []
  | some seg => (op.segBytes seg).drop op.written ++ (op.plan.drop (op.cursor + 1)).flatMap op.segBytes

/-- The operation at another place of its plan. -/
def moveTo (op : FileWriteOp) (cursor written : ℕ) : FileWriteOp := { op with cursor, written }

/-- The operation after `n` bytes of what is on offer were taken. -/
def accepted (op : FileWriteOp) (n : ℕ) (offset : UInt64) : FileWriteOp :=
  { op with
    core := { op.core with offset, torn := op.core.torn || decide (op.emittedBytes = 0) }
    emittedBytes := op.emittedBytes + n
    written := op.written + n }

variable {op : FileWriteOp} {n : ℕ} {seg : Seg}

theorem left_start (hcursor : op.cursor = 0) (hwritten : op.written = 0) : op.left = op.image := by
  rw [left, image, hcursor, hwritten]
  cases op.plan with
  | nil => rfl
  | cons seg plan => simp

theorem left_of_none (h : op.plan[op.cursor]? = none) : op.left = [] := by
  rw [left, h]

theorem offered_of_none (h : op.plan[op.cursor]? = none) : op.offered = 0 := by
  rw [offered, h, Option.elim_none]

theorem offered_of_some (h : op.plan[op.cursor]? = some seg) : op.offered = op.remainingIn seg := by
  rw [offered, h, Option.elim_some]

/-- What is on offer is the front of the stretch. -/
theorem outputSrc_eq (h : op.plan[op.cursor]? = some seg) :
    op.outputSrc = ((op.segBytes seg).drop op.written).take op.offered := by
  rw [offered_of_some h, outputSrc, h]
  cases seg with
  | owned => exact (List.take_of_length_le (by rw [List.length_drop]; rfl)).symm
  | zeros len => simp [segBytes, remainingIn, List.take_replicate, List.drop_replicate]
  | payload index =>
    cases hp : op.payloads[index]? with
    | none => simp [segBytes, hp]
    | some payload =>
      simp only [segBytes, remainingIn, hp, Option.elim_some, Option.getD_some]
      exact (List.take_of_length_le (by rw [List.length_drop])).symm

theorem offered_le (h : op.plan[op.cursor]? = some seg) :
    op.offered ≤ ((op.segBytes seg).drop op.written).length := by
  rw [offered_of_some h, List.length_drop]
  cases seg with
  | owned => exact le_rfl
  | zeros len => simp [segBytes, remainingIn]
  | payload index => cases hp : op.payloads[index]? <;> simp [segBytes, remainingIn, hp]

theorem length_outputSrc : op.outputSrc.length = op.offered := by
  cases h : op.plan[op.cursor]? with
  | none => rw [outputSrc, offered, h, List.length_nil, Option.elim_none]
  | some seg => rw [outputSrc_eq h, List.length_take_of_le (offered_le h)]

/-- A stretch with nothing on offer is out. -/
theorem drop_eq_nil_of_offered (h : op.plan[op.cursor]? = some seg) (hzero : op.offered = 0) :
    (op.segBytes seg).drop op.written = [] := by
  rw [offered_of_some h] at hzero
  cases seg with
  | owned => exact List.drop_eq_nil_of_le (Nat.sub_eq_zero_iff_le.mp hzero)
  | zeros len =>
    apply List.drop_eq_nil_of_le
    rw [segBytes, List.length_replicate]
    rw [remainingIn, ZEROS_LEN] at hzero
    omega
  | payload index =>
    cases hp : op.payloads[index]? with
    | none => simp [segBytes, hp]
    | some payload =>
      rw [remainingIn, hp, Option.elim_some] at hzero
      rw [segBytes, hp, Option.getD_some]
      exact List.drop_eq_nil_of_le (Nat.sub_eq_zero_iff_le.mp hzero)

/-- Bytes that are accepted are taken off the front of what is left. -/
theorem left_eq_of_accepted (hle : n ≤ op.offered) (offset : UInt64) :
    op.left = op.outputSrc.take n ++ (op.accepted n offset).left := by
  cases h : op.plan[op.cursor]? with
  | none =>
    have hnext : (op.accepted n offset).plan[(op.accepted n offset).cursor]? = none := h
    rw [left_of_none h, left_of_none hnext, outputSrc, h, List.take_nil, List.append_nil]
  | some seg =>
    have hnext : (op.accepted n offset).plan[(op.accepted n offset).cursor]? = some seg := h
    rw [left, h, left, hnext, outputSrc_eq h, List.take_take, Nat.min_eq_left hle]
    show (op.segBytes seg).drop op.written ++ (op.plan.drop (op.cursor + 1)).flatMap op.segBytes =
      ((op.segBytes seg).drop op.written).take n ++ ((op.segBytes seg).drop (op.written + n) ++
        (op.plan.drop (op.cursor + 1)).flatMap op.segBytes)
    rw [← List.drop_drop (j := op.written), ← List.append_assoc, List.take_append_drop]

/-- An empty rest of a stretch is skipped. -/
theorem left_moveTo_next (h : op.plan[op.cursor]? = some seg) (hzero : op.offered = 0) :
    (op.moveTo (op.cursor + 1) 0).left = op.left := by
  rw [left, left, h]
  show (match op.plan[op.cursor + 1]? with
    | none => []
    | some seg => op.segBytes seg ++ (op.plan.drop (op.cursor + 1 + 1)).flatMap op.segBytes) =
      (op.segBytes seg).drop op.written ++ (op.plan.drop (op.cursor + 1)).flatMap op.segBytes
  rw [drop_eq_nil_of_offered h hzero, List.nil_append]
  cases hnext : op.plan[op.cursor + 1]? with
  | none => rw [List.drop_eq_nil_of_le (List.getElem?_eq_none_iff.mp hnext), List.flatMap_nil]
  | some next =>
    obtain ⟨hlt, rfl⟩ := List.getElem?_eq_some_iff.mp hnext
    rw [List.drop_eq_getElem_cons hlt, List.flatMap_cons]

theorem stepLoop_of_none (h : op.plan[op.cursor]? = none) :
    op.stepLoop = (.ok .itemWritten, op.complete) := by
  rw [stepLoop]
  split
  · rfl
  · next hseg =>
    rw [h] at hseg
    cases hseg

theorem stepLoop_of_some (h : op.plan[op.cursor]? = some seg) :
    op.stepLoop = if op.offered = 0 then (op.moveTo (op.cursor + 1) 0).stepLoop
      else (.ok (.output op.offered), op) := by
  rw [stepLoop]
  split
  · next hnone =>
    rw [h] at hnone
    cases hnone
  · next hseg =>
    rw [h] at hseg
    cases hseg
    rw [offered_of_some h]
    rfl

/-- The next stretch that has bytes to offer, or the end of the item. -/
theorem stepLoop_spec (op : FileWriteOp) : ∃ cursor written,
    (op.moveTo cursor written).left = op.left ∧
    ((op.plan[cursor]? = none ∧
        op.stepLoop = (.ok .itemWritten, (op.moveTo cursor written).complete)) ∨
      (0 < (op.moveTo cursor written).offered ∧
        op.stepLoop = (.ok (.output (op.moveTo cursor written).offered),
          op.moveTo cursor written))) := by
  induction hn : op.plan.length - op.cursor using Nat.strong_induction_on generalizing op with
  | h n ih =>
    cases h : op.plan[op.cursor]? with
    | none => exact ⟨op.cursor, op.written, rfl, .inl ⟨h, stepLoop_of_none h⟩⟩
    | some seg =>
      have hlt := (List.getElem?_eq_some_iff.mp h).1
      rw [stepLoop_of_some h]
      by_cases hzero : op.offered = 0
      · obtain ⟨cursor, written, hleft, hstep⟩ :=
          ih (op.plan.length - (op.cursor + 1)) (by omega) (op.moveTo (op.cursor + 1) 0) rfl
        rw [if_pos hzero]
        exact ⟨cursor, written, hleft.trans (left_moveTo_next h hzero), hstep⟩
      · rw [if_neg hzero]
        exact ⟨op.cursor, op.written, rfl, .inr ⟨Nat.pos_of_ne_zero hzero, rfl⟩⟩

theorem step_eq_stepLoop (hu : op.core.unusable = none) (hf : op.failed = false) :
    op.step = op.stepLoop := by
  rw [step, hu]
  dsimp only
  rw [hf]
  rfl

/-- Every answer to a report: bytes are taken, the offset overflows, a count is lost, or nothing
changes. -/
theorem reportWritten_cases (hu : op.core.unusable = none) (hf : op.failed = false) (n : ℕ) :
    (0 < n ∧ n ≤ op.offered ∧ ∃ offset : UInt64, offset.toNat = op.core.offset.toNat + n ∧
      op.reportWritten n = (.ok (), op.accepted n offset)) ∨
    (0 < n ∧ n ≤ op.offered ∧ op.reportWritten n = (Exec.panic,
      { op with core := { op.core with torn := op.core.torn || decide (op.emittedBytes = 0) },
                emittedBytes := op.emittedBytes + n })) ∨
    (op.offered < n ∧ op.plan[op.cursor]? ≠ none ∧
      op.reportWritten n = (Exec.fail (.invalidProgressReport n op.offered),
        { op with core := { op.core with unusable := some .lostWriteCount }, failed := true })) ∨
    (op.offered < n ∧ op.plan[op.cursor]? = none ∧
      op.reportWritten n = (Exec.fail (.invalidProgressReport n 0), op)) ∨
    (n = 0 ∧ op.reportWritten n = (Exec.fail .zeroLengthWrite, op)) := by
  unfold reportWritten
  rw [hu, hf]
  by_cases hzero : n = 0
  · refine .inr (.inr (.inr (.inr ⟨hzero, ?_⟩)))
    simp [hzero]
  cases h : op.plan[op.cursor]? with
  | none =>
    refine .inr (.inr (.inr (.inl ⟨?_, rfl, ?_⟩)))
    · rw [offered_of_none h]
      omega
    · simp [hzero]
  | some seg =>
    by_cases hlt : op.offered < n
    · refine .inr (.inr (.inl ⟨hlt, by simp, ?_⟩))
      rw [offered_of_some h] at hlt ⊢
      simp [hzero, hlt]
    · have hle : n ≤ op.offered := Nat.le_of_not_lt hlt
      rw [offered_of_some h] at hlt
      have hcore : (if op.emittedBytes = 0 then { op.core with torn := true } else op.core) =
          { op.core with torn := op.core.torn || decide (op.emittedBytes = 0) } := by
        by_cases hfirst : op.emittedBytes = 0 <;> simp [hfirst]
      by_cases hfits : op.core.offset.toNat + n < UInt64.size
      · refine .inl ⟨by omega, hle, op.core.offset + UInt64.ofNat n, ?_, ?_⟩
        · rw [UInt64.toNat_add, UInt64.toNat_ofNat_of_lt' (by omega)]
          exact Nat.mod_eq_of_lt hfits
        · simp [hzero, hlt, hcore, addSize, hfits, accepted, hf]
      · refine .inr (.inl ⟨by omega, hle, ?_⟩)
        simp [hzero, hlt, hcore, addSize, hfits, Exec.panic]

/-- A report of bytes that are on offer, with room for them. -/
theorem reportWritten_of_room (hu : op.core.unusable = none) (hf : op.failed = false) (hn : 0 < n)
    (hle : n ≤ op.offered) (hroom : op.core.offset.toNat + n < UInt64.size) :
    (op.reportWritten n).1 = .ok () := by
  unfold reportWritten
  rw [hu, hf]
  cases h : op.plan[op.cursor]? with
  | none =>
    rw [offered_of_none h] at hle
    omega
  | some seg =>
    rw [offered_of_some h] at hle
    have hnot : ¬ op.remainingIn seg < n := Nat.not_lt.mpr hle
    by_cases hfirst : op.emittedBytes = 0
    all_goals simp [Nat.pos_iff_ne_zero.mp hn, hnot, addSize, hroom, hfirst]

end FileWriteOp
end Hurray.File
