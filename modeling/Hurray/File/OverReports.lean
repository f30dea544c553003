import Hurray.Base.Runs
import Hurray.File.WriterLife
import Hurray.Stream.ReadDriver
import Hurray.Stream.TornItems

/-!
Reports of more bytes than were on offer, in the three machines that are told of
progress. Such a report is answered with an error; it retires the machine except
where nothing is on offer any more.
-/
namespace Hurray.File
open Hurray.Base Hurray.Core Hurray.Descriptor Hurray.Stream

/-- The error of a machine that does nothing more. -/
def TerminalFault {α : Type} (r : Result α) : Prop :=
  r = Exec.fail .coreFailed ∨ ∃ reason, r = Exec.fail (.coreUnusable reason)

/-! ### The reader of a stream -/

inductive ReaderCall where
  | step
  | report (n : ℕ)
  | take
  | markUnusable

section Reader
variable {A : Type} [DestinationAlloc A]

def readerCall (c : StreamReaderCore A) : ReaderCall → StreamReaderCore A
  | .step => c.step.2
  | .report n => (c.reportFilled n).2
  | .take => c.takeTensor.2
  | .markUnusable => c.markUnusable

/-- Every call on the reader fails, and it hands out no tensor. -/
def ReaderDead (c : StreamReaderCore A) : Prop :=
  TerminalFault c.step.1 ∧ (∀ n, TerminalFault (c.reportFilled n).1) ∧ c.takeTensor.1 = none

/-- The reader is in one of its two last states. -/
def ReaderEnded (c : StreamReaderCore A) : Prop :=
  c.state = .failed ∨ ∃ reason, c.state = .unusable reason

variable {c : StreamReaderCore A}

theorem reader_of_ended (h : ReaderEnded c) :
    c.step.2 = c ∧ (∀ n, (c.reportFilled n).2 = c) ∧ c.takeTensor = (none, c) ∧ ReaderDead c := by
  have hstate : (∃ e, TerminalFault (Exec.fail e : Result ReadStep) ∧
      TerminalFault (Exec.fail e : Result Unit) ∧ c.step = (Exec.fail e, c) ∧
      ∀ n, c.reportFilled n = (Exec.fail e, c)) ∧ c.state ≠ .tensorReady := by
    rcases h with h | ⟨reason, h⟩
    · refine ⟨⟨.coreFailed, .inl rfl, .inl rfl, ?_, ?_⟩, by simp [h]⟩
      · rw [StreamReaderCore.step]
        split <;> simp_all
      · intro n
        rw [StreamReaderCore.reportFilled, h]
    · refine ⟨⟨.coreUnusable reason, .inr ⟨reason, rfl⟩, .inr ⟨reason, rfl⟩, ?_, ?_⟩, by simp [h]⟩
      · rw [StreamReaderCore.step]
        split <;> simp_all
      · intro n
        rw [StreamReaderCore.reportFilled, h]
  obtain ⟨⟨e, hstepFault, hfault, hstep, hreport⟩, hready⟩ := hstate
  have htake : c.takeTensor = (none, c) := if_neg hready
  refine ⟨by rw [hstep], fun n => by rw [hreport], htake, ?_, ?_, by rw [htake]⟩
  · rw [hstep]
    exact hstepFault
  · intro n
    rw [hreport]
    exact hfault

theorem reader_dead_forever (h : ReaderEnded c) : Forever readerCall ReaderDead c := by
  refine forever_of_invariant ?_ (fun c hc => (reader_of_ended hc).2.2.2) h
  intro c a hc
  obtain ⟨hstep, hreport, htake, -⟩ := reader_of_ended hc
  cases a with
  | step =>
    show ReaderEnded c.step.2
    rw [hstep]
    exact hc
  | report n =>
    show ReaderEnded (c.reportFilled n).2
    rw [hreport]
    exact hc
  | take =>
    show ReaderEnded c.takeTensor.2
    rw [htake]
    exact hc
  | markUnusable => exact .inr ⟨_, rfl⟩

omit [DestinationAlloc A] in
/-- A report of more than is on offer ends the reader, unless it has a tensor to take or is at
the end of its input. -/
theorem ended_of_over_report {n : ℕ} (hn : c.remaining < n)
    (hstate : c.state ≠ .tensorReady ∧ c.state ≠ .finished) :
    (∃ e, (c.reportFilled n).1 = Exec.fail e) ∧ ReaderEnded (c.reportFilled n).2 := by
  have hzero : n ≠ 0 := Nat.ne_of_gt (Nat.zero_lt_of_lt hn)
  have hlost : (if n = 0 then
      if c.state = .descriptorPrefix ∧ c.filled = 0 then (.ok (), { c with state := .finished })
        else c.fail .unexpectedEof
      else if c.remaining < n then (Exec.fail (.invalidProgressReport n c.remaining),
          { c with state := .unusable .lostReadCount })
      else (.ok (), { c with filled := c.filled + n })) =
        ((Exec.fail (.invalidProgressReport n c.remaining),
          { c with state := .unusable .lostReadCount }) : Result Unit × StreamReaderCore A) := by
    rw [if_neg hzero, if_pos hn]
  unfold StreamReaderCore.reportFilled
  cases hs : c.state with
  | tensorReady => exact absurd hs hstate.1
  | finished => exact absurd hs hstate.2
  | failed => exact ⟨⟨_, rfl⟩, .inl hs⟩
  | unusable reason => exact ⟨⟨_, rfl⟩, .inr ⟨reason, hs⟩⟩
  | _ =>
    rw [hs] at hlost
    dsimp only
    rw [hlost]
    exact ⟨⟨_, rfl⟩, .inr ⟨_, rfl⟩⟩

theorem not_dead_of_step {r : ReadStep} (h : c.step = (.ok r, c)) :
    ¬ Forever readerCall ReaderDead c := by
  intro hdead
  have hnow : TerminalFault c.step.1 := (hdead []).1
  rw [h] at hnow
  rcases hnow with hnow | ⟨reason, hnow⟩
  · cases hnow
  · cases hnow

/-- A reader with a tensor to take, or at the end of its input, stays as it is. -/
theorem reader_over_report_iff {n : ℕ} (hn : c.remaining < n) :
    ((∃ e, (c.reportFilled n).1 = Exec.fail e) ∧
      Forever readerCall ReaderDead (c.reportFilled n).2) ↔
        c.state ≠ .tensorReady ∧ c.state ≠ .finished := by
  constructor
  · intro h
    obtain ⟨-, hdead⟩ := h
    constructor
    · intro hs
      have hreport : (c.reportFilled n).2 = c := by rw [StreamReaderCore.reportFilled, hs]
      rw [hreport] at hdead
      exact not_dead_of_step (StreamReaderCore.step_tensorReady hs) hdead
    · intro hs
      have hreport : (c.reportFilled n).2 = c := by rw [StreamReaderCore.reportFilled, hs]
      rw [hreport] at hdead
      exact not_dead_of_step (StreamReaderCore.step_finished hs) hdead
  · intro hstate
    obtain ⟨he, hended⟩ := ended_of_over_report hn hstate
    exact ⟨he, reader_dead_forever hended⟩

end Reader

/-! ### An operation of the stream writer -/

inductive WriteOpCall where
  | step
  | report (n : ℕ)
  | sinkClosed
  | markUnusable

def writeOpCall (op : WriteOp) : WriteOpCall → WriteOp
  | .step => op.step.2
  | .report n => (op.reportWritten n).2
  | .sinkClosed => op.reportSinkClosed.2
  | .markUnusable => op.markUnusable

/-- Every call on the operation fails, and its core takes no item once it is dropped. -/
def WriteOpDead (op : WriteOp) : Prop :=
  TerminalFault op.step.1 ∧ (∀ n, TerminalFault (op.reportWritten n).1) ∧
    ∀ item, ∃ reason, op.core.submit item = Exec.fail (.coreUnusable reason)

/-- The operation of a flight that is spoiled. -/
def WriteOpEnded (op : WriteOp) : Prop :=
  op.core.unusable ≠ none ∨ (op.state = .failed ∧ op.core.torn = true)

theorem writeOp_of_ended {op : WriteOp} (h : WriteOpEnded op) :
    op.step.2 = op ∧ (∀ n, (op.reportWritten n).2 = op) ∧ WriteOpDead op := by
  have hcalls : ∃ e, TerminalFault (Exec.fail e : Result WriteStep) ∧
      TerminalFault (Exec.fail e : Result Unit) ∧ op.step = (Exec.fail e, op) ∧
      ∀ n, op.reportWritten n = (Exec.fail e, op) := by
    cases hu : op.core.unusable with
    | some reason =>
      refine ⟨.coreUnusable reason, .inr ⟨reason, rfl⟩, .inr ⟨reason, rfl⟩, ?_, ?_⟩
      · rw [WriteOp.step, hu]
      · intro n
        rw [WriteOp.reportWritten, hu]
    | none =>
      obtain ⟨hfailed, -⟩ := h.resolve_left (not_not.mpr hu)
      refine ⟨.coreFailed, .inl rfl, .inl rfl, ?_, ?_⟩
      · rw [WriteOp.step_eq_stepLoop hu, WriteOp.stepLoop_of_failed hfailed]
      · intro n
        rw [WriteOp.reportWritten, hu]
        exact if_pos hfailed
  obtain ⟨e, hstepFault, hfault, hstep, hreport⟩ := hcalls
  have hretired : op.core.retired ≠ none := by
    intro hnone
    obtain ⟨hu, htorn⟩ := StreamWriterCore.retired_eq_none.mp hnone
    rcases h with h | ⟨-, h⟩
    · exact h hu
    · rw [htorn] at h
      cases h
  refine ⟨by rw [hstep], fun n => by rw [hreport], ?_, ?_, WriterLife.submit_of_retired hretired⟩
  · rw [hstep]
    exact hstepFault
  · intro n
    rw [hreport]
    exact hfault

theorem writeOp_dead_forever {op : WriteOp} (h : WriteOpEnded op) :
    Forever writeOpCall WriteOpDead op := by
  refine forever_of_invariant ?_ (fun op hop => (writeOp_of_ended hop).2.2) h
  intro op a hop
  obtain ⟨hstep, hreport, -⟩ := writeOp_of_ended hop
  cases a with
  | step =>
    show WriteOpEnded op.step.2
    rw [hstep]
    exact hop
  | report n =>
    show WriteOpEnded (op.reportWritten n).2
    rw [hreport]
    exact hop
  | sinkClosed => exact .inl (Option.some_ne_none _)
  | markUnusable => exact .inl (Option.some_ne_none _)

theorem writeOp_over_report {core : StreamWriterCore} {actions : List WriterAction} {f : Flight}
    (hf : (WriterLife.run core actions).flight = some f) {n : ℕ} (hn : f.op.remaining < n) :
    (∃ e, (f.op.reportWritten n).1 = Exec.fail e) ∧
      Forever writeOpCall WriteOpDead (f.op.reportWritten n).2 := by
  have hsound := ((WriterLife.sound_run core actions).flight f hf).2
  have hzero : n ≠ 0 := Nat.ne_of_gt (Nat.zero_lt_of_lt hn)
  cases hu : f.op.core.unusable with
  | some reason =>
    have hreport : f.op.reportWritten n = (Exec.fail (.coreUnusable reason), f.op) := by
      rw [WriteOp.reportWritten, hu]
    rw [hreport]
    exact ⟨⟨_, rfl⟩, writeOp_dead_forever (.inl (by simp [hu]))⟩
  | none =>
    by_cases hfailed : f.op.state = .failed
    · have hreport : f.op.reportWritten n = (Exec.fail .coreFailed, f.op) := by
        rw [WriteOp.reportWritten, hu]
        exact if_pos hfailed
      have htorn : f.op.core.torn = true := by
        by_cases hlost : f.lost = true
        · exact ((hsound.lost hlost).resolve_left (not_not.mpr hu)).2
        · exact (hsound.kept (by simpa using hlost)).torn_of_failed hfailed
      rw [hreport]
      exact ⟨⟨_, rfl⟩, writeOp_dead_forever (.inr ⟨hfailed, htorn⟩)⟩
    · have hreport : f.op.reportWritten n =
          (Exec.fail (.invalidProgressReport n f.op.remaining),
            { f.op with core := { f.op.core with unusable := some .lostWriteCount },
                        state := .failed }) := by
        rw [WriteOp.reportWritten, hu]
        dsimp only
        rw [if_neg hfailed, if_neg hzero, if_pos hn]
      rw [hreport]
      exact ⟨⟨_, rfl⟩, writeOp_dead_forever (.inl (Option.some_ne_none _))⟩

/-! ### An operation of the file writer -/

inductive FileWriteOpCall where
  | step
  | report (n : ℕ)
  | sinkClosed

def fileWriteOpCall (op : FileWriteOp) : FileWriteOpCall → FileWriteOp
  | .step => op.step.2
  | .report n => (op.reportWritten n).2
  | .sinkClosed => op.reportSinkClosed.2

/-- Every call on the operation fails, and its core takes no item once it is dropped. -/
def FileWriteOpDead (crc32c : Bytes → UInt32) (op : FileWriteOp) : Prop :=
  TerminalFault op.step.1 ∧ (∀ n, TerminalFault (op.reportWritten n).1) ∧
    ∀ item, ∃ reason, op.core.submit crc32c item = Exec.fail (.coreUnusable reason)

section FileWriteOp
variable {crc32c : Bytes → UInt32} {op : FileWriteOp}

theorem fileWriteOp_of_unusable {reason : Unusable} (hu : op.core.unusable = some reason) :
    op.step = (Exec.fail (.coreUnusable reason), op) ∧
      ∀ n, op.reportWritten n = (Exec.fail (.coreUnusable reason), op) := by
  constructor
  · rw [FileWriteOp.step, hu]
  · intro n
    rw [FileWriteOp.reportWritten, hu]

theorem fileWriteOp_dead {reason : Unusable} (hu : op.core.unusable = some reason) :
    FileWriteOpDead crc32c op := by
  obtain ⟨hstep, hreport⟩ := fileWriteOp_of_unusable hu
  refine ⟨?_, ?_, ?_⟩
  · rw [hstep]
    exact .inr ⟨reason, rfl⟩
  · intro n
    rw [hreport]
    exact .inr ⟨reason, rfl⟩
  · apply FileWriterLife.submit_of_retired
    intro hnone
    rw [(FileWriterCore.retired_eq_none.mp hnone).1] at hu
    cases hu

theorem fileWriteOp_dead_forever (h : op.core.unusable ≠ none) :
    Forever fileWriteOpCall (FileWriteOpDead crc32c) op := by
  refine forever_of_invariant (I := fun op => op.core.unusable ≠ none) ?_ ?_ h
  · intro op a hop
    obtain ⟨reason, hu⟩ := Option.ne_none_iff_exists'.mp hop
    obtain ⟨hstep, hreport⟩ := fileWriteOp_of_unusable hu
    cases a with
    | step =>
      show op.step.2.core.unusable ≠ none
      rw [hstep]
      exact hop
    | report n =>
      show (op.reportWritten n).2.core.unusable ≠ none
      rw [hreport]
      exact hop
    | sinkClosed => exact Option.some_ne_none _
  · intro op hop
    obtain ⟨reason, hu⟩ := Option.ne_none_iff_exists'.mp hop
    exact fileWriteOp_dead hu

/-- Once the item is announced as written, an over-long report changes nothing. -/
theorem fileWriteOp_over_report_iff {options : FileWriterOptions} {core : FileWriterCore}
    (hcore : FileWriterCore.withOptions options = .ok core) {actions : List FileWriterAction}
    {f : FileFlight} (hf : (FileWriterLife.run crc32c core actions).flight = some f) {n : ℕ}
    (hn : f.op.offered < n) :
    ((∃ e, (f.op.reportWritten n).1 = Exec.fail e) ∧
      Forever fileWriteOpCall (FileWriteOpDead crc32c) (f.op.reportWritten n).2) ↔
        (f.written = true → f.op.core.unusable ≠ none) := by
  obtain ⟨halign, hstart⟩ := FileWriterLife.consistent_withOptions hcore
  have hsound := ((FileWriterLife.sound_run halign hstart actions).flight f hf).2
  have hbefore := hsound.before_retired.1
  rcases hsound.phase with hrun | hcomplete | hspoiled
  · rcases FileWriteOp.reportWritten_cases (hrun.usable hbefore) hrun.healthy n with
      ⟨-, hle, -⟩ | ⟨-, hle, -⟩ | ⟨-, -, heq⟩ | ⟨-, hnone, -⟩ | ⟨hzero, -⟩
    · omega
    · omega
    · rw [heq]
      refine iff_of_true ⟨⟨_, rfl⟩, fileWriteOp_dead_forever (Option.some_ne_none _)⟩ ?_
      rw [hrun.written]
      exact nofun
    · exact absurd hnone hrun.pending
    · omega
  · have husable := hcomplete.usable hbefore
    rcases FileWriteOp.reportWritten_cases husable hcomplete.healthy n with
      ⟨-, hle, -⟩ | ⟨-, hle, -⟩ | ⟨-, hplan, -⟩ | ⟨-, -, heq⟩ | ⟨hzero, -⟩
    · omega
    · omega
    · exact absurd hcomplete.last hplan
    · rw [heq]
      refine iff_of_false ?_ ?_
      · intro h
        have hnow : TerminalFault f.op.step.1 := (h.2 []).1
        rw [FileWriteOp.step_eq_stepLoop husable hcomplete.healthy,
          FileWriteOp.stepLoop_of_none hcomplete.last] at hnow
        rcases hnow with hnow | ⟨reason, hnow⟩
        · cases hnow
        · cases hnow
      · intro h
        exact h hcomplete.written husable
    · omega
  · obtain ⟨reason, hu⟩ := Option.ne_none_iff_exists'.mp hspoiled.unusable
    rw [(fileWriteOp_of_unusable hu).2 n]
    exact iff_of_true ⟨⟨_, rfl⟩, fileWriteOp_dead_forever hspoiled.unusable⟩
      fun _ => hspoiled.unusable

end FileWriteOp

/-- A report of more than is on offer retires the machine for good: the reader unless it has a
tensor to take or is at the end of its input, an operation of the stream writer always, and an
operation of the file writer unless its item was announced as written. -/
theorem over_report_retires_iff (n : ℕ) :
    (∀ (A : Type) [DestinationAlloc A] (c : StreamReaderCore A), c.remaining < n →
      (((∃ e, (c.reportFilled n).1 = Exec.fail e) ∧
        Forever readerCall ReaderDead (c.reportFilled n).2) ↔
          c.state ≠ .tensorReady ∧ c.state ≠ .finished)) ∧
    (∀ (core : StreamWriterCore) (actions : List WriterAction) (f : Flight),
      (WriterLife.run core actions).flight = some f → f.op.remaining < n →
      (∃ e, (f.op.reportWritten n).1 = Exec.fail e) ∧
        Forever writeOpCall WriteOpDead (f.op.reportWritten n).2) ∧
    (∀ (crc32c : Bytes → UInt32) (options : FileWriterOptions) (core : FileWriterCore)
      (actions : List FileWriterAction) (f : FileFlight),
      FileWriterCore.withOptions options = .ok core →
      (FileWriterLife.run crc32c core actions).flight = some f → f.op.offered < n →
      (((∃ e, (f.op.reportWritten n).1 = Exec.fail e) ∧
        Forever fileWriteOpCall (FileWriteOpDead crc32c) (f.op.reportWritten n).2) ↔
          (f.written = true → f.op.core.unusable ≠ none))) := by
  refine ⟨?_, ?_, ?_⟩
  · intro A _ c hn
    exact reader_over_report_iff hn
  · intro core actions f hf hn
    exact writeOp_over_report hf hn
  · intro crc32c options core actions f hcore hf hn
    exact fileWriteOp_over_report_iff hcore hf hn

/-- A header of which 65 bytes are reported before any was written. -/
theorem over_report_retires_header : ∃ f,
    (FileWriterLife.run (fun _ => 0) .new [.submit .header]).flight = some f ∧
      f.op.offered < 65 ∧ (∃ e, (f.op.reportWritten 65).1 = Exec.fail e) ∧
      Forever fileWriteOpCall (FileWriteOpDead fun _ => 0) (f.op.reportWritten 65).2 := by
  have hstate : (FileWriterLife.run (fun _ => 0) .new [.submit .header]).flight.map
      (fun f => (f.written, f.op.offered)) = some (false, 64) := by decide +kernel
  obtain ⟨f, hf, hstate⟩ := Option.map_eq_some_iff.mp hstate
  obtain ⟨hwritten, hoffered⟩ := Prod.mk.inj hstate
  have hlt : f.op.offered < 65 := by rw [hoffered]; decide
  refine ⟨f, hf, hlt,
    ((over_report_retires_iff 65).2.2 (fun _ => 0) .default .new _ f rfl hf hlt).mpr ?_⟩
  rw [hwritten]
  exact nofun

/-- A header is written, one byte too many is reported, and the core goes on: an unknown byte is
on the sink, and the file is no longer what its index says. So does a reader at the end of its
input. -/
theorem over_report_after_item :
    (∃ f, (FileWriterLife.run (fun _ => 0) .new
        [.submit .header, .step, .report 64, .step]).flight = some f ∧ f.op.offered < 1 ∧
      ¬ Forever fileWriteOpCall (FileWriteOpDead fun _ => 0) (f.op.reportWritten 1).2) ∧
    ∃ c : StreamReaderCore SystemDestinations,
      c = ((StreamReaderCore.withDestinations .default ⟨⟩).reportFilled 0).2 ∧ c.remaining < 1 ∧
      ¬ Forever readerCall ReaderDead (c.reportFilled 1).2 := by
  constructor
  · have hstate : (FileWriterLife.run (fun _ => 0) .new
        [.submit .header, .step, .report 64, .step]).flight.map
          (fun f => (f.op.offered, (f.op.reportWritten 1).2.step.1)) =
            some (0, .ok .itemWritten) := by decide +kernel
    obtain ⟨f, hf, hstate⟩ := Option.map_eq_some_iff.mp hstate
    obtain ⟨hoffered, hstep⟩ := Prod.mk.inj hstate
    refine ⟨f, hf, by rw [hoffered]; decide, ?_⟩
    intro hdead
    have hnow : TerminalFault (f.op.reportWritten 1).2.step.1 := (hdead []).1
    rw [hstep] at hnow
    rcases hnow with hnow | ⟨reason, hnow⟩
    · cases hnow
    · cases hnow
  · refine ⟨_, rfl, by decide, ?_⟩
    exact not_dead_of_step (StreamReaderCore.step_finished rfl)

end Hurray.File
