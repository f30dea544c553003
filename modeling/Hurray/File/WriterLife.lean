import Hurray.File.Submission

/-!
One writer core of a file over its whole life. Items are submitted, driven by any
calls in any order and dropped at any point; the bytes that were reported are
recorded beside the core. While the core takes items, the bytes reported are whole
items, and the index says where they are.
-/
namespace Hurray.File
open Hurray.Base Hurray.Core Hurray.Descriptor Hurray.Stream

/-- An operation in flight, with the item and the core it was submitted to, what it was at
first, the bytes reported for it, whether a call on it failed, and whether it said that the
item is written. -/
structure FileFlight where
  item : FileSubmission
  before : FileWriterCore
  first : FileWriteOp
  op : FileWriteOp
  sent : Bytes
  failure : Bool
  written : Bool

/-- An operation that was dropped, and the core it left behind. -/
structure FileAttempt where
  item : FileSubmission
  before : FileWriterCore
  after : FileWriterCore
  image : Bytes
  sent : Bytes
  failure : Bool
  written : Bool

inductive FileWriterAction where
  | submit (item : FileSubmission)
  | poison (reason : Unusable)
  | step
  | report (n : ℕ)
  | sinkClosed
  | drop

namespace FileFlight

def step (f : FileFlight) : FileFlight :=
  match f.op.step with
  | (.ok .itemWritten, op) => { f with op, written := true }
  | (_, op) => { f with op }

/-- A report of no bytes is not a failure, although it is answered with an error. -/
def report (f : FileFlight) (n : ℕ) : FileFlight :=
  match f.op.reportWritten n with
  | (.ok _, op) => { f with op, sent := f.sent ++ f.op.outputSrc.take n }
  | (.error _, op) => { f with op, failure := f.failure || decide (0 < n) }

def sinkClosed (f : FileFlight) : FileFlight :=
  { f with op := f.op.reportSinkClosed.2, failure := true }

def attempt (f : FileFlight) : FileAttempt :=
  ⟨f.item, f.before, f.op.core, f.first.image, f.sent, f.failure, f.written⟩

end FileFlight

/-- The operation borrows the core, so that `core` is only current with no operation in flight. -/
structure FileWriterLife where
  core : FileWriterCore
  flight : Option FileFlight
  past : List FileAttempt

namespace FileWriterLife

def start (core : FileWriterCore) : FileWriterLife := ⟨core, none, []⟩

def submit (crc32c : Bytes → UInt32) (s : FileWriterLife) (item : FileSubmission) :
    FileWriterLife :=
  match s.core.submit crc32c item with
  | .ok op => { s with flight := some ⟨item, s.core, op, op, [], false, false⟩ }
  | .error _ => s

def drop (s : FileWriterLife) (f : FileFlight) : FileWriterLife :=
  { core := f.op.core, flight := none, past := s.past ++ [f.attempt] }

/-- One action. What the borrow of the core rules out changes nothing, and an operation that
panics is dropped. -/
def act (crc32c : Bytes → UInt32) (s : FileWriterLife) (a : FileWriterAction) : FileWriterLife :=
  match s.flight, a with
  | none, .submit item => s.submit crc32c item
  | none, .poison reason => { s with core := s.core.poison reason }
  | none, _ => s
  | some f, .step => { s with flight := some f.step }
  | some f, .report n =>
      if (f.op.reportWritten n).1 = Exec.panic then s.drop (f.report n)
      else { s with flight := some (f.report n) }
  | some f, .sinkClosed => { s with flight := some f.sinkClosed }
  | some f, .drop => s.drop f
  | some _, .submit _ => s
  | some _, .poison _ => s

def run (crc32c : Bytes → UInt32) (core : FileWriterCore) (actions : List FileWriterAction) :
    FileWriterLife :=
  actions.foldl (act crc32c) (start core)

/-- The bytes reported for the items of the past. -/
def reported (s : FileWriterLife) : Bytes := s.past.flatMap FileAttempt.sent

/-- The operations of the past that said that their item is written. -/
def written (s : FileWriterLife) : List FileAttempt := s.past.filter FileAttempt.written

end FileWriterLife

/-! ### An operation in flight -/

namespace FileWriterCore

/-- The core at another offset, with an item begun or not. -/
def movedTo (core : FileWriterCore) (offset : UInt64) (torn : Bool) : FileWriterCore :=
  { core with offset, torn }

end FileWriterCore

namespace FileFlight

/-- A part of the item is out. -/
structure Running (f : FileFlight) : Prop where
  core : ∃ offset : UInt64, offset.toNat = f.before.offset.toNat + f.sent.length ∧
    f.op.core = f.before.movedTo offset (decide (f.sent ≠ []))
  commit : f.op.commit = f.first.commit
  healthy : f.op.failed = false
  emitted : f.op.emittedBytes = f.sent.length
  image : f.first.image = f.sent ++ f.op.left
  written : f.written = false
  pending : f.op.plan[f.op.cursor]? ≠ none

/-- The item is out and the core knows it. -/
structure Complete (f : FileFlight) : Prop where
  core : ∃ (offset : UInt64) (commit : Commit),
    offset.toNat = f.before.offset.toNat + f.sent.length ∧ f.first.commit = some commit ∧
      f.op.core = commit.apply (f.before.movedTo offset false)
  commit : f.op.commit = none
  healthy : f.op.failed = false
  last : f.op.plan[f.op.cursor]? = none
  image : f.first.image = f.sent
  written : f.written = true

/-- The operation leaves the core retired, whatever is done with it. -/
structure Spoiled (f : FileFlight) : Prop where
  unusable : f.op.core.unusable ≠ none
  failure : f.failure = true

structure Sound (crc32c : Bytes → UInt32) (f : FileFlight) : Prop where
  accepted : f.before.submit crc32c f.item = .ok f.first
  alignment : f.before.alignment ≠ 0
  phase : f.Running ∨ f.Complete ∨ f.Spoiled

variable {f : FileFlight} {crc32c : Bytes → UInt32} {n : ℕ}

theorem Sound.before_retired (h : f.Sound crc32c) :
    f.before.unusable = none ∧ f.before.torn = false :=
  FileWriterCore.retired_eq_none.mp (FileWriterCore.submit_eq_start h.alignment h.accepted).1

theorem Sound.image_ne_nil (h : f.Sound crc32c) : f.first.image ≠ [] := by
  obtain ⟨-, plan, bytes, payloads, commit, hbytes, hfirst⟩ :=
    FileWriterCore.submit_eq_start h.alignment h.accepted
  rw [hfirst, FileWriteOp.image]
  show bytes ++ _ ≠ []
  exact List.append_ne_nil_of_left_ne_nil hbytes _

theorem sound_submit {core : FileWriterCore} {item : FileSubmission} {op : FileWriteOp}
    (halign : core.alignment ≠ 0) (h : core.submit crc32c item = .ok op) :
    (⟨item, core, op, op, [], false, false⟩ : FileFlight).Sound crc32c := by
  obtain ⟨hretired, plan, bytes, payloads, commit, hbytes, rfl⟩ :=
    FileWriterCore.submit_eq_start halign h
  refine ⟨h, halign, .inl ⟨⟨core.offset, rfl, ?_⟩, rfl, rfl, rfl, ?_, rfl, nofun⟩⟩
  · have htorn := (FileWriterCore.retired_eq_none.mp hretired).2
    show core = core.movedTo core.offset false
    rw [FileWriterCore.movedTo, ← htorn]
  · exact (FileWriteOp.left_start rfl rfl).symm

theorem Running.usable (h : f.Running) (hbefore : f.before.unusable = none) :
    f.op.core.unusable = none := by
  obtain ⟨offset, -, hcore⟩ := h.core
  rw [hcore]
  exact hbefore

theorem Complete.usable (h : f.Complete) (hbefore : f.before.unusable = none) :
    f.op.core.unusable = none := by
  obtain ⟨offset, commit, -, -, hcore⟩ := h.core
  rw [hcore]
  cases commit <;> exact hbefore

theorem Running.step (h : f.Running) (hfirst : f.first.commit ≠ none)
    (hbefore : f.before.unusable = none) : f.step.Running ∨ f.step.Complete := by
  obtain ⟨offset, hoffset, hcore⟩ := h.core
  obtain ⟨commit, hcommit⟩ := Option.ne_none_iff_exists'.mp hfirst
  have himage := h.image
  obtain ⟨cursor, written, hleft, hstep⟩ := FileWriteOp.stepLoop_spec f.op
  rw [← FileWriteOp.step_eq_stepLoop (h.usable hbefore) h.healthy] at hstep
  rw [← hleft] at himage
  unfold FileFlight.step
  rcases hstep with ⟨hnone, hstep⟩ | ⟨hpos, hstep⟩
  · right
    rw [hstep]
    refine ⟨⟨offset, commit, hoffset, hcommit, ?_⟩, rfl, h.healthy, hnone, ?_, rfl⟩
    · show f.op.commit.elim { f.op.core with torn := false }
        (Commit.apply { f.op.core with torn := false }) = _
      rw [h.commit, hcommit, hcore]
      rfl
    · rw [FileWriteOp.left_of_none hnone, List.append_nil] at himage
      exact himage
  · left
    rw [hstep]
    refine ⟨⟨offset, hoffset, hcore⟩, h.commit, h.healthy, h.emitted, himage, h.written, ?_⟩
    intro hnone
    rw [FileWriteOp.offered_of_none hnone] at hpos
    exact Nat.lt_irrefl 0 hpos

theorem Complete.step (h : f.Complete) (hbefore : f.before.unusable = none) :
    f.step.Complete := by
  obtain ⟨offset, commit, hoffset, hcommit, hcore⟩ := h.core
  unfold FileFlight.step
  rw [FileWriteOp.step_eq_stepLoop (h.usable hbefore) h.healthy,
    FileWriteOp.stepLoop_of_none h.last]
  refine ⟨⟨offset, commit, hoffset, hcommit, ?_⟩, rfl, h.healthy, h.last, h.image, rfl⟩
  show f.op.commit.elim { f.op.core with torn := false }
    (Commit.apply { f.op.core with torn := false }) = _
  rw [h.commit, hcore]
  cases commit <;> rfl

theorem Spoiled.step (h : f.Spoiled) : f.step.Spoiled := by
  obtain ⟨reason, hreason⟩ := Option.ne_none_iff_exists'.mp h.unusable
  unfold FileFlight.step FileWriteOp.step
  rw [hreason]
  exact h

theorem Sound.step (h : f.Sound crc32c) : f.step.Sound crc32c := by
  have hsame : f.step.before = f.before ∧ f.step.item = f.item ∧ f.step.first = f.first := by
    unfold FileFlight.step
    split <;> exact ⟨rfl, rfl, rfl⟩
  have hbefore := h.before_retired.1
  obtain ⟨-, plan, bytes, payloads, commit, -, hfirst⟩ :=
    FileWriterCore.submit_eq_start h.alignment h.accepted
  have hcommit : f.first.commit ≠ none := by
    rw [hfirst]
    exact Option.some_ne_none commit
  refine ⟨?_, ?_, ?_⟩
  · rw [hsame.1, hsame.2.1, hsame.2.2]
    exact h.accepted
  · rw [hsame.1]
    exact h.alignment
  · rcases h.phase with hrun | hcomplete | hspoiled
    · rcases hrun.step hcommit hbefore with hrun | hcomplete
      · exact .inl hrun
      · exact .inr (.inl hcomplete)
    · exact .inr (.inl (hcomplete.step hbefore))
    · exact .inr (.inr hspoiled.step)

/-- A report that does not panic takes bytes, loses a count, or changes nothing. -/
theorem Running.report (h : f.Running) (hbefore : f.before.unusable = none)
    (hpanic : (f.op.reportWritten n).1 ≠ Exec.panic) :
    (f.report n).Running ∨ (f.report n).Spoiled := by
  obtain ⟨offset, hoffset, hcore⟩ := h.core
  unfold FileFlight.report
  rcases FileWriteOp.reportWritten_cases (h.usable hbefore) h.healthy n with
    ⟨hn, hle, next, hnext, heq⟩ | ⟨-, -, heq⟩ | ⟨hlt, -, heq⟩ | ⟨hlt, -, heq⟩ | ⟨hzero, heq⟩
  · left
    rw [heq]
    have hlen : (f.op.outputSrc.take n).length = n := by
      rw [List.length_take, FileWriteOp.length_outputSrc, Nat.min_eq_left hle]
    have hsent : f.sent ++ f.op.outputSrc.take n ≠ [] := by
      apply List.ne_nil_of_length_pos
      rw [List.length_append]
      omega
    refine ⟨⟨next, ?_, ?_⟩, h.commit, h.healthy, ?_, ?_, h.written, h.pending⟩
    · show next.toNat = f.before.offset.toNat + (f.sent ++ f.op.outputSrc.take n).length
      rw [hnext, hcore, List.length_append, hlen]
      show offset.toNat + n = _
      omega
    · show { f.op.core with
        offset := next, torn := f.op.core.torn || decide (f.op.emittedBytes = 0) } =
          f.before.movedTo next (decide (f.sent ++ f.op.outputSrc.take n ≠ []))
      have htorn : (f.op.core.torn || decide (f.op.emittedBytes = 0)) = true := by
        rw [hcore, h.emitted]
        show (decide (f.sent ≠ []) || decide (f.sent.length = 0)) = true
        cases f.sent <;> simp
      rw [htorn, hcore, decide_eq_true hsent]
      rfl
    · show f.op.emittedBytes + n = (f.sent ++ f.op.outputSrc.take n).length
      rw [h.emitted, List.length_append, hlen]
    · rw [h.image, FileWriteOp.left_eq_of_accepted hle next, List.append_assoc]
  · rw [heq] at hpanic
    exact absurd rfl hpanic
  · right
    rw [heq]
    exact ⟨Option.some_ne_none _, by simp [Exec.fail, Nat.zero_lt_of_lt hlt]⟩
  · left
    rw [heq]
    exact ⟨h.core, h.commit, h.healthy, h.emitted, h.image, h.written, h.pending⟩
  · left
    rw [heq]
    exact ⟨h.core, h.commit, h.healthy, h.emitted, h.image, h.written, h.pending⟩

theorem Complete.report (h : f.Complete) (hbefore : f.before.unusable = none) :
    (f.report n).Complete ∧ (f.op.reportWritten n).1 ≠ Exec.panic := by
  have hzero := FileWriteOp.offered_of_none h.last
  unfold FileFlight.report
  rcases FileWriteOp.reportWritten_cases (h.usable hbefore) h.healthy n with
    ⟨hn, hle, -⟩ | ⟨hn, hle, -⟩ | ⟨-, hplan, -⟩ | ⟨-, -, heq⟩ | ⟨-, heq⟩
  · omega
  · omega
  · exact absurd h.last hplan
  all_goals
    rw [heq]
    exact ⟨⟨h.core, h.commit, h.healthy, h.last, h.image, h.written⟩, Exec.fail_ne_panic⟩

theorem Spoiled.report (h : f.Spoiled) :
    (f.report n).Spoiled ∧ (f.op.reportWritten n).1 ≠ Exec.panic := by
  obtain ⟨reason, hreason⟩ := Option.ne_none_iff_exists'.mp h.unusable
  have heq : f.op.reportWritten n = (Exec.fail (.coreUnusable reason), f.op) := by
    unfold FileWriteOp.reportWritten
    rw [hreason]
  unfold FileFlight.report
  rw [heq]
  exact ⟨⟨h.unusable, by simp [Exec.fail, h.failure]⟩, Exec.fail_ne_panic⟩

theorem report_same : (f.report n).before = f.before ∧ (f.report n).item = f.item ∧
    (f.report n).first = f.first := by
  unfold FileFlight.report
  split <;> exact ⟨rfl, rfl, rfl⟩

theorem Sound.report (h : f.Sound crc32c) (hpanic : (f.op.reportWritten n).1 ≠ Exec.panic) :
    (f.report n).Sound crc32c := by
  obtain ⟨hbefore, hitem, hfirst⟩ := report_same (f := f) (n := n)
  have husable := h.before_retired.1
  refine ⟨?_, ?_, ?_⟩
  · rw [hbefore, hitem, hfirst]
    exact h.accepted
  · rw [hbefore]
    exact h.alignment
  · rcases h.phase with hrun | hcomplete | hspoiled
    · rcases hrun.report husable hpanic with hrun | hspoiled
      · exact .inl hrun
      · exact .inr (.inr hspoiled)
    · exact .inr (.inl (hcomplete.report husable).1)
    · exact .inr (.inr hspoiled.report.1)

theorem Sound.sinkClosed (h : f.Sound crc32c) : f.sinkClosed.Sound crc32c :=
  ⟨h.accepted, h.alignment, .inr (.inr ⟨Option.some_ne_none _, rfl⟩)⟩

/-- An operation that panics has torn its core. -/
theorem Sound.torn_of_panic (h : f.Sound crc32c) (hpanic : (f.op.reportWritten n).1 = Exec.panic) :
    (f.report n).op.core.torn = true ∧ (f.report n).failure = true := by
  have husable := h.before_retired.1
  rcases h.phase with hrun | hcomplete | hspoiled
  · obtain ⟨offset, hoffset, hcore⟩ := hrun.core
    unfold FileFlight.report
    rcases FileWriteOp.reportWritten_cases (hrun.usable husable) hrun.healthy n with
      ⟨-, -, next, -, heq⟩ | ⟨hn, -, heq⟩ | ⟨-, -, heq⟩ | ⟨-, -, heq⟩ | ⟨-, heq⟩
    · rw [heq] at hpanic
      cases hpanic
    · rw [heq]
      refine ⟨?_, by simp [Exec.panic, hn]⟩
      show (f.op.core.torn || decide (f.op.emittedBytes = 0)) = true
      rw [hcore, hrun.emitted]
      show (decide (f.sent ≠ []) || decide (f.sent.length = 0)) = true
      cases f.sent <;> simp
    all_goals
      rw [heq] at hpanic
      exact absurd hpanic Exec.fail_ne_panic
  · exact absurd hpanic (hcomplete.report husable).2
  · exact absurd hpanic hspoiled.report.2

end FileFlight

/-! ### The life of a core -/

/-- The core agrees with the bytes on the sink: each item is out as a whole or not at all, the
header comes first, and each entry says where its tensor is. -/
structure Consistent (core : FileWriterCore) (past : List FileAttempt) : Prop where
  offset : core.offset.toNat = (past.flatMap FileAttempt.sent).length
  whole : ∀ p ∈ past, p.sent = if p.written then p.image else []
  items : (past.filter FileAttempt.written = [] ∧ core.headerWritten = false ∧ core.entries = []) ∨
    (core.headerWritten = true ∧ ∃ header tensors,
      past.filter FileAttempt.written = header :: tensors ∧ header.item = .header ∧
      header.image = core.encodeHeader ∧
      List.Forall₂ (fun e (p : FileAttempt) => ∃ t : FileTensor,
        p.item = .tensor t.name t.descriptor t.buffers ∧
          EntryAt (past.flatMap FileAttempt.sent) core.alignment.toNat t e) core.entries tensors)
  names : ∀ name, name ∈ core.seenNames ↔ name ∈ core.entries.map IndexEntry.name

/-- The bytes on the sink are the items that were written. -/
theorem Consistent.reported {core : FileWriterCore} {past : List FileAttempt}
    (h : Consistent core past) : past.flatMap FileAttempt.sent =
      (past.filter FileAttempt.written).flatMap FileAttempt.image := by
  have hwhole := h.whole
  clear h
  induction past with
  | nil => rfl
  | cons p past ih =>
    rw [List.forall_mem_cons] at hwhole
    rw [List.flatMap_cons, hwhole.1, ih hwhole.2]
    cases hp : p.written with
    | true => rw [List.filter_cons_of_pos hp, List.flatMap_cons, if_pos rfl]
    | false => rw [List.filter_cons_of_neg (by simp [hp]), if_neg Bool.false_ne_true, List.nil_append]

theorem consistent_start {core : FileWriterCore} (hoffset : core.offset = 0)
    (hheader : core.headerWritten = false) (hentries : core.entries = [])
    (hnames : core.seenNames = []) : Consistent core [] := by
  refine ⟨by rw [hoffset]; rfl, ?_, .inl ⟨rfl, hheader, hentries⟩, ?_⟩
  · intro p hp
    cases hp
  · intro name
    rw [hnames, hentries]
    rfl

section Snoc
variable {past : List FileAttempt} {p : FileAttempt}

theorem sent_snoc :
    (past ++ [p]).flatMap FileAttempt.sent = past.flatMap FileAttempt.sent ++ p.sent := by
  rw [List.flatMap_append, List.flatMap_singleton]

theorem written_snoc : (past ++ [p]).filter FileAttempt.written =
    past.filter FileAttempt.written ++ if p.written then [p] else [] := by
  rw [List.filter_append, List.filter_singleton, cond_eq_ite]

theorem whole_snoc (h : ∀ q ∈ past, q.sent = if q.written then q.image else [])
    (hp : p.sent = if p.written then p.image else []) :
    ∀ q ∈ past ++ [p], q.sent = if q.written then q.image else [] := by
  intro q hq
  rcases List.mem_append.mp hq with hq | hq
  · exact h q hq
  · obtain rfl := List.mem_singleton.mp hq
    exact hp

/-- An item of which nothing was reported leaves no trace. -/
theorem Consistent.untouched {core : FileWriterCore} (h : Consistent core past)
    (hsent : p.sent = []) (hwritten : p.written = false) : Consistent core (past ++ [p]) := by
  have hbytes : (past ++ [p]).flatMap FileAttempt.sent = past.flatMap FileAttempt.sent := by
    rw [sent_snoc, hsent, List.append_nil]
  have hfilter : (past ++ [p]).filter FileAttempt.written = past.filter FileAttempt.written := by
    rw [written_snoc, hwritten, if_neg Bool.false_ne_true, List.append_nil]
  refine ⟨?_, whole_snoc h.whole ?_, ?_, h.names⟩
  · rw [hbytes]
    exact h.offset
  · rw [hsent, hwritten]
    rfl
  · rw [hbytes, hfilter]
    exact h.items

end Snoc

namespace FileFlight
variable {f : FileFlight} {crc32c : Bytes → UInt32} {past : List FileAttempt}

/-- The core after an item that is out as a whole. -/
theorem Complete.consistent (h : f.Complete) (hsound : f.Sound crc32c)
    (hbefore : Consistent f.before past) (hfinished : f.op.core.finished = false) :
    Consistent f.op.core (past ++ [f.attempt]) := by
  obtain ⟨offset, commit, hoffset, hcommit, hcore⟩ := h.core
  have hwritten : f.attempt.written = true := h.written
  have hsent : f.attempt.sent = f.first.image := h.image.symm
  have hbytes : (past ++ [f.attempt]).flatMap FileAttempt.sent =
      past.flatMap FileAttempt.sent ++ f.first.image := by rw [sent_snoc, hsent]
  have hfilter : (past ++ [f.attempt]).filter FileAttempt.written =
      past.filter FileAttempt.written ++ [f.attempt] := by rw [written_snoc, hwritten, if_pos rfl]
  have hwhole := whole_snoc (p := f.attempt) hbefore.whole (by rw [hwritten, if_pos rfl]; exact hsent)
  have hlength : offset.toNat = ((past ++ [f.attempt]).flatMap FileAttempt.sent).length := by
    rw [hoffset, hbefore.offset, hbytes, List.length_append, h.image]
  have haccepted := hsound.accepted
  cases hitem : f.item with
  | header =>
    rw [hitem] at haccepted
    obtain ⟨-, -, hheader, hfirst⟩ := FileWriterCore.header_eq_ok.mp haccepted
    rw [hfirst] at hcommit
    cases hcommit
    rcases hbefore.items with ⟨hnil, -, hentries⟩ | ⟨hheader', -⟩
    · rw [hcore]
      refine ⟨hlength, hwhole, .inr ⟨rfl, f.attempt, [], ?_, hitem, ?_, ?_⟩, hbefore.names⟩
      · rw [hfilter, hnil, List.nil_append]
      · show f.first.image = _
        rw [hfirst, FileWriterCore.image_start_owned]
        rfl
      · show List.Forall₂ _ f.before.entries []
        rw [hentries]
        exact .nil
    · rw [hheader] at hheader'
      cases hheader'
  | tensor name d buffers =>
    rw [hitem] at haccepted
    obtain ⟨hopen, -, -, encoded, henc, hfits, hfirst⟩ :=
      (FileWriterCore.tensor_eq_ok hsound.alignment).mp haccepted
    rw [hfirst] at hcommit
    cases hcommit
    have himage : f.first.image = (f.before.place encoded buffers).image := by
      rw [hfirst]
      exact FileWriterCore.image_start_plan (f.before.place encoded buffers) _
    rcases hbefore.items with ⟨-, hheader, -⟩ | ⟨hheader, header, tensors, hitems, hh, hi, hentries⟩
    · rw [hopen.headerWritten] at hheader
      cases hheader
    · rw [hcore]
      refine ⟨hlength, hwhole, .inr ⟨hheader, header, tensors ++ [f.attempt], ?_, hh, hi, ?_⟩, ?_⟩
      · rw [hfilter, hitems, List.cons_append]
      · show List.Forall₂ _ (f.before.entries ++ [(f.before.place encoded buffers).entry name]) _
        rw [hbytes]
        refine List.rel_append (hentries.imp ?_) (.cons ⟨⟨name, d, buffers⟩, hitem, ?_⟩ .nil)
        · intro e p hep
          obtain ⟨t, ht, hat⟩ := hep
          exact ⟨t, ht, hat.append⟩
        · have hoffset : (f.before.place encoded buffers).offset =
              (past.flatMap FileAttempt.sent).length := hbefore.offset
          apply entryAt_of_image henc hfits
          · exact ⟨[], by rw [himage, hoffset, List.drop_left, List.append_nil]⟩
          · exact hoffset.le.trans (List.prefix_append _ _).length_le
      · intro n
        show n ∈ name :: f.before.seenNames ↔
          n ∈ (f.before.entries ++ [(f.before.place encoded buffers).entry name]).map IndexEntry.name
        rw [List.mem_cons, hbefore.names, List.map_append, List.mem_append, or_comm]
        exact or_congr_right List.mem_singleton.symm
  | finish kv =>
    rw [hitem] at haccepted
    obtain ⟨-, -, footer, kvOffset, kvLength, indexOffset, -, -, hfirst⟩ :=
      FileWriterCore.finish_eq_ok.mp haccepted
    rw [hfirst] at hcommit
    cases hcommit
    rw [hcore] at hfinished
    cases hfinished

theorem Running.untouched (h : f.Running) (htorn : f.before.torn = false) (hsent : f.sent = []) :
    f.op.core = f.before := by
  obtain ⟨offset, hoffset, hcore⟩ := h.core
  rw [hsent] at hoffset hcore
  have heq : offset = f.before.offset := UInt64.toNat_inj.mp hoffset
  rw [hcore, heq]
  show f.before.movedTo f.before.offset false = f.before
  rw [FileWriterCore.movedTo, ← htorn]

/-- An operation that is dropped while nothing of it was reported and no call on it failed. -/
theorem Sound.untouched (h : f.Sound crc32c) (hsent : f.sent = []) (hfailure : f.failure = false) :
    f.op.core = f.before := by
  rcases h.phase with hrun | hcomplete | hspoiled
  · exact hrun.untouched h.before_retired.2 hsent
  · exact absurd (hcomplete.image.trans hsent) h.image_ne_nil
  · rw [hspoiled.failure] at hfailure
    cases hfailure

/-- What an operation leaves behind when it is dropped. -/
theorem Sound.consistent (h : f.Sound crc32c) (hbefore : Consistent f.before past)
    (hretired : f.op.core.retired = none) (hfinished : f.op.core.finished = false) :
    Consistent f.op.core (past ++ [f.attempt]) := by
  obtain ⟨hunusable, htorn⟩ := FileWriterCore.retired_eq_none.mp hretired
  rcases h.phase with hrun | hcomplete | hspoiled
  · obtain ⟨offset, hoffset, hcore⟩ := hrun.core
    have hsent : f.sent = [] := by
      rw [hcore] at htorn
      simpa [FileWriterCore.movedTo] using htorn
    rw [hrun.untouched h.before_retired.2 hsent]
    exact hbefore.untouched hsent hrun.written
  · exact hcomplete.consistent h hbefore hfinished
  · exact absurd hunusable hspoiled.unusable

/-- A dropped operation of which a part was reported leaves its core retired. -/
theorem Sound.retired_of_part (h : f.Sound crc32c) (hsent : f.sent ≠ [])
    (hpart : f.sent ≠ f.first.image) : f.op.core.retired ≠ none := by
  intro hretired
  obtain ⟨hunusable, htorn⟩ := FileWriterCore.retired_eq_none.mp hretired
  rcases h.phase with hrun | hcomplete | hspoiled
  · obtain ⟨offset, hoffset, hcore⟩ := hrun.core
    rw [hcore] at htorn
    exact hsent (by simpa [FileWriterCore.movedTo] using htorn)
  · exact hpart hcomplete.image.symm
  · exact hspoiled.unusable hunusable

end FileFlight

namespace FileWriterLife
variable {s : FileWriterLife} {f : FileFlight} {crc32c : Bytes → UInt32}

/-- What holds of a core at every moment of its life. -/
structure Sound (crc32c : Bytes → UInt32) (s : FileWriterLife) : Prop where
  alignment : s.core.retired = none → s.core.alignment ≠ 0
  consistent : s.core.retired = none → s.core.finished = false → Consistent s.core s.past
  part : s.core.retired = none → ∀ p ∈ s.past, p.sent ≠ [] → p.sent = p.image
  untouched : ∀ p ∈ s.past, p.sent = [] → p.failure = false → p.after = p.before
  flight : ∀ f, s.flight = some f → f.before = s.core ∧ f.Sound crc32c

theorem sound_start {core : FileWriterCore} (halign : core.alignment ≠ 0)
    (h : Consistent core []) : (start core).Sound crc32c :=
  ⟨fun _ => halign, fun _ _ => h, fun _ _ hp => absurd hp List.not_mem_nil,
    fun _ hp => absurd hp List.not_mem_nil, fun _ hf => by cases hf⟩

theorem retired_of_submit {core : FileWriterCore} {item : FileSubmission} {op : FileWriteOp}
    (h : core.submit crc32c item = .ok op) : core.retired = none := by
  have hcheck : ∃ u, core.checkRetired = .ok u := by
    cases item with
    | header =>
      obtain ⟨u, hu, -⟩ := Exec.bind_eq_ok.mp h
      exact ⟨u, hu⟩
    | tensor name d buffers =>
      obtain ⟨u, hu, -⟩ := Exec.bind_eq_ok.mp h
      exact ⟨u, hu⟩
    | finish kv =>
      obtain ⟨u, hu, -⟩ := Exec.bind_eq_ok.mp h
      exact ⟨u, hu⟩
  obtain ⟨u, hu⟩ := hcheck
  exact FileWriterCore.checkRetired_eq_ok.mp hu

theorem not_finished_of_submit {core : FileWriterCore} {item : FileSubmission} {op : FileWriteOp}
    (halign : core.alignment ≠ 0) (h : core.submit crc32c item = .ok op) :
    core.finished = false := by
  cases item with
  | header => exact (FileWriterCore.header_eq_ok.mp h).2.1
  | tensor name d buffers => exact ((FileWriterCore.tensor_eq_ok halign).mp h).1.finished
  | finish kv => exact (FileWriterCore.finish_eq_ok.mp h).1.finished

theorem Sound.submit (h : s.Sound crc32c) (item : FileSubmission) :
    (s.submit crc32c item).Sound crc32c := by
  unfold FileWriterLife.submit
  split
  · next op hop =>
    refine ⟨h.alignment, h.consistent, h.part, h.untouched, ?_⟩
    intro f hf
    cases hf
    exact ⟨rfl, FileFlight.sound_submit (h.alignment (retired_of_submit hop)) hop⟩
  · exact h

theorem Sound.poison (h : s.Sound crc32c) (reason : Unusable) :
    (⟨s.core.poison reason, none, s.past⟩ : FileWriterLife).Sound crc32c := by
  have hretired : (s.core.poison reason).retired ≠ none := Option.some_ne_none reason
  exact ⟨fun hnone => absurd hnone hretired, fun hnone => absurd hnone hretired,
    fun hnone => absurd hnone hretired, h.untouched, fun f hf => by cases hf⟩

theorem Sound.goOn {g : FileFlight} (h : s.Sound crc32c) (hf : s.flight = some f)
    (hbefore : g.before = f.before) (hg : g.Sound crc32c) :
    ({ s with flight := some g } : FileWriterLife).Sound crc32c := by
  refine ⟨h.alignment, h.consistent, h.part, h.untouched, ?_⟩
  intro g' hg'
  cases hg'
  exact ⟨hbefore.trans (h.flight f hf).1, hg⟩

/-- The untouched operations, after one more was dropped. -/
theorem untouched_snoc (h : ∀ p ∈ s.past, p.sent = [] → p.failure = false → p.after = p.before)
    (hf : f.sent = [] → f.failure = false → f.op.core = f.before) :
    ∀ p ∈ s.past ++ [f.attempt], p.sent = [] → p.failure = false → p.after = p.before := by
  intro p hp
  rcases List.mem_append.mp hp with hp | hp
  · exact h p hp
  · obtain rfl := List.mem_singleton.mp hp
    exact hf

theorem Sound.drop (h : s.Sound crc32c) (hf : s.flight = some f) : (s.drop f).Sound crc32c := by
  obtain ⟨hbefore, hsound⟩ := h.flight f hf
  have hretired : s.core.retired = none := by
    rw [← hbefore]
    exact retired_of_submit hsound.accepted
  have hfinished : s.core.finished = false := by
    rw [← hbefore]
    exact not_finished_of_submit hsound.alignment hsound.accepted
  have hconsistent := h.consistent hretired hfinished
  rw [← hbefore] at hconsistent
  refine ⟨?_, fun hnone => hsound.consistent hconsistent hnone, ?_,
    untouched_snoc h.untouched hsound.untouched, fun g hg => by cases hg⟩
  · intro hnone
    obtain ⟨hunusable, -⟩ := FileWriterCore.retired_eq_none.mp hnone
    rcases hsound.phase with hrun | hcomplete | hspoiled
    · obtain ⟨offset, -, hcore⟩ := hrun.core
      show f.op.core.alignment ≠ 0
      rw [hcore]
      exact hsound.alignment
    · obtain ⟨offset, commit, -, -, hcore⟩ := hcomplete.core
      show f.op.core.alignment ≠ 0
      rw [hcore]
      cases commit <;> exact hsound.alignment
    · exact absurd hunusable hspoiled.unusable
  · intro hnone p hp hsent
    rcases List.mem_append.mp hp with hp | hp
    · exact h.part hretired p hp hsent
    · obtain rfl := List.mem_singleton.mp hp
      by_contra hpart
      exact hsound.retired_of_part hsent hpart hnone

/-- An operation that panics is dropped, and its core is retired. -/
theorem Sound.dropPanicked (h : s.Sound crc32c) (hf : s.flight = some f) {n : ℕ}
    (hpanic : (f.op.reportWritten n).1 = Exec.panic) : (s.drop (f.report n)).Sound crc32c := by
  obtain ⟨htorn, hfailure⟩ := (h.flight f hf).2.torn_of_panic hpanic
  have hretired : (s.drop (f.report n)).core.retired ≠ none := by
    intro hnone
    have hnot := (FileWriterCore.retired_eq_none.mp hnone).2
    rw [show (s.drop (f.report n)).core.torn = true from htorn] at hnot
    cases hnot
  refine ⟨fun hnone => absurd hnone hretired, fun hnone => absurd hnone hretired,
    fun hnone => absurd hnone hretired, untouched_snoc h.untouched ?_, fun g hg => by cases hg⟩
  intro _ hno
  rw [hfailure] at hno
  cases hno

theorem Sound.act (h : s.Sound crc32c) (a : FileWriterAction) : (s.act crc32c a).Sound crc32c := by
  unfold FileWriterLife.act
  cases hf : s.flight with
  | none =>
    cases a with
    | submit item => exact h.submit item
    | poison reason => exact h.poison reason
    | _ => exact h
  | some f =>
    have hsound := (h.flight f hf).2
    cases a with
    | submit item => exact h
    | poison reason => exact h
    | step =>
      refine h.goOn hf ?_ hsound.step
      unfold FileFlight.step
      split <;> rfl
    | report n =>
      show (if (f.op.reportWritten n).1 = Exec.panic then s.drop (f.report n)
        else { s with flight := some (f.report n) }).Sound crc32c
      split
      · next hpanic => exact h.dropPanicked hf hpanic
      · next hpanic => exact h.goOn hf FileFlight.report_same.1 (hsound.report hpanic)
    | sinkClosed => exact h.goOn hf rfl hsound.sinkClosed
    | drop => exact h.drop hf

theorem sound_run {core : FileWriterCore} (halign : core.alignment ≠ 0) (h : Consistent core [])
    (actions : List FileWriterAction) : (run crc32c core actions).Sound crc32c := by
  unfold run
  refine List.foldlRecOn actions (act crc32c) (sound_start halign h) ?_
  intro s hs a _
  exact hs.act a

/-! ### An operation that comes to nothing -/

/-- The call is made on an operation, and does not end it. -/
def OnOperation : FileWriterAction → Prop
  | .step => True
  | .report _ => True
  | .sinkClosed => True
  | .submit _ => False
  | .poison _ => False
  | .drop => False

/-- An operation from its submission to its end. -/
def attempted (item : FileSubmission) (calls : List FileWriterAction) : List FileWriterAction :=
  .submit item :: calls ++ [.drop]

/-- Two lives that differ at most in operations that left nothing behind. -/
structure Same (s t : FileWriterLife) : Prop where
  core : s.core = t.core
  flight : s.flight = t.flight
  reported : s.reported = t.reported
  written : s.written = t.written

theorem Same.drop {t : FileWriterLife} (h : s.Same t) (f : FileFlight) :
    (s.drop f).Same (t.drop f) := by
  refine ⟨rfl, rfl, ?_, ?_⟩
  · exact sent_snoc.trans ((congrArg (· ++ f.attempt.sent) h.reported).trans sent_snoc.symm)
  · exact written_snoc.trans ((congrArg
      (· ++ if f.attempt.written then [f.attempt] else []) h.written).trans written_snoc.symm)

theorem Same.act {t : FileWriterLife} (h : s.Same t) (a : FileWriterAction) :
    (s.act crc32c a).Same (t.act crc32c a) := by
  unfold FileWriterLife.act
  rw [← h.flight]
  cases hf : s.flight with
  | none =>
    cases a with
    | submit item =>
      show (s.submit crc32c item).Same (t.submit crc32c item)
      unfold FileWriterLife.submit
      rw [← h.core]
      split
      · exact ⟨rfl, rfl, h.reported, h.written⟩
      · exact h
    | poison reason => exact ⟨congrArg (·.poison reason) h.core, rfl, h.reported, h.written⟩
    | _ => exact h
  | some f =>
    cases a with
    | step => exact ⟨h.core, rfl, h.reported, h.written⟩
    | report n =>
      show (if (f.op.reportWritten n).1 = Exec.panic then s.drop (f.report n)
        else { s with flight := some (f.report n) }).Same
        (if (f.op.reportWritten n).1 = Exec.panic then t.drop (f.report n)
          else { t with flight := some (f.report n) })
      split
      · exact h.drop _
      · exact ⟨h.core, rfl, h.reported, h.written⟩
    | sinkClosed => exact ⟨h.core, rfl, h.reported, h.written⟩
    | drop => exact h.drop f
    | submit item => exact h
    | poison reason => exact h

theorem Same.foldl {t : FileWriterLife} (h : s.Same t) (actions : List FileWriterAction) :
    (actions.foldl (FileWriterLife.act crc32c) s).Same
      (actions.foldl (FileWriterLife.act crc32c) t) := by
  induction actions generalizing s t with
  | nil => exact h
  | cons a actions ih =>
    rw [List.foldl_cons, List.foldl_cons]
    exact ih (h.act a)

theorem calls_idle {calls : List FileWriterAction} (hcalls : ∀ a ∈ calls, OnOperation a)
    (hf : s.flight = none) : calls.foldl (act crc32c) s = s := by
  induction calls with
  | nil => rfl
  | cons a calls ih =>
    rw [List.forall_mem_cons] at hcalls
    have hact : s.act crc32c a = s := by
      unfold FileWriterLife.act
      rw [hf]
      cases a with
      | submit item => exact absurd hcalls.1 id
      | poison reason => exact absurd hcalls.1 id
      | _ => rfl
    rw [List.foldl_cons, hact]
    exact ih hcalls.2

theorem act_drop_idle (hf : s.flight = none) : s.act crc32c .drop = s := by
  unfold FileWriterLife.act
  rw [hf]

/-- Calls on an operation leave it in flight, unless it panics. -/
theorem calls_cases {calls : List FileWriterAction} (hcalls : ∀ a ∈ calls, OnOperation a)
    (h : s.Sound crc32c) (hf : s.flight = some f) :
    (∃ g, g.before = f.before ∧ g.Sound crc32c ∧
        calls.foldl (act crc32c) s = { s with flight := some g }) ∨
      (∃ p, p.failure = true ∧ (calls.foldl (act crc32c) s).flight = none ∧
        (calls.foldl (act crc32c) s).past = s.past ++ [p]) := by
  induction calls generalizing s f with
  | nil =>
    left
    refine ⟨f, rfl, (h.flight f hf).2, ?_⟩
    rw [← hf]
    rfl
  | cons a calls ih =>
    rw [List.forall_mem_cons] at hcalls
    rw [List.foldl_cons]
    have hact := h.act a
    have hgo {g : FileFlight} (hbefore : g.before = f.before)
        (heq : s.act crc32c a = { s with flight := some g }) :
        (∃ g, g.before = f.before ∧ g.Sound crc32c ∧
          calls.foldl (act crc32c) (s.act crc32c a) = { s with flight := some g }) ∨
        (∃ p, p.failure = true ∧ (calls.foldl (act crc32c) (s.act crc32c a)).flight = none ∧
          (calls.foldl (act crc32c) (s.act crc32c a)).past = s.past ++ [p]) := by
      rw [heq] at hact ⊢
      rw [← hbefore]
      exact ih hcalls.2 hact rfl
    cases a with
    | submit item => exact absurd hcalls.1 id
    | poison reason => exact absurd hcalls.1 id
    | drop => exact absurd hcalls.1 id
    | step =>
      have hbefore : f.step.before = f.before := by
        unfold FileFlight.step
        split <;> rfl
      apply hgo hbefore
      unfold FileWriterLife.act
      rw [hf]
    | sinkClosed =>
      refine hgo (g := f.sinkClosed) rfl ?_
      unfold FileWriterLife.act
      rw [hf]
    | report n =>
      have heq : s.act crc32c (.report n) = if (f.op.reportWritten n).1 = Exec.panic then
          s.drop (f.report n) else { s with flight := some (f.report n) } := by
        unfold FileWriterLife.act
        rw [hf]
      by_cases hpanic : (f.op.reportWritten n).1 = Exec.panic
      · right
        rw [heq, if_pos hpanic, calls_idle hcalls.2 rfl]
        exact ⟨(f.report n).attempt, ((h.flight f hf).2.torn_of_panic hpanic).2, rfl, rfl⟩
      · apply hgo FileFlight.report_same.1
        rw [heq, if_neg hpanic]

/-- An operation that is dropped while nothing of it was reported and no call on it failed, left
out of a life. -/
theorem same_of_untouched (h : s.Sound crc32c) (hf : s.flight = none) {item : FileSubmission}
    {calls : List FileWriterAction} (hcalls : ∀ a ∈ calls, OnOperation a) {p : FileAttempt}
    (hpast : ((attempted item calls).foldl (act crc32c) s).past = s.past ++ [p])
    (hsent : p.sent = []) (hfailure : p.failure = false) :
    ((attempted item calls).foldl (act crc32c) s).Same s := by
  have hsubmit : s.act crc32c (.submit item) = s.submit crc32c item := by
    unfold FileWriterLife.act
    rw [hf]
  have hsound := h.submit item
  rw [attempted, List.cons_append, List.foldl_cons, List.foldl_append, hsubmit] at hpast ⊢
  unfold FileWriterLife.submit at hpast hsound ⊢
  cases hop : s.core.submit crc32c item with
  | error e =>
    rw [hop] at hpast
    have hlen := congrArg List.length hpast
    simp only [calls_idle hcalls hf, List.foldl_cons, List.foldl_nil, act_drop_idle hf,
      List.length_append, List.length_singleton] at hlen
    omega
  | ok op =>
    rw [hop] at hpast hsound
    simp only at hpast hsound ⊢
    rcases calls_cases hcalls hsound rfl with ⟨g, hbefore, hg, heq⟩ | ⟨q, hq, hnone, heq⟩
    · rw [heq] at hpast ⊢
      have hattempt : s.past ++ [g.attempt] = s.past ++ [p] := hpast
      obtain rfl : g.attempt = p := by simpa using hattempt
      have hcore : g.op.core = s.core := by
        rw [hg.untouched hsent hfailure, hbefore]
      refine ⟨hcore, hf.symm, ?_, ?_⟩
      · refine sent_snoc.trans ?_
        rw [hsent, List.append_nil]
        rfl
      · have hwritten : g.attempt.written = false := by
          rcases hg.phase with hrun | hcomplete | hspoiled
          · exact hrun.written
          · exact absurd (hcomplete.image.trans hsent) hg.image_ne_nil
          · have hno : g.failure = false := hfailure
            rw [hspoiled.failure] at hno
            cases hno
        refine written_snoc.trans ?_
        rw [hwritten, if_neg Bool.false_ne_true, List.append_nil]
        rfl
    · have hdrop : ([FileWriterAction.drop].foldl (act crc32c) (calls.foldl (act crc32c)
          { s with flight := some ⟨item, s.core, op, op, [], false, false⟩ })).past =
            s.past ++ [q] := by
        rw [List.foldl_cons, List.foldl_nil, act_drop_idle hnone]
        exact heq
      rw [hdrop] at hpast
      obtain rfl : q = p := by simpa using hpast
      rw [hq] at hfailure
      cases hfailure

/-! ### The discipline -/

/-- What the writer keeps while it takes items. -/
structure Disciplined (crc32c : Bytes → UInt32) (s : FileWriterLife) : Prop where
  accepted : s.flight = none → ∀ item op, s.core.submit crc32c item = .ok op →
    Consistent s.core s.past ∧ s.reported = s.written.flatMap FileAttempt.image
  refused : s.flight = none → (∃ p ∈ s.past, p.sent ≠ [] ∧ p.sent ≠ p.image) →
    ∀ item, ∃ reason, s.core.submit crc32c item = Exec.fail (.coreUnusable reason)

theorem submit_of_retired {core : FileWriterCore} (h : core.retired ≠ none)
    (item : FileSubmission) :
    ∃ reason, core.submit crc32c item = Exec.fail (.coreUnusable reason) := by
  obtain ⟨reason, hreason⟩ := Option.ne_none_iff_exists'.mp h
  refine ⟨reason, ?_⟩
  have hcheck : core.checkRetired = Exec.fail (.coreUnusable reason) := by
    unfold FileWriterCore.checkRetired
    rw [hreason]
  cases item with
  | header => simp [FileWriterCore.submit, FileWriterCore.header, hcheck]
  | tensor name d buffers => simp [FileWriterCore.submit, FileWriterCore.tensor, hcheck]
  | finish kv => simp [FileWriterCore.submit, FileWriterCore.finish, hcheck]

theorem consistent_withOptions {options : FileWriterOptions} {core : FileWriterCore}
    (h : FileWriterCore.withOptions options = .ok core) :
    core.alignment ≠ 0 ∧ Consistent core [] := by
  obtain ⟨u, hvalid, hcore⟩ := Exec.bind_eq_ok.mp h
  cases hcore
  have hmin : MIN_DATA_BUFFER_ALIGNMENT ≤ options.dataBufferAlignment :=
    (not_not.mp (Exec.reject_eq_ok.mp (Exec.mapError_eq_ok.mp hvalid))).2.1
  refine ⟨?_, consistent_start rfl rfl rfl rfl⟩
  intro hzero
  have hnat : options.dataBufferAlignment.toNat = 0 := by
    rw [← UInt32.toNat_toUInt64]
    exact congrArg UInt64.toNat hzero
  rw [UInt32.le_iff_toNat_le, hnat] at hmin
  exact absurd hmin (by decide)

/-- Whatever is done with the writer of a file, in whatever order: it takes items only while the
sink holds whole items that its index describes, and an operation that reported nothing and did
not fail might as well not have been submitted. -/
theorem run_disciplined {options : FileWriterOptions} {core : FileWriterCore}
    (h : FileWriterCore.withOptions options = .ok core) (crc32c : Bytes → UInt32)
    (actions : List FileWriterAction) :
    (run crc32c core actions).Disciplined crc32c ∧
      ∀ item calls p later, (run crc32c core actions).flight = none →
        (∀ a ∈ calls, OnOperation a) →
        (run crc32c core (actions ++ attempted item calls)).past =
          (run crc32c core actions).past ++ [p] →
        p.sent = [] → p.failure = false →
        (run crc32c core (actions ++ attempted item calls ++ later)).Same
          (run crc32c core (actions ++ later)) := by
  obtain ⟨halign, hstart⟩ := consistent_withOptions h
  have hsound : Sound crc32c (run crc32c core actions) := sound_run halign hstart actions
  refine ⟨⟨?_, ?_⟩, ?_⟩
  · intro _ item op hop
    have hretired := retired_of_submit hop
    have hconsistent := hsound.consistent hretired
      (not_finished_of_submit (hsound.alignment hretired) hop)
    exact ⟨hconsistent, hconsistent.reported⟩
  · intro _ hpart item
    obtain ⟨p, hp, hsent, himage⟩ := hpart
    apply submit_of_retired
    intro hretired
    exact himage (hsound.part hretired p hp hsent)
  · intro item calls p later hf hcalls hpast hsent hfailure
    unfold run at hpast ⊢
    rw [List.foldl_append] at hpast
    rw [List.foldl_append, List.foldl_append, List.foldl_append]
    exact (same_of_untouched hsound hf hcalls hpast hsent hfailure).foldl later

/-- An item that is stepped and dropped reports nothing. -/
theorem exists_attempt {crc32c : Bytes → UInt32} {core : FileWriterCore}
    {actions : List FileWriterAction} {item : FileSubmission} {op : FileWriteOp}
    (hflight : (run crc32c core actions).flight = none)
    (hop : (run crc32c core actions).core.submit crc32c item = .ok op) :
    ∃ p, (run crc32c core (actions ++ attempted item [.step])).past =
        (run crc32c core actions).past ++ [p] ∧ p.sent = [] ∧ p.failure = false := by
  unfold run at *
  rw [List.foldl_append]
  generalize actions.foldl (act crc32c) (start core) = s at *
  have hsubmitted : act crc32c s (.submit item) =
      { s with flight := some ⟨item, s.core, op, op, [], false, false⟩ } := by
    simp [act, hflight, submit, hop]
  rw [attempted, List.cons_append, List.foldl_cons, hsubmitted]
  refine ⟨(FileFlight.step ⟨item, s.core, op, op, [], false, false⟩).attempt, rfl, ?_, ?_⟩
  · unfold FileFlight.step FileFlight.attempt
    split <;> rfl
  · unfold FileFlight.step FileFlight.attempt
    split <;> rfl

/-- A header and a tensor in short writes. -/
def workedActions : List FileWriterAction :=
  [.submit .header, .step, .report 20, .step, .report 44, .step, .drop,
    .submit (.tensor "a" workedExample [List.replicate 192 7]), .step, .report 5, .step, .report 56,
    .step, .report 3971, .step, .report 100, .step, .report 92, .step, .drop]

/-- After them a second tensor is given up, and submitted again. -/
theorem run_disciplined_worked :
    (run (fun _ => 0) FileWriterCore.new workedActions).Disciplined (fun _ => 0) ∧
      (run (fun _ => 0) FileWriterCore.new workedActions).past.map (fun p => p.sent.length) =
        [64, 4224] ∧
      (run (fun _ => 0) FileWriterCore.new (workedActions ++
        attempted (.tensor "b" workedExample [List.replicate 192 7]) [.step] ++
          [.submit (.tensor "b" workedExample [List.replicate 192 7]), .step, .report 7])).Same
        (run (fun _ => 0) FileWriterCore.new (workedActions ++
          [.submit (.tensor "b" workedExample [List.replicate 192 7]), .step, .report 7])) := by
  obtain ⟨hdisciplined, hsame⟩ := run_disciplined
    (show FileWriterCore.withOptions .default = .ok FileWriterCore.new from rfl) (fun _ => 0)
    workedActions
  refine ⟨hdisciplined, by decide +kernel, ?_⟩
  have hflight : (run (fun _ => 0) FileWriterCore.new workedActions).flight = none := by
    rw [← Option.isNone_iff_eq_none]
    decide +kernel
  have haccepted : ((run (fun _ => 0) FileWriterCore.new workedActions).core.submit (fun _ => 0)
      (.tensor "b" workedExample [List.replicate 192 7])).toBool = true := by decide +kernel
  rcases hop : (run (fun _ => 0) FileWriterCore.new workedActions).core.submit (fun _ => 0)
      (.tensor "b" workedExample [List.replicate 192 7]) with e | op
  · rw [hop] at haccepted
    cases haccepted
  obtain ⟨p, hpast, hsent, hfailure⟩ := exists_attempt hflight hop
  refine hsame _ [.step] p _ hflight ?_ hpast hsent hfailure
  intro a ha
  obtain rfl := List.mem_singleton.mp ha
  exact trivial

end FileWriterLife
end Hurray.File
