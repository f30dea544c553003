import Hurray.Stream.EmissionOrder

/-!
One writer core over its whole life. Items are submitted, driven by any calls in
any order and dropped at any point; what was submitted and what the sink accepted
of it is recorded beside the core. No item follows one that was left torn.
-/
namespace Hurray.Stream
open Hurray.Base Hurray.Core Hurray.Descriptor

/-- An operation, with the item and the core it was submitted to, the bytes reported for it,
and whether a count was lost or the sink closed. -/
structure Flight where
  item : CompositeNode
  before : StreamWriterCore
  op : WriteOp
  sent : Bytes
  lost : Bool

/-- An operation that was dropped, and the core it left behind. -/
structure Attempt where
  item : CompositeNode
  before : StreamWriterCore
  after : StreamWriterCore
  sent : Bytes
  lost : Bool

inductive WriterAction where
  | submit (item : CompositeNode)
  | step
  | report (n : ℕ)
  | sinkClosed
  | markUnusable
  | drop

namespace Flight

def step (f : Flight) : Flight := { f with op := f.op.step.2 }

/-- An over-long report is a lost count whatever the operation answers. -/
def report (f : Flight) (n : ℕ) : Flight :=
  match f.op.reportWritten n with
  | (.ok _, op) => { f with op, sent := f.sent ++ f.op.outputSrc.take n }
  | (.error _, op) => { f with op, lost := f.lost || decide (f.op.remaining < n) }

def sinkClosed (f : Flight) : Flight := { f with op := f.op.reportSinkClosed.2, lost := true }

def markUnusable (f : Flight) : Flight := { f with op := f.op.markUnusable, lost := true }

def attempt (f : Flight) : Attempt := ⟨f.item, f.before, f.op.core, f.sent, f.lost⟩

end Flight

/-- The operation borrows the core, so that `core` is only current with no operation in flight. -/
structure WriterLife where
  core : StreamWriterCore
  flight : Option Flight
  past : List Attempt

namespace WriterLife

def start (core : StreamWriterCore) : WriterLife := ⟨core, none, []⟩

def submit (s : WriterLife) (item : CompositeNode) : WriterLife :=
  match s.core.submit item with
  | .ok op => { s with flight := some ⟨item, s.core, op, [], false⟩ }
  | .error _ => s

/-- One action. What the borrow of the core rules out changes nothing. -/
def act (s : WriterLife) (a : WriterAction) : WriterLife :=
  match s.flight, a with
  | none, .submit item => s.submit item
  | none, _ => s
  | some f, .step => { s with flight := some f.step }
  | some f, .report n => { s with flight := some (f.report n) }
  | some f, .sinkClosed => { s with flight := some f.sinkClosed }
  | some f, .markUnusable => { s with flight := some f.markUnusable }
  | some f, .drop => { core := f.op.core, flight := none, past := s.past ++ [f.attempt] }
  | some _, .submit _ => s

def run (core : StreamWriterCore) (actions : List WriterAction) : WriterLife :=
  actions.foldl act (start core)

/-- The bytes reported for the items of the past. -/
def reported (s : WriterLife) : Bytes := s.past.flatMap Attempt.sent

end WriterLife

/-- All bytes of the item were reported. -/
def Attempt.Whole (p : Attempt) : Prop := bytesOf p.item.tensors = some p.sent

/-- No count was lost, and the item is on the sink as a whole or not at all. -/
def Attempt.Clean (p : Attempt) : Prop := p.lost = false ∧ (p.sent = [] ∨ p.Whole)

/-! ### The invariant of an operation in flight -/

namespace Flight

/-- While no count is lost: what was reported and what is left make up the item, slice by slice as
far as it encodes, and the core is torn as long as only a part was reported. -/
structure Kept (f : Flight) : Prop where
  usable : f.op.core.unusable = none
  emitted : f.op.emittedBytes = f.sent.length
  left : bytesOf f.item.tensors = f.op.left.map (f.sent ++ ·)
  slices : ∃ whole : List Bytes, slicesOf f.item.tensors = whole ++ f.op.ahead ∧
    f.sent = whole.flatten ++ f.op.begun
  untouched : f.sent = [] → f.before.submit f.item = .ok f.op
  torn : f.sent ≠ [] → f.op.core.torn = true ∨ bytesOf f.item.tensors = some f.sent

/-- The operation can do nothing more, and leaves the core retired. -/
def Spoiled (f : Flight) : Prop :=
  f.op.core.unusable ≠ none ∨ (f.op.state = .failed ∧ f.op.core.torn = true)

structure Sound (f : Flight) : Prop where
  accepted : f.before.retired = none
  lost : f.lost = true → f.Spoiled
  kept : f.lost = false → f.Kept

variable {f : Flight}

theorem Spoiled.retired (h : f.Spoiled) : f.op.core.retired ≠ none := by
  intro hretired
  obtain ⟨hu, htorn⟩ := StreamWriterCore.retired_eq_none.mp hretired
  rcases h with h | ⟨-, h⟩
  · exact h hu
  · rw [htorn] at h
    cases h

theorem Spoiled.step_eq (h : f.Spoiled) : f.op.step.2 = f.op := by
  unfold WriteOp.step
  rcases h with h | ⟨h, -⟩
  · obtain ⟨reason, hu⟩ := Option.ne_none_iff_exists'.mp h
    rw [hu]
  · rw [WriteOp.stepLoop_of_failed h]
    cases f.op.core.unusable <;> rfl

theorem Spoiled.report_eq (h : f.Spoiled) (n : ℕ) :
    ∃ e, f.op.reportWritten n = (.error e, f.op) := by
  unfold WriteOp.reportWritten
  rcases h with h | ⟨h, -⟩
  · obtain ⟨reason, hu⟩ := Option.ne_none_iff_exists'.mp h
    rw [hu]
    exact ⟨_, rfl⟩
  · rw [if_pos h]
    cases f.op.core.unusable <;> exact ⟨_, rfl⟩

/-- A submitted item that was not touched yet. -/
theorem kept_of_submit {core : StreamWriterCore} {item : CompositeNode} {op : WriteOp}
    (h : core.submit item = .ok op) : (⟨item, core, op, [], false⟩ : Flight).Kept := by
  obtain ⟨hretired, -, staging, henc, rfl⟩ := StreamWriterCore.submit_eq_ok.mp h
  refine ⟨(StreamWriterCore.retired_eq_none.mp hretired).1, rfl, ?_, ⟨[], ?_, ?_⟩, fun _ => h, ?_⟩
  · rw [WriteOp.left_start henc]
    simp
  · simp [WriteOp.start_ahead henc]
  · have hfresh : (WriteOp.start core item staging).begun = [] := WriteOp.begun_fresh rfl
    simp [hfresh]
  · intro hsent
    exact absurd rfl hsent

/-- What was sent is the front of the item, as far as it encodes. -/
theorem Kept.prefix_slices (h : f.Kept) : f.sent <+: (slicesOf f.item.tensors).flatten := by
  obtain ⟨whole, hslices, hsent⟩ := h.slices
  rw [hslices, hsent, List.flatten_append]
  exact (List.prefix_append_right_inj _).mpr f.op.begun_prefix

theorem step_of_submit {core : StreamWriterCore} {item : CompositeNode} {op : WriteOp}
    (h : core.submit item = .ok op) : op.step.2 = op := by
  obtain ⟨hretired, -, staging, henc, rfl⟩ := StreamWriterCore.submit_eq_ok.mp h
  have hpos : 0 < (WriteOp.start core item staging).remaining :=
    List.length_pos_iff.mpr (encode_ne_nil henc)
  rw [WriteOp.step_eq_stepLoop (StreamWriterCore.retired_eq_none.mp hretired).1,
    WriteOp.stepLoop_of_remaining hpos]

/-- An operation that failed without losing a count has torn its core. -/
theorem Kept.torn_of_failed (h : f.Kept) (hfailed : f.op.state = .failed) :
    f.op.core.torn = true := by
  have hleft := h.left
  rw [WriteOp.left_of_failed hfailed, Option.map_none] at hleft
  by_cases hsent : f.sent = []
  · obtain ⟨-, -, staging, -, hop⟩ := StreamWriterCore.submit_eq_ok.mp (h.untouched hsent)
    rw [hop] at hfailed
    cases hfailed
  · rcases h.torn hsent with htorn | hwhole
    · exact htorn
    · rw [hleft] at hwhole
      cases hwhole

theorem Kept.step (h : f.Kept) : f.step.Kept := by
  obtain ⟨hleft, hemitted, houtcome⟩ := WriteOp.step_effect h.usable
  have hkept : bytesOf f.item.tensors = f.op.step.2.left.map (f.sent ++ ·) := by
    rw [hleft]
    exact h.left
  obtain ⟨whole, hslices, hsent⟩ := h.slices
  refine ⟨?_, hemitted.trans h.emitted, hkept, ⟨whole, ?_, ?_⟩, ?_, ?_⟩
  · show f.op.step.2.core.unusable = none
    rcases houtcome with ⟨-, -, hcore⟩ | ⟨-, -, hcore⟩ | ⟨-, -, hcore⟩
    all_goals
      rw [hcore]
      exact h.usable
  · show _ = whole ++ f.op.step.2.ahead
    rw [WriteOp.step_eq_stepLoop h.usable, WriteOp.stepLoop_ahead]
    exact hslices
  · show _ = whole.flatten ++ f.op.step.2.begun
    rw [WriteOp.step_eq_stepLoop h.usable, WriteOp.stepLoop_begun]
    exact hsent
  · intro hsent
    show f.before.submit f.item = .ok f.op.step.2
    rw [step_of_submit (h.untouched hsent)]
    exact h.untouched hsent
  · intro hsent
    show f.op.step.2.core.torn = true ∨ _
    rcases houtcome with ⟨-, -, hcore⟩ | ⟨-, hdone, -⟩ | ⟨-, -, hcore⟩
    · rw [hcore]
      exact h.torn hsent
    · have hwhole : bytesOf f.item.tensors = some f.sent := by
        rw [hkept, WriteOp.left_of_done hdone]
        simp
      exact .inr hwhole
    · rw [hcore]
      exact h.torn hsent

theorem Sound.step (h : f.Sound) : f.step.Sound := by
  refine ⟨h.accepted, ?_, fun hlost => (h.kept hlost).step⟩
  intro hlost
  have hspoiled := h.lost hlost
  have heq : f.step = f := by
    unfold Flight.step
    rw [hspoiled.step_eq]
  rw [heq]
  exact hspoiled

/-- Every answer to a report: bytes are taken, or a count is lost, or nothing changes. -/
theorem report_cases (hu : f.op.core.unusable = none) (n : ℕ) :
    (0 < n ∧ n ≤ f.op.remaining ∧
      f.report n = { f with op := f.op.accepted n, sent := f.sent ++ f.op.outputSrc.take n }) ∨
    (f.op.remaining < n ∧ f.op.state ≠ .failed ∧
      f.report n = { f with op := f.op.markUnusable, lost := true }) ∨
    (f.report n = { f with lost := f.lost || decide (f.op.remaining < n) } ∧
      (f.op.remaining < n → f.op.state = .failed)) := by
  by_cases hfailed : f.op.state = .failed
  · refine .inr (.inr ⟨?_, fun _ => hfailed⟩)
    simp [report, WriteOp.reportWritten, hu, hfailed, Exec.fail]
  by_cases hzero : n = 0
  · refine .inr (.inr ⟨?_, by omega⟩)
    simp [report, WriteOp.reportWritten, hu, hfailed, hzero, Exec.fail]
  by_cases hle : n ≤ f.op.remaining
  · refine .inl ⟨by omega, hle, ?_⟩
    unfold report
    rw [WriteOp.reportWritten_accepted hu (by omega) hle]
  · refine .inr (.inl ⟨by omega, hfailed, ?_⟩)
    simp [report, WriteOp.reportWritten, WriteOp.markUnusable, hu, hfailed, hzero, Exec.fail,
      Nat.lt_of_not_le hle]

/-- An accepted chunk goes on with the slice on offer, or makes it whole. -/
theorem Kept.slices_accepted {n : ℕ} (h : f.Kept) (hn : 0 < n) (hle : n ≤ f.op.remaining) :
    ∃ whole : List Bytes, slicesOf f.item.tensors = whole ++ (f.op.accepted n).ahead ∧
      f.sent ++ f.op.outputSrc.take n = whole.flatten ++ (f.op.accepted n).begun := by
  obtain ⟨whole, hslices, hsent⟩ := h.slices
  rw [hslices, hsent, List.append_assoc]
  by_cases hwhole : n = f.op.remaining
  · obtain ⟨hnext, hnone⟩ := WriteOp.accepted_whole hwhole (by omega)
    refine ⟨whole ++ [f.op.begun ++ f.op.outputSrc.take n], ?_, ?_⟩
    · rw [hnext, List.append_assoc, List.singleton_append]
    · simp [hnone]
  · have hpart : n < f.op.remaining := by omega
    obtain ⟨hsame, hlonger⟩ := WriteOp.accepted_part hpart
    exact ⟨whole, by rw [hsame], by rw [hlonger]⟩

theorem Kept.accepted {n : ℕ} (h : f.Kept) (hn : 0 < n) (hle : n ≤ f.op.remaining) :
    ({ f with op := f.op.accepted n, sent := f.sent ++ f.op.outputSrc.take n } : Flight).Kept := by
  have hrun : f.op.Running := WriteOp.running_of_remaining (by omega)
  have hlen : (f.op.outputSrc.take n).length = n := by
    rw [List.length_take, WriteOp.length_outputSrc, Nat.min_eq_left hle]
  have hne : f.sent ++ f.op.outputSrc.take n ≠ [] := by
    apply List.length_pos_iff.mp
    rw [List.length_append]
    omega
  refine ⟨?_, ?_, ?_, h.slices_accepted hn hle, fun hsent => absurd hsent hne, ?_⟩
  · show (f.op.accepted n).core.unusable = none
    unfold WriteOp.accepted
    split <;> exact h.usable
  · show f.op.emittedBytes + n = _
    rw [h.emitted, List.length_append, hlen]
  · rw [h.left, WriteOp.left_eq_of_accepted (n := n) hrun, Option.map_map]
    simp only [Function.comp_def, List.append_assoc]
  · intro _
    left
    show (f.op.accepted n).core.torn = true
    unfold WriteOp.accepted
    split
    · rfl
    · next hpos =>
      have hsent : f.sent ≠ [] := by
        rw [h.emitted] at hpos
        exact fun hnil => hpos (by rw [hnil]; rfl)
      rcases h.torn hsent with htorn | hwhole
      · exact htorn
      · exfalso
        obtain ⟨b, hb, hnil⟩ := Option.map_eq_some_iff.mp (h.left.symm.trans hwhole)
        obtain rfl : b = [] := by simpa using hnil
        have hprefix := (WriteOp.outputSrc_prefix_left hb).length_le
        rw [WriteOp.length_outputSrc, List.length_nil] at hprefix
        omega

theorem Sound.report (h : f.Sound) (n : ℕ) : (f.report n).Sound := by
  by_cases hlost : f.lost = true
  · have hspoiled := h.lost hlost
    obtain ⟨e, he⟩ := hspoiled.report_eq n
    have heq : f.report n = f := by
      unfold Flight.report
      rw [he]
      simp only [hlost, Bool.true_or]
      rw [← hlost]
    rw [heq]
    exact h
  · have hkept := h.kept (by simpa using hlost)
    rcases report_cases hkept.usable n with ⟨hn, hle, heq⟩ | ⟨-, -, heq⟩ | ⟨heq, hfailed⟩
    · rw [heq]
      exact ⟨h.accepted, fun hl => absurd hl hlost, fun _ => hkept.accepted hn hle⟩
    · rw [heq]
      exact ⟨h.accepted, fun _ => .inl (by simp [WriteOp.markUnusable]), fun hl => by cases hl⟩
    · rw [heq]
      by_cases hlt : f.op.remaining < n
      · refine ⟨h.accepted, fun _ => ?_, fun hl => by simp [hlt] at hl⟩
        exact .inr ⟨hfailed hlt, hkept.torn_of_failed (hfailed hlt)⟩
      · simpa [hlt] using h

theorem Sound.sinkClosed (h : f.Sound) : f.sinkClosed.Sound :=
  ⟨h.accepted, fun _ => .inl (by simp [Flight.sinkClosed, WriteOp.reportSinkClosed]),
    fun hl => by cases hl⟩

theorem Sound.markUnusable (h : f.Sound) : f.markUnusable.Sound :=
  ⟨h.accepted, fun _ => .inl (by simp [Flight.markUnusable, WriteOp.markUnusable]),
    fun hl => by cases hl⟩

end Flight

/-! ### The life of a core -/

/-- What holds of a core at every moment of its life. -/
structure WriterLife.Sound (s : WriterLife) : Prop where
  clean : s.core.retired = none → ∀ p ∈ s.past, p.Clean
  untouched : ∀ p ∈ s.past, p.sent = [] → p.lost = false → p.after = p.before
  flight : ∀ f, s.flight = some f → f.before = s.core ∧ f.Sound

namespace WriterLife
variable {s : WriterLife} {f : Flight}

theorem sound_start (core : StreamWriterCore) : (start core).Sound :=
  ⟨fun _ _ hp => absurd hp List.not_mem_nil, fun _ hp => absurd hp List.not_mem_nil,
    fun _ hf => by cases hf⟩

theorem Sound.submit (h : s.Sound) (item : CompositeNode) : (s.submit item).Sound := by
  unfold WriterLife.submit
  split
  · next op hop =>
    refine ⟨h.clean, h.untouched, ?_⟩
    intro f hf
    cases hf
    refine ⟨rfl, (StreamWriterCore.submit_eq_ok.mp hop).1, ?_, fun _ => Flight.kept_of_submit hop⟩
    exact fun hlost => absurd hlost Bool.false_ne_true
  · exact h

theorem Sound.drop (h : s.Sound) (hf : s.flight = some f) :
    (⟨f.op.core, none, s.past ++ [f.attempt]⟩ : WriterLife).Sound := by
  obtain ⟨hbefore, hsound⟩ := h.flight f hf
  have hpast : ∀ p ∈ s.past, p.Clean := h.clean (hbefore ▸ hsound.accepted)
  refine ⟨?_, ?_, fun _ hnone => by cases hnone⟩
  · intro hretired p hp
    rcases List.mem_append.mp hp with hp | hp
    · exact hpast p hp
    · obtain rfl := List.mem_singleton.mp hp
      have hlost : f.lost = false := by
        by_contra hlost
        exact (hsound.lost (by simpa using hlost)).retired hretired
      refine ⟨hlost, ?_⟩
      by_cases hsent : f.sent = []
      · exact .inl hsent
      · rcases (hsound.kept hlost).torn hsent with htorn | hwhole
        · have htorn' := (StreamWriterCore.retired_eq_none.mp hretired).2
          rw [htorn] at htorn'
          cases htorn'
        · exact .inr hwhole
  · intro p hp hsent hlost
    rcases List.mem_append.mp hp with hp | hp
    · exact h.untouched p hp hsent hlost
    · obtain rfl := List.mem_singleton.mp hp
      have hop := (hsound.kept hlost).untouched hsent
      exact (StreamWriterCore.left_of_submit hop).1

theorem Sound.goOn {g : Flight} (h : s.Sound) (hf : s.flight = some f)
    (hbefore : g.before = f.before) (hg : g.Sound) : ({ s with flight := some g } : WriterLife).Sound := by
  refine ⟨h.clean, h.untouched, ?_⟩
  intro g' hg'
  cases hg'
  exact ⟨hbefore.trans (h.flight f hf).1, hg⟩

theorem Sound.act (h : s.Sound) (a : WriterAction) : (s.act a).Sound := by
  unfold WriterLife.act
  cases hf : s.flight with
  | none =>
    cases a with
    | submit item => exact h.submit item
    | _ => exact h
  | some f =>
    have hsound := (h.flight f hf).2
    cases a with
    | submit item => exact h
    | step => exact h.goOn hf rfl hsound.step
    | report n =>
      refine h.goOn hf ?_ (hsound.report n)
      unfold Flight.report
      split <;> rfl
    | sinkClosed => exact h.goOn hf rfl hsound.sinkClosed
    | markUnusable => exact h.goOn hf rfl hsound.markUnusable
    | drop => exact h.drop hf

theorem sound_run (core : StreamWriterCore) (actions : List WriterAction) :
    (run core actions).Sound := by
  unfold run
  refine List.foldlRecOn actions act (sound_start core) ?_
  intro s hs a _
  exact hs.act a

/-- The items of clean attempts that were sent at all make up the bytes on the sink. -/
theorem reported_of_clean {past : List Attempt} (h : ∀ p ∈ past, p.Clean) :
    ∃ items : List CompositeNode, items.Sublist (past.map Attempt.item) ∧
      bytesOf (items.flatMap CompositeNode.tensors) = some (past.flatMap Attempt.sent) := by
  induction past with
  | nil => exact ⟨[], List.Sublist.refl _, rfl⟩
  | cons p past ih =>
    obtain ⟨items, hsub, hbytes⟩ := ih fun q hq => h q (List.mem_cons_of_mem p hq)
    rcases (h p List.mem_cons_self).2 with hnil | hwhole
    · refine ⟨items, hsub.cons _, ?_⟩
      rw [List.flatMap_cons, hnil, List.nil_append, hbytes]
    · refine ⟨p.item :: items, hsub.cons_cons _, ?_⟩
      rw [List.flatMap_cons, List.flatMap_cons, bytesOf_append, hwhole, hbytes]
      rfl

/-- The protection that the core gives. An item is accepted only while the bytes on the sink are
whole items in a row; a partly reported item or a lost count refuses every later item; an item
of which nothing was reported leaves the core as it was. -/
structure Protected (s : WriterLife) : Prop where
  accepted : s.flight = none → ∀ item op, s.core.submit item = .ok op →
    ∃ items : List CompositeNode, items.Sublist (s.past.map Attempt.item) ∧
      bytesOf (items.flatMap CompositeNode.tensors) = some s.reported
  refused : s.flight = none →
    (∃ p ∈ s.past, p.lost = true ∨ (p.sent ≠ [] ∧ ¬ p.Whole)) →
    ∀ item, ∃ reason, s.core.submit item = Exec.fail (.coreUnusable reason)
  untouched : ∀ p ∈ s.past, p.sent = [] → p.lost = false → p.after = p.before

theorem submit_of_retired {core : StreamWriterCore} (h : core.retired ≠ none)
    (item : CompositeNode) : ∃ reason, core.submit item = Exec.fail (.coreUnusable reason) := by
  obtain ⟨reason, hreason⟩ := Option.ne_none_iff_exists'.mp h
  refine ⟨reason, ?_⟩
  cases item with
  | tensor d buffers =>
    simp [StreamWriterCore.submit, StreamWriterCore.tensor, StreamWriterCore.checkRetired, hreason]
  | composite head members =>
    simp [StreamWriterCore.submit, StreamWriterCore.composite, StreamWriterCore.checkRetired,
      hreason]

/-- Whatever is done with a writer core, in whatever order, its items stay protected. -/
theorem run_protected (core : StreamWriterCore) (actions : List WriterAction) :
    (run core actions).Protected := by
  have h := sound_run core actions
  refine ⟨?_, ?_, h.untouched⟩
  · intro _ item op hop
    exact reported_of_clean (h.clean (StreamWriterCore.submit_eq_ok.mp hop).1)
  · rintro _ ⟨p, hp, hbad⟩ item
    apply submit_of_retired
    intro hretired
    obtain ⟨hlost, hsent⟩ := h.clean hretired p hp
    rcases hbad with hbad | ⟨hne, hwhole⟩
    · rw [hlost] at hbad
      cases hbad
    · exact hsent.elim hne hwhole

end WriterLife
end Hurray.Stream
