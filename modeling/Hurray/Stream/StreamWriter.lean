import Hurray.Stream.Completion
import Hurray.Stream.TornItems

/-!
The writer of a stream as its callers have it. A call waits for the sink at every
write and may be dropped there; what it leaves of an item on the sink decides
whether the writer is as it was or refuses every later call.
-/
namespace Hurray.Stream
open Hurray.Base Hurray.Core Hurray.Descriptor

/-- What a write to the sink comes back with. -/
inductive SinkAnswer where
  | wrote (n : ℕ)
  | interrupted
  | failed (kind : String)
  deriving DecidableEq, Repr

/-- A call that is over, with the bytes of its item that the sink accepted and whether the sink
closed. A call that was dropped has no result. -/
structure WriterEntry where
  item : CompositeNode
  sent : Bytes
  closed : Bool
  result : Option (Result Unit)

inductive WriterMove where
  | write (item : CompositeNode)
  | sink (answer : SinkAnswer)
  | drop

/-- A writer with the bytes on its sink and the calls of the past. A call in flight borrows the
core. -/
structure WriterSession where
  core : StreamWriterCore
  call : Option Flight
  sink : Bytes
  log : List WriterEntry

namespace WriterSession

def start (core : StreamWriterCore) : WriterSession := ⟨core, none, [], []⟩

/-- The call is over, and the core is what the operation leaves. -/
def settle (s : WriterSession) (f : Flight) (result : Option (Result Unit)) : WriterSession :=
  { s with core := f.op.core, call := none, log := s.log ++ [⟨f.item, f.sent, f.lost, result⟩] }

/-- On to the next write of `drain`. -/
def goOn (s : WriterSession) (f : Flight) : WriterSession :=
  match f.op.step.1 with
  | .error e => s.settle f.step (some (.error e))
  | .ok .itemWritten => s.settle f.step (some (.ok ()))
  | .ok (.output _) => { s with call := some f.step }

/-- `write_tensor` and `write_composite`. -/
def write (s : WriterSession) (item : CompositeNode) : WriterSession :=
  match s.core.submit item with
  | .error e => { s with log := s.log ++ [⟨item, [], false, some (.error e)⟩] }
  | .ok op => s.goOn ⟨item, s.core, op, [], false⟩

/-- A write comes back. The sink accepts no more than it was given. -/
def answer (s : WriterSession) (f : Flight) : SinkAnswer → WriterSession
  | .interrupted => s
  | .failed kind => s.settle f (some (Exec.fail (.io kind)))
  | .wrote n =>
      if min n f.op.remaining = 0 then
        s.settle f.sinkClosed (some (Exec.fail f.op.reportSinkClosed.1))
      else
        let s := { s with sink := s.sink ++ f.op.outputSrc.take (min n f.op.remaining) }
        match f.op.reportWritten (min n f.op.remaining) with
        | (.error e, _) => s.settle (f.report (min n f.op.remaining)) (some (.error e))
        | (.ok _, _) => s.goOn (f.report (min n f.op.remaining))

/-- One move. What the borrow of the writer rules out changes nothing. -/
def act (s : WriterSession) (m : WriterMove) : WriterSession :=
  match s.call, m with
  | none, .write item => s.write item
  | some f, .sink answer => s.answer f answer
  | some f, .drop => s.settle f none
  | _, _ => s

def run (core : StreamWriterCore) (moves : List WriterMove) : WriterSession :=
  moves.foldl act (start core)

/-- What the call in flight has sent. -/
def sending (s : WriterSession) : Bytes := s.call.elim [] Flight.sent

/-- The items of the calls that succeeded. -/
def succeeded (log : List WriterEntry) : List CompositeNode :=
  log.filterMap fun e =>
    match e.result with
    | some (.ok _) => some e.item
    | _ => none

end WriterSession

namespace WriterEntry

def Succeeded (e : WriterEntry) : Prop := e.result = some (.ok ())

/-- The item was written, or nothing of it was and the sink is open. -/
def Clean (e : WriterEntry) : Prop :=
  e.Succeeded ∨ (e.sent = [] ∧ e.closed = false)

/-- The call was turned away, with nothing written. -/
def Refused (e : WriterEntry) : Prop :=
  e.sent = [] ∧ e.closed = false ∧ ∃ reason, e.result = some (Exec.fail (.coreUnusable reason))

end WriterEntry

/-! ### The invariant of a session -/

namespace WriterSession
variable {core₀ : StreamWriterCore} {s : WriterSession} {f : Flight}

theorem bytesOf_tensors_ne_nil {node : CompositeNode} {b : Bytes}
    (h : bytesOf node.tensors = some b) : b ≠ [] := by
  obtain ⟨t, ts, hts⟩ : ∃ t ts, node.tensors = t :: ts := by
    cases node <;> exact ⟨_, _, by rw [CompositeNode.tensors]⟩
  rw [hts] at h
  obtain ⟨c, hc, bs, -, rfl⟩ := bytesOf_cons_eq_some.mp h
  obtain ⟨e, henc, rfl⟩ := StreamTensor.bytes_eq_some.mp hc
  simp [encode_ne_nil henc]

/-- The bytes are a part of the item, and not all of it. Of an item that does not encode to its end
they are a front of what does. -/
def Part (item : CompositeNode) (sent : Bytes) : Prop :=
  sent <+: (slicesOf item.tensors).flatten ∧
    ∀ b, bytesOf item.tensors = some b → sent <+: b ∧ sent.length < b.length

theorem part_nil (item : CompositeNode) : Part item [] := by
  refine ⟨List.nil_prefix, ?_⟩
  intro b hb
  exact ⟨List.nil_prefix, List.length_pos_iff.mpr (bytesOf_tensors_ne_nil hb)⟩

/-- What holds of the calls of the past: what succeeded is on the sink as a whole and nothing else
is, and a call that follows one that is not clean is refused. -/
structure Logged (core₀ : StreamWriterCore) (log : List WriterEntry) : Prop where
  accepted : ∀ e ∈ log, e.Succeeded ∨ e.sent ≠ [] → ∃ op, core₀.submit e.item = .ok op
  whole : ∀ e ∈ log, e.Succeeded → bytesOf e.item.tensors = some e.sent
  part : ∀ e ∈ log, ¬ e.Succeeded → Part e.item e.sent
  refused : log.Pairwise fun b e => ¬ b.Clean → e.Refused

theorem Logged.snoc {log : List WriterEntry} {e : WriterEntry} (h : Logged core₀ log)
    (haccepted : e.Succeeded ∨ e.sent ≠ [] → ∃ op, core₀.submit e.item = .ok op)
    (hwhole : e.Succeeded → bytesOf e.item.tensors = some e.sent)
    (hpart : ¬ e.Succeeded → Part e.item e.sent)
    (hrefused : ∀ b ∈ log, ¬ b.Clean → e.Refused) : Logged core₀ (log ++ [e]) := by
  refine ⟨?_, ?_, ?_, ?_⟩
  · intro b hb
    rcases List.mem_append.mp hb with hb | hb
    · exact h.accepted b hb
    · obtain rfl := List.mem_singleton.mp hb
      exact haccepted
  · intro b hb
    rcases List.mem_append.mp hb with hb | hb
    · exact h.whole b hb
    · obtain rfl := List.mem_singleton.mp hb
      exact hwhole
  · intro b hb
    rcases List.mem_append.mp hb with hb | hb
    · exact h.part b hb
    · obtain rfl := List.mem_singleton.mp hb
      exact hpart
  · rw [List.pairwise_append]
    refine ⟨h.refused, List.pairwise_singleton _ _, ?_⟩
    intro b hb e' he'
    obtain rfl := List.mem_singleton.mp he'
    exact hrefused b hb

/-- What holds of a call in flight: nothing before it was torn. -/
structure Flying (core₀ : StreamWriterCore) (s : WriterSession) (f : Flight) : Prop where
  logged : Logged core₀ s.log
  accepted : ∃ op, core₀.submit f.item = .ok op
  clean : ∀ e ∈ s.log, e.Clean
  sink : s.sink = s.log.flatMap WriterEntry.sent ++ f.sent
  before : f.before = core₀
  lost : f.lost = false
  kept : f.Kept
  sync : f.op.core.enforceCrossMachineSync = core₀.enforceCrossMachineSync

/-- What holds between two calls: the core is as it was at first, or refuses every item. -/
structure Resting (core₀ : StreamWriterCore) (s : WriterSession) : Prop where
  logged : Logged core₀ s.log
  sink : s.sink = s.log.flatMap WriterEntry.sent
  core : (∀ e ∈ s.log, e.Clean) ∧ s.core = core₀ ∨
    (∃ e ∈ s.log, ¬ e.Clean) ∧ s.core.retired ≠ none

def Sound (core₀ : StreamWriterCore) (s : WriterSession) : Prop :=
  match s.call with
  | none => Resting core₀ s
  | some f => Flying core₀ s f ∧ 0 < f.op.remaining

/-- A call ends without an answer that would say more: its item is whole, or untouched, or the
core is retired. -/
theorem Flying.settle {result : Option (Result Unit)} (h : Flying core₀ s f)
    (hresult : result ≠ some (.ok ())) (hpart : Part f.item f.sent)
    (hcore : f.sent = [] ∧ f.lost = false ∧ f.op.core = core₀ ∨
      (f.sent ≠ [] ∨ f.lost = true) ∧ f.op.core.retired ≠ none) :
    Sound core₀ (s.settle f result) := by
  refine ⟨h.logged.snoc (fun _ => h.accepted) ?_ (fun _ => hpart) ?_, ?_, ?_⟩
  · intro hok
    exact absurd hok hresult
  · intro b hb hunclean
    exact absurd (h.clean b hb) hunclean
  · simp [WriterSession.settle, h.sink]
  · rcases hcore with ⟨hsent, hopen, hcore⟩ | ⟨hspoiled, hretired⟩
    · refine .inl ⟨?_, hcore⟩
      intro e he
      rcases List.mem_append.mp he with he | he
      · exact h.clean e he
      · obtain rfl := List.mem_singleton.mp he
        exact .inr ⟨hsent, hopen⟩
    · refine .inr ⟨⟨_, List.mem_append_right _ List.mem_cons_self, ?_⟩, hretired⟩
      rintro (hok | ⟨hsent, hopen⟩)
      · exact hresult hok
      · have hopen' : f.lost = false := hopen
        rw [hopen'] at hspoiled
        exact hspoiled.elim (fun hne => hne hsent) Bool.false_ne_true

/-- The call succeeds. -/
theorem Flying.succeed (h : Flying core₀ s f) (hfresh : core₀.retired = none)
    (hwhole : bytesOf f.item.tensors = some f.sent) (htorn : f.op.core.torn = false) :
    Sound core₀ (s.settle f (some (.ok ()))) := by
  refine ⟨h.logged.snoc (fun _ => h.accepted) (fun _ => hwhole) (fun hfailed => absurd rfl hfailed)
    ?_, ?_,
    .inl ⟨?_, ?_⟩⟩
  · intro b hb hunclean
    exact absurd (h.clean b hb) hunclean
  · simp [WriterSession.settle, h.sink]
  · intro e he
    rcases List.mem_append.mp he with he | he
    · exact h.clean e he
    · obtain rfl := List.mem_singleton.mp he
      exact .inl rfl
  · obtain ⟨hunusable, htorn₀⟩ := StreamWriterCore.retired_eq_none.mp hfresh
    have hsync := h.sync
    have hu := h.kept.usable
    show f.op.core = core₀
    cases hcore : f.op.core
    cases core₀
    simp_all

/-- An operation whose item was not touched leaves the core as it was. -/
theorem Flying.core_of_untouched (h : Flying core₀ s f) (hsent : f.sent = []) :
    f.op.core = core₀ := by
  rw [← h.before]
  exact (StreamWriterCore.left_of_submit (h.kept.untouched hsent)).1

/-- An operation in the middle of its item has torn the core. -/
theorem torn_of_remaining (h : f.Kept) (hpos : 0 < f.op.remaining) (hsent : f.sent ≠ []) :
    f.op.core.retired ≠ none := by
  have htorn : f.op.core.torn = true := by
    refine (h.torn hsent).resolve_right ?_
    intro hwhole
    obtain ⟨b, hb, hnil⟩ := Option.map_eq_some_iff.mp (h.left.symm.trans hwhole)
    obtain rfl : b = [] := by simpa using hnil
    have hprefix := (WriteOp.outputSrc_prefix_left hb).length_le
    rw [WriteOp.length_outputSrc, List.length_nil] at hprefix
    omega
  intro hretired
  have hfalse := (StreamWriterCore.retired_eq_none.mp hretired).2
  rw [htorn] at hfalse
  cases hfalse

/-- What was sent in the middle of an item is a part of it. -/
theorem part_of_remaining (h : f.Kept) (hpos : 0 < f.op.remaining) : Part f.item f.sent := by
  refine ⟨h.prefix_slices, ?_⟩
  intro b hb
  obtain ⟨c, hc, rfl⟩ := Option.map_eq_some_iff.mp (h.left.symm.trans hb)
  refine ⟨List.prefix_append _ _, ?_⟩
  have hprefix := (WriteOp.outputSrc_prefix_left hc).length_le
  rw [WriteOp.length_outputSrc] at hprefix
  rw [List.length_append]
  omega

/-- The sink fails, or the call is dropped. -/
theorem Flying.interrupt {result : Option (Result Unit)} (h : Flying core₀ s f)
    (hpos : 0 < f.op.remaining) (hresult : result ≠ some (.ok ())) :
    Sound core₀ (s.settle f result) := by
  refine h.settle hresult (part_of_remaining h.kept hpos) ?_
  by_cases hsent : f.sent = []
  · exact .inl ⟨hsent, h.lost, h.core_of_untouched hsent⟩
  · exact .inr ⟨.inl hsent, torn_of_remaining h.kept hpos hsent⟩

theorem Flying.goOn (h : Flying core₀ s f) (hfresh : core₀.retired = none) :
    Sound core₀ (s.goOn f) := by
  have hkept := h.kept.step
  obtain ⟨-, -, houtcome⟩ := WriteOp.step_effect h.kept.usable
  have hflying (hsync : f.step.op.core.enforceCrossMachineSync = core₀.enforceCrossMachineSync) :
      Flying core₀ s f.step := ⟨h.logged, h.accepted, h.clean, h.sink, h.before, h.lost, hkept, hsync⟩
  unfold WriterSession.goOn
  rcases houtcome with ⟨hr, hpos, hcore⟩ | ⟨hr, hdone, hcore⟩ | ⟨⟨e, hr⟩, hfailed, hcore⟩
  · rw [hr]
    refine ⟨?_, hpos⟩
    obtain ⟨hlogged, haccepted, hclean, hsink, hbefore, hlost, hkept', hsync⟩ := hflying (by
      show f.op.step.2.core.enforceCrossMachineSync = _
      rw [hcore]
      exact h.sync)
    exact ⟨hlogged, haccepted, hclean, hsink, hbefore, hlost, hkept', hsync⟩
  · rw [hr]
    refine (hflying ?_).succeed hfresh ?_ ?_
    · show f.op.step.2.core.enforceCrossMachineSync = _
      rw [hcore]
      exact h.sync
    · show bytesOf f.item.tensors = some f.sent
      have hleft := hkept.left
      rw [show f.step.op.left = _ from WriteOp.left_of_done hdone] at hleft
      simpa [Flight.step] using hleft
    · show f.op.step.2.core.torn = false
      rw [hcore]
  · rw [hr]
    have hflying' := hflying (by
      show f.op.step.2.core.enforceCrossMachineSync = _
      rw [hcore]
      exact h.sync)
    have htorn := hkept.torn_of_failed hfailed
    have hretired : f.step.op.core.retired ≠ none := by
      intro hretired
      have hfalse := (StreamWriterCore.retired_eq_none.mp hretired).2
      rw [htorn] at hfalse
      cases hfalse
    have hpart : Part f.step.item f.step.sent := by
      refine ⟨hkept.prefix_slices, ?_⟩
      intro b hb
      have hleft := hkept.left
      rw [show f.step.op.left = none from WriteOp.left_of_failed hfailed, hb] at hleft
      cases hleft
    refine hflying'.settle (by simp) hpart (.inr ⟨.inl ?_, hretired⟩)
    intro hsent
    rw [hflying'.core_of_untouched hsent] at hretired
    exact hretired hfresh

theorem Flying.answer (h : Flying core₀ s f) (hcall : s.call = some f) (hpos : 0 < f.op.remaining)
    (hfresh : core₀.retired = none) (a : SinkAnswer) : Sound core₀ (s.answer f a) := by
  cases a with
  | interrupted =>
    show Sound core₀ s
    unfold Sound
    rw [hcall]
    exact ⟨h, hpos⟩
  | failed kind => exact h.interrupt hpos (by simp [Exec.fail])
  | wrote n =>
    unfold WriterSession.answer
    dsimp only
    by_cases hzero : min n f.op.remaining = 0
    · rw [if_pos hzero]
      have hclosed : f.sinkClosed.op.core.retired ≠ none := by
        simp [Flight.sinkClosed, WriteOp.reportSinkClosed, StreamWriterCore.retired]
      have hpart := part_of_remaining h.kept hpos
      refine ⟨h.logged.snoc (fun _ => h.accepted) ?_ (fun _ => hpart) ?_, ?_,
        .inr ⟨⟨_, List.mem_append_right _ List.mem_cons_self, ?_⟩, hclosed⟩⟩
      · intro hok
        cases hok
      · intro b hb hunclean
        exact absurd (h.clean b hb) hunclean
      · simp [WriterSession.settle, Flight.sinkClosed, h.sink]
      · rintro (hok | ⟨-, hopen⟩)
        · cases hok
        · cases hopen
    · rw [if_neg hzero]
      have hn : 0 < min n f.op.remaining := Nat.pos_of_ne_zero hzero
      have hle : min n f.op.remaining ≤ f.op.remaining := Nat.min_le_right _ _
      have haccept := WriteOp.reportWritten_accepted h.kept.usable hn hle
      have hreport : f.report (min n f.op.remaining) =
          { f with op := f.op.accepted (min n f.op.remaining),
                   sent := f.sent ++ f.op.outputSrc.take (min n f.op.remaining) } := by
        unfold Flight.report
        rw [haccept]
      rw [haccept]
      dsimp only
      rw [hreport]
      refine Flying.goOn ⟨h.logged, h.accepted, h.clean, ?_, h.before, h.lost,
        h.kept.accepted hn hle, ?_⟩ hfresh
      · simp [h.sink]
      · show (f.op.accepted _).core.enforceCrossMachineSync = _
        unfold WriteOp.accepted
        split <;> exact h.sync

theorem Resting.write (h : Resting core₀ s) (hcall : s.call = none) (hfresh : core₀.retired = none)
    (item : CompositeNode) : Sound core₀ (s.write item) := by
  unfold WriterSession.write
  split
  · next e he =>
    unfold Sound
    dsimp only
    rw [hcall]
    refine ⟨h.logged.snoc (by simp [WriterEntry.Succeeded]) (by simp [WriterEntry.Succeeded])
      (fun _ => part_nil item) ?_, by simp [h.sink], ?_⟩
    · intro b hb hunclean
      rcases h.core with ⟨hclean, -⟩ | ⟨-, hretired⟩
      · exact absurd (hclean b hb) hunclean
      · obtain ⟨reason, hreason⟩ := WriterLife.submit_of_retired hretired item
        rw [he] at hreason
        exact ⟨rfl, rfl, reason, congrArg some (congrArg Except.error (Except.error.inj hreason))⟩
    · rcases h.core with ⟨hclean, hcore⟩ | ⟨⟨b, hb, hunclean⟩, hretired⟩
      · refine .inl ⟨?_, hcore⟩
        intro e' he'
        rcases List.mem_append.mp he' with he' | he'
        · exact hclean e' he'
        · obtain rfl := List.mem_singleton.mp he'
          exact .inr ⟨rfl, rfl⟩
      · exact .inr ⟨⟨b, List.mem_append_left _ hb, hunclean⟩, hretired⟩
  · next op hop =>
    obtain ⟨hopcore, hretired, -⟩ := StreamWriterCore.left_of_submit hop
    obtain ⟨hclean, hcore⟩ := h.core.resolve_right fun hspoiled => hspoiled.2 hretired
    refine Flying.goOn ⟨h.logged, ⟨op, hcore ▸ hop⟩, hclean, by simp [h.sink], hcore, rfl,
      Flight.kept_of_submit hop, ?_⟩ hfresh
    show op.core.enforceCrossMachineSync = _
    rw [hopcore, hcore]

theorem Sound.act (h : Sound core₀ s) (hfresh : core₀.retired = none) (m : WriterMove) :
    Sound core₀ (s.act m) := by
  unfold WriterSession.act
  split
  · next item hcall =>
    unfold Sound at h
    rw [hcall] at h
    exact h.write hcall hfresh item
  · next f a hcall =>
    unfold Sound at h
    rw [hcall] at h
    exact h.1.answer hcall h.2 hfresh a
  · next f hcall =>
    unfold Sound at h
    rw [hcall] at h
    exact h.1.interrupt h.2 (by simp)
  · exact h

theorem sound_run (hfresh : core₀.retired = none) (moves : List WriterMove) :
    Sound core₀ (run core₀ moves) := by
  unfold run
  refine List.foldlRecOn moves WriterSession.act ?_ ?_
  · refine ⟨⟨?_, ?_, ?_, List.Pairwise.nil⟩, rfl, .inl ⟨?_, rfl⟩⟩
    · intro e he
      cases he
    · intro e he
      cases he
    · intro e he
      cases he
    · intro e he
      cases he
  · intro s hs m _
    exact hs.act hfresh m

/-! ### The sink -/

/-- What holds of a writer at every moment. The sink has what its calls sent, in order. A call that
succeeded sent all of its item, any other a part of it, and what is not a valid item sends nothing.
As long as every call was clean the core is as it was at first; after one that was not, every call
is refused. -/
structure Wired (core₀ : StreamWriterCore) (s : WriterSession) : Prop where
  sink : s.sink = s.log.flatMap WriterEntry.sent ++ s.sending
  logged : Logged core₀ s.log
  sending : ∀ f, s.call = some f → (∃ op, core₀.submit f.item = .ok op) ∧ Part f.item f.sent ∧
    ∀ e ∈ s.log, e.Clean
  fresh : s.call = none → (∀ e ∈ s.log, e.Clean) → s.core = core₀
  retired : s.call = none → (∃ e ∈ s.log, ¬ e.Clean) →
    ∀ item, ∃ reason, s.core.submit item = Exec.fail (.coreUnusable reason)

theorem Sound.wired (h : Sound core₀ s) : Wired core₀ s := by
  unfold Sound at h
  cases hcall : s.call with
  | none =>
    rw [hcall] at h
    refine ⟨by simp [h.sink, WriterSession.sending, hcall], h.logged, by simp [hcall], ?_, ?_⟩
    · intro _ hclean
      rcases h.core with ⟨-, hcore⟩ | ⟨⟨e, he, hunclean⟩, -⟩
      · exact hcore
      · exact absurd (hclean e he) hunclean
    · rintro _ ⟨e, he, hunclean⟩
      rcases h.core with ⟨hclean, -⟩ | ⟨-, hretired⟩
      · exact absurd (hclean e he) hunclean
      · exact WriterLife.submit_of_retired hretired
  | some f =>
    rw [hcall] at h
    obtain ⟨hf, hpos⟩ := h
    refine ⟨by simp [hf.sink, WriterSession.sending, hcall], hf.logged, ?_, by simp [hcall],
      by simp [hcall]⟩
    intro g hg
    obtain rfl : f = g := by simpa [hcall] using hg
    exact ⟨hf.accepted, part_of_remaining hf.kept hpos, hf.clean⟩

theorem run_wired (hfresh : core₀.retired = none) (moves : List WriterMove) :
    Wired core₀ (run core₀ moves) := (sound_run hfresh moves).wired

/-- A call that is dropped after three bytes, and the one that follows it. -/
theorem run_wired_dropped : Wired .new (run .new [.write workedNode, .sink .interrupted,
    .sink (.wrote 3), .drop, .write (.tensor workedExample [List.replicate 192 7])]) :=
  run_wired rfl _

end WriterSession
end Hurray.Stream
