import Hurray.Python.Readiness
import Hurray.Stream.Transfer

/-!
The asynchronous writer of the Python binding. A task submits an item and writes what the sink
takes, again and again, and may be cancelled where it waits for the sink. While its item is in
flight no other task is let in, and an item that was cut off after its first byte ends the stream
for all of them.
-/
namespace Hurray.Python
open Hurray.Base Hurray.Stream

/-- How a call of `write` ends. `interrupted` is an end of the wait that is not a cancellation. -/
inductive WriteReply where
  | written
  | raised (e : Fault Error)
  | cancelled
  | interrupted
  | busy
  | poisoned
  | finished
  | noItem

/-- Why a pump comes back: the sink is not ready, the item is written, or an error. -/
inductive PumpEnd where
  | blocked
  | ready
  | raised (e : Fault Error)

/-- The writer that the extension hands to Python. An operation in flight borrows the core, so that
`core` is only current with none. -/
structure AsyncStreamWriter where
  op : Option WriteOp
  core : StreamWriterCore

namespace AsyncStreamWriter

def new (core : StreamWriterCore) : AsyncStreamWriter := ⟨none, core⟩

/-- Ends the item in flight. -/
def release (w : AsyncStreamWriter) : AsyncStreamWriter :=
  match w.op with
  | none => w
  | some op => ⟨none, op.core⟩

def abandon (w : AsyncStreamWriter) : AsyncStreamWriter := w.release

/-- No item is in flight, and the core refuses all that would come. -/
def poisoned (w : AsyncStreamWriter) : Bool := w.op.isNone && w.core.retired.isSome

/-- `begin_tensor` and `begin_composite`. -/
def begin (w : AsyncStreamWriter) (item : CompositeNode) :
    Except WriteReply Unit × AsyncStreamWriter :=
  match w.op with
  | some _ => (.error .busy, w)
  | none =>
      match w.core.submit item with
      | .ok op => (.ok (), { w with op := some op })
      | .error e => (.error (.raised e), w.release)

/-- The writes of a pump. The sink accepts no more than it was given, and blocks where no result is
left. -/
def pumpInner (op : WriteOp) (sink : Bytes) (results : List SinkAnswer) :
    PumpEnd × WriteOp × Bytes :=
  match op.step with
  | (.error e, op) => (.raised e, op, sink)
  | (.ok .itemWritten, op) => (.ready, op, sink)
  | (.ok (.output _), op) =>
      match results with
      | [] => (.blocked, op, sink)
      | .interrupted :: _ => (.blocked, op, sink)
      | .failed kind :: _ => (.raised (.error (.io kind)), op, sink)
      | .wrote n :: results =>
          let n := min n op.remaining
          if n = 0 then (.raised (.error op.reportSinkClosed.1), op.reportSinkClosed.2, sink)
          else
            let sink := sink ++ op.outputSrc.take n
            match op.reportWritten n with
            | (.error e, op) => (.raised e, op, sink)
            | (.ok _, op) => pumpInner op sink results

end AsyncStreamWriter

/-- What the event loop does next. A task that was called is resumed, and its writes come back with
the results. A wait ends by a cancellation or by some other exception. -/
inductive WriterTurn where
  | call (task : ℕ) (item : CompositeNode) (results : List SinkAnswer)
  | ready
  | resume (results : List SinkAnswer)
  | cancel (task : ℕ)
  | interrupt (task : ℕ)
  | finish

/-- A writer and the tasks around it, with the items of the calls that wait, the bytes on the sink
and the calls that are over. -/
structure WriterLoop where
  writer : AsyncStreamWriter
  sink : Bytes
  readiness : Readiness
  frames : List (ℕ × CompositeNode)
  done : Bool
  replies : List (ℕ × CompositeNode × WriteReply)

namespace WriterLoop
variable (l : WriterLoop)

def start (core : StreamWriterCore) : WriterLoop := ⟨.new core, [], .new, [], false, []⟩

def reply (task : ℕ) (item : CompositeNode) (r : WriteReply) : WriterLoop :=
  { l with replies := l.replies ++ [(task, item, r)] }

/-- `write` from a pump to its next wait. -/
def pump (task : ℕ) (item : CompositeNode) (results : List SinkAnswer) : WriterLoop :=
  match l.writer.op with
  | none => l.reply task item .noItem
  | some op =>
      match AsyncStreamWriter.pumpInner op l.sink results with
      | (.blocked, op, sink) =>
          { l with writer := { l.writer with op := some op }, sink,
                   readiness := l.readiness.wait task, frames := (task, item) :: l.frames }
      | (.ready, op, sink) =>
          ({ l with writer := ⟨none, op.core⟩, sink } : WriterLoop).reply task item .written
      -- a panic does not come by the release
      | (.raised .panic, op, sink) =>
          ({ l with writer := { l.writer with op := some op }, sink } : WriterLoop).reply task item
            (.raised .panic)
      | (.raised e, op, sink) =>
          ({ l with writer := ⟨none, op.core⟩, sink } : WriterLoop).reply task item (.raised e)

/-- A task stops waiting. -/
def leave (task : ℕ) : WriterLoop :=
  { l with readiness := l.readiness.leave task,
           frames := l.frames.filter fun frame => frame.1 ≠ task }

/-- `write` up to its first wait. -/
def write (task : ℕ) (item : CompositeNode) (results : List SinkAnswer) : WriterLoop :=
  if l.done then l.reply task item .finished
  else if l.writer.poisoned then l.reply task item .poisoned
  else
    match l.writer.begin item with
    | (.error r, writer) => ({ l with writer } : WriterLoop).reply task item r
    | (.ok _, writer) => ({ l with writer } : WriterLoop).pump task item results

/-- One turn. A task that waits makes no other call, and a finished writer is gone for new calls
only. -/
def act : WriterTurn → WriterLoop
  | .call task item results =>
      match l.frames.lookup task with
      | some _ => l
      | none => l.write task item results
  | .ready => { l with readiness := l.readiness.ready }
  | .resume results =>
      match l.readiness.woken with
      | none => l
      | some task =>
          match l.frames.lookup task with
          | none => l
          | some item => (l.leave task).pump task item results
  | .cancel task =>
      match l.frames.lookup task with
      | none => l
      | some item =>
          ({ l.leave task with writer := l.writer.abandon } : WriterLoop).reply task item .cancelled
  | .interrupt task =>
      match l.frames.lookup task with
      | none => l
      | some item => (l.leave task).reply task item .interrupted
  | .finish => { l with done := true }

def run (core : StreamWriterCore) (turns : List WriterTurn) : WriterLoop := turns.foldl act (start core)

end WriterLoop
/-! ### A pump does not panic -/

theorem encodeTiled_safe (depth : ℕ) (l : Core.TiledLayout) :
    (Descriptor.encodeTiled depth l).Safe := by
  induction l generalizing depth with
  | flat lv =>
    rw [Descriptor.encodeTiled]
    exact Exec.safe_bind Exec.reject_ne_panic fun _ _ => Exec.ok_ne_panic
  | nested lv inner ih =>
    rw [Descriptor.encodeTiled]
    refine Exec.safe_bind Exec.reject_ne_panic ?_
    intro _ _
    split_ifs
    · exact Exec.safe_bind (ih (depth + 1)) fun _ _ => Exec.ok_ne_panic
    · exact Exec.ok_ne_panic

theorem encode_safe (d : Descriptor.TensorDescriptor) : (Descriptor.encode d).Safe := by
  have hpayload (layout : Core.LayoutDescriptor) (rank : UInt32) :
      (Descriptor.encodeLayoutPayload layout rank).Safe := by
    cases layout with
    | tiled l => exact encodeTiled_safe 0 l
    | csf l => exact Exec.safe_bind Exec.reject_ne_panic fun _ _ => Exec.ok_ne_panic
    | unknown l => exact Exec.fail_ne_panic
    | _ => exact Exec.ok_ne_panic
  have hunpatched : (Descriptor.encodeUnpatched d).Safe := by
    refine Exec.safe_bind (hpayload _ _) ?_
    intro _ _
    refine Exec.safe_bind Exec.reject_ne_panic ?_
    intro _ _
    exact Exec.safe_bind Exec.reject_ne_panic fun _ _ => Exec.ok_ne_panic
  refine Exec.safe_bind hunpatched ?_
  intro _ _
  exact Exec.safe_bind Exec.reject_ne_panic fun _ _ => Exec.ok_ne_panic

section Op
variable {op op' : WriteOp}

theorem beginNode_ne_panic {node : CompositeNode} {stack : List Frame} :
    (op.beginNode node stack).1 ≠ Exec.panic := by
  have hsafe : Exec.mapError Error.core (Descriptor.encode node.descriptor) ≠ Exec.panic := by
    rw [Ne, Exec.mapError_eq_panic]
    exact encode_safe _
  unfold WriteOp.beginNode
  split
  · next e he =>
    intro hpanic
    rw [he] at hsafe
    exact hsafe (congrArg Except.error (Except.error.inj hpanic))
  · split <;> exact Exec.ok_ne_panic

theorem beginPayload_ne_panic {index : ℕ} : (op.beginPayload index).1 ≠ Exec.panic := by
  unfold WriteOp.beginPayload WriteOp.nextNode
  split
  · exact Exec.ok_ne_panic
  · split
    · exact Exec.ok_ne_panic
    · exact beginNode_ne_panic

theorem stepLoop_ne_panic (op : WriteOp) : op.stepLoop.1 ≠ Exec.panic := by
  fun_induction WriteOp.stepLoop op with
  | case1 op hs => exact Exec.fail_ne_panic
  | case2 op hs | case3 op hs hlt => exact Exec.ok_ne_panic
  | case4 op hs hlt u op' h ih | case7 op index hs hlt u op' h ih => exact ih
  | case5 op hs hlt f op' h =>
    have hbegin := @beginPayload_ne_panic op 0
    rw [h] at hbegin
    exact fun hpanic => hbegin (congrArg Except.error (Except.error.inj hpanic))
  | case6 op index hs hlt => exact Exec.ok_ne_panic
  | case8 op index hs hlt f op' h =>
    have hbegin := @beginPayload_ne_panic op (index + 1)
    rw [h] at hbegin
    exact fun hpanic => hbegin (congrArg Except.error (Except.error.inj hpanic))

theorem step_ne_panic (op : WriteOp) : op.step.1 ≠ Exec.panic := by
  unfold WriteOp.step
  split
  · exact Exec.fail_ne_panic
  · exact stepLoop_ne_panic op

theorem reportWritten_ne_panic {n : ℕ} : (op.reportWritten n).1 ≠ Exec.panic := by
  unfold WriteOp.reportWritten
  split
  · exact Exec.fail_ne_panic
  · split_ifs
    · exact Exec.fail_ne_panic
    · exact Exec.fail_ne_panic
    · exact Exec.fail_ne_panic
    all_goals exact Exec.ok_ne_panic

/-- The step before a write that was offered. -/
theorem step_of_remaining (hu : op.core.unusable = none) (h : 0 < op.remaining) :
    op.step = (.ok (.output op.remaining), op) := by
  rw [WriteOp.step_eq_stepLoop hu, WriteOp.stepLoop_of_remaining h]

end Op

/-! ### A pump is moves of one call -/

namespace AsyncStreamWriter
variable {f : Flight} {results : List SinkAnswer} {e : Fault Error}

/-- What a past call of a session came to. -/
def verdict (e : WriterEntry) : CompositeNode × Option (Result Unit) := (e.item, e.result)

/-- Where a pump of an item leaves a session. -/
def Pumped (s : WriterSession) (item : CompositeNode) (s' : WriterSession) :
    PumpEnd × WriteOp × Bytes → Prop
  | (.blocked, op, sink) => s'.sink = sink ∧ s'.log = s.log ∧
      ∃ f, s'.call = some f ∧ f.op = op ∧ f.item = item
  | (.ready, op, sink) => s'.sink = sink ∧ s'.call = none ∧ s'.core = op.core ∧
      s'.log.map verdict = s.log.map verdict ++ [(item, some (.ok ()))]
  | (.raised e, op, sink) => e ≠ .panic ∧ s'.sink = sink ∧ s'.call = none ∧ s'.core = op.core ∧
      s'.log.map verdict = s.log.map verdict ++ [(item, some (.error e))]

theorem pumped_error {s : WriterSession} {sink : Bytes} (he : e ≠ .panic) (hsink : s.sink = sink) :
    Pumped s f.item (s.settle f (some (.error e))) (.raised e, f.op, sink) :=
  ⟨he, hsink, rfl, rfl, by simp [WriterSession.settle, verdict]⟩

theorem fault_ne_panic {α : Type} {r : Result α} (hr : r ≠ Exec.panic) (h : r = .error e) :
    e ≠ .panic := by
  rintro rfl
  exact hr h

/-- A step that offers nothing ends the call. -/
theorem pumped_of_step (s : WriterSession) (f : Flight) (results : List SinkAnswer)
    (hout : ∀ n, f.op.step.1 ≠ .ok (.output n)) :
    Pumped s f.item (s.goOn f) (pumpInner f.op s.sink results) := by
  rw [pumpInner.eq_def]
  unfold WriterSession.goOn
  rcases hstep : f.op.step with ⟨e | (n | _), op⟩
  · have he := fault_ne_panic (step_ne_panic f.op) (congrArg Prod.fst hstep)
    have hop : f.step.op = op := congrArg Prod.snd hstep
    rw [← hop]
    exact @pumped_error f.step e s s.sink he rfl
  · exact absurd (congrArg Prod.fst hstep) (hout n)
  · have hop : f.step.op = op := congrArg Prod.snd hstep
    rw [← hop]
    exact ⟨rfl, rfl, rfl, by simp [WriterSession.settle, verdict, Flight.step]⟩

/-- A step that offers bytes waits for the sink. -/
theorem goOn_of_output {s : WriterSession} {n : ℕ} {op : WriteOp}
    (h : f.op.step = (.ok (.output n), op)) :
    s.goOn f = { s with call := some { f with op } } := by
  unfold WriterSession.goOn
  rw [h]
  simp only [Flight.step, h]

/-- The writes of a pump are moves of a session in which the call goes on. -/
theorem exists_pumped (s : WriterSession) (f : Flight) (results : List SinkAnswer) :
    ∃ answers : List SinkAnswer, Pumped s f.item
      ((answers.map WriterMove.sink).foldl WriterSession.act (s.goOn f))
      (pumpInner f.op s.sink results) := by
  induction results generalizing s f with
  | nil =>
    by_cases hout : ∀ n, f.op.step.1 ≠ .ok (.output n)
    · exact ⟨[], pumped_of_step s f [] hout⟩
    · push Not at hout
      obtain ⟨n, hn⟩ := hout
      have hstep : f.op.step = (.ok (.output n), f.op.step.2) := Prod.ext hn rfl
      refine ⟨[], ?_⟩
      rw [pumpInner.eq_def, hstep, goOn_of_output hstep]
      exact ⟨rfl, rfl, _, rfl, rfl, rfl⟩
  | cons a results ih =>
    by_cases hout : ∀ n, f.op.step.1 ≠ .ok (.output n)
    · exact ⟨[], pumped_of_step s f (a :: results) hout⟩
    · push Not at hout
      obtain ⟨n, hn⟩ := hout
      obtain ⟨op, hop⟩ : ∃ op, op = f.op.step.2 := ⟨_, rfl⟩
      have hstep : f.op.step = (.ok (.output n), op) := Prod.ext hn hop.symm
      rw [pumpInner.eq_def, hstep, goOn_of_output hstep]
      cases a with
      | interrupted => exact ⟨[], rfl, rfl, _, rfl, rfl, rfl⟩
      | failed kind =>
        refine ⟨[.failed kind], ?_⟩
        exact @pumped_error { f with op } (.error (.io kind)) _ s.sink (by simp) rfl
      | wrote m =>
        dsimp only
        have hact : WriterSession.act { s with call := some { f with op } } (.sink (.wrote m)) =
            WriterSession.answer { s with call := some { f with op } } { f with op } (.wrote m) := rfl
        split_ifs with hzero
        · refine ⟨[.wrote m], ?_⟩
          rw [List.map_singleton, List.foldl_cons, List.foldl_nil, hact, WriterSession.answer,
            if_pos hzero]
          exact @pumped_error ({ f with op } : Flight).sinkClosed _ _ s.sink (by simp) rfl
        · rcases hr : op.reportWritten (min m op.remaining) with ⟨e | u, op'⟩
          · have he := fault_ne_panic reportWritten_ne_panic (congrArg Prod.fst hr)
            have hreport : (({ f with op } : Flight).report (min m op.remaining)).op = op' := by
              simp only [Flight.report, hr]
            refine ⟨[.wrote m], ?_⟩
            rw [List.map_singleton, List.foldl_cons, List.foldl_nil, hact, WriterSession.answer,
              if_neg hzero]
            dsimp only
            rw [hr, ← hreport]
            exact ⟨he, rfl, rfl, rfl, by simp [WriterSession.settle, verdict, Flight.report, hr]⟩
          · obtain ⟨g, hg⟩ : ∃ g, g = ({ f with op } : Flight).report (min m op.remaining) := ⟨_, rfl⟩
            have hop : g.op = op' := by
              simp only [hg, Flight.report, hr]
            have hitem : g.item = f.item := by
              simp only [hg, Flight.report, hr]
            obtain ⟨answers, hanswers⟩ := ih { s with
              call := some { f with op }, sink := s.sink ++ op.outputSrc.take (min m op.remaining) } g
            refine ⟨.wrote m :: answers, ?_⟩
            rw [List.map_cons, List.foldl_cons, hact, WriterSession.answer, if_neg hzero]
            dsimp only
            rw [hr, ← hg, ← hop, ← hitem]
            exact hanswers

end AsyncStreamWriter

/-! ### The tasks together are one caller -/

namespace WriterLoop
variable {l : WriterLoop} {w : WriterSession} {f : Flight} {task : ℕ} {item : CompositeNode}
  {core₀ : StreamWriterCore}

open AsyncStreamWriter

/-- What the core came to know of a call. -/
def settled : ℕ × CompositeNode × WriteReply → Option (CompositeNode × Option (Result Unit))
  | (_, item, .written) => some (item, some (.ok ()))
  | (_, item, .raised e) => some (item, some (.error e))
  | (_, item, .cancelled) => some (item, none)
  | (_, _, .interrupted) | (_, _, .busy) | (_, _, .poisoned) | (_, _, .finished)
  | (_, _, .noItem) => none

/-- The loop and a session of one caller stand at the same point. The call in flight is that of the
one task that waits, or of a task whose wait was interrupted. -/
structure Follows (l : WriterLoop) (w : WriterSession) : Prop where
  sink : w.sink = l.sink
  log : w.log.map verdict = l.replies.filterMap settled
  resting : w.call = none → l.writer = .new w.core ∧ l.frames = []
  flying : ∀ f, w.call = some f → l.writer.op = some f.op ∧
    ((∃ task, l.frames = [(task, f.item)]) ∨
      l.frames = [] ∧ ∃ task, (task, f.item, .interrupted) ∈ l.replies)

theorem settled_reply (l : WriterLoop) (task : ℕ) (item : CompositeNode) (r : WriteReply) :
    (l.reply task item r).replies.filterMap settled =
      l.replies.filterMap settled ++ (settled (task, item, r)).toList := by
  cases h : settled (task, item, r) <;> simp [reply, h]

/-- A reply that the core does not know of. -/
theorem Follows.reply {r : WriteReply} (h : Follows l w) (hr : settled (task, item, r) = none) :
    Follows (l.reply task item r) w := by
  refine ⟨h.sink, ?_, h.resting, ?_⟩
  · rw [settled_reply, hr, h.log]
    simp
  · intro f hf
    obtain ⟨hop, hframes⟩ := h.flying f hf
    refine ⟨hop, hframes.imp_right ?_⟩
    rintro ⟨hnil, task, hmem⟩
    exact ⟨hnil, task, List.mem_append_left _ hmem⟩

/-- A pump of the item in flight. -/
theorem exists_follows_pump (hop : l.writer.op = some f.op) (hsink : w.sink = l.sink)
    (hlog : w.log.map verdict = l.replies.filterMap settled) (hframes : l.frames = [])
    (task : ℕ) (results : List SinkAnswer) : ∃ answers : List SinkAnswer,
      Follows (l.pump task f.item results)
        ((answers.map WriterMove.sink).foldl WriterSession.act (w.goOn f)) := by
  obtain ⟨answers, hpumped⟩ := exists_pumped w f results
  refine ⟨answers, ?_⟩
  obtain ⟨w', hw'⟩ : ∃ w', w' = (answers.map WriterMove.sink).foldl WriterSession.act (w.goOn f) :=
    ⟨_, rfl⟩
  rw [← hw', hsink] at hpumped
  rw [← hw']
  unfold pump
  rw [hop]
  dsimp only
  rcases hinner : pumpInner f.op l.sink results with ⟨_ | _ | e, op, sink⟩ <;> rw [hinner] at hpumped
  · obtain ⟨hsink', hlog', g, hg, hgop, hgitem⟩ := hpumped
    refine ⟨hsink', by rw [hlog', hlog], by simp [hg], ?_⟩
    intro f' hf'
    obtain rfl : g = f' := Option.some.inj (hg.symm.trans hf')
    exact ⟨by rw [hgop], .inl ⟨task, by rw [hgitem, hframes]⟩⟩
  · obtain ⟨hsink', hcall, hcore, hlog'⟩ := hpumped
    refine ⟨hsink', ?_, fun _ => ⟨by rw [hcore]; rfl, hframes⟩, by simp [hcall]⟩
    rw [hlog', hlog, settled_reply, settled, Option.toList_some]
  · obtain ⟨he, hsink', hcall, hcore, hlog'⟩ := hpumped
    cases e with
    | panic => exact absurd rfl he
    | error e =>
      refine ⟨hsink', ?_, fun _ => ⟨by rw [hcore]; rfl, hframes⟩, by simp [hcall]⟩
      rw [hlog', hlog, settled_reply, settled, Option.toList_some]

/-- A call of a task that does not wait. -/
theorem Follows.write (h : Follows l w) (task : ℕ) (item : CompositeNode)
    (results : List SinkAnswer) :
    ∃ moves : List WriterMove, Follows (l.write task item results) (moves.foldl WriterSession.act w) := by
  unfold WriterLoop.write
  split_ifs with hdone hpoisoned
  · exact ⟨[], h.reply rfl⟩
  · exact ⟨[], h.reply rfl⟩
  · unfold AsyncStreamWriter.begin
    cases hcall : w.call with
    | some f =>
      obtain ⟨hop, -⟩ := h.flying f hcall
      rw [hop]
      exact ⟨[], h.reply rfl⟩
    | none =>
      obtain ⟨hwriter, hframes⟩ := h.resting hcall
      have hact : w.act (.write item) = w.write item := by
        simp [WriterSession.act, hcall]
      rw [hwriter]
      dsimp only [AsyncStreamWriter.new]
      rcases hsubmit : w.core.submit item with e | op
      · refine ⟨[.write item], ?_⟩
        rw [List.foldl_cons, List.foldl_nil, hact, WriterSession.write, hsubmit]
        refine ⟨h.sink, ?_, fun _ => ⟨rfl, hframes⟩, by simp [hcall]⟩
        rw [settled_reply, settled, Option.toList_some, List.map_append, h.log]
        rfl
      · obtain ⟨answers, hfollows⟩ := @exists_follows_pump { l with writer := ⟨some op, w.core⟩ } w
          ⟨item, w.core, op, [], false⟩ rfl h.sink h.log hframes task results
        refine ⟨.write item :: answers.map WriterMove.sink, ?_⟩
        rw [List.foldl_cons, hact, WriterSession.write, hsubmit]
        exact hfollows

/-- A task that waits has the item in flight. -/
theorem Follows.exists_flight (h : Follows l w) (hframe : l.frames.lookup task = some item) :
    ∃ f, w.call = some f ∧ f.item = item ∧ l.writer.op = some f.op ∧
      (l.leave task).frames = [] := by
  cases hcall : w.call with
  | none =>
    rw [(h.resting hcall).2] at hframe
    cases hframe
  | some f =>
    obtain ⟨hop, ⟨task', hframes⟩ | ⟨hnil, -⟩⟩ := h.flying f hcall
    · rw [hframes, List.lookup_cons] at hframe
      split at hframe
      · next heq =>
        obtain rfl : task = task' := by simpa using heq
        exact ⟨f, rfl, Option.some.inj hframe, hop, by simp [leave, hframes]⟩
      · cases hframe
    · rw [hnil] at hframe
      cases hframe

theorem Follows.act (h : Follows l w) (hsound : w.Sound core₀) (turn : WriterTurn) :
    ∃ moves : List WriterMove, Follows (l.act turn) (moves.foldl WriterSession.act w) := by
  unfold WriterLoop.act
  cases turn with
  | call task item results =>
    dsimp only
    split
    · exact ⟨[], h⟩
    · exact h.write task item results
  | ready => exact ⟨[], h.sink, h.log, h.resting, h.flying⟩
  | resume results =>
    dsimp only
    split
    · exact ⟨[], h⟩
    · split
      · exact ⟨[], h⟩
      · next item hframe =>
        obtain ⟨f, hcall, rfl, hop, hframes⟩ := h.exists_flight hframe
        rw [WriterSession.Sound, hcall] at hsound
        obtain ⟨answers, hfollows⟩ := @exists_follows_pump (l.leave _) w f hop h.sink h.log hframes
          _ results
        have hgoOn : w.goOn f = w := by
          rw [goOn_of_output (step_of_remaining hsound.1.kept.usable hsound.2)]
          show { w with call := some f } = w
          rw [← hcall]
        rw [hgoOn] at hfollows
        exact ⟨_, hfollows⟩
  | cancel task =>
    dsimp only
    split
    · exact ⟨[], h⟩
    · next item hframe =>
      obtain ⟨f, hcall, rfl, hop, hframes⟩ := h.exists_flight hframe
      have habandon : l.writer.abandon = .new f.op.core := by
        simp only [abandon, release, hop, AsyncStreamWriter.new]
      have hact : w.act .drop = w.settle f none := by
        simp [WriterSession.act, hcall]
      refine ⟨[.drop], ?_⟩
      rw [List.foldl_cons, List.foldl_nil, hact]
      refine ⟨h.sink, ?_, fun _ => ⟨habandon, hframes⟩, by simp [WriterSession.settle]⟩
      rw [settled_reply, settled, Option.toList_some, WriterSession.settle, List.map_append, h.log]
      rfl
  | interrupt task =>
    dsimp only
    split
    · exact ⟨[], h⟩
    · next item hframe =>
      obtain ⟨f, hcall, rfl, hop, hframes⟩ := h.exists_flight hframe
      refine ⟨[], h.sink, ?_, by simp [hcall], ?_⟩
      · rw [settled_reply, settled, Option.toList_none, List.append_nil]
        exact h.log
      · intro g hg
        obtain rfl : f = g := Option.some.inj (hcall.symm.trans hg)
        exact ⟨hop, .inr ⟨hframes, task, List.mem_append_right _ List.mem_cons_self⟩⟩
  | finish => exact ⟨[], h.sink, h.log, h.resting, h.flying⟩

/-- The turns of a loop are the moves of one caller. -/
theorem exists_follows (hfresh : core₀.retired = none) (turns : List WriterTurn) :
    ∃ moves, Follows (run core₀ turns) (WriterSession.run core₀ moves) := by
  induction turns using List.reverseRecOn with
  | nil => exact ⟨[], rfl, rfl, fun _ => ⟨rfl, rfl⟩, by simp [WriterSession.run, WriterSession.start]⟩
  | append_singleton turns turn ih =>
    obtain ⟨moves, h⟩ := ih
    obtain ⟨more, hmore⟩ := h.act (WriterSession.sound_run hfresh moves) turn
    refine ⟨moves ++ more, ?_⟩
    rw [run, List.foldl_append, WriterSession.run, List.foldl_append]
    exact hmore

/-! ### The sink -/

/-- The item of a call that returned. -/
def returned : ℕ × CompositeNode × WriteReply → Option CompositeNode
  | (_, item, .written) => some item
  | (_, _, .raised _) | (_, _, .cancelled) | (_, _, .interrupted) | (_, _, .busy)
  | (_, _, .poisoned) | (_, _, .finished) | (_, _, .noItem) => none

/-- The items of the calls that returned. -/
def written (l : WriterLoop) : List CompositeNode := l.replies.filterMap returned

/-- The item is one that a task called with. -/
def Called (l : WriterLoop) (item : CompositeNode) : Prop :=
  ∃ task, (task, item) ∈ l.frames ∨ ∃ r, (task, item, r) ∈ l.replies

theorem succeeded_eq {log : List WriterEntry} {replies : List (ℕ × CompositeNode × WriteReply)}
    (h : log.map verdict = replies.filterMap settled) :
    WriterSession.succeeded log = replies.filterMap returned := by
  induction replies generalizing log with
  | nil =>
    rw [List.map_eq_nil_iff.mp h]
    rfl
  | cons r replies ih =>
    obtain ⟨task, item, r⟩ := r
    have hsettled (v : CompositeNode × Option (Result Unit)) (hv : settled (task, item, r) = some v) :
        ∃ e log', log = e :: log' ∧ e.item = v.1 ∧ e.result = v.2 ∧
          WriterSession.succeeded log' = replies.filterMap returned := by
      rw [List.filterMap_cons_some hv] at h
      obtain ⟨e, log', rfl, rfl, hrest⟩ := List.map_eq_cons_iff.mp h
      exact ⟨e, log', rfl, rfl, rfl, ih hrest⟩
    have hskipped (result : Option (Result Unit)) (hv : settled (task, item, r) = some (item, result))
        (hresult : result ≠ some (.ok ())) :
        WriterSession.succeeded log = replies.filterMap returned := by
      obtain ⟨e, log', rfl, -, he, hrest⟩ := hsettled _ hv
      rw [← hrest]
      refine ((WriterSession.succeeded_cons e log').resolve_left ?_).2
      rintro ⟨hok, -⟩
      exact hresult (he.symm.trans hok)
    cases r with
    | written =>
      obtain ⟨e, log', rfl, hitem, he, hrest⟩ := hsettled _ rfl
      have hreturned : returned (task, item, .written) = some e.item := congrArg some hitem.symm
      rw [List.filterMap_cons_some hreturned, ← hrest]
      exact ((WriterSession.succeeded_cons e log').resolve_right fun hskip => hskip.1 he).2
    | raised f =>
      rw [List.filterMap_cons_none rfl]
      exact hskipped _ rfl (by simp)
    | cancelled =>
      rw [List.filterMap_cons_none rfl]
      exact hskipped _ rfl (by simp)
    | interrupted | busy | poisoned | finished | noItem =>
      rw [List.filterMap_cons_none rfl] at h ⊢
      exact ih h

theorem Follows.succeeded (h : Follows l w) : WriterSession.succeeded w.log = l.written :=
  succeeded_eq h.log

theorem Follows.called (h : Follows l w) (hitem : w.Submitted item) : l.Called item := by
  rcases hitem with ⟨e, he, rfl⟩ | ⟨f, hf, rfl⟩
  · have hmem : verdict e ∈ l.replies.filterMap settled := h.log ▸ List.mem_map_of_mem he
    obtain ⟨⟨task, item, r⟩, hr, hsettled⟩ := List.mem_filterMap.mp hmem
    have hitem : item = e.item := by
      cases r <;> simp [settled, verdict] at hsettled <;> exact hsettled.1
    exact ⟨task, .inr ⟨r, hitem ▸ hr⟩⟩
  · obtain ⟨-, ⟨task, hframes⟩ | ⟨-, task, hmem⟩⟩ := h.flying f hf
    · exact ⟨task, .inl (by simp [hframes])⟩
    · exact ⟨task, .inr ⟨_, hmem⟩⟩

theorem called_reply {i : CompositeNode} {r : WriteReply} (h : (l.reply task item r).Called i) :
    l.Called i ∨ i = item := by
  obtain ⟨task', hframe | ⟨r', hr⟩⟩ := h
  · exact .inl ⟨task', .inl hframe⟩
  · rcases List.mem_append.mp hr with hr | hr
    · exact .inl ⟨task', .inr ⟨r', hr⟩⟩
    · obtain ⟨-, hrest⟩ := Prod.mk.inj (List.mem_singleton.mp hr)
      exact .inr (Prod.mk.inj hrest).1

theorem called_pump {i : CompositeNode} {results : List SinkAnswer}
    (h : (l.pump task item results).Called i) : l.Called i ∨ i = item := by
  unfold pump at h
  split at h
  · exact called_reply h
  · split at h
    · obtain ⟨task', hframe | ⟨r, hr⟩⟩ := h
      · rcases List.mem_cons.mp hframe with heq | hframe
        · exact .inr (Prod.mk.inj heq).2
        · exact .inl ⟨task', .inl hframe⟩
      · exact .inl ⟨task', .inr ⟨r, hr⟩⟩
    all_goals exact called_reply h

theorem called_leave {i : CompositeNode} (h : (l.leave task).Called i) : l.Called i := by
  obtain ⟨task', hframe | hr⟩ := h
  · exact ⟨task', .inl (List.mem_filter.mp hframe).1⟩
  · exact ⟨task', .inr hr⟩

theorem called_of_lookup (h : l.frames.lookup task = some item) : l.Called item := by
  obtain ⟨before, after, heq, -⟩ := List.lookup_eq_some_iff.mp h
  exact ⟨task, .inl (by simp [heq])⟩

theorem called_act {i : CompositeNode} {turn : WriterTurn} (h : (l.act turn).Called i) :
    l.Called i ∨ ∃ task results, turn = .call task i results := by
  unfold act at h
  cases turn with
  | call task item results =>
    have hwrite : (l.write task item results).Called i → l.Called i ∨ i = item := by
      unfold write
      split_ifs
      · exact called_reply
      · exact called_reply
      · split
        · exact called_reply
        · exact called_pump
    dsimp only at h
    split at h
    · exact .inl h
    · refine (hwrite h).imp_right ?_
      rintro rfl
      exact ⟨task, results, rfl⟩
  | ready => exact .inl h
  | resume results =>
    dsimp only at h
    split at h
    · exact .inl h
    · split at h
      · exact .inl h
      · next item hframe =>
        rcases called_pump h with h | rfl
        · exact .inl (called_leave h)
        · exact .inl (called_of_lookup hframe)
  | cancel task =>
    dsimp only at h
    split at h
    · exact .inl h
    · next item hframe =>
      rcases called_reply h with h | rfl
      · exact .inl (@called_leave l task i h)
      · exact .inl (called_of_lookup hframe)
  | interrupt task =>
    dsimp only at h
    split at h
    · exact .inl h
    · next item hframe =>
      rcases called_reply h with h | rfl
      · exact .inl (called_leave h)
      · exact .inl (called_of_lookup hframe)
  | finish => exact .inl h

/-- Only items of calls are in a loop. -/
theorem mem_of_called {turns : List WriterTurn} {i : CompositeNode}
    (h : (run core₀ turns).Called i) : ∃ task results, .call task i results ∈ turns := by
  induction turns using List.reverseRecOn with
  | nil =>
    obtain ⟨task, hframe | ⟨r, hr⟩⟩ := h
    · cases hframe
    · cases hr
  | append_singleton turns turn ih =>
    rw [run, List.foldl_append] at h
    rcases called_act h with h | ⟨task, results, rfl⟩
    · obtain ⟨task, results, hmem⟩ := ih h
      exact ⟨task, results, List.mem_append_left _ hmem⟩
    · exact ⟨task, results, by simp⟩

/-- Nothing comes to the sink, and every call is turned away. -/
def Silent (before l : WriterLoop) : Prop :=
  l.sink = before.sink ∧
    ∀ r ∈ l.replies, r ∈ before.replies ∨ r.2.2 = .poisoned ∨ r.2.2 = .finished

theorem silent_act {before : WriterLoop} (hpoisoned : l.writer.poisoned = true)
    (hframes : l.frames = []) (h : Silent before l) (turn : WriterTurn) :
    (l.act turn).writer.poisoned = true ∧ (l.act turn).frames = [] ∧ Silent before (l.act turn) := by
  have hreply {task : ℕ} {item : CompositeNode} {r : WriteReply} (hr : r = .poisoned ∨ r = .finished) :
      Silent before (l.reply task item r) := by
    refine ⟨h.1, ?_⟩
    intro b hb
    rcases List.mem_append.mp hb with hb | hb
    · exact h.2 b hb
    · rw [List.mem_singleton.mp hb]
      exact .inr hr
  unfold act
  cases turn with
  | call task item results =>
    dsimp only
    rw [hframes]
    dsimp only [List.lookup]
    unfold write
    split_ifs with hdone
    · exact ⟨hpoisoned, hframes, hreply (.inr rfl)⟩
    · exact ⟨hpoisoned, hframes, hreply (.inl rfl)⟩
  | ready => exact ⟨hpoisoned, hframes, h⟩
  | resume results =>
    dsimp only
    split
    · exact ⟨hpoisoned, hframes, h⟩
    · rw [hframes]
      exact ⟨hpoisoned, hframes, h⟩
  | cancel task =>
    dsimp only
    rw [hframes]
    exact ⟨hpoisoned, hframes, h⟩
  | interrupt task =>
    dsimp only
    rw [hframes]
    exact ⟨hpoisoned, hframes, h⟩
  | finish => exact ⟨hpoisoned, hframes, h⟩

theorem silent_run (hpoisoned : l.writer.poisoned = true) (hframes : l.frames = [])
    (turns : List WriterTurn) : Silent l (turns.foldl act l) := by
  have hall : (turns.foldl act l).writer.poisoned = true ∧ (turns.foldl act l).frames = [] ∧
      Silent l (turns.foldl act l) := by
    induction turns using List.reverseRecOn with
    | nil => exact ⟨hpoisoned, hframes, rfl, fun r hr => .inl hr⟩
    | append_singleton turns turn ih =>
      rw [List.foldl_append]
      exact silent_act ih.1 ih.2.1 ih.2.2 turn
  exact hall.2.2

/-- Between two items. -/
theorem Follows.idle (h : Follows l w) (hsound : w.Sound core₀) (hop : l.writer.op = none) :
    l.frames = [] ∧ (¬ w.Torn ∧ l.writer = .new core₀ ∨ l.writer.poisoned = true) := by
  have hcall : w.call = none := by
    cases hcall : w.call with
    | none => rfl
    | some f =>
      rw [(h.flying f hcall).1] at hop
      cases hop
  obtain ⟨hwriter, hframes⟩ := h.resting hcall
  refine ⟨hframes, ?_⟩
  rw [WriterSession.Sound, hcall] at hsound
  rcases hsound.core with ⟨hclean, hcore⟩ | ⟨-, hretired⟩
  · refine .inl ⟨?_, by rw [hwriter, hcore]⟩
    rintro (hsending | ⟨e, he, hfailed, hsent⟩)
    · simp [WriterSession.sending, hcall] at hsending
    · exact hsent ((hclean e he).resolve_left hfailed).1
  · right
    simpa [hwriter, poisoned, AsyncStreamWriter.new, Option.isSome_iff_ne_none] using hretired

/-- The sink has the items of the calls that returned, in the order in which they did, and after
them at most a part of one other item. With no item in flight the writer is as new, or it is
poisoned: then nothing comes to the sink ever after, and every call is turned away. -/
theorem tasks_wired (hfresh : core₀.retired = none) (turns : List WriterTurn) :
    let l := run core₀ turns
    ∃ whole torn, bytesOf (l.written.flatMap CompositeNode.tensors) = some whole ∧
      l.sink = whole ++ torn ∧
      (torn ≠ [] → ∃ item, l.Called item ∧ (∃ op, core₀.submit item = .ok op) ∧
        WriterSession.Part item torn) ∧
      (l.writer.op = none →
        torn = [] ∧ l.writer = .new core₀ ∨
        l.writer.poisoned = true ∧ ∀ later : List WriterTurn, Silent l (later.foldl act l)) := by
  intro l
  obtain ⟨moves, h⟩ := exists_follows hfresh turns
  have hsound := WriterSession.sound_run hfresh moves
  obtain ⟨whole, torn, hwhole, hsink, htorn, hpart⟩ := hsound.wired.exists_whole
  rw [h.succeeded] at hwhole
  refine ⟨whole, torn, hwhole, h.sink.symm.trans hsink, ?_, ?_⟩
  · intro hne
    obtain ⟨item, hitem, hrest⟩ := hpart hne
    exact ⟨item, h.called hitem, hrest⟩
  · intro hop
    obtain ⟨hframes, ⟨hnot, hnew⟩ | hpoisoned⟩ := h.idle hsound hop
    · refine .inl ⟨?_, hnew⟩
      by_contra hne
      exact hnot (htorn.mp hne)
    · exact .inr ⟨hpoisoned, silent_run hpoisoned hframes⟩

/-- An item is written in parts, a second task is turned away meanwhile, and a third call is
cancelled after three bytes. -/
theorem tasks_wired_cancelled :
    let l := run .new [.call 1 workedNode [.wrote 7], .call 2 workedNode [], .ready,
      .resume [.interrupted], .ready, .resume [.wrote 4096, .wrote 4096, .wrote 4096],
      .call 2 (.tensor Descriptor.workedExample [List.replicate 192 7]) [.wrote 3], .cancel 2,
      .call 1 workedNode []]
    ∃ whole torn, bytesOf (l.written.flatMap CompositeNode.tensors) = some whole ∧
      l.sink = whole ++ torn ∧
      (torn ≠ [] → ∃ item, l.Called item ∧ (∃ op, StreamWriterCore.new.submit item = .ok op) ∧
        WriterSession.Part item torn) ∧
      (l.writer.op = none →
        torn = [] ∧ l.writer = .new .new ∨
        l.writer.poisoned = true ∧ ∀ later : List WriterTurn, Silent l (later.foldl act l)) :=
  tasks_wired rfl _

end WriterLoop
end Hurray.Python
