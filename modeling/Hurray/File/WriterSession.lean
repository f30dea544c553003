import Hurray.File.FileRoundtrip
import Hurray.File.WriterDriver

/-!
A file writer as its callers have it, from the header to the footer. A call waits for the sink at
every write, and may fail or be dropped there. Each move is matched by calls on the core, so that a
file that was finished is laid out as the format wants it; the log says which tensors it has.
-/
namespace Hurray.File
open Hurray.Base Hurray.Core Hurray.Descriptor Hurray.Stream

/-- A call on a writer. The first is the one that makes it, and the last consumes it. -/
inductive FileWriterCall where
  | withOptions
  | writeTensor (t : FileTensor)
  | writeComposite (headName : String) (head : TensorDescriptor) (members : List FileCompositeNode)
  | finish (kv : List (String × KvValue))

namespace FileWriterCall

/-- The tensors of a call, in the order of the file. -/
def tensors : FileWriterCall → List FileTensor
  | .writeTensor t => [t]
  | .writeComposite headName head members =>
      (FileCompositeNode.composite headName head members).tensors
  | .withOptions | .finish _ => []

/-- What the call submits to the core, one after the other. -/
def items : FileWriterCall → List FileSubmission
  | .withOptions => [.header]
  | .finish kv => [.finish kv]
  | call => call.tensors.map FileTensor.submission

/-- The metadata that the call puts into the footer. -/
def footer : FileWriterCall → Option (List (String × KvValue))
  | .finish kv => some kv
  | .withOptions | .writeTensor _ | .writeComposite _ _ _ => none

def begin (crc32c : Bytes → UInt32) (core : FileWriterCore) : FileWriterCall → WriteFuture
  | .withOptions =>
      match core.header with
      | .error e => .settle 0 core e
      | .ok op => .goOn (.submitNodes [] 1) 0 [] op
  | .writeTensor t => FileWriter.writeTensor core t.name t.descriptor t.buffers
  | .writeComposite headName head members => FileWriter.writeComposite core headName head members
  | .finish kv => FileWriter.finish crc32c core kv

end FileWriterCall

/-- A call that is over, with the number of its items that are out. A call that was dropped has no
result. -/
structure FileWriterEntry where
  call : FileWriterCall
  out : ℕ
  result : Option (Result Unit)

namespace FileWriterEntry

def items (e : FileWriterEntry) : List FileSubmission := e.call.items.take e.out

/-- The tensors of the call that are in the file. -/
def written (e : FileWriterEntry) : List FileTensor := e.call.tensors.take e.out

end FileWriterEntry

/-- Where a writer is. It is gone after its last call, and when it could not be made. -/
inductive FileWriterStage where
  | fresh (core : FileWriterCore)
  | idle (core : FileWriterCore)
  | waiting (call : FileWriterCall) (index : ℕ) (op : FileWriteOp) (rest : List CompositeWrite)
  | flushing (kv : List (String × KvValue)) (core : FileWriterCore)
  | gone
  | unwound

inductive FileWriterMove where
  | call (call : FileWriterCall)
  | sink (event : SinkEvent)
  | flushed (error : Option String)
  | drop

structure FileWriterSession where
  stage : FileWriterStage
  sink : Bytes
  log : List FileWriterEntry

namespace FileWriterSession
variable (crc32c : Bytes → UInt32) (s : FileWriterSession)

def start (core : FileWriterCore) : FileWriterSession := ⟨.fresh core, [], []⟩

/-- What is left of the writer when a call is over. -/
def stageAfter (core : FileWriterCore) : FileWriterCall → Option (Result Unit) → FileWriterStage
  | _, some (.error .panic) => .unwound
  | .finish _, _ => .gone
  | .withOptions, some (.ok _) => .idle core
  | .withOptions, _ => .gone
  | _, _ => .idle core

def conclude (call : FileWriterCall) (out : ℕ) (core : FileWriterCore)
    (result : Option (Result Unit)) : FileWriterSession where
  stage := stageAfter core call result
  sink := s.sink
  log := s.log ++ [⟨call, out, result⟩]

/-- A footer that is out is flushed. -/
def settle (call : FileWriterCall) : WriteFuture → FileWriterSession
  | .awaiting index op rest => { s with stage := .waiting call index op rest }
  | .returned out (some e) core => s.conclude call out core (some (.error (.error e)))
  | .unwound out core => s.conclude call out core (some Exec.panic)
  | .returned out none core =>
      match call with
      | .finish kv => { s with stage := .flushing kv core }
      | call => s.conclude call out core (some (.ok ()))

/-- A write comes back. The sink accepts no more than it was given. -/
def answer (call : FileWriterCall) (index : ℕ) (op : FileWriteOp) (rest : List CompositeWrite) :
    SinkEvent → FileWriterSession
  | .wrote n =>
      let n := min n op.offered
      ({ s with sink := s.sink ++ op.outputSrc.take n } : FileWriterSession).settle call
        ((WriteFuture.awaiting index op rest).poll (.wrote n))
  | event => s.settle call ((WriteFuture.awaiting index op rest).poll event)

/-- One move. What the borrow of the writer rules out changes nothing. -/
def act (m : FileWriterMove) : FileWriterSession :=
  match s.stage, m with
  | .fresh core, .call .withOptions =>
      s.settle .withOptions (FileWriterCall.withOptions.begin crc32c core)
  | .fresh _, _ => s
  | .idle _, .call .withOptions => s
  | .idle core, .call call => s.settle call (call.begin crc32c core)
  | .waiting call index op rest, .sink event => s.answer call index op rest event
  | .waiting call index op _, .drop => s.conclude call index op.core none
  | .flushing kv core, .flushed none => s.conclude (.finish kv) 1 core (some (.ok ()))
  | .flushing kv core, .flushed (some kind) =>
      s.conclude (.finish kv) 1 core (some (Exec.fail (.io kind)))
  | .flushing kv core, .drop => s.conclude (.finish kv) 1 core none
  | _, _ => s

def run (core : FileWriterCore) (moves : List FileWriterMove) : FileWriterSession :=
  moves.foldl (act crc32c) (start core)

end FileWriterSession

/-! ### A call and the life of its core -/

section Follows
variable {crc32c : Bytes → UInt32} {base all : List FileSubmission} {sink : Bytes}
  {life : FileWriterLife} {f : FileFlight} {index : ℕ} {op : FileWriteOp}
  {rest nodes : List CompositeWrite} {core : FileWriterCore}

open WriteFuture

theorem lt_of_drop_eq_cons {item : FileSubmission} {items : List FileSubmission}
    (h : all.drop index = item :: items) : index < all.length :=
  List.length_lt_of_drop_ne_nil (h ▸ List.cons_ne_nil _ _)

/-- The life of the core stands where the call does: the items of the call are out up to the index. -/
def Follows (base all : List FileSubmission) (sink : Bytes) (life : FileWriterLife) :
    WriteFuture → Prop
  | .awaiting index op rest => ∃ f, life.flight = some f ∧ f.op = op ∧ f.written = false ∧
      life.items = base ++ all.take index ∧ life.emitted = sink ∧
      all.drop index = f.item :: rest.map FileTensor.submission ∧
      op.core.unusable = none ∧ op.failed = false
  | .returned index error core => life.flight = none ∧ life.core = core ∧
      life.items = base ++ all.take index ∧ life.emitted = sink ∧
      (error = none → all.drop index = []) ∧
      (error ≠ none → index < all.length ∧ (0 < index → core.unusable ≠ none))
  | .unwound index _ => index < all.length

/-- Actions on the core take it to where the call is. -/
def Leads (crc32c : Bytes → UInt32) (base all : List FileSubmission) (sink : Bytes)
    (life : FileWriterLife) (w : WriteFuture) : Prop :=
  ∃ actions : List FileWriterAction,
    Follows base all sink (actions.foldl (FileWriterLife.act crc32c) life) w

theorem Leads.act {w : WriteFuture} (a : FileWriterAction)
    (h : Leads crc32c base all sink (life.act crc32c a) w) : Leads crc32c base all sink life w := by
  obtain ⟨actions, hactions⟩ := h
  exact ⟨a :: actions, hactions⟩

theorem emitted_of_flight (hf : life.flight = some f) : life.emitted = life.reported ++ f.sent := by
  simp [FileWriterLife.emitted, hf]

theorem emitted_of_none (hf : life.flight = none) : life.emitted = life.reported := by
  simp [FileWriterLife.emitted, hf]

theorem emitted_drop : (life.drop f).emitted = life.reported ++ f.sent :=
  (emitted_of_none rfl).trans (FileWriterLife.reported_drop life f)

theorem leads_settle (hf : life.flight = none) (hcore : life.core = core)
    (hitems : life.items = base ++ all.take index) (hsink : life.emitted = sink)
    (hindex : index < all.length) (e : Fault Error) :
    Leads crc32c base all sink life (settle index core e) := by
  cases e with
  | panic => exact ⟨[], hindex⟩
  | error e =>
    by_cases hpos : 0 < index
    · refine Leads.act (.poison .incompleteOutput) ⟨[], ?_⟩
      simp only [settle, if_pos hpos]
      have hact : life.act crc32c (.poison .incompleteOutput) =
          { life with core := core.poison .incompleteOutput } := by
        simp only [FileWriterLife.act, hf, hcore]
      rw [List.foldl_nil, hact]
      refine ⟨hf, rfl, hitems, hsink, fun h => absurd h (Option.some_ne_none e),
        fun _ => ⟨hindex, fun _ => ?_⟩⟩
      exact Option.some_ne_none _
    · refine ⟨[], ?_⟩
      simp only [settle, if_neg hpos]
      exact ⟨hf, hcore, hitems, hsink, fun h => absurd h (Option.some_ne_none e),
        fun _ => ⟨hindex, fun h => absurd h hpos⟩⟩

/-- An operation that is dropped by a fault. -/
theorem leads_fault (hf : life.flight = some f) (hwritten : f.written = false)
    (hitems : life.items = base ++ all.take index) (hsink : life.emitted = sink)
    (hindex : index < all.length) (e : Fault Error) :
    Leads crc32c base all sink life (settle index f.op.core e) := by
  have hdrop : life.act crc32c .drop = life.drop f := by
    simp only [FileWriterLife.act, hf]
  refine Leads.act .drop ?_
  rw [hdrop]
  refine leads_settle rfl rfl ?_ ?_ hindex e
  · rw [FileWriterLife.items_drop, hwritten, hitems]
    simp
  · rw [emitted_drop, ← hsink, emitted_of_flight hf]

/-- Only an operation that can go on has bytes to offer. -/
theorem step_output {len : ℕ} {op' : FileWriteOp} (h : op.step = (.ok (.output len), op')) :
    op'.core.unusable = none ∧ op'.failed = false := by
  cases hu : op.core.unusable with
  | some reason => simp [FileWriteOp.step, hu, Exec.fail] at h
  | none =>
    cases hfailed : op.failed with
    | true => simp [FileWriteOp.step, hu, hfailed, Exec.fail] at h
    | false =>
      obtain ⟨cursor, written, -, hstep⟩ := FileWriteOp.stepLoop_spec op
      rw [← FileWriteOp.step_eq_stepLoop hu hfailed, h] at hstep
      rcases hstep with ⟨-, hstep⟩ | ⟨-, hstep⟩
      · cases hstep
      · cases hstep
        exact ⟨hu, hfailed⟩

theorem leads_goOn {next : FileWriterCore → WriteFuture} (hf : life.flight = some f)
    (hwritten : f.written = false) (hitems : life.items = base ++ all.take index)
    (hsink : life.emitted = sink) (hrest : all.drop index = f.item :: rest.map FileTensor.submission)
    (hnext : ∀ life' : FileWriterLife, life'.flight = none →
      life'.items = base ++ all.take (index + 1) → life'.emitted = sink →
      Leads crc32c base all sink life' (next life'.core)) :
    Leads crc32c base all sink life (goOn next index rest f.op) := by
  have hindex : index < all.length := lt_of_drop_eq_cons hrest
  have hstep : life.act crc32c .step = { life with flight := some f.step } := by
    simp only [FileWriterLife.act, hf]
  have hsent : f.step.sent = f.sent := by
    unfold FileFlight.step
    split <;> rfl
  have hsink' : ({ life with flight := some f.step } : FileWriterLife).emitted = sink := by
    rw [← hsink, emitted_of_flight hf, emitted_of_flight rfl, hsent]
    rfl
  refine Leads.act .step ?_
  rw [hstep]
  unfold goOn
  rcases h : f.op.step with ⟨e | len | _, op'⟩
  · have hop : f.step = { f with op := op' } := by simp only [FileFlight.step, h]
    rw [hop] at hsink' ⊢
    exact @leads_fault _ _ _ _ { life with flight := some { f with op := op' } } _ _ rfl hwritten
      hitems hsink' hindex e
  · have hop : f.step = { f with op := op' } := by simp only [FileFlight.step, h]
    rw [hop] at hsink' ⊢
    exact ⟨[], _, rfl, rfl, hwritten, hitems, hsink', hrest, step_output h⟩
  · have hop : f.step = { f with op := op', written := true } := by simp only [FileFlight.step, h]
    have hend : ({ life with flight := some f.step } : FileWriterLife).act crc32c .drop =
        ({ life with flight := some f.step } : FileWriterLife).drop f.step := rfl
    refine Leads.act .drop ?_
    rw [hend]
    have hitems' : (({ life with flight := some f.step } : FileWriterLife).drop f.step).items =
        base ++ all.take (index + 1) := by
      rw [FileWriterLife.items_drop, hop, if_pos rfl]
      show life.items ++ [f.item] = _
      rw [hitems, List.append_assoc, List.take_add, hrest]
      rfl
    have hout := hnext _ rfl hitems' (by rw [emitted_drop, ← hsink', emitted_of_flight rfl])
    rw [hop] at hout ⊢
    exact hout

theorem act_submit {item : FileSubmission} (hf : life.flight = none)
    (hsubmit : life.core.submit crc32c item = .ok op) : life.act crc32c (.submit item) =
      { life with flight := some ⟨item, life.core, op, op, [], false, false⟩ } := by
  simp only [FileWriterLife.act, hf, FileWriterLife.submit, hsubmit]

/-- An item is submitted, and its operation goes on. -/
theorem leads_submit {item : FileSubmission} {next : FileWriterCore → WriteFuture}
    (hf : life.flight = none) (hsubmit : life.core.submit crc32c item = .ok op)
    (hitems : life.items = base ++ all.take index) (hsink : life.emitted = sink)
    (hrest : all.drop index = item :: rest.map FileTensor.submission)
    (hnext : ∀ life' : FileWriterLife, life'.flight = none →
      life'.items = base ++ all.take (index + 1) → life'.emitted = sink →
      Leads crc32c base all sink life' (next life'.core)) :
    Leads crc32c base all sink life (goOn next index rest op) := by
  refine Leads.act (.submit item) ?_
  rw [act_submit hf hsubmit]
  refine @leads_goOn _ _ _ _ { life with flight := some ⟨item, life.core, op, op, [], false, false⟩ }
    _ _ _ next rfl rfl hitems ?_ hrest hnext
  rw [← hsink, emitted_of_none hf, emitted_of_flight rfl]
  exact List.append_nil _

theorem leads_submitNodes (hf : life.flight = none) (hcore : life.core = core)
    (hitems : life.items = base ++ all.take index) (hsink : life.emitted = sink)
    (hrest : all.drop index = nodes.map FileTensor.submission) :
    Leads crc32c base all sink life (submitNodes nodes index core) := by
  induction nodes generalizing index life core with
  | nil => exact ⟨[], hf, hcore, hitems, hsink, fun _ => hrest, fun h => absurd rfl h⟩
  | cons node rest ih =>
    have hindex : index < all.length := lt_of_drop_eq_cons hrest
    rw [submitNodes]
    cases hop : core.tensor node.name node.descriptor node.buffers with
    | error e => exact leads_settle hf hcore hitems hsink hindex e
    | ok op =>
      have hsubmit : life.core.submit crc32c node.submission = .ok op := by rw [hcore]; exact hop
      refine leads_submit hf hsubmit hitems hsink hrest ?_
      intro life' hf' hitems' hsink'
      refine ih hf' rfl hitems' hsink' ?_
      rw [← List.tail_drop, hrest]
      rfl

/-- What the sink holds after it answered. -/
def sunk (sink : Bytes) (op : FileWriteOp) : SinkEvent → Bytes
  | .wrote n => sink ++ op.outputSrc.take n
  | _ => sink

theorem leads_poll (h : Follows base all sink life (.awaiting index op rest)) {event : SinkEvent}
    (hfits : ∀ n, event = .wrote n → n ≤ op.offered) :
    Leads crc32c base all (sunk sink op event) life ((awaiting index op rest).poll event) := by
  obtain ⟨f, hf, rfl, hwritten, hitems, hsink, hrest, hu, hfailed⟩ := h
  have hindex : index < all.length := lt_of_drop_eq_cons hrest
  cases event with
  | interrupted => exact ⟨[], f, hf, rfl, hwritten, hitems, hsink, hrest, hu, hfailed⟩
  | failed kind =>
    show Leads crc32c base all sink life (settle index f.op.core (.error (.io kind)))
    exact leads_fault hf hwritten hitems hsink hindex _
  | wrote n =>
    simp only [poll]
    by_cases hzero : n = 0
    · subst hzero
      have hact : life.act crc32c .sinkClosed = { life with flight := some f.sinkClosed } := by
        simp only [FileWriterLife.act, hf]
      rw [if_pos rfl]
      refine Leads.act .sinkClosed ?_
      rw [hact]
      refine @leads_fault _ _ _ _ { life with flight := some f.sinkClosed } f.sinkClosed _ rfl hwritten
        hitems ?_ hindex _
      rw [emitted_of_flight rfl, sunk, List.take_zero, List.append_nil, ← hsink, emitted_of_flight hf]
      rfl
    · rw [if_neg hzero]
      rcases FileWriteOp.reportWritten_cases hu hfailed n with
        ⟨-, -, offset, -, heq⟩ | ⟨-, -, heq⟩ | ⟨hlt, -⟩ | ⟨hlt, -⟩ | ⟨hn, -⟩
      · have hreport : f.report n = { f with op := f.op.accepted n offset,
                                             sent := f.sent ++ f.op.outputSrc.take n } := by
          simp only [FileFlight.report, heq]
        have hact : life.act crc32c (.report n) = { life with flight := some (f.report n) } := by
          simp [FileWriterLife.act, hf, heq, Exec.panic]
        rw [heq]
        refine Leads.act (.report n) ?_
        rw [hact, hreport]
        refine @leads_goOn _ _ _ _ { life with flight := some _ } _ _ _ _ rfl hwritten hitems ?_ hrest ?_
        · rw [emitted_of_flight rfl, sunk, ← hsink, emitted_of_flight hf, List.append_assoc]
          rfl
        · intro life' hf' hitems' hsink'
          refine leads_submitNodes hf' rfl hitems' hsink' ?_
          rw [← List.tail_drop, hrest]
          rfl
      · rw [heq]
        exact ⟨[], hindex⟩
      · exact absurd (hfits n rfl) (by omega)
      · exact absurd (hfits n rfl) (by omega)
      · exact absurd hn hzero

/-- The items of a call that has one are submitted from the first on. -/
theorem leads_begin (hf : life.flight = none) (hitems : life.items = base)
    (hsink : life.emitted = sink) (call : FileWriterCall) :
    Leads crc32c base call.items sink life (call.begin crc32c life.core) := by
  have hnone : life.items = base ++ call.items.take 0 := by rw [hitems]; simp
  cases call with
  | withOptions =>
    cases hop : life.core.header with
    | error e =>
      simp only [FileWriterCall.begin, hop]
      exact leads_settle hf rfl hnone hsink (Nat.succ_pos 0) e
    | ok op =>
      simp only [FileWriterCall.begin, hop]
      refine @leads_submit _ _ _ _ _ _ _ [] .header _ hf hop hnone hsink rfl ?_
      intro life' hf' hitems' hsink'
      exact @leads_submitNodes _ _ _ _ _ _ [] _ hf' rfl hitems' hsink' rfl
  | writeTensor t =>
    exact @leads_submitNodes _ _ _ _ _ _ [t] _ hf rfl hnone hsink rfl
  | writeComposite headName head members =>
    cases hflat : flattenComposite headName head members with
    | error e =>
      simp only [FileWriterCall.begin, FileWriter.writeComposite, hflat]
      refine leads_settle hf rfl hnone hsink ?_ e
      simp [FileWriterCall.items, FileWriterCall.tensors, FileCompositeNode.tensors]
    | ok nodes =>
      simp only [FileWriterCall.begin, FileWriter.writeComposite, hflat]
      obtain ⟨-, rfl⟩ := flattenComposite_eq_ok.mp hflat
      exact leads_submitNodes hf rfl hnone hsink rfl
  | finish kv =>
    cases hop : life.core.finish crc32c kv with
    | error e =>
      simp only [FileWriterCall.begin, FileWriter.finish, hop]
      exact leads_settle hf rfl hnone hsink (Nat.succ_pos 0) e
    | ok op =>
      simp only [FileWriterCall.begin, FileWriter.finish, hop]
      refine @leads_submit _ _ _ _ _ _ _ [] (.finish kv) _ hf hop hnone hsink rfl ?_
      intro life' hf' hitems' hsink'
      exact @leads_submitNodes _ _ _ _ _ _ [] _ hf' rfl hitems' hsink' rfl

/-- A retired core answers every call with a fault, and stays as it is. -/
theorem begin_of_retired (h : core.retired ≠ none) (call : FileWriterCall) :
    ∃ e, call.begin crc32c core = settle 0 core e := by
  have hrefused : Refused crc32c core := refused_of_retired h
  cases call with
  | withOptions =>
    obtain ⟨reason, hreason⟩ := Option.ne_none_iff_exists'.mp h
    have hheader : core.header = Exec.fail (.coreUnusable reason) := by
      unfold FileWriterCore.header FileWriterCore.checkRetired
      rw [hreason]
      rfl
    exact ⟨.error (.coreUnusable reason), by simp only [FileWriterCall.begin, hheader]; rfl⟩
  | writeTensor t => exact hrefused.tensor _ _ _
  | writeComposite headName head members => exact hrefused.composite _ _ _
  | finish kv => exact hrefused.finish kv

end Follows

namespace FileWriterSession
variable {crc32c : Bytes → UInt32} {core₀ : FileWriterCore} {s : FileWriterSession}
  {life : FileWriterLife}

/-- The items that are out by the calls of the past. -/
def items (s : FileWriterSession) : List FileSubmission := s.log.flatMap FileWriterEntry.items

/-- The life of the core stands where the session does. -/
def Mirrors (s : FileWriterSession) (life : FileWriterLife) : Prop :=
  match s.stage with
  | .fresh core => life.flight = none ∧ life.core = core ∧ life.items = s.items ∧ life.emitted = s.sink
  | .idle core => life.flight = none ∧ life.core = core ∧ life.items = s.items ∧ life.emitted = s.sink
  | .waiting call index op rest =>
      Follows s.items call.items s.sink life (.awaiting index op rest)
  | .flushing kv _ =>
      life.flight = none ∧ life.items = s.items ++ [.finish kv] ∧ life.emitted = s.sink
  | .gone => life.flight = none ∧ life.items = s.items ∧ life.emitted = s.sink
  | .unwound => True

theorem items_conclude {call : FileWriterCall} {out : ℕ} {core : FileWriterCore}
    {result : Option (Result Unit)} :
    (s.conclude call out core result).items = s.items ++ call.items.take out := by
  simp [items, conclude, FileWriterEntry.items]

theorem items_flushed {kv : List (String × KvValue)} {core : FileWriterCore}
    {result : Option (Result Unit)} :
    (s.conclude (.finish kv) 1 core result).items = s.items ++ [.finish kv] := items_conclude

theorem mirrors_settle {call : FileWriterCall} {w : WriteFuture}
    (h : Follows s.items call.items s.sink life w) : (s.settle call w).Mirrors life := by
  cases w with
  | awaiting index op rest => exact h
  | unwound index core => cases call <;> exact trivial
  | returned index error core =>
    obtain ⟨hf, hcore, hitems, hsink, hall, hsome⟩ := h
    cases error with
    | some e =>
      have hout := (@items_conclude s call index core (some (.error (.error e)))).symm
      rw [← hitems] at hout
      cases call <;> first
        | exact ⟨hf, hcore, hout, hsink⟩
        | exact ⟨hf, hout, hsink⟩
    | none =>
      have hout := (@items_conclude s call index core (some (.ok ()))).symm
      rw [← hitems] at hout
      cases call with
      | finish kv =>
        refine ⟨hf, ?_, hsink⟩
        rw [hitems]
        cases index with
        | zero => cases hall rfl
        | succ index =>
          show s.items ++ [FileSubmission.finish kv].take (index + 1) = s.items ++ [.finish kv]
          simp
      | _ => exact ⟨hf, hcore, hout, hsink⟩

/-- An answer of the sink is followed by actions on the core. -/
theorem answer_eq {call : FileWriterCall} {index : ℕ} {op : FileWriteOp} {rest : List CompositeWrite}
    (h : Follows s.items call.items s.sink life (.awaiting index op rest)) (event : SinkEvent) :
    ∃ sink w, s.answer call index op rest event =
        ({ s with sink := sink } : FileWriterSession).settle call w ∧
      Leads crc32c s.items call.items sink life w := by
  cases event with
  | wrote n =>
    refine ⟨_, _, rfl, @leads_poll crc32c _ _ _ _ _ _ _ h (.wrote (min n op.offered)) ?_⟩
    intro k hk
    cases hk
    exact Nat.min_le_right _ _
  | interrupted => exact ⟨_, _, rfl, @leads_poll crc32c _ _ _ _ _ _ _ h .interrupted nofun⟩
  | failed kind => exact ⟨_, _, rfl, @leads_poll crc32c _ _ _ _ _ _ _ h (.failed kind) nofun⟩

/-- Each move is matched by actions on the core. -/
theorem Mirrors.act (h : s.Mirrors life) (m : FileWriterMove) :
    ∃ actions : List FileWriterAction,
      (s.act crc32c m).Mirrors (actions.foldl (FileWriterLife.act crc32c) life) := by
  have hbegin : ∀ call, life.flight = none → life.items = s.items → life.emitted = s.sink →
      ∃ actions : List FileWriterAction, (s.settle call (call.begin crc32c life.core)).Mirrors
        (actions.foldl (FileWriterLife.act crc32c) life) := by
    intro call hf hitems hsink
    obtain ⟨actions, hactions⟩ := @leads_begin crc32c _ _ _ hf hitems hsink call
    exact ⟨actions, mirrors_settle hactions⟩
  unfold FileWriterSession.act
  split
  · next hstage =>
    simp only [Mirrors, hstage] at h
    obtain ⟨hf, rfl, hitems, hsink⟩ := h
    exact hbegin _ hf hitems hsink
  · exact ⟨[], h⟩
  · exact ⟨[], h⟩
  · next hstage =>
    simp only [Mirrors, hstage] at h
    obtain ⟨hf, rfl, hitems, hsink⟩ := h
    exact hbegin _ hf hitems hsink
  · next call index op rest event hstage =>
    simp only [Mirrors, hstage] at h
    obtain ⟨sink, w, heq, actions, hactions⟩ := @answer_eq crc32c _ _ _ _ _ _ h event
    rw [heq]
    exact ⟨actions, @mirrors_settle ⟨s.stage, sink, s.log⟩ _ _ _ hactions⟩
  · next call index op rest hstage =>
    simp only [Mirrors, hstage] at h
    obtain ⟨f, hf, rfl, hwritten, hitems, hsink, -⟩ := h
    have hdrop : life.act crc32c .drop = life.drop f := by
      simp only [FileWriterLife.act, hf]
    have hout : (life.drop f).items = (s.conclude call index f.op.core none).items := by
      rw [items_conclude, FileWriterLife.items_drop, hwritten, hitems]
      simp
    have hsame : (life.drop f).emitted = s.sink := by
      rw [emitted_drop, ← hsink, emitted_of_flight hf]
    refine ⟨[.drop], ?_⟩
    rw [List.foldl_cons, hdrop]
    cases call <;> first
      | exact ⟨rfl, rfl, hout, hsame⟩
      | exact ⟨rfl, hout, hsame⟩
  · next hstage =>
    simp only [Mirrors, hstage] at h
    exact ⟨[], h.1, h.2.1.trans items_flushed.symm, h.2.2⟩
  · next hstage =>
    simp only [Mirrors, hstage] at h
    exact ⟨[], h.1, h.2.1.trans items_flushed.symm, h.2.2⟩
  · next hstage =>
    simp only [Mirrors, hstage] at h
    exact ⟨[], h.1, h.2.1.trans items_flushed.symm, h.2.2⟩
  · exact ⟨[], h⟩

theorem mirrors_run (crc32c : Bytes → UInt32) (core : FileWriterCore) (moves : List FileWriterMove) :
    ∃ actions, (run crc32c core moves).Mirrors (FileWriterLife.run crc32c core actions) := by
  refine List.foldlRecOn (motive := fun s : FileWriterSession =>
    ∃ actions, s.Mirrors (FileWriterLife.run crc32c core actions)) moves
      (FileWriterSession.act crc32c) ⟨[], rfl, rfl, rfl, rfl⟩ ?_
  rintro s ⟨actions, h⟩ m _
  obtain ⟨more, hmore⟩ := @Mirrors.act crc32c _ _ h m
  refine ⟨actions ++ more, ?_⟩
  rw [FileWriterLife.run, List.foldl_append]
  exact hmore

end FileWriterSession

/-! ### What the log says -/

namespace FileWriterEntry

/-- A call that succeeded has all its items out, and one that was dropped has not. -/
structure Told (e : FileWriterEntry) : Prop where
  succeeded : e.result = some (.ok ()) → e.call.items.drop e.out = []
  dropped : e.result = none → e.out < e.call.items.length ∨ ∃ kv, e.call = .finish kv

/-- A call that failed has no tensor in the file. -/
def Fair (e : FileWriterEntry) : Prop := ∀ f, e.result = some (.error f) → e.written = []

variable {e : FileWriterEntry}

theorem fair_of_out (h : e.out = 0) : e.Fair := by
  intro f _
  rw [written, h, List.take_zero]

theorem fair_of_not_failed (h : ∀ f, e.result ≠ some (.error f)) : e.Fair := by
  intro f hf
  exact absurd hf (h f)

theorem fair_of_finish {kv : List (String × KvValue)} (h : e.call = .finish kv) : e.Fair := by
  intro f _
  rw [written, h, FileWriterCall.tensors, List.take_nil]

theorem length_tensors_le (call : FileWriterCall) : call.tensors.length ≤ call.items.length := by
  cases call <;> simp [FileWriterCall.items, FileWriterCall.tensors]

theorem Told.written_of_succeeded (h : e.Told) (hok : e.result = some (.ok ())) :
    e.written = e.call.tensors := by
  have hlen := List.drop_eq_nil_iff.mp (h.succeeded hok)
  exact List.take_of_length_le ((length_tensors_le e.call).trans hlen)

theorem Told.written_of_dropped (h : e.Told) (hnone : e.result = none) :
    e.call.tensors = [] ∨ e.written.length < e.call.tensors.length := by
  rcases h.dropped hnone with hlt | ⟨kv, hkv⟩
  · cases hcall : e.call with
    | withOptions => exact .inl rfl
    | finish kv => exact .inl rfl
    | _ =>
      right
      simp [hcall, FileWriterCall.items, written] at hlt ⊢
      omega
  · left
    rw [hkv]
    rfl

end FileWriterEntry

namespace FileWriterSession
variable {crc32c : Bytes → UInt32} {core₀ : FileWriterCore} {s : FileWriterSession}
  {life : FileWriterLife}

/-- No call of the past was the last one. -/
def Lasting (s : FileWriterSession) : Prop := ∀ e ∈ s.log, ∀ kv, e.call ≠ .finish kv

/-- What is known of the calls of the past. While the core takes items, those that failed have left
nothing in the file. -/
def Sane (s : FileWriterSession) : Prop :=
  (∀ e ∈ s.log, e.Told) ∧
  match s.stage with
  | .fresh _ => s.log = []
  | .idle core => s.Lasting ∧ (core.retired = none → ∀ e ∈ s.log, e.Fair)
  | .waiting _ _ _ _ | .flushing _ _ => s.Lasting ∧ ∀ e ∈ s.log, e.Fair
  | .gone => (∃ e ∈ s.log, ∃ kv, e.call = .finish kv ∧ 0 < e.out) → ∀ e ∈ s.log, e.Fair
  | .unwound => ∀ e ∈ s.log, ∀ kv, e.call = .finish kv → e.out = 0

theorem forall_log {log : List FileWriterEntry} {e : FileWriterEntry} {P : FileWriterEntry → Prop} :
    (∀ b ∈ log ++ [e], P b) ↔ (∀ b ∈ log, P b) ∧ P e := by
  simp [or_imp, forall_and]

/-- No footer is out after a call that is not the last one, or of which nothing is. -/
theorem no_footer {call : FileWriterCall} {out : ℕ} {core : FileWriterCore}
    {result : Option (Result Unit)} (hlasting : s.Lasting)
    (hout : (∀ kv, call ≠ .finish kv) ∨ out = 0) :
    ∀ e ∈ (s.conclude call out core result).log, ∀ kv, e.call = .finish kv → e.out = 0 := by
  refine forall_log.mpr ⟨fun e he kv hkv => absurd hkv (hlasting e he kv), ?_⟩
  intro kv hkv
  rcases hout with hne | hzero
  · exact absurd hkv (hne kv)
  · exact hzero

theorem stageAfter_cases (core : FileWriterCore) (call : FileWriterCall)
    (result : Option (Result Unit)) :
    stageAfter core call result = .unwound ∨ stageAfter core call result = .gone ∨
      stageAfter core call result = .idle core ∧ ∀ kv, call ≠ .finish kv := by
  rcases result with _ | (_ | _) | _ <;> cases call <;> simp [stageAfter]

theorem sane_conclude {call : FileWriterCall} {out : ℕ} {core : FileWriterCore}
    {result : Option (Result Unit)} (htold : ∀ e ∈ s.log, e.Told)
    (hnew : FileWriterEntry.Told ⟨call, out, result⟩) (hlasting : s.Lasting)
    (hout : (∀ kv, call ≠ .finish kv) ∨ out = 0)
    (hfair : core.retired = none →
      (∀ e ∈ s.log, e.Fair) ∧ FileWriterEntry.Fair ⟨call, out, result⟩) :
    (s.conclude call out core result).Sane := by
  have hno := @no_footer s call out core result hlasting hout
  refine ⟨forall_log.mpr ⟨htold, hnew⟩, ?_⟩
  rcases stageAfter_cases core call result with hstage | hstage | ⟨hstage, hcall⟩
  · simp only [conclude, hstage]
    exact hno
  · simp only [conclude, hstage]
    rintro ⟨e, he, kv, hkv, hpos⟩
    exact absurd (hno e he kv hkv) (Nat.ne_of_gt hpos)
  · simp only [conclude, hstage]
    exact ⟨forall_log.mpr ⟨hlasting, hcall⟩, fun hretired => forall_log.mpr (hfair hretired)⟩

/-- The footer of a file is one item. -/
theorem not_finish_or_zero {call : FileWriterCall} {out : ℕ} (h : out < call.items.length) :
    (∀ kv, call ≠ .finish kv) ∨ out = 0 := by
  cases call with
  | finish kv => exact .inr (Nat.lt_one_iff.mp h)
  | _ => exact .inl nofun

theorem sane_settle {base : List FileSubmission} {sink : Bytes} {call : FileWriterCall}
    {w : WriteFuture} (h : Follows base call.items sink life w) (htold : ∀ e ∈ s.log, e.Told)
    (hlasting : s.Lasting) (hfair : (∀ e ∈ s.log, e.Fair) ∨
      ∃ core e, core.retired ≠ none ∧ w = .settle 0 core e) : (s.settle call w).Sane := by
  cases w with
  | awaiting index op rest =>
    refine ⟨htold, hlasting, hfair.resolve_right ?_⟩
    rintro ⟨core, e | _, -, hw⟩ <;> cases hw
  | unwound index core =>
    have hno := @no_footer s call index core (some Exec.panic) hlasting (not_finish_or_zero h)
    exact ⟨forall_log.mpr ⟨htold, nofun, nofun⟩, by cases call <;> exact hno⟩
  | returned index error core =>
    obtain ⟨-, -, -, -, hnone, hsome⟩ := h
    cases error with
    | some e =>
      obtain ⟨hindex, hpoisoned⟩ := hsome (Option.some_ne_none e)
      refine sane_conclude htold ⟨nofun, nofun⟩ hlasting (not_finish_or_zero hindex) ?_
      intro hretired
      have hzero : index = 0 := by
        by_contra hne
        exact hpoisoned (Nat.pos_of_ne_zero hne) (FileWriterCore.retired_eq_none.mp hretired).1
      refine ⟨hfair.resolve_right ?_, FileWriterEntry.fair_of_out hzero⟩
      rintro ⟨core, _ | _, hcore, hw⟩
      · cases hw
        exact hcore hretired
      · cases hw
    | none =>
      have hall : ∀ e ∈ s.log, e.Fair := by
        refine hfair.resolve_right ?_
        rintro ⟨core, e | _, -, hw⟩ <;> cases hw
      have hok : (∀ kv, call ≠ .finish kv) → (s.conclude call index core (some (.ok ()))).Sane := by
        intro hcall
        refine sane_conclude htold ⟨fun _ => hnone rfl, nofun⟩ hlasting (.inl hcall) fun _ => ⟨hall, ?_⟩
        exact FileWriterEntry.fair_of_not_failed nofun
      cases call with
      | finish kv => exact ⟨htold, hlasting, hall⟩
      | _ => exact hok nofun

theorem sane_flushed {kv : List (String × KvValue)} {core : FileWriterCore}
    {result : Option (Result Unit)} (htold : ∀ e ∈ s.log, e.Told) (hfair : ∀ e ∈ s.log, e.Fair)
    (hgone : stageAfter core (.finish kv) result = .gone) :
    (s.conclude (.finish kv) 1 core result).Sane := by
  refine ⟨forall_log.mpr ⟨htold, fun _ => rfl, fun _ => .inr ⟨kv, rfl⟩⟩, ?_⟩
  simp only [conclude, hgone]
  exact fun _ => forall_log.mpr ⟨hfair, FileWriterEntry.fair_of_finish rfl⟩

theorem Sane.act (h : s.Sane) (hmirrors : s.Mirrors life) (m : FileWriterMove) :
    (s.act crc32c m).Sane := by
  obtain ⟨htold, hsane⟩ := h
  unfold FileWriterSession.act
  split
  · next core hstage =>
    simp only [Mirrors, hstage] at hmirrors hsane
    obtain ⟨hf, rfl, hitems, hsink⟩ := hmirrors
    obtain ⟨actions, hactions⟩ := @leads_begin crc32c _ _ _ hf hitems hsink .withOptions
    have hnone : ∀ {P : FileWriterEntry → Prop}, ∀ e ∈ s.log, P e := by
      intro P e he
      rw [hsane] at he
      cases he
    exact sane_settle hactions htold hnone (.inl hnone)
  · exact ⟨htold, hsane⟩
  · exact ⟨htold, hsane⟩
  · next core call _ hstage =>
    simp only [Mirrors, hstage] at hmirrors hsane
    obtain ⟨hf, rfl, hitems, hsink⟩ := hmirrors
    obtain ⟨actions, hactions⟩ := @leads_begin crc32c _ _ _ hf hitems hsink call
    refine sane_settle hactions htold hsane.1 ?_
    by_cases hretired : life.core.retired = none
    · exact .inl (hsane.2 hretired)
    · obtain ⟨e, he⟩ := @begin_of_retired crc32c _ hretired call
      exact .inr ⟨_, e, hretired, he⟩
  · next call index op rest event hstage =>
    simp only [Mirrors, hstage] at hmirrors hsane
    obtain ⟨sink, w, heq, actions, hactions⟩ := @answer_eq crc32c _ _ _ _ _ _ hmirrors event
    rw [heq]
    exact @sane_settle ⟨s.stage, sink, s.log⟩ _ _ _ _ _ hactions htold hsane.1 (.inl hsane.2)
  · next call index op rest hstage =>
    simp only [Mirrors, hstage] at hmirrors hsane
    obtain ⟨f, -, -, -, -, -, hrest, -⟩ := hmirrors
    have hindex : index < call.items.length := lt_of_drop_eq_cons hrest
    refine sane_conclude htold ⟨nofun, fun _ => .inl hindex⟩ hsane.1 (not_finish_or_zero hindex) ?_
    exact fun _ => ⟨hsane.2, FileWriterEntry.fair_of_not_failed nofun⟩
  · next hstage =>
    simp only [hstage] at hsane
    exact sane_flushed htold hsane.2 rfl
  · next hstage =>
    simp only [hstage] at hsane
    exact sane_flushed htold hsane.2 rfl
  · next hstage =>
    simp only [hstage] at hsane
    exact sane_flushed htold hsane.2 rfl
  · exact ⟨htold, hsane⟩


theorem sane_run (crc32c : Bytes → UInt32) (core : FileWriterCore) (moves : List FileWriterMove) :
    (run crc32c core moves).Sane := by
  induction moves using List.reverseRecOn with
  | nil =>
    refine ⟨?_, rfl⟩
    intro e he
    cases he
  | append_singleton moves m ih =>
    obtain ⟨actions, hmirrors⟩ := mirrors_run crc32c core moves
    have hlast : run crc32c core (moves ++ [m]) = (run crc32c core moves).act crc32c m := by
      rw [run, run, List.foldl_append]
      rfl
    rw [hlast]
    exact ih.act hmirrors m

/-- The tensors that an item is of. -/
def tensorsOf : FileSubmission → List FileTensor
  | .tensor name descriptor buffers => [⟨name, descriptor, buffers⟩]
  | _ => []

theorem tensorsOf_map (ts : List FileTensor) :
    (ts.map FileTensor.submission).flatMap tensorsOf = ts := by
  induction ts with
  | nil => rfl
  | cons t ts ih =>
    rw [List.map_cons, List.flatMap_cons, ih]
    rfl

theorem tensorsOf_items (e : FileWriterEntry) : e.items.flatMap tensorsOf = e.written := by
  rcases e with ⟨call, out, result⟩
  cases call with
  | withOptions =>
    cases out <;> simp [FileWriterEntry.items, FileWriterEntry.written, FileWriterCall.items,
      FileWriterCall.tensors, tensorsOf]
  | finish kv =>
    cases out <;> simp [FileWriterEntry.items, FileWriterEntry.written, FileWriterCall.items,
      FileWriterCall.tensors, tensorsOf]
  | writeTensor t => exact (congrArg _ List.map_take.symm).trans (tensorsOf_map _)
  | writeComposite headName head members =>
    exact (congrArg _ List.map_take.symm).trans (tensorsOf_map _)

/-- The tensors of a file are those that the log has. -/
theorem tensors_of_items {ts : List Stowed} {kv : List (String × KvValue)}
    (h : s.items = .header :: ts.map Stowed.item ++ [.finish kv]) :
    ts.map Stowed.tensor = s.log.flatMap FileWriterEntry.written := by
  have hstowed : ts.map Stowed.item = (ts.map Stowed.tensor).map FileTensor.submission := by
    rw [List.map_map]
    rfl
  have htensors := congrArg (List.flatMap tensorsOf) h
  rw [hstowed, List.flatMap_append, List.flatMap_cons, tensorsOf_map] at htensors
  simp only [items, List.flatMap_assoc, tensorsOf_items, tensorsOf, List.flatMap_cons,
    List.flatMap_nil, List.nil_append, List.append_nil] at htensors
  exact htensors.symm

section Finished
variable {options : FileWriterOptions} {core : FileWriterCore} {moves : List FileWriterMove}
  {e : FileWriterEntry} {kv : List (String × KvValue)}

/-- A session whose last call succeeded is over, and no call that failed has left anything. -/
theorem finished_of_sane (h : s.Sane) (he : e ∈ s.log) (hcall : e.call = .finish kv)
    (hok : e.result = some (.ok ())) :
    0 < e.out ∧ s.stage = .gone ∧ ∀ b ∈ s.log, b.Told ∧ b.Fair := by
  obtain ⟨htold, hsane⟩ := h
  have hout : 0 < e.out := by
    have hdrop := (htold e he).succeeded hok
    rw [hcall, List.drop_eq_nil_iff] at hdrop
    exact hdrop
  have hgone : s.stage = .gone := by
    cases hstage : s.stage with
    | gone => rfl
    | fresh core =>
      rw [hstage] at hsane
      rw [show s.log = [] from hsane] at he
      cases he
    | unwound =>
      rw [hstage] at hsane
      exact absurd (hsane e he kv hcall) (Nat.ne_of_gt hout)
    | _ =>
      rw [hstage] at hsane
      exact absurd hcall (hsane.1 e he kv)
  rw [hgone] at hsane
  exact ⟨hout, hgone, fun b hb => ⟨htold b hb, hsane ⟨e, he, kv, hcall, hout⟩ b hb⟩⟩

theorem footed_of_finished (h : FileWriterCore.withOptions options = .ok core)
    (he : e ∈ (run crc32c core moves).log) (hcall : e.call = .finish kv)
    (hok : e.result = some (.ok ())) :
    ∃ items, (run crc32c core moves).items = items ++ [.finish kv] ∧
      Footed crc32c options kv items (run crc32c core moves).sink := by
  obtain ⟨actions, hmirrors⟩ := mirrors_run crc32c core moves
  obtain ⟨hout, hgone, -⟩ := finished_of_sane (sane_run crc32c core moves) he hcall hok
  simp only [Mirrors, hgone] at hmirrors
  obtain ⟨hf, hitems, hsink⟩ := hmirrors
  have hdone : (FileWriterLife.run crc32c core actions).done = (run crc32c core moves).items := by
    simp [FileWriterLife.done, hf, hitems]
  have hfooter : .finish kv ∈ (FileWriterLife.run crc32c core actions).done := by
    rw [hdone]
    refine List.mem_flatMap.mpr ⟨e, he, ?_⟩
    rw [FileWriterEntry.items, hcall, List.take_of_length_le hout]
    exact List.mem_singleton_self _
  obtain ⟨items, hlast, hfooted⟩ := FileWriterLife.footed_of_run h hfooter
  rw [hdone] at hlast
  rw [hsink] at hfooted
  exact ⟨items, hlast, hfooted⟩

/-- However a writer is called, and wherever its calls fail or are dropped: a file that was finished is
laid out as the format wants it, and its tensors are those of the calls that succeeded, in order. A
call that failed has left nothing in it, and a call that was dropped only a part of a composite. -/
theorem finished_file (h : FileWriterCore.withOptions options = .ok core) (crc32c : Bytes → UInt32)
    (moves : List FileWriterMove) (he : e ∈ (run crc32c core moves).log)
    (hcall : e.call = .finish kv) (hok : e.result = some (.ok ())) :
    (∃ p, LaidOut crc32c options kv (run crc32c core moves).sink p ∧
      p.tensors.map Stowed.tensor = (run crc32c core moves).log.flatMap FileWriterEntry.written) ∧
    ∀ b ∈ (run crc32c core moves).log,
      (b.result = some (.ok ()) → b.written = b.call.tensors) ∧
      (∀ f, b.result = some (.error f) → b.written = []) ∧
      (b.result = none → b.call.tensors = [] ∨ b.written.length < b.call.tensors.length) := by
  obtain ⟨-, -, hlog⟩ := finished_of_sane (sane_run crc32c core moves) he hcall hok
  obtain ⟨items, hitems, hfooted⟩ := footed_of_finished h he hcall hok
  obtain ⟨p, rfl, hlaid⟩ := hfooted.laidOut (valid_of_withOptions h)
  refine ⟨⟨p, hlaid, tensors_of_items hitems⟩, ?_⟩
  intro b hb
  obtain ⟨htold, hfair⟩ := hlog b hb
  exact ⟨htold.written_of_succeeded, hfair, htold.written_of_dropped⟩

end Finished

/-- A tensor is written, one is dropped before its first byte, and one has a name that is taken. -/
def workedCalls : List FileWriterMove :=
  [.call .withOptions, .sink (.wrote 100),
    .call (.writeTensor ⟨"a", workedExample, [List.replicate 192 7]⟩), .sink .interrupted,
    .sink (.wrote 61), .sink (.wrote 4096), .sink (.wrote 192),
    .call (.writeTensor ⟨"b", workedExample, [List.replicate 192 9]⟩), .drop,
    .call (.writeTensor ⟨"a", workedExample, [List.replicate 192 9]⟩), .call (.finish []),
    .sink (.wrote 4096), .flushed none]

theorem exists_finished_worked : ∃ e ∈ (run (fun _ => 0) .new workedCalls).log,
    e.call = .finish [] ∧ e.result = some (.ok ()) := by
  have hfinished : ((run (fun _ => 0) .new workedCalls).log.any fun e =>
      e.call.footer.any List.isEmpty && e.result.any Except.isOk) = true := by decide +kernel
  obtain ⟨⟨call, out, result⟩, he, htest⟩ := List.any_eq_true.mp hfinished
  obtain ⟨hcall, hresult⟩ := Bool.and_eq_true_iff.mp htest
  refine ⟨_, he, ?_, ?_⟩
  · cases call with
    | finish kv => exact congrArg FileWriterCall.finish (List.isEmpty_iff.mp hcall)
    | withOptions => cases hcall
    | writeTensor t => cases hcall
    | writeComposite headName head members => cases hcall
  · rcases result with - | e | u
    · cases hresult
    · cases hresult
    · rfl

theorem finished_file_worked :
    (∃ p, LaidOut (fun _ => 0) .default [] (run (fun _ => 0) .new workedCalls).sink p ∧
      p.tensors.map Stowed.tensor =
        (run (fun _ => 0) .new workedCalls).log.flatMap FileWriterEntry.written) ∧
    ∀ b ∈ (run (fun _ => 0) .new workedCalls).log,
      (b.result = some (.ok ()) → b.written = b.call.tensors) ∧
      (∀ f, b.result = some (.error f) → b.written = []) ∧
      (b.result = none → b.call.tensors = [] ∨ b.written.length < b.call.tensors.length) := by
  obtain ⟨e, he, hcall, hok⟩ := exists_finished_worked
  exact finished_file (show FileWriterCore.withOptions .default = .ok FileWriterCore.new from rfl)
    (fun _ => 0) workedCalls he hcall hok

end FileWriterSession
end Hurray.File
