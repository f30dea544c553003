import Hurray.Python.Readiness
import Hurray.Stream.StreamReader

/-!
The asynchronous reader of the Python binding. Tasks of one event loop share it: each steps the
core, waits for the descriptor, reads and reports without a suspension in between, and may be
cancelled where it waits. Whatever the tasks do, the answers they get are those of one reader that
is asked again and again.
-/
namespace Hurray.Python
open Hurray.Base Hurray.Stream

/-- What a step leads to: the core wants bytes, an item is ready, or the stream is over. -/
inductive StepStatus where
  | blocked
  | ready
  | finished
  deriving DecidableEq, Repr

/-- What a call returns or raises. A read that fails raises the failure, `noItem` is the error of
an item taken too early, and `released` what a closed reader answers. -/
inductive ItemReply where
  | answer (a : Answer)
  | failed (kind : String)
  | noItem
  | released

/-- The answer of the core, where the reply has one. -/
def ItemReply.told : ItemReply → Option Answer
  | .answer a => some a
  | .failed _ | .noItem | .released => none

/-- The reader that the extension hands to Python. -/
structure AsyncStreamReader (A : Type) where
  core : StreamReaderCore A
  assembler : CompositeAssembler
  pending : Option StreamItem

namespace AsyncStreamReader
variable {A : Type}

def new (options : StreamReaderOptions) (a : A) : AsyncStreamReader A :=
  ⟨.withDestinations options a, .new options.maxCompositeDepth, none⟩

theorem remaining_of_takeTensor {c c' : StreamReaderCore A} {t : StreamTensor}
    (h : c.takeTensor = (some t, c')) : 0 < c'.remaining := by
  unfold StreamReaderCore.takeTensor at h
  split at h
  · obtain ⟨-, rfl⟩ := Prod.mk.inj h
    exact Nat.succ_pos 9
  · cases h

/-- The item that is ready. -/
def takeItem (s : AsyncStreamReader A) : Except ItemReply StreamItem × AsyncStreamReader A :=
  match s.pending with
  | some item => (.ok item, { s with pending := none })
  | none => (.error .noItem, s)

/-- One read, which is reported at once. It comes back with nothing when the descriptor was not
ready after all, which is not reported. -/
def fill (s : AsyncStreamReader A) (rest : Bytes) :
    SourceEvent → Except ItemReply Bool × AsyncStreamReader A × Bytes
  | .interrupted => (.ok false, s, rest)
  | .failed kind => (.error (.failed kind), s, rest)
  | .read n =>
      let data := rest.take (min s.core.remaining (n + 1))
      match (s.core.fillDst data).reportFilled data.length with
      | (.error e, core) => (.error (.answer (.error e)), { s with core }, rest)
      | (.ok _, core) => (.ok true, { s with core }, rest.drop data.length)

variable [DestinationAlloc A]

/-- Drives the core as far as it goes without more bytes. -/
def step (s : AsyncStreamReader A) : Result StepStatus × AsyncStreamReader A :=
  match _hstep : s.core.step with
  | (.error e, core) => (.error e, { s with core })
  | (.ok (.input _), core) => (.ok .blocked, { s with core })
  | (.ok .finished, core) =>
      match s.assembler.finish with
      | .error e => (.error e, { s with core })
      | .ok _ => (.ok .finished, { s with core })
  | (.ok .tensor, core) =>
      match _ht : core.takeTensor with
      | (none, core) => (Exec.fail .coreFailed, { s with core })
      | (some t, core) =>
          match s.assembler.push t with
          | (.error e, assembler) => (.error e, { s with core, assembler })
          | (.ok (some item), assembler) => (.ok .ready, ⟨core, assembler, some item⟩)
          | (.ok none, assembler) => step { s with core, assembler }
-- after a tensor the core wants bytes
termination_by if 0 < s.core.remaining then 0 else 1
decreasing_by
  have hpos := remaining_of_takeTensor _ht
  have hzero : ¬ 0 < s.core.remaining := by
    intro hwants
    rw [StreamReaderCore.step_of_remaining hwants] at _hstep
    cases _hstep
  simp [hpos, hzero]

end AsyncStreamReader

/-- What the event loop does next. A task that was called is resumed with what its read comes back
with. -/
inductive ReaderTurn where
  | call (task : ℕ)
  | ready
  | resume (event : SourceEvent)
  | cancel (task : ℕ)
  | close

/-- A reader and the tasks around it, with the input that has not arrived and what the calls that
are over returned. -/
structure ReaderLoop (A : Type) where
  reader : AsyncStreamReader A
  rest : Bytes
  readiness : Readiness
  closed : Bool
  replies : List (ℕ × ItemReply)

namespace ReaderLoop
variable {A : Type}

def start (options : StreamReaderOptions) (a : A) (input : Bytes) : ReaderLoop A :=
  ⟨.new options a, input, .new, false, []⟩

def reply (l : ReaderLoop A) (task : ℕ) (r : ItemReply) : ReaderLoop A :=
  { l with replies := l.replies ++ [(task, r)] }

variable [DestinationAlloc A]

/-- `next_item` from a step of the core to its next wait. -/
def drive (l : ReaderLoop A) (task : ℕ) : ReaderLoop A :=
  match l.reader.step with
  | (.error e, reader) => { l with reader }.reply task (.answer (.error e))
  | (.ok .ready, reader) =>
      match reader.takeItem with
      | (.ok item, reader) => { l with reader }.reply task (.answer (.ok (some item)))
      | (.error r, reader) => { l with reader }.reply task r
  | (.ok .finished, reader) => { l with reader }.reply task (.answer (.ok none))
  | (.ok .blocked, reader) => { l with reader, readiness := l.readiness.wait task }

/-- A task runs on after its wait. -/
def resume (l : ReaderLoop A) (task : ℕ) (event : SourceEvent) : ReaderLoop A :=
  let readiness := l.readiness.leave task
  match l.reader.fill l.rest event with
  | (.error r, reader, rest) => { l with reader, rest, readiness }.reply task r
  | (.ok false, reader, rest) => { l with reader, rest, readiness := readiness.wait task }
  | (.ok true, reader, rest) => { l with reader, rest, readiness }.drive task

/-- One turn. A task that waits makes no other call, and a closed reader is gone for new calls
only. -/
def act (l : ReaderLoop A) : ReaderTurn → ReaderLoop A
  | .call task =>
      if task ∈ l.readiness.waiting then l
      else if l.closed then l.reply task .released
      else l.drive task
  | .ready => { l with readiness := l.readiness.ready }
  | .resume event =>
      match l.readiness.woken with
      | none => l
      | some task => l.resume task event
  | .cancel task =>
      if task ∈ l.readiness.waiting then { l with readiness := l.readiness.leave task } else l
  | .close => { l with closed := true }

def run (l : ReaderLoop A) (turns : List ReaderTurn) : ReaderLoop A := turns.foldl act l

end ReaderLoop

/-! ### A step is turns of one call -/

namespace AsyncStreamReader
variable {A : Type}

/-- The same reader in a session of one caller. -/
def session (s : AsyncStreamReader A) (rest : Bytes) (stage : CallStage) (answered : List Answer) :
    ReaderSession A := ⟨⟨s.core, s.assembler⟩, rest, stage, answered, []⟩

/-- What a step tells its caller, and where it leaves the call. -/
def told : Result StepStatus × AsyncStreamReader A → CallStage × List Answer
  | (.error e, _) => (.idle, [.error e])
  | (.ok .blocked, _) => (.reading, [])
  | (.ok .ready, s) => (.idle, [.ok s.pending])
  | (.ok .finished, _) => (.idle, [.ok none])

variable [DestinationAlloc A] {s : AsyncStreamReader A} {rest : Bytes} {answered : List Answer}
  {m₀ : StreamContent}

omit [DestinationAlloc A] in
/-- A read is the read of a session. -/
theorem fill_cases (s : AsyncStreamReader A) (rest : Bytes) (answered : List Answer) (n : ℕ) :
    (∃ e reader, s.fill rest (.read n) = (.error (.answer (.error e)), reader, rest) ∧
      (s.session rest .reading answered).fill (.read n) =
        reader.session rest .idle (answered ++ [.error e])) ∨
    ∃ reader rest', s.fill rest (.read n) = (.ok true, reader, rest') ∧
      (s.session rest .reading answered).fill (.read n) = reader.session rest' .running answered := by
  rcases hreport : (s.core.fillDst (rest.take (min s.core.remaining (n + 1)))).reportFilled
      (rest.take (min s.core.remaining (n + 1))).length with ⟨e | u, core⟩
  · left
    refine ⟨e, { s with core }, ?_, ?_⟩
    · simp only [fill, hreport]
    · simp only [session, ReaderSession.fill, hreport]
      rfl
  · right
    refine ⟨{ s with core }, rest.drop (rest.take (min s.core.remaining (n + 1))).length, ?_, ?_⟩
    · simp only [fill, hreport]
    · simp only [session, ReaderSession.fill, hreport]

theorem step_eq : s.step = match s.core.step with
    | (.error e, core) => (.error e, { s with core })
    | (.ok (.input _), core) => (.ok .blocked, { s with core })
    | (.ok .finished, core) =>
        match s.assembler.finish with
        | .error e => (.error e, { s with core })
        | .ok _ => (.ok .finished, { s with core })
    | (.ok .tensor, core) =>
        match core.takeTensor with
        | (none, core) => (Exec.fail .coreFailed, { s with core })
        | (some t, core) =>
            match s.assembler.push t with
            | (.error e, assembler) => (.error e, { s with core, assembler })
            | (.ok (some item), assembler) => (.ok .ready, ⟨core, assembler, some item⟩)
            | (.ok none, assembler) => step { s with core, assembler } := by
  rw [step]
  split
  · next hstep => rw [hstep]
  · next hstep => rw [hstep]
  · next hstep => rw [hstep]
  · next hstep =>
    rw [hstep]
    dsimp only
    split
    · next ht => rw [ht]
    · next ht => rw [ht]

theorem pending_of_ready (h : s.step.1 = .ok .ready) : ∃ item, s.step.2.pending = some item := by
  induction s using step.induct with
  | case1 s e core hstep => simp [step_eq, hstep] at h
  | case2 s n core hstep => simp [step_eq, hstep] at h
  | case3 s core hstep e hf => simp [step_eq, hstep, hf] at h
  | case4 s core hstep u hf => simp [step_eq, hstep, hf] at h
  | case5 s core hstep core' ht => simp [step_eq, hstep, ht] at h
  | case6 s core hstep t core' ht e assembler hp => simp [step_eq, hstep, ht, hp] at h
  | case7 s core hstep t core' ht item assembler hp => exact ⟨item, by simp [step_eq, hstep, ht, hp]⟩
  | case8 s core hstep t core' ht assembler hp ih =>
    have hnext : s.step = step { s with core := core', assembler } := by
      rw [step_eq, hstep]
      simp only [ht, hp]
    rw [hnext] at h ⊢
    exact ih h

/-- A step takes the turns of one call, up to its answer or its next read. -/
theorem tracks_step (hA : StreamReaderCore.SizedAlloc A)
    (h : (s.session rest .running answered).Tracks .nextItem m₀) :
    ReaderSession.Tracks .nextItem m₀
      (s.step.2.session rest (told s.step).1 (answered ++ (told s.step).2)) := by
  induction s using step.induct with
  | case1 s e core hstep =>
    have hturn := h.turn hA
    simpa [step_eq, hstep, told, session, ReaderSession.turn, ReaderSession.answer] using hturn
  | case2 s n core hstep =>
    have hturn := h.turn hA
    simpa [step_eq, hstep, told, session, ReaderSession.turn, ReaderSession.answer] using hturn
  | case3 s core hstep e hf =>
    have hturn := h.turn hA
    simpa [step_eq, hstep, hf, told, session, ReaderSession.turn, ReaderSession.answer,
      ReaderCall.conclude] using hturn
  | case4 s core hstep u hf =>
    have hturn := h.turn hA
    simpa [step_eq, hstep, hf, told, session, ReaderSession.turn, ReaderSession.answer,
      ReaderCall.conclude] using hturn
  | case5 s core hstep core' ht =>
    have hturn := h.turn hA
    simpa [step_eq, hstep, ht, told, session, ReaderSession.turn, ReaderSession.answer,
      Exec.fail] using hturn
  | case6 s core hstep t core' ht e assembler hp =>
    have hturn := h.turn hA
    simpa [step_eq, hstep, ht, hp, told, session, ReaderSession.turn, ReaderSession.answer,
      ReaderCall.receive] using hturn
  | case7 s core hstep t core' ht item assembler hp =>
    have hturn := h.turn hA
    simpa [step_eq, hstep, ht, hp, told, session, ReaderSession.turn, ReaderSession.answer,
      ReaderCall.receive] using hturn
  | case8 s core hstep t core' ht assembler hp ih =>
    have hturn := h.turn hA
    have hnext : s.step = step { s with core := core', assembler } := by
      rw [step_eq, hstep]
      simp only [ht, hp]
    rw [hnext]
    refine ih ?_
    simpa [session, hstep, ht, hp, ReaderSession.turn, ReaderCall.receive] using hturn

end AsyncStreamReader
/-! ### The tasks together are one caller -/

namespace ReaderLoop
variable {A : Type} [DestinationAlloc A] {l : ReaderLoop A} {m₀ : StreamContent} {task other : ℕ}

open StreamReaderCore AsyncStreamReader

/-- The answers of the core, in the order in which tasks got them. -/
def answers (l : ReaderLoop A) : List Answer := l.replies.filterMap fun r => r.2.told

/-- The loop as a session of one caller, who waits whenever a task will run. -/
def session (l : ReaderLoop A) (stage : CallStage) : ReaderSession A :=
  l.reader.session l.rest stage l.answers

def stage (l : ReaderLoop A) : CallStage := if l.readiness.Live then .reading else .idle

omit [DestinationAlloc A] in
@[simp] theorem answers_reply (r : ItemReply) :
    (l.reply task r).answers = l.answers ++ r.told.toList := by
  cases h : r.told <;> simp [answers, reply, h]

omit [DestinationAlloc A] in
theorem session_reply (r : ItemReply) (stage : CallStage) : (l.reply task r).session stage =
    l.reader.session l.rest stage (l.answers ++ r.told.toList) := by
  rw [session, answers_reply]
  rfl

/-- A task that drives the core is answered, or comes to wait. -/
theorem drive_cases (l : ReaderLoop A) (task : ℕ) :
    (∃ reader, l.drive task = { l with reader, readiness := l.readiness.wait task } ∧
      ∀ m₀, SizedAlloc A → (l.session .running).Tracks .nextItem m₀ →
        ((l.drive task).session .reading).Tracks .nextItem m₀) ∨
    ∃ reader a, l.drive task = { l with reader }.reply task (.answer a) ∧
      ∀ m₀, SizedAlloc A → (l.session .running).Tracks .nextItem m₀ →
        ((l.drive task).session .idle).Tracks .nextItem m₀ := by
  have hstep (m₀ : StreamContent) (hA : SizedAlloc A)
      (h : (l.session .running).Tracks .nextItem m₀) := tracks_step hA h
  unfold drive
  rcases hs : l.reader.step with ⟨e | (_ | _ | _), reader⟩
  · rw [hs] at hstep
    refine .inr ⟨reader, _, rfl, ?_⟩
    intro m₀ hA h
    rw [session_reply]
    exact hstep m₀ hA h
  · rw [hs] at hstep
    refine .inl ⟨reader, rfl, ?_⟩
    intro m₀ hA h
    have hblocked := hstep m₀ hA h
    rwa [told, List.append_nil] at hblocked
  · obtain ⟨item, hitem⟩ : ∃ item, reader.pending = some item := by
      have hready := pending_of_ready (show l.reader.step.1 = _ by rw [hs])
      rwa [hs] at hready
    have htake : reader.takeItem = (.ok item, { reader with pending := none }) := by
      simp only [takeItem, hitem]
    rw [hs] at hstep
    dsimp only
    rw [htake]
    refine .inr ⟨{ reader with pending := none }, _, rfl, ?_⟩
    intro m₀ hA h
    have hready := hstep m₀ hA h
    rw [told, hitem] at hready
    rw [session_reply]
    exact hready
  · rw [hs] at hstep
    refine .inr ⟨reader, _, rfl, ?_⟩
    intro m₀ hA h
    rw [session_reply]
    exact hstep m₀ hA h

/-- What is true of the loop at every moment. -/
def Serves (m₀ : StreamContent) (l : ReaderLoop A) : Prop :=
  (l.session l.stage).Tracks .nextItem m₀

omit [DestinationAlloc A] in
theorem stage_of_live (h : l.readiness.Live) : l.stage = .reading := if_pos h

omit [DestinationAlloc A] in
theorem stage_of_not_live (h : ¬ l.readiness.Live) : l.stage = .idle := if_neg h

theorem serves_drive (hA : SizedAlloc A) (h : (l.session .running).Tracks .nextItem m₀)
    (hlive : ¬ l.readiness.Live) : Serves m₀ (l.drive task) := by
  unfold Serves
  rcases drive_cases l task with ⟨reader, hdrive, htracks⟩ | ⟨reader, a, hdrive, htracks⟩
  · have hwait : (l.drive task).readiness.Live := by
      rw [hdrive]
      exact Readiness.live_wait
    rw [stage_of_live hwait]
    exact htracks m₀ hA h
  · have hidle : ¬ (l.drive task).readiness.Live := by
      rw [hdrive]
      exact hlive
    rw [stage_of_not_live hidle]
    exact htracks m₀ hA h

/-- A step changes nothing while a read is awaited. -/
theorem drive_of_remaining (h : 0 < l.reader.core.remaining) :
    l.drive task = { l with readiness := l.readiness.wait task } := by
  unfold drive
  rw [step_eq, step_of_remaining h]

/-- A task calls while another may wait. -/
theorem Serves.drive (hA : SizedAlloc A) (h : Serves m₀ l) : Serves m₀ (l.drive task) := by
  unfold Serves at h
  by_cases hlive : l.readiness.Live
  · rw [stage_of_live hlive] at h
    have hpos : 0 < l.reader.core.remaining := h.reading rfl
    have hwait : ({ l with readiness := l.readiness.wait task } : ReaderLoop A).readiness.Live :=
      Readiness.live_wait
    rw [drive_of_remaining hpos, Serves, stage_of_live hwait]
    exact h
  · rw [stage_of_not_live hlive] at h
    exact serves_drive hA (h.withStage (by simp)) hlive

theorem Serves.resume (hA : SizedAlloc A) (h : Serves m₀ l) (hwoken : l.readiness.woken = some task)
    (event : SourceEvent) : Serves m₀ (l.resume task event) := by
  have hlive : l.readiness.Live := .inr (by simp [hwoken])
  have hleft : ¬ (l.readiness.leave task).Live := Readiness.not_live_leave hwoken
  unfold Serves at h
  rw [stage_of_live hlive] at h
  cases event with
  | interrupted =>
    have hwait : (l.resume task .interrupted).readiness.Live := Readiness.live_wait
    unfold Serves
    rw [stage_of_live hwait]
    exact h
  | failed kind =>
    have hresume : l.resume task (.failed kind) =
        ({ l with readiness := l.readiness.leave task } : ReaderLoop A).reply task (.failed kind) := rfl
    have hidle : (l.session .idle).Tracks .nextItem m₀ := h.withStage (by simp)
    rw [hresume, Serves, stage_of_not_live hleft, session_reply, ItemReply.told, Option.toList_none,
      List.append_nil]
    exact hidle
  | read n =>
    have hfill := h.fill hA rfl (.read n)
    unfold ReaderLoop.resume
    rcases fill_cases l.reader l.rest l.answers n with ⟨e, reader, heq, hsession⟩ |
      ⟨reader, rest', heq, hsession⟩
    · rw [session, hsession] at hfill
      rw [heq, Serves, stage_of_not_live hleft, session_reply]
      exact hfill
    · rw [session, hsession] at hfill
      rw [heq]
      exact serves_drive hA hfill hleft

theorem Serves.act (hA : SizedAlloc A) (h : Serves m₀ l) (turn : ReaderTurn) :
    Serves m₀ (l.act turn) := by
  cases turn with
  | call task =>
    unfold ReaderLoop.act
    dsimp only
    split_ifs with hwaits hclosed
    · exact h
    · rw [Serves, session_reply, ItemReply.told, Option.toList_none, List.append_nil]
      exact h
    · exact h.drive hA
  | ready =>
    have hstage : (l.act .ready).stage = l.stage := if_congr Readiness.live_ready rfl rfl
    unfold Serves
    rw [hstage]
    exact h
  | resume event =>
    unfold ReaderLoop.act
    dsimp only
    split
    · exact h
    · next task hwoken => exact h.resume hA hwoken event
  | cancel task =>
    unfold ReaderLoop.act
    dsimp only
    split_ifs with hwaits
    · unfold Serves
      by_cases hlive : (l.readiness.leave task).Live
      · have hbefore : l.readiness.Live := .inr (Readiness.live_leave.mp hlive).1
        unfold Serves at h
        rw [stage_of_live hbefore] at h
        rw [stage_of_live hlive]
        exact h
      · rw [stage_of_not_live hlive]
        exact ReaderSession.Tracks.withStage h (by simp)
    · exact h
  | close => exact h

theorem serves_run (hA : SizedAlloc A) (h : Serves m₀ l) (turns : List ReaderTurn) :
    Serves m₀ (l.run turns) := by
  unfold run
  refine List.foldlRecOn turns ReaderLoop.act h ?_
  intro l hl turn _
  exact hl.act hA turn

/-! ### Who is answered -/

/-- Turns that are about one task, with reads of `chunk + 1` bytes where there are that many. -/
def Attends (task chunk : ℕ) (turn : ReaderTurn) : Prop :=
  turn = .call task ∨ turn = .ready ∨ turn = .resume (.read chunk)

/-- Such turns lead to a reply to the task. -/
def Answers (l : ReaderLoop A) (task chunk : ℕ) : Prop :=
  ∃ turns, (∀ turn ∈ turns, Attends task chunk turn) ∧
    ∃ a, (l.run turns).replies = l.replies ++ [(task, .answer a)]

section Answers
variable {chunk : ℕ}

theorem answers_of_reply {a : Answer} {turn : ReaderTurn} (hturn : Attends task chunk turn)
    (h : (l.act turn).replies = l.replies ++ [(task, .answer a)]) : l.Answers task chunk :=
  ⟨[turn], by simpa using hturn, a, h⟩

theorem Answers.of_act {turn : ReaderTurn} (hturn : Attends task chunk turn)
    (hsame : (l.act turn).replies = l.replies) (h : (l.act turn).Answers task chunk) :
    l.Answers task chunk := by
  obtain ⟨turns, hturns, a, ha⟩ := h
  refine ⟨turn :: turns, by simpa using ⟨hturn, hturns⟩, a, ?_⟩
  rw [hsame] at ha
  exact ha

/-- At the end of the stream a step is a reply. -/
theorem drive_of_finished (h : l.reader.core.state = .finished) :
    ∃ a, (l.drive task).replies = l.replies ++ [(task, .answer a)] := by
  unfold drive
  rw [step_eq, step_finished h]
  dsimp only
  split
  · next heq =>
    split at heq
    · exact ⟨_, rfl⟩
    · cases heq
  · next heq =>
    split at heq
    · cases heq
    · cases heq
  · exact ⟨_, rfl⟩
  · next heq =>
    split at heq
    · cases heq
    · cases heq

/-- The task that is called is answered, if tasks with less of the input to come are. -/
theorem answers_of_woken (hA : SizedAlloc A) (h : Serves m₀ l)
    (hwoken : l.readiness.woken = some task)
    (ih : ∀ l' : ReaderLoop A, Serves m₀ l' → l'.readiness.woken = none →
      l'.readiness.armed = some task → l'.rest.length < l.rest.length → l'.Answers task chunk) :
    l.Answers task chunk := by
  have hact : l.act (.resume (.read chunk)) = l.resume task (.read chunk) := by
    simp only [ReaderLoop.act, hwoken]
  have hattends : Attends task chunk (.resume (.read chunk)) := .inr (.inr rfl)
  have hserves := h.resume hA hwoken (.read chunk)
  have hlive : l.readiness.Live := .inr (by simp [hwoken])
  unfold Serves at h
  rw [stage_of_live hlive] at h
  have hpos : 0 < l.reader.core.remaining := h.reading rfl
  obtain ⟨w, hfed⟩ := h.fed
  rcases fill_cases l.reader l.rest l.answers chunk with ⟨e, reader, heq, hsession⟩ |
    ⟨reader, rest', heq, hsession⟩
  · have hreply : (l.act (.resume (.read chunk))).replies =
        l.replies ++ [(task, .answer (.error e))] := by
      rw [hact, ReaderLoop.resume, heq]
      rfl
    exact answers_of_reply hattends hreply
  · obtain ⟨k, hk⟩ : ∃ k : ReaderLoop A, k = { l with
      reader, rest := rest', readiness := l.readiness.leave task } := ⟨_, rfl⟩
    have hresume : l.resume task (.read chunk) = k.drive task := by
      rw [ReaderLoop.resume, heq, hk]
    rcases ReaderSession.fill_read hfed hpos chunk with ⟨data, tail, hrest, hdata, -, hread⟩ |
      ⟨-, -, hread⟩ | ⟨-, -, hread⟩
    · rw [session, hsession] at hread
      obtain rfl : rest' = tail := congrArg ReaderSession.rest hread
      rw [hresume] at hserves
      rcases drive_cases k task with ⟨reader', hdrive, -⟩ | ⟨reader', a, hdrive, -⟩
      · have hsame : (l.act (.resume (.read chunk))).replies = l.replies := by
          rw [hact, hresume, hdrive, hk]
        refine Answers.of_act hattends hsame ?_
        rw [hact, hresume]
        refine ih _ hserves ?_ ?_ ?_
        all_goals rw [hdrive, hk]
        · simp [Readiness.wait, Readiness.leave, hwoken]
        · rfl
        · have hlen := congrArg List.length hrest
          have hpos' := List.length_pos_iff.mpr hdata
          rw [List.length_append] at hlen
          have hlen' : l.rest.length = data.length + rest'.length := hlen
          show rest'.length < l.rest.length
          omega
      · have hreply : (l.act (.resume (.read chunk))).replies = l.replies ++ [(task, .answer a)] := by
          rw [hact, hresume, hdrive, hk]
          rfl
        exact answers_of_reply hattends hreply
    · rw [session, hsession] at hread
      have hcore : reader.core.state = .finished :=
        congrArg (fun s : ReaderSession A => s.reader.core.state) hread
      have hfinished : k.reader.core.state = .finished := by rw [hk, hcore]
      obtain ⟨a, ha⟩ := drive_of_finished hfinished
      rw [← hresume, ← hact] at ha
      rw [hk] at ha
      exact answers_of_reply hattends ha
    · rw [session, hsession] at hread
      cases congrArg ReaderSession.stage hread

theorem answers_of_armed (hA : SizedAlloc A) (h : Serves m₀ l) (hwoken : l.readiness.woken = none)
    (harmed : l.readiness.armed = some task) : l.Answers task chunk := by
  induction hn : l.rest.length using Nat.strong_induction_on generalizing l with
  | h n ih =>
    have hready : (l.act .ready).readiness.woken = some task := by
      simp [ReaderLoop.act, Readiness.ready, hwoken, harmed]
    refine Answers.of_act (.inr (.inl rfl)) rfl ?_
    refine answers_of_woken hA (h.act hA .ready) hready ?_
    intro l' h' hwoken' harmed' hlt
    exact ih _ (hn ▸ hlt) h' hwoken' harmed' rfl

/-- A call is answered, if no other task is in the middle of its own. -/
theorem exists_reply (hA : SizedAlloc A) (h : Serves m₀ l) (hwoken : l.readiness.woken = none)
    (hclosed : l.closed = false) (hwaits : task ∉ l.readiness.waiting) : l.Answers task chunk := by
  have hact : l.act (.call task) = l.drive task := by
    simp [ReaderLoop.act, hwaits, hclosed]
  have hattends : Attends task chunk (.call task) := .inl rfl
  rcases drive_cases l task with ⟨reader, hdrive, -⟩ | ⟨reader, a, hdrive, -⟩
  · have hsame : (l.act (.call task)).replies = l.replies := by
      rw [hact, hdrive]
    refine Answers.of_act hattends hsame ?_
    refine answers_of_armed hA (h.act hA (.call task)) ?_ ?_
    all_goals rw [hact, hdrive]
    · exact hwoken
    · rfl
  · have hreply : (l.act (.call task)).replies = l.replies ++ [(task, .answer a)] := by
      rw [hact, hdrive]
      rfl
    exact answers_of_reply hattends hreply

end Answers

/-- A reply that is not of the core comes from the source, or from a reader that was closed. -/
def Accounted (turns : List ReaderTurn) : ItemReply → Prop
  | .answer _ => True
  | .failed kind => .resume (.failed kind) ∈ turns
  | .noItem => False
  | .released => .close ∈ turns

theorem Accounted.append {turns more : List ReaderTurn} {r : ItemReply} (h : Accounted turns r) :
    Accounted (turns ++ more) r := by
  cases r with
  | answer a => trivial
  | noItem => exact h
  | failed kind => exact List.mem_append_left _ h
  | released => exact List.mem_append_left _ h

/-- The replies of one turn. -/
theorem replies_act {turns : List ReaderTurn} {turn : ReaderTurn} (hturn : turn ∈ turns)
    (hclosed : l.closed = true → .close ∈ turns) :
    (l.act turn).replies = l.replies ∨
      ∃ task r, (l.act turn).replies = l.replies ++ [(task, r)] ∧ Accounted turns r := by
  have hdrive (l : ReaderLoop A) (task : ℕ) : (l.drive task).replies = l.replies ∨
      ∃ task' r, (l.drive task).replies = l.replies ++ [(task', r)] ∧ Accounted turns r := by
    rcases drive_cases l task with ⟨reader, hdrive, -⟩ | ⟨reader, a, hdrive, -⟩
    · exact .inl (by rw [hdrive])
    · exact .inr ⟨task, .answer a, by rw [hdrive]; rfl, trivial⟩
  cases turn with
  | call task =>
    unfold ReaderLoop.act
    dsimp only
    split_ifs with hwaits hgone
    · exact .inl rfl
    · exact .inr ⟨task, .released, rfl, hclosed hgone⟩
    · exact hdrive l task
  | ready => exact .inl rfl
  | resume event =>
    unfold ReaderLoop.act
    dsimp only
    split
    · exact .inl rfl
    · next task _ =>
      cases event with
      | interrupted => exact .inl rfl
      | failed kind => exact .inr ⟨task, .failed kind, rfl, hturn⟩
      | read n =>
        unfold ReaderLoop.resume
        rcases fill_cases l.reader l.rest [] n with ⟨e, reader, heq, -⟩ | ⟨reader, rest', heq, -⟩
        · rw [heq]
          exact .inr ⟨task, .answer (.error e), rfl, trivial⟩
        · rw [heq]
          exact hdrive _ task
  | cancel task =>
    unfold ReaderLoop.act
    dsimp only
    split_ifs <;> exact .inl rfl
  | close => exact .inl rfl

theorem closed_drive : (l.drive task).closed = l.closed := by
  rcases drive_cases l task with ⟨reader, hdrive, -⟩ | ⟨reader, a, hdrive, -⟩ <;> rw [hdrive]
  rfl

theorem closed_act {turn : ReaderTurn} (h : (l.act turn).closed = true) :
    l.closed = true ∨ turn = .close := by
  cases turn with
  | call task =>
    unfold ReaderLoop.act at h
    dsimp only at h
    split_ifs at h with hwaits hgone
    · exact .inl h
    · exact .inl hgone
    · rw [closed_drive] at h
      exact .inl h
  | ready => exact .inl h
  | resume event =>
    unfold ReaderLoop.act ReaderLoop.resume at h
    dsimp only at h
    split at h
    · exact .inl h
    · split at h
      · exact .inl h
      · exact .inl h
      · rw [closed_drive] at h
        exact .inl h
  | cancel task =>
    unfold ReaderLoop.act at h
    dsimp only at h
    split_ifs at h <;> exact .inl h
  | close => exact .inr rfl

theorem accounted_run (h : l.replies = []) (hopen : l.closed = false) (turns : List ReaderTurn) :
    ((l.run turns).closed = true → .close ∈ turns) ∧
      ∀ task r, (task, r) ∈ (l.run turns).replies → Accounted turns r := by
  induction turns using List.reverseRecOn with
  | nil => simp [run, h, hopen]
  | append_singleton turns turn ih =>
    obtain ⟨hclosed, hreplies⟩ := ih
    have hrun : l.run (turns ++ [turn]) = (l.run turns).act turn := by
      simp [run]
    rw [hrun]
    constructor
    · intro hgone
      rcases closed_act hgone with hbefore | rfl
      · exact List.mem_append_left _ (hclosed hbefore)
      · simp
    · intro task r hr
      have hbefore : (l.run turns).closed = true → .close ∈ turns ++ [turn] :=
        fun hgone => List.mem_append_left _ (hclosed hgone)
      have hturn : turn ∈ turns ++ [turn] := by simp
      rcases @replies_act A _ (l.run turns) _ _ hturn hbefore with hsame | ⟨task', r', hnew, haccounted⟩
      · rw [hsame] at hr
        exact (hreplies task r hr).append
      · rw [hnew] at hr
        rcases List.mem_append.mp hr with hr | hr
        · exact (hreplies task r hr).append
        · obtain ⟨rfl, rfl⟩ := Prod.mk.inj (List.mem_singleton.mp hr)
          exact haccounted

/-! ### Who is not -/

omit [DestinationAlloc A] in
theorem mem_of_mem_reply {r r' : ItemReply} (hne : other ≠ task)
    (h : (task, r) ∈ (l.reply other r').replies) : (task, r) ∈ l.replies := by
  rcases List.mem_append.mp h with h | h
  · exact h
  · obtain ⟨heq, -⟩ := Prod.mk.inj (List.mem_singleton.mp h)
    exact absurd heq.symm hne

/-- The task is stranded, and has no reply that it had not before. -/
def Forgets (task : ℕ) (before l : ReaderLoop A) : Prop :=
  l.readiness.Stranded task ∧ ∀ r, (task, r) ∈ l.replies → (task, r) ∈ before.replies

variable {before : ReaderLoop A}

omit [DestinationAlloc A] in
theorem Forgets.reply {r : ItemReply} (h : Forgets task before l) (hne : other ≠ task) :
    Forgets task before (l.reply other r) :=
  ⟨h.1, fun r hr => h.2 r (mem_of_mem_reply hne hr)⟩

theorem Forgets.drive (h : Forgets task before l) (hne : other ≠ task) :
    Forgets task before (l.drive other) := by
  rcases drive_cases l other with ⟨reader, hdrive, -⟩ | ⟨reader, a, hdrive, -⟩
  · rw [hdrive]
    exact ⟨h.1.wait hne, h.2⟩
  · rw [hdrive]
    have hsame : Forgets task before { l with reader } := h
    exact hsame.reply hne

theorem Forgets.resume (h : Forgets task before l) (hne : other ≠ task) (event : SourceEvent) :
    Forgets task before (l.resume other event) := by
  have hleft {reader : AsyncStreamReader A} {rest : Bytes} : Forgets task before
      { l with reader, rest, readiness := l.readiness.leave other } := ⟨h.1.leave hne, h.2⟩
  unfold ReaderLoop.resume
  split
  · exact hleft.reply hne
  · exact ⟨(h.1.leave hne).wait hne, h.2⟩
  · exact hleft.drive hne

theorem Forgets.act {turn : ReaderTurn} (h : Forgets task before l) (hturn : turn ≠ .cancel task) :
    Forgets task before (l.act turn) := by
  have hne {other : ℕ} (hother : other ∉ l.readiness.waiting) : other ≠ task :=
    fun heq => hother (heq ▸ h.1.1)
  unfold ReaderLoop.act
  cases turn with
  | call other =>
    dsimp only
    split_ifs with hwaits hgone
    · exact h
    · exact h.reply (hne hwaits)
    · exact h.drive (hne hwaits)
  | ready => exact ⟨h.1.ready, h.2⟩
  | resume event =>
    dsimp only
    split
    · exact h
    · next other hwoken =>
      refine h.resume ?_ event
      rintro rfl
      exact h.1.2.2 hwoken
  | cancel other =>
    dsimp only
    split_ifs
    · refine ⟨h.1.leave ?_, h.2⟩
      rintro rfl
      exact hturn rfl
    · exact h
  | close => exact h

/-- A task waits and another one calls. Nothing but its cancellation reaches it any more. -/
theorem forgets_of_call (h : Serves m₀ l) (hwaits : task ∈ l.readiness.waiting)
    (hwoken : l.readiness.woken ≠ some task) (hother : other ∉ l.readiness.waiting)
    (hclosed : l.closed = false) {turns : List ReaderTurn} (hturns : .cancel task ∉ turns) :
    Forgets task l ((l.act (.call other)).run turns) := by
  have hne : other ≠ task := fun heq => hother (heq ▸ hwaits)
  have hact : l.act (.call other) = l.drive other := by
    simp [ReaderLoop.act, hother, hclosed]
  have hcall : Forgets task l (l.act (.call other)) := by
    rw [hact]
    by_cases harmed : l.readiness.armed = some task
    · have hlive : l.readiness.Live := .inl (by simp [harmed])
      unfold Serves at h
      rw [stage_of_live hlive] at h
      have hpos : 0 < l.reader.core.remaining := h.reading rfl
      rw [drive_of_remaining hpos]
      exact ⟨Readiness.stranded_wait hwaits hwoken hne, fun r hr => hr⟩
    · exact Forgets.drive ⟨⟨hwaits, harmed, hwoken⟩, fun r hr => hr⟩ hne
  unfold run
  refine List.foldlRecOn turns ReaderLoop.act hcall ?_
  intro k hk turn hturn
  exact hk.act fun heq => hturns (heq ▸ hturn)

/-! ### The tasks of a loop -/

/-- The bytes of the input decide what the tasks of a loop are answered, however they take turns:
the answers of the core, in the order in which they are given and whoever gets them, are those of
one caller who is never disturbed. What else a call ends with comes from the source or from closing
the reader. A call is answered if no task is about to run. A task that waits while another one
calls is not reached by anything but its cancellation. -/
theorem tasks_answered (hA : LawfulAlloc A) (options : StreamReaderOptions) (a : A)
    (input : Bytes) :
    ∃ content : StreamContent,
      (withDestinations options a).Delivers input content.todo content.outcome ∧
      content.assembler = .new options.maxCompositeDepth ∧
      ∀ turns,
        let l := (start options a input).run turns
        l.answers = content.answers .nextItem l.answers.length ∧
        (∀ task r, (task, r) ∈ l.replies → Accounted turns r) ∧
        (l.closed = false → ∀ task ∉ l.readiness.waiting,
          (l.readiness.woken = none → ∀ chunk, l.Answers task chunk) ∧
          ∀ first ∈ l.readiness.waiting, l.readiness.woken ≠ some first →
            ∀ later, .cancel first ∉ later →
              Forgets first l ((l.act (.call task)).run later)) := by
  have hsized : SizedAlloc A := sizedAlloc_of_lawful hA
  obtain ⟨ts, outcome, hd⟩ := exists_delivers input hsized (fed_start options a)
  refine ⟨⟨ts, outcome, .new options.maxCompositeDepth⟩, hd, rfl, ?_⟩
  intro turns l
  have hstart : Serves ⟨ts, outcome, .new options.maxCompositeDepth⟩ (start options a input) :=
    ReaderSession.tracks_start hd
  have hserves : Serves ⟨ts, outcome, .new options.maxCompositeDepth⟩ l :=
    serves_run hsized hstart turns
  obtain ⟨m, -, hn⟩ := hserves.answers
  have hanswered := hn 0
  rw [Nat.add_zero, StreamContent.answers, List.append_nil] at hanswered
  refine ⟨hanswered.symm, (accounted_run rfl rfl turns).2, ?_⟩
  intro hclosed task hwaits
  constructor
  · intro hwoken chunk
    exact exists_reply hsized hserves hwoken hclosed hwaits
  · intro first hfirst hwoken later hlater
    exact forgets_of_call hserves hfirst hwoken hwaits hclosed hlater

/-- The head of a group on its own. -/
theorem tasks_answered_groupHead :
    ∃ content : StreamContent,
      (withDestinations .default SystemDestinations.mk).Delivers ReaderSession.groupHead content.todo
        content.outcome ∧
      content.assembler = .new DEFAULT_MAX_COMPOSITE_DEPTH ∧
      ∀ turns,
        let l := (start .default SystemDestinations.mk ReaderSession.groupHead).run turns
        l.answers = content.answers .nextItem l.answers.length ∧
        (∀ task r, (task, r) ∈ l.replies → Accounted turns r) ∧
        (l.closed = false → ∀ task ∉ l.readiness.waiting,
          (l.readiness.woken = none → ∀ chunk, l.Answers task chunk) ∧
          ∀ first ∈ l.readiness.waiting, l.readiness.woken ≠ some first →
            ∀ later, .cancel first ∉ later →
              Forgets first l ((l.act (.call task)).run later)) :=
  tasks_answered lawfulAlloc_systemDestinations .default .mk ReaderSession.groupHead

end ReaderLoop
end Hurray.Python
