import Hurray.Stream.Assembler
import Hurray.Stream.Resumption

/-!
The reader of a stream as its callers have it. A call suspends in a read, may be
dropped there, and returns what the source fails with; the core and the assembler
stay. The answers of a session are those of the tensors that the stream holds,
however the source behaves and whichever calls are given up.
-/
namespace Hurray.Stream
open Hurray.Base Hurray.Core Hurray.Descriptor StateTransition

/-- What a read comes back with: at least one byte and at most `n + 1` of them, unless the input
is at its end. -/
inductive SourceEvent where
  | read (n : ℕ)
  | interrupted
  | failed (kind : String)
  deriving DecidableEq, Repr

/-- A call for tensors returns a head like any tensor. -/
inductive ReaderCall where
  | nextTensor
  | nextItem
  deriving DecidableEq, Repr

/-- An answer of a call. A tensor that is returned as such is an item of its own. -/
abbrev Answer := Result (Option StreamItem)

namespace ReaderCall

/-- What is made of a tensor that the core hands over. No answer means that the call goes on. -/
def receive (call : ReaderCall) (assembler : CompositeAssembler) (t : StreamTensor) :
    Option Answer × CompositeAssembler :=
  match call with
  | nextTensor => (some (.ok (some (.tensor t))), assembler)
  | nextItem =>
      match assembler.push t with
      | (.error e, assembler) => (some (.error e), assembler)
      | (.ok (some item), assembler) => (some (.ok (some item)), assembler)
      | (.ok none, assembler) => (none, assembler)

/-- The answer at the end of the stream. -/
def conclude (call : ReaderCall) (assembler : CompositeAssembler) : Answer :=
  match call with
  | nextTensor => .ok none
  | nextItem =>
      match assembler.finish with
      | .error e => .error e
      | .ok _ => .ok none

end ReaderCall

structure StreamReader (A : Type) where
  core : StreamReaderCore A
  assembler : CompositeAssembler

def StreamReader.withOptions {A : Type} (options : StreamReaderOptions) (a : A) : StreamReader A :=
  ⟨.withDestinations options a, .new options.maxCompositeDepth⟩

/-- A call is at the head of its loop, or waits for a read. -/
inductive CallStage where
  | idle
  | running
  | reading
  deriving DecidableEq, Repr

inductive ReaderMove where
  | call
  | turn
  | source (event : SourceEvent)
  | drop
  deriving DecidableEq, Repr

/-- A reader with the input that has not arrived, the answers of its calls, and the failures of
the source that calls returned instead. -/
structure ReaderSession (A : Type) where
  reader : StreamReader A
  rest : Bytes
  stage : CallStage
  answered : List Answer
  failures : List String

namespace ReaderSession
variable {A : Type}

def start (options : StreamReaderOptions) (a : A) (input : Bytes) : ReaderSession A :=
  ⟨.withOptions options a, input, .idle, [], []⟩

def answer (s : ReaderSession A) (r : Answer) : ReaderSession A :=
  { s with stage := .idle, answered := s.answered ++ [r] }

/-- A read in `fill`. What arrives is reported at once. -/
def fill (s : ReaderSession A) (event : SourceEvent) : ReaderSession A :=
  match event with
  | .interrupted => s
  | .failed kind => { s with stage := .idle, failures := s.failures ++ [kind] }
  | .read n =>
      let data := s.rest.take (min s.reader.core.remaining (n + 1))
      match (s.reader.core.fillDst data).reportFilled data.length with
      | (.error e, core) => { s with reader := { s.reader with core } }.answer (.error e)
      | (.ok _, core) =>
          { s with reader := { s.reader with core }, rest := s.rest.drop data.length,
                   stage := .running }

variable [DestinationAlloc A]

/-- One turn of the loop of a call. -/
def turn (call : ReaderCall) (s : ReaderSession A) : ReaderSession A :=
  match s.reader.core.step with
  | (.error e, core) => { s with reader := { s.reader with core } }.answer (.error e)
  | (.ok (.input _), core) => { s with reader := { s.reader with core }, stage := .reading }
  | (.ok .finished, core) =>
      { s with reader := { s.reader with core } }.answer (call.conclude s.reader.assembler)
  | (.ok .tensor, core) =>
      match core.takeTensor with
      | (none, core) => { s with reader := { s.reader with core } }.answer (Exec.fail .coreFailed)
      | (some t, core) =>
          match call.receive s.reader.assembler t with
          | (some r, assembler) => { s with reader := ⟨core, assembler⟩ }.answer r
          | (none, assembler) => { s with reader := ⟨core, assembler⟩ }

/-- One move. A call is dropped only where it waits, and moves that do not apply change nothing. -/
def act (call : ReaderCall) (s : ReaderSession A) (m : ReaderMove) : ReaderSession A :=
  match s.stage, m with
  | .idle, .call => { s with stage := .running }
  | .running, .turn => s.turn call
  | .reading, .source event => s.fill event
  | .reading, .drop => { s with stage := .idle }
  | _, _ => s

def run (call : ReaderCall) (s : ReaderSession A) (moves : List ReaderMove) : ReaderSession A :=
  moves.foldl (act call) s

end ReaderSession

/-! ### The stream as a value -/

/-- What a stream holds: the tensors to come, how it ends, and the groups that are open. -/
structure StreamContent where
  todo : List StreamTensor
  outcome : Result Unit
  assembler : CompositeAssembler

namespace StreamContent

/-- The first answer, with the tensors that are left. -/
def answerFrom (call : ReaderCall) (outcome : Result Unit) :
    List StreamTensor → CompositeAssembler → Answer × StreamContent
  | [], assembler =>
      match outcome with
      | .ok _ => (call.conclude assembler, ⟨[], outcome, assembler⟩)
      | .error e => (.error e, ⟨[], Exec.fail .coreFailed, assembler⟩)
  | t :: todo, assembler =>
      match call.receive assembler t with
      | (some r, assembler) => (r, ⟨todo, outcome, assembler⟩)
      | (none, assembler) => answerFrom call outcome todo assembler

def answer (call : ReaderCall) (m : StreamContent) : Answer × StreamContent :=
  answerFrom call m.outcome m.todo m.assembler

/-- The first answers of a reader that nothing disturbs. -/
def answers (call : ReaderCall) : ℕ → StreamContent → List Answer
  | 0, _ => []
  | n + 1, m => (m.answer call).1 :: answers call n (m.answer call).2

variable {call : ReaderCall} {m : StreamContent} {t : StreamTensor} {a : CompositeAssembler}

theorem answers_eq_of_answer {m' : StreamContent} (h : m.answer call = m'.answer call) (n : ℕ) :
    m.answers call n = m'.answers call n := by
  cases n with
  | zero => rfl
  | succ n => rw [answers, answers, h]

end StreamContent

/-! ### A session answers from the stream -/

namespace ReaderSession
variable {A : Type} [DestinationAlloc A] {call : ReaderCall} {s : ReaderSession A}
  {m m' m₀ : StreamContent} {r : Answer}

open StreamReaderCore StreamContent

/-- What the core will deliver, and the groups that are open. -/
structure Holds (s : ReaderSession A) (m : StreamContent) : Prop where
  delivers : s.reader.core.Delivers s.rest m.todo m.outcome
  assembler : m.assembler = s.reader.assembler

/-- What is true of a session over a stream at every moment. -/
structure Tracks (call : ReaderCall) (m₀ : StreamContent) (s : ReaderSession A) : Prop where
  fed : ∃ w, s.reader.core.Fed w
  usable : ∀ reason, s.reader.core.state ≠ .unusable reason
  reading : s.stage = .reading → 0 < s.reader.core.remaining
  answers : ∃ m, s.Holds m ∧
    ∀ n, m₀.answers call (s.answered.length + n) = s.answered ++ m.answers call n

/-- A change of the stage. -/
theorem Tracks.withStage {stage : CallStage} {failures : List String} (h : Tracks call m₀ s)
    (hstage : stage = .reading → 0 < s.reader.core.remaining) :
    Tracks call m₀ { s with stage, failures } := by
  obtain ⟨m, ⟨hd, ha⟩, hn⟩ := h.answers
  exact ⟨h.fed, h.usable, hstage, m, ⟨hd, ha⟩, hn⟩

/-- The next answer is given. -/
theorem tracks_answer {w : Bytes} (hfed : s.reader.core.Fed w)
    (hu : ∀ reason, s.reader.core.state ≠ .unusable reason)
    (hn : ∀ n, m₀.answers call (s.answered.length + n) = s.answered ++ m.answers call n)
    (hr : m.answer call = (r, m')) (hm : s.Holds m') : Tracks call m₀ (s.answer r) := by
  refine ⟨⟨w, hfed⟩, hu, ?_, m', ⟨hm.delivers, hm.assembler⟩, ?_⟩
  · intro hstage
    cases hstage
  · intro n
    have hsucc := hn (n + 1)
    have hnext : m.answers call (n + 1) = r :: m'.answers call n := by
      rw [StreamContent.answers, hr]
    rw [hnext] at hsucc
    simpa [answer, Nat.add_assoc, Nat.add_comm 1 n] using hsucc

theorem delivers_failed {c : StreamReaderCore A} {rest : Bytes} (hs : c.state = .failed) :
    c.Delivers rest [] (Exec.fail .coreFailed) := by
  have hstep : c.step = (Exec.fail .coreFailed, c) := by
    unfold step
    split <;> simp_all
  exact delivers_error hstep

/-- The core has failed, and the call says so. -/
theorem tracks_failed {e : Fault Error} {core : StreamReaderCore A} (h : Tracks call m₀ s)
    (he : s.reader.core.Delivers s.rest [] (.error e)) (hs : core.state = .failed) :
    Tracks call m₀ ({ s with reader := { s.reader with core } }.answer (.error e)) := by
  obtain ⟨m, ⟨hd, ha⟩, hn⟩ := h.answers
  obtain ⟨hnil, hout⟩ := hd.unique he
  have hfed : core.Fed [] := fed_of_dead (.inl hs)
  have hholds : Holds { s with reader := { s.reader with core } }
      ⟨[], Exec.fail .coreFailed, m.assembler⟩ := ⟨delivers_failed hs, ha⟩
  refine tracks_answer hfed ?_ hn ?_ hholds
  · intro reason hs'
    have hs'' : core.state = .unusable reason := hs'
    rw [hs] at hs''
    cases hs''
  · rw [StreamContent.answer, hnil, hout, answerFrom]

omit [DestinationAlloc A] in
theorem usable_of_remaining {c : StreamReaderCore A} (hpos : 0 < c.remaining) (reason : Unusable) :
    c.state ≠ .unusable reason := by
  intro hs
  simp [remaining, hs] at hpos

/-- A turn that does not return keeps what the session holds. -/
theorem Tracks.goOn {c : StreamReaderCore A} {stage : CallStage} {w : Bytes} (h : Tracks call m₀ s)
    (hfed : c.Fed w) (hpos : 0 < c.remaining)
    (hd : ∀ ts outcome, s.reader.core.Delivers s.rest ts outcome → c.Delivers s.rest ts outcome) :
    Tracks call m₀ { s with reader := { s.reader with core := c }, stage } := by
  obtain ⟨m, ⟨hm, ha⟩, hn⟩ := h.answers
  exact ⟨⟨w, hfed⟩, usable_of_remaining hpos, fun _ => hpos, m, ⟨hd _ _ hm, ha⟩, hn⟩

/-- A tensor is handed over. -/
theorem tracks_receive (hA : SizedAlloc A) {core core' : StreamReaderCore A} {t : StreamTensor}
    {w : Bytes} (h : Tracks call m₀ s) (hstep : s.reader.core.step = (.ok .tensor, core))
    (ht : core.takeTensor = (some t, core')) (hfed : core'.Fed w) (hpos : 0 < core'.remaining) :
    Tracks call m₀ (match call.receive s.reader.assembler t with
      | (some r, assembler) => { s with reader := ⟨core', assembler⟩ }.answer r
      | (none, assembler) => { s with reader := ⟨core', assembler⟩ }) := by
  obtain ⟨m, ⟨hd, ha⟩, hn⟩ := h.answers
  obtain ⟨ts, outcome, hd'⟩ := exists_delivers s.rest hA hfed
  obtain ⟨htodo, hout⟩ := hd.unique (delivers_tensor hstep ht hd')
  have hanswer : m.answer call = match call.receive s.reader.assembler t with
      | (some r, assembler) => (r, ⟨ts, outcome, assembler⟩)
      | (none, assembler) => (⟨ts, outcome, assembler⟩ : StreamContent).answer call := by
    rw [StreamContent.answer, htodo, hout, ha]
    rfl
  rcases hr : call.receive s.reader.assembler t with ⟨_ | r, assembler⟩
  · rw [hr] at hanswer
    refine ⟨⟨w, hfed⟩, usable_of_remaining hpos, fun _ => hpos, ⟨ts, outcome, assembler⟩,
      ⟨hd', rfl⟩, ?_⟩
    intro n
    rw [← answers_eq_of_answer hanswer n]
    exact hn n
  · rw [hr] at hanswer
    exact tracks_answer (s := { s with reader := ⟨core', assembler⟩ }) hfed
      (usable_of_remaining hpos) hn hanswer ⟨hd', rfl⟩

theorem Tracks.turn (hA : SizedAlloc A) (h : Tracks call m₀ s) : Tracks call m₀ (s.turn call) := by
  obtain ⟨w, hfed⟩ := h.fed
  unfold ReaderSession.turn
  rcases hstep : s.reader.core.step with ⟨e | r, core⟩
  · exact tracks_failed h (delivers_error hstep) (step_eq_error hstep h.usable)
  · have hfed' := hfed.of_step hA hstep
    rcases step_eq_ok hstep with ⟨rfl, hpos⟩ | ⟨rfl, hs⟩ | ⟨rfl, hs⟩
    · refine h.goOn hfed' hpos ?_
      intro ts outcome hd
      obtain ⟨ts', outcome', hd'⟩ := exists_delivers s.rest hA hfed'
      obtain ⟨rfl, rfl⟩ := hd.unique (delivers_of_step hstep hd')
      exact hd'
    · obtain ⟨t, core', ht, hfed'', hpos⟩ := hfed'.takeTensor hs
      dsimp only
      rw [ht]
      exact tracks_receive hA h hstep ht hfed'' hpos
    · obtain ⟨m, ⟨hd, ha⟩, hn⟩ := h.answers
      obtain ⟨hnil, hout⟩ := hd.unique (delivers_finished hstep)
      have hholds : Holds { s with reader := { s.reader with core } }
          ⟨[], .ok (), s.reader.assembler⟩ := ⟨delivers_finished (step_finished hs), rfl⟩
      refine tracks_answer hfed' ?_ hn ?_ hholds
      · intro reason hs'
        have hs'' : core.state = .unusable reason := hs'
        rw [hs] at hs''
        cases hs''
      · rw [StreamContent.answer, hnil, hout, answerFrom, ha]

/-- Bytes arrive and are reported. -/
theorem Tracks.arrived (hA : SizedAlloc A) {data tail : Bytes} (h : Tracks call m₀ s)
    (hrest : s.rest = data ++ tail) (hdata : data ≠ []) (hle : data.length ≤ s.reader.core.remaining) :
    Tracks call m₀ { s with reader := { s.reader with core := s.reader.core.filledWith data },
                            rest := tail, stage := .running } := by
  obtain ⟨w, hfed⟩ := h.fed
  obtain ⟨m, ⟨hd, ha⟩, hn⟩ := h.answers
  obtain ⟨w', hfed'⟩ := hfed.filledWith hdata hle
  obtain ⟨ts, outcome, hd'⟩ := exists_delivers tail hA hfed'
  have hall := delivers_filledWith hA hfed hdata hle hd'
  rw [← hrest] at hall
  obtain ⟨hts, hout⟩ := hd.unique hall
  refine ⟨⟨w', hfed'⟩, ?_, ?_, m, ⟨by rw [hts, hout]; exact hd', ha⟩, hn⟩
  · intro reason hs
    rw [show (s.reader.core.filledWith data).state = _ from (filledWith_state _ data).1] at hs
    exact h.usable reason hs
  · intro hstage
    cases hstage

/-- The reader with another core, at the head of its loop. -/
def advance (s : ReaderSession A) (core : StreamReaderCore A) (rest : Bytes) : ReaderSession A :=
  { s with reader := { s.reader with core }, rest, stage := .running }

omit [DestinationAlloc A] in
/-- A read brings the first bytes of the input, or meets its end, which is clean at a boundary. -/
theorem fill_read {w : Bytes} (hfed : s.reader.core.Fed w) (hpos : 0 < s.reader.core.remaining)
    (n : ℕ) :
    (∃ data tail, s.rest = data ++ tail ∧ data ≠ [] ∧ data.length ≤ s.reader.core.remaining ∧
      s.fill (.read n) = s.advance (s.reader.core.filledWith data) tail) ∨
    (s.rest = [] ∧ s.reader.core.AtBoundary ∧
      s.fill (.read n) = s.advance { s.reader.core with state := .finished } []) ∨
    (s.rest = [] ∧ ¬ s.reader.core.AtBoundary ∧ s.fill (.read n) =
      { s with reader := { s.reader with core := { s.reader.core with state := .failed } } }.answer
        (Exec.fail .unexpectedEof)) := by
  obtain ⟨hfilling, -⟩ := hfed.filling hpos
  obtain ⟨data, hdata⟩ : ∃ data, data = s.rest.take (min s.reader.core.remaining (n + 1)) := ⟨_, rfl⟩
  have hlen : data.length = min (min s.reader.core.remaining (n + 1)) s.rest.length := by
    rw [hdata, List.length_take]
  unfold fill
  dsimp only
  rw [← hdata]
  by_cases hnil : s.rest = []
  · have hzero : data = [] := by simp [hdata, hnil]
    rw [hzero, fillDst_nil, List.length_nil, hnil]
    by_cases hb : s.reader.core.AtBoundary
    · rw [reportFilled_zero_atBoundary hb]
      exact .inr (.inl ⟨rfl, hb, rfl⟩)
    · rw [reportFilled_zero hfilling hb]
      refine .inr (.inr ⟨rfl, hb, ?_⟩)
      rw [← hnil]
      rfl
  · have hsome := List.length_pos_iff.mpr hnil
    rw [reportFilled_fillDst hfilling (by omega) (by omega)]
    refine .inl ⟨data, s.rest.drop data.length, ?_, List.length_pos_iff.mp (by omega), by omega, rfl⟩
    have htake : s.rest.take data.length = data := by
      rw [hlen, ← List.take_take, List.take_length, hdata]
    conv_lhs => rw [← List.take_append_drop data.length s.rest, htake]

theorem Tracks.fill (hA : SizedAlloc A) (h : Tracks call m₀ s) (hstage : s.stage = .reading)
    (event : SourceEvent) : Tracks call m₀ (s.fill event) := by
  have hpos := h.reading hstage
  obtain ⟨w, hfed⟩ := h.fed
  cases event with
  | interrupted => exact h
  | failed kind => exact h.withStage (by simp)
  | read n =>
    rcases fill_read hfed hpos n with ⟨data, tail, hrest, hdata, hle, heq⟩ | ⟨hrest, hb, heq⟩ |
      ⟨hrest, hb, heq⟩
    · rw [heq]
      exact h.arrived hA hrest hdata hle
    · obtain ⟨m, ⟨hd, ha⟩, hn⟩ := h.answers
      rw [hrest] at hd
      obtain ⟨htodo, hout⟩ := hd.unique (delivers_atBoundary hpos hb)
      rw [heq]
      refine ⟨⟨[], rfl⟩, by simp [advance], by simp [advance], m, ⟨?_, ha⟩, hn⟩
      rw [htodo, hout]
      exact delivers_finished (step_finished rfl)
    · rw [heq]
      refine tracks_failed h ?_ rfl
      rw [hrest]
      exact delivers_torn hfed hpos fun _ => hb

theorem Tracks.act (hA : SizedAlloc A) (h : Tracks call m₀ s) (m : ReaderMove) :
    Tracks call m₀ (s.act call m) := by
  unfold ReaderSession.act
  split
  · exact h.withStage (by simp)
  · exact h.turn hA
  · next hstage => exact h.fill hA hstage _
  · exact h.withStage (by simp)
  · exact h

theorem Tracks.run (hA : SizedAlloc A) (h : Tracks call m₀ s) (moves : List ReaderMove) :
    Tracks call m₀ (s.run call moves) := by
  refine List.foldlRecOn moves (ReaderSession.act call) h ?_
  intro s hs m _
  exact hs.act hA m

theorem tracks_start {options : StreamReaderOptions} {a : A} {input : Bytes}
    {ts : List StreamTensor} {outcome : Result Unit}
    (hd : (withDestinations options a).Delivers input ts outcome) :
    Tracks call ⟨ts, outcome, .new options.maxCompositeDepth⟩ (start options a input) := by
  refine ⟨⟨[], fed_start options a⟩, ?_, ?_, ⟨ts, outcome, .new options.maxCompositeDepth⟩,
    ⟨hd, rfl⟩, ?_⟩
  · intro reason hs
    cases hs
  · intro hstage
    cases hstage
  · intro n
    rw [show (start options a input).answered = [] from rfl, List.length_nil, Nat.zero_add,
      List.nil_append]

/-! ### Every call is answered -/

/-- The reader is only polled, and each read brings `chunk + 1` bytes if there are that many. -/
def Steady (chunk : ℕ) (m : ReaderMove) : Prop :=
  m = .call ∨ m = .turn ∨ m = .source (.read chunk)

/-- Steady moves lead to the next answer. -/
def Answers (call : ReaderCall) (chunk : ℕ) (s : ReaderSession A) : Prop :=
  ∃ moves, (∀ m ∈ moves, Steady chunk m) ∧
    (s.run call moves).answered.length = s.answered.length + 1

section Answers
variable {chunk : ℕ} {m : ReaderMove}

theorem answers_of_answered (hm : Steady chunk m)
    (h : (s.act call m).answered.length = s.answered.length + 1) : Answers call chunk s :=
  ⟨[m], by simpa using hm, h⟩

theorem Answers.of_act (hm : Steady chunk m) (hsame : (s.act call m).answered = s.answered)
    (h : Answers call chunk (s.act call m)) : Answers call chunk s := by
  obtain ⟨moves, hmoves, hlen⟩ := h
  refine ⟨m :: moves, by simpa using ⟨hm, hmoves⟩, ?_⟩
  rw [hsame] at hlen
  exact hlen

/-- The end of the stream is an answer. -/
theorem answers_of_finished (hstage : s.stage = .running) (hs : s.reader.core.state = .finished) :
    Answers call chunk s := by
  refine answers_of_answered (m := .turn) (.inr (.inl rfl)) ?_
  simp [ReaderSession.act, hstage, ReaderSession.turn, step_finished hs, answer]

/-- A call that waits is answered, if all calls over shorter inputs are. -/
theorem answers_of_reading (hA : SizedAlloc A) (h : Tracks call m₀ s) (hstage : s.stage = .reading)
    (ih : ∀ t : ReaderSession A, Tracks call m₀ t → t.stage = .running →
      t.rest.length < s.rest.length → Answers call chunk t) : Answers call chunk s := by
  have hpos := h.reading hstage
  obtain ⟨w, hfed⟩ := h.fed
  have hact : s.act call (.source (.read chunk)) = s.fill (.read chunk) := by
    simp [ReaderSession.act, hstage]
  have hsteady : Steady chunk (.source (.read chunk)) := .inr (.inr rfl)
  have htracks := h.fill hA hstage (.read chunk)
  rcases fill_read hfed hpos chunk with ⟨data, tail, hrest, hdata, hle, heq⟩ | ⟨hrest, hb, heq⟩ |
    ⟨hrest, hb, heq⟩
  · refine Answers.of_act hsteady (by rw [hact, heq]; rfl) ?_
    rw [heq] at htracks
    rw [hact, heq]
    refine ih _ htracks rfl ?_
    have hlen := List.length_pos_iff.mpr hdata
    rw [hrest, List.length_append]
    show tail.length < _
    omega
  · refine Answers.of_act hsteady (by rw [hact, heq]; rfl) ?_
    rw [hact, heq]
    exact answers_of_finished rfl rfl
  · refine answers_of_answered hsteady ?_
    rw [hact, heq]
    simp [answer]

theorem answers_of_running (hA : SizedAlloc A) (h : Tracks call m₀ s) (hstage : s.stage = .running)
    (ih : ∀ t : ReaderSession A, Tracks call m₀ t → t.stage = .running →
      t.rest.length < s.rest.length → Answers call chunk t) : Answers call chunk s := by
  have hact : s.act call .turn = s.turn call := by
    simp [ReaderSession.act, hstage]
  have hsteady : Steady chunk .turn := .inr (.inl rfl)
  have htracks := h.turn hA
  obtain ⟨w, hfed⟩ := h.fed
  rcases hstep : s.reader.core.step with ⟨e | r, core⟩
  · refine answers_of_answered hsteady ?_
    simp [hact, ReaderSession.turn, hstep, answer]
  · rcases step_eq_ok hstep with ⟨rfl, hpos⟩ | ⟨rfl, hs⟩ | ⟨rfl, hs⟩
    · have hturn : s.turn call = { s with reader := { s.reader with core }, stage := .reading } := by
        simp [ReaderSession.turn, hstep]
      rw [hturn] at hact htracks
      refine Answers.of_act hsteady (by rw [hact]) ?_
      rw [hact]
      exact answers_of_reading hA htracks rfl ih
    · obtain ⟨t, core', ht, hfed', hpos⟩ := (hfed.of_step hA hstep).takeTensor hs
      rcases hr : call.receive s.reader.assembler t with ⟨_ | r, assembler⟩
      · -- the tensor is a part of a group, and the next turn asks for bytes
        have hturn : s.turn call = { s with reader := ⟨core', assembler⟩ } := by
          simp [ReaderSession.turn, hstep, ht, hr]
        rw [hturn] at hact htracks
        have hstep' := step_of_remaining hpos
        have hnext : ({ s with reader := ⟨core', assembler⟩ } : ReaderSession A).act call .turn =
            { s with reader := ⟨core', assembler⟩, stage := .reading } := by
          simp [ReaderSession.act, hstage, ReaderSession.turn, hstep']
        have htracks' := htracks.act hA .turn
        rw [hnext] at htracks'
        refine Answers.of_act hsteady (by rw [hact]) ?_
        rw [hact]
        refine Answers.of_act hsteady (by rw [hnext]) ?_
        rw [hnext]
        exact answers_of_reading hA htracks' rfl ih
      · refine answers_of_answered hsteady ?_
        simp [hact, ReaderSession.turn, hstep, ht, hr, answer]
    · refine answers_of_answered hsteady ?_
      simp [hact, ReaderSession.turn, hstep, answer]

theorem exists_answer (hA : SizedAlloc A) (h : Tracks call m₀ s) : Answers call chunk s := by
  induction hn : s.rest.length using Nat.strong_induction_on generalizing s with
  | h n ih =>
    have hshort : ∀ t : ReaderSession A, Tracks call m₀ t → t.stage = .running →
        t.rest.length < s.rest.length → Answers call chunk t :=
      fun t ht _ hlt => ih _ (hn ▸ hlt) ht rfl
    cases hstage : s.stage with
    | idle =>
      have hact : s.act call .call = { s with stage := .running } := by
        simp [ReaderSession.act, hstage]
      have htracks := h.act hA .call
      rw [hact] at htracks
      refine Answers.of_act (.inl rfl) (by rw [hact]) ?_
      rw [hact]
      exact answers_of_running hA htracks rfl hshort
    | running => exact answers_of_running hA h hstage hshort
    | reading => exact answers_of_reading hA h hstage hshort

end Answers

/-- The bytes of the input decide what they hold, and every session over them answers from it in
order: whatever the sizes of the reads, however often the source is interrupted or fails, and
wherever calls are dropped, no tensor is lost and none comes twice. And no session is stuck: calls
that are polled on are answered. -/
theorem session_answers (hA : LawfulAlloc A) (options : StreamReaderOptions) (a : A)
    (input : Bytes) :
    ∃ content : StreamContent,
      (withDestinations options a).Delivers input content.todo content.outcome ∧
      content.assembler = .new options.maxCompositeDepth ∧
      ∀ call moves,
        ((start options a input).run call moves).answered =
          content.answers call ((start options a input).run call moves).answered.length ∧
        ∀ chunk, ((start options a input).run call moves).Answers call chunk := by
  have hsized : SizedAlloc A := sizedAlloc_of_lawful hA
  obtain ⟨ts, outcome, hd⟩ := exists_delivers input hsized (fed_start options a)
  refine ⟨⟨ts, outcome, .new options.maxCompositeDepth⟩, hd, rfl, ?_⟩
  intro call moves
  have hstart : Tracks call ⟨ts, outcome, .new options.maxCompositeDepth⟩
      (start options a input) := tracks_start hd
  have htracks := hstart.run hsized moves
  obtain ⟨m, -, hn⟩ := htracks.answers
  have hanswered := hn 0
  rw [Nat.add_zero, StreamContent.answers, List.append_nil] at hanswered
  exact ⟨hanswered.symm, fun chunk => exists_answer hsized htracks⟩

/-- The head of a group with one member. -/
def groupHead : Bytes :=
  [72, 82, 82, 89, 1, 0, 53, 0, 0, 0, 0, 0, 0, 0, 3, 11, 2, 0, 0, 0, 3, 0, 0, 0, 0, 0, 0, 0, 4, 0, 0,
    0, 0, 0, 0, 0, 0, 0, 0, 0, 0, 0, 0, 0, 3, 0, 0, 0, 1, 0, 0, 0, 0]

/-- The head on its own. -/
theorem session_answers_groupHead :
    ∃ content : StreamContent,
      (withDestinations .default SystemDestinations.mk).Delivers groupHead content.todo
        content.outcome ∧
      content.assembler = .new DEFAULT_MAX_COMPOSITE_DEPTH ∧
      ∀ call moves,
        ((start .default SystemDestinations.mk groupHead).run call moves).answered =
          content.answers call
            ((start .default SystemDestinations.mk groupHead).run call moves).answered.length ∧
        ∀ chunk, ((start .default SystemDestinations.mk groupHead).run call moves).Answers
          call chunk :=
  session_answers lawfulAlloc_systemDestinations .default .mk groupHead

end ReaderSession
end Hurray.Stream
