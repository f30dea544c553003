import Hurray.Python.AsyncStreamReader
import Hurray.Python.AsyncStreamWriter

/-!
From the tasks of one event loop to those of another. What the reading tasks are answered, taken
together, is what the writing tasks were told they had written.
-/
namespace Hurray.Python
open Hurray.Base Hurray.Stream StreamReaderCore

/-- Something of an item that no call returned for is on the sink. -/
def WriterLoop.Torn (l : WriterLoop) : Prop :=
  bytesOf (l.written.flatMap CompositeNode.tensors) ≠ some l.sink

theorem WriterLoop.Follows.torn_iff {core₀ : StreamWriterCore} {l : WriterLoop} {w : WriterSession}
    (h : l.Follows w) (hwired : WriterSession.Wired core₀ w) : w.Torn ↔ l.Torn := by
  obtain ⟨whole, torn, hwhole, hsink, htorn, -⟩ := hwired.exists_whole
  rw [h.succeeded] at hwhole
  rw [← htorn, WriterLoop.Torn, hwhole, ← h.sink, hsink, Ne, Ne, Option.some.injEq,
    List.self_eq_append_right]

variable {A : Type} [DestinationAlloc A] {options : StreamReaderOptions} {core₀ : StreamWriterCore}

/-- Whatever the tasks of a writer and of a reader of its sink do: the answers of the reader are the
items of the writes that returned, in their order and each once. After them come errors if something
of another item is on the sink, and else the end of the stream. -/
theorem tasks_transfer (hfresh : core₀.retired = none) (hA : LawfulAlloc A) (writes : List WriterTurn)
    (hcarried : ∀ task item results, .call task item results ∈ writes →
      ∀ op, core₀.submit item = .ok op → Carried A options item)
    (a : A) (reads : List ReaderTurn) :
    let s := WriterLoop.run core₀ writes
    let r := (ReaderLoop.start options a s.sink).run reads
    ∀ i x, r.answers[i]? = some x →
      (∀ item, s.written[i]? = some item → x = .ok (some item.toItem)) ∧
      (s.written.length ≤ i → (s.Torn → ∃ e, x = .error e) ∧ (¬ s.Torn → x = .ok none)) := by
  intro s r
  have hsized : SizedAlloc A := sizedAlloc_of_lawful hA
  obtain ⟨moves, h⟩ := WriterLoop.exists_follows hfresh writes
  have hwired := (WriterSession.sound_run hfresh moves).wired
  obtain ⟨ts, outcome, hd, hanswers⟩ := answers_of_sink hsized hwired (fun item hitem => by
    obtain ⟨task, results, hcall⟩ := WriterLoop.mem_of_called (h.called hitem)
    exact hcarried task item results hcall) a
  have hstart : ReaderLoop.Serves ⟨ts, outcome, .new options.maxCompositeDepth⟩
      (.start options a s.sink) := by
    rw [h.sink] at hd
    exact ReaderSession.tracks_start hd
  obtain ⟨m, -, hn⟩ := (ReaderLoop.serves_run hsized hstart reads).answers
  have hanswered := hn 0
  rw [Nat.add_zero, StreamContent.answers, List.append_nil] at hanswered
  rw [h.succeeded, h.torn_iff hwired] at hanswers
  intro i x hx
  exact getElem?_of_answers hanswered.symm hanswers hx

/-- A tensor that is written in two parts, and one that is cancelled after three bytes. A second task
reads on where the first was cancelled. -/
theorem tasks_transfer_workedTensor :
    let s := WriterLoop.run .new [.call 1 workedTensor.toNode [.wrote 1, .interrupted], .ready,
      .resume [.wrote 4096, .wrote 4096], .call 2 workedTensor.toNode [.wrote 3], .cancel 2]
    let r := (ReaderLoop.start .default SystemDestinations.mk s.sink).run [.call 1, .ready,
      .resume (.read 4), .ready, .resume .interrupted, .cancel 1, .call 2, .ready,
      .resume (.read 4096), .close]
    ∀ i x, r.answers[i]? = some x →
      (∀ item, s.written[i]? = some item → x = .ok (some item.toItem)) ∧
      (s.written.length ≤ i → (s.Torn → ∃ e, x = .error e) ∧ (¬ s.Torn → x = .ok none)) := by
  refine tasks_transfer rfl lawfulAlloc_systemDestinations _ ?_ .mk _
  intro task item results hcall op _
  obtain rfl : item = workedTensor.toNode := by
    simp at hcall
    rcases hcall with ⟨-, rfl, -⟩ | ⟨-, rfl, -⟩ <;> rfl
  exact carried_workedTensor

end Hurray.Python
