import Hurray.Stream.ReaderSafety

/-!
What a reader still has to deliver. From any state of a core the bytes to come
decide which tensors are delivered and how the run ends, however they arrive;
and bytes that have arrived are worth as much as bytes to come.
-/
namespace Hurray.Stream
open Hurray.Base Hurray.Core Hurray.Descriptor StateTransition

namespace StreamReaderCore
variable {A : Type} [DestinationAlloc A] {c c' c'' : StreamReaderCore A} {w data rest tail : Bytes}
  {ts ts' : List StreamTensor} {t : StreamTensor} {outcome outcome' : Result Unit} {r : ReadStep}

open ReadDriver

/-- From `c` the bytes `rest` deliver these tensors and this end, in whatever pieces they come. -/
def Delivers (c : StreamReaderCore A) (rest : Bytes) (ts : List StreamTensor)
    (outcome : Result Unit) : Prop :=
  ∀ chunk before calls, Ends chunk ⟨c, rest, before, calls, none⟩ (before ++ ts) outcome

theorem Delivers.unique (h : c.Delivers rest ts outcome) (h' : c.Delivers rest ts' outcome') :
    ts = ts' ∧ outcome = outcome' := by
  simpa using (h (fun _ => 0) [] 0).unique (h' (fun _ => 0) [] 0)

/-! ### Steps -/

/-- What a step says is so of the core it leaves. -/
theorem step_eq_ok (h : c.step = (.ok r, c')) :
    (r = .input c'.remaining ∧ 0 < c'.remaining) ∨ (r = .tensor ∧ c'.state = .tensorReady) ∨
      (r = .finished ∧ c'.state = .finished) := by
  induction c using StreamReaderCore.step.induct with
  | case1 c reason hs =>
    obtain ⟨e, he⟩ := step_of_dead (.inr ⟨reason, hs⟩)
    simp [he, Exec.fail] at h
  | case2 c hs =>
    obtain ⟨e, he⟩ := step_of_dead (.inl hs)
    simp [he, Exec.fail] at h
  | case3 c hs =>
    rw [step_finished hs] at h
    cases h
    exact .inr (.inr ⟨rfl, hs⟩)
  | case4 c hs =>
    rw [step_tensorReady hs] at h
    cases h
    exact .inr (.inl ⟨rfl, hs⟩)
  | case5 c hs hfull u c₁ hbegin ih =>
    rw [step_descriptorPrefix hs hfull hbegin] at h
    exact ih h
  | case6 c hs hfull e c₁ hbegin => simp [step_of_error hfull (.inl ⟨hs, hbegin⟩)] at h
  | case8 c hs hfull u c₁ hdecode ih =>
    rw [step_descriptor hs hfull hdecode] at h
    exact ih h
  | case9 c hs hfull e c₁ hdecode =>
    simp [step_of_error hfull (.inr (.inl ⟨hs, hdecode⟩))] at h
  | case11 c index hs hfull u c₁ hfinish ih =>
    rw [step_buffer index hs hfull hfinish] at h
    exact ih h
  | case12 c index hs hfull e c₁ hfinish =>
    simp [step_of_error hfull (.inr (.inr ⟨index, hs, hfinish⟩))] at h
  | case7 c hs hpos | case10 c hs hpos | case13 c index hs hpos =>
    rw [step_of_remaining (Nat.pos_of_ne_zero hpos)] at h
    cases h
    exact .inl ⟨rfl, Nat.pos_of_ne_zero hpos⟩

/-- A step that does not fail is taken once. -/
theorem step_of_step (h : c.step = (.ok r, c')) : c'.step = (.ok r, c') := by
  rcases step_eq_ok h with ⟨rfl, hpos⟩ | ⟨rfl, hs⟩ | ⟨rfl, hs⟩
  · exact step_of_remaining hpos
  · exact step_tensorReady hs
  · exact step_finished hs

/-- A transition that fails says so in the state, and none gives the core up. -/
def Settles : Result Unit × StreamReaderCore A → Prop
  | (.ok _, c) => ∀ reason, c.state ≠ .unusable reason
  | (.error _, c) => c.state = .failed

omit [DestinationAlloc A] in
theorem settles_fail (e : Error) : Settles (c.fail e) := rfl

omit [DestinationAlloc A] in
theorem settles_beginDescriptor : Settles c.beginDescriptor := by
  unfold beginDescriptor
  dsimp only
  split_ifs
  · exact settles_fail _
  · exact settles_fail _
  · simp [Settles]

omit [DestinationAlloc A] in
theorem settles_completeTensor : Settles c.completeTensor := by
  unfold completeTensor
  split
  · exact settles_fail _
  · simp [Settles]

theorem settles_beginBuffer {index : ℕ} : Settles (c.beginBuffer index) := by
  unfold beginBuffer
  split
  · exact settles_fail _
  · split_ifs
    · exact settles_fail _
    · exact settles_fail _
    · split
      · exact rfl
      · split
        · exact settles_fail _
        · simp [Settles]

theorem settles_decodeDescriptor : Settles c.decodeDescriptor := by
  unfold decodeDescriptor
  split
  · exact rfl
  · dsimp only
    split_ifs
    · exact settles_completeTensor
    · exact settles_beginBuffer

theorem settles_finishBuffer {index : ℕ} : Settles (c.finishBuffer index) := by
  unfold finishBuffer
  split
  · exact settles_fail _
  · split
    · exact settles_fail _
    · dsimp only
      split_ifs
      · exact settles_beginBuffer
      · exact settles_completeTensor

/-- A step that fails leaves the core failed, unless it was given up before. -/
theorem step_eq_error {e : Fault Error} (h : c.step = (.error e, c'))
    (hu : ∀ reason, c.state ≠ .unusable reason) : c'.state = .failed := by
  induction c using StreamReaderCore.step.induct with
  | case1 c reason hs => exact absurd hs (hu reason)
  | case2 c hs =>
    obtain ⟨e', he⟩ := step_of_dead (.inl hs)
    rw [he] at h
    cases h
    exact hs
  | case3 c hs => simp [step_finished hs] at h
  | case4 c hs => simp [step_tensorReady hs] at h
  | case5 c hs hfull u c₁ hbegin ih =>
    have hsettles : Settles c.beginDescriptor := settles_beginDescriptor
    rw [hbegin] at hsettles
    rw [step_descriptorPrefix hs hfull hbegin] at h
    exact ih h hsettles
  | case6 c hs hfull e₁ c₁ hbegin =>
    have hsettles : Settles c.beginDescriptor := settles_beginDescriptor
    rw [hbegin] at hsettles
    rw [step_of_error hfull (.inl ⟨hs, hbegin⟩)] at h
    cases h
    exact hsettles
  | case8 c hs hfull u c₁ hdecode ih =>
    have hsettles : Settles c.decodeDescriptor := settles_decodeDescriptor
    rw [hdecode] at hsettles
    rw [step_descriptor hs hfull hdecode] at h
    exact ih h hsettles
  | case9 c hs hfull e₁ c₁ hdecode =>
    have hsettles : Settles c.decodeDescriptor := settles_decodeDescriptor
    rw [hdecode] at hsettles
    rw [step_of_error hfull (.inr (.inl ⟨hs, hdecode⟩))] at h
    cases h
    exact hsettles
  | case11 c index hs hfull u c₁ hfinish ih =>
    have hsettles : Settles (c.finishBuffer index) := settles_finishBuffer
    rw [hfinish] at hsettles
    rw [step_buffer index hs hfull hfinish] at h
    exact ih h hsettles
  | case12 c index hs hfull e₁ c₁ hfinish =>
    have hsettles : Settles (c.finishBuffer index) := settles_finishBuffer
    rw [hfinish] at hsettles
    rw [step_of_error hfull (.inr (.inr ⟨index, hs, hfinish⟩))] at h
    cases h
    exact hsettles
  | case7 c hs hpos | case10 c hs hpos | case13 c index hs hpos =>
    simp [step_of_remaining (Nat.pos_of_ne_zero hpos)] at h

theorem delivers_of_step (h : c.step = (.ok r, c')) (hd : c'.Delivers rest ts outcome) :
    c.Delivers rest ts outcome := by
  intro chunk before calls
  have hcons : Consumes chunk c [] c' := consumes_of_step_eq (h.trans (step_of_step h).symm)
  exact hcons.whole rest before _ _ (hd chunk before) calls

theorem delivers_tensor (h : c.step = (.ok .tensor, c')) (ht : c'.takeTensor = (some t, c''))
    (hd : c''.Delivers rest ts outcome) : c.Delivers rest (t :: ts) outcome := by
  intro chunk before calls
  have hround : ReadDriver.round chunk ⟨c, rest, before, calls, none⟩ =
      some ⟨c'', rest, before ++ [t], calls, none⟩ := by
    unfold ReadDriver.round
    simp [h, ht]
  refine Ends.of_round hround ?_
  simpa using hd chunk (before ++ [t]) calls

theorem delivers_finished (h : c.step = (.ok .finished, c')) : c.Delivers rest [] (.ok ()) := by
  intro chunk before calls
  have hround : ReadDriver.round chunk ⟨c, rest, before, calls, none⟩ =
      some ⟨c', rest, before, calls, some (.ok ())⟩ := by
    unfold ReadDriver.round
    simp [h]
  refine Ends.of_round hround ?_
  simpa using ends_of_outcome (d := ⟨c', rest, before, calls, some (.ok ())⟩) rfl

theorem delivers_error {e : Fault Error} (h : c.step = (.error e, c')) :
    c.Delivers rest [] (.error e) := by
  intro chunk before calls
  have hround : ReadDriver.round chunk ⟨c, rest, before, calls, none⟩ =
      some ⟨c', rest, before, calls, some (.error e)⟩ := by
    unfold ReadDriver.round
    simp [h]
  refine Ends.of_round hround ?_
  simpa using ends_of_outcome (d := ⟨c', rest, before, calls, some (.error e)⟩) rfl

/-! ### Bytes that arrive -/

omit [DestinationAlloc A] in
theorem Fed.filling (h : c.Fed w) (hpos : 0 < c.remaining) : c.Filling ∧ c.filled ≤ c.target := by
  unfold Fed at h
  unfold remaining at hpos
  unfold Filling
  cases hs : c.state with
  | descriptorPrefix =>
    rw [hs] at h
    exact ⟨(h.1.trans h.2.1.symm).le, by rw [h.1]; exact h.2.2.1⟩
  | descriptor =>
    rw [hs] at h
    exact ⟨h.1.ge, h.2.1⟩
  | buffer index =>
    rw [hs] at h
    obtain ⟨p, dest, handle, hp, -, hdest, hlen, -, hle, -⟩ := h
    exact ⟨⟨p, dest, hp.pending, hdest, hlen.ge⟩, hle⟩
  | _ => simp [hs] at hpos

omit [DestinationAlloc A] in
theorem remaining_fillDst (c : StreamReaderCore A) (data : Bytes) :
    (c.fillDst data).remaining = c.remaining ∧ (c.fillDst data).filled = c.filled := by
  unfold fillDst
  cases hs : c.state <;> simp [remaining, hs]

omit [DestinationAlloc A] in
theorem Fed.filledWith (h : c.Fed w) (hdata : data ≠ []) (hle : data.length ≤ c.remaining) :
    ∃ w', (c.filledWith data).Fed w' := by
  have hfill := h.fillDst hle
  obtain ⟨mem, hmem, -⟩ := hfill.inputDst
  obtain ⟨hremaining, hfilled⟩ := c.remaining_fillDst data
  have hreport := hfill.reported hmem (List.length_pos_iff.mpr hdata) (hremaining.symm ▸ hle)
  rw [hfilled] at hreport
  exact ⟨_, hreport⟩

omit [DestinationAlloc A] in
theorem remaining_filledWith (h : c.Fed w) (hdata : data ≠ []) (hle : data.length ≤ c.remaining) :
    (c.filledWith data).remaining = c.remaining - data.length ∧
      ¬ (c.filledWith data).AtBoundary := by
  have hpos := List.length_pos_iff.mpr hdata
  obtain ⟨hfilling, -⟩ := h.filling (by omega)
  obtain ⟨-, htarget, hfilled⟩ := c.filledWith_state data
  have hrem := remaining_of_filling hfilling
  have hfilling' : (c.filledWith data).Filling := hfilling.filledWith (by omega)
  have hrem' := remaining_of_filling hfilling'
  refine ⟨by omega, ?_⟩
  intro hb
  have hzero := hb.2
  omega

/-- The input ends before a target is full. -/
theorem delivers_torn (h : c.Fed w) (hlt : rest.length < c.remaining) (hb : rest = [] → ¬ c.AtBoundary) :
    c.Delivers rest [] (Exec.fail .unexpectedEof) := by
  intro chunk before calls
  obtain ⟨hfilling, hle⟩ := h.filling (by omega)
  obtain ⟨pad, hpad⟩ : ∃ pad : Bytes, pad.length = c.remaining - rest.length :=
    ⟨List.replicate _ 0, List.length_replicate⟩
  have hcons : Consumes chunk c (rest ++ pad) (c.filledWith (rest ++ pad)) :=
    consumes_fill hfilling hle (by simp; omega)
  have htorn := hcons.torn rest (List.prefix_append _ _) (by simp; omega) hb before calls
  simpa using htorn

theorem delivers_full (h : c.Fed w) (hlen : data.length = c.remaining)
    (hd : (c.filledWith data).Delivers tail ts outcome) : c.Delivers (data ++ tail) ts outcome := by
  intro chunk before calls
  by_cases hdata : data = []
  · subst hdata
    rw [filledWith_nil] at hd
    exact hd chunk before calls
  · have hpos := List.length_pos_iff.mpr hdata
    obtain ⟨hfilling, hle⟩ := h.filling (by omega)
    exact (consumes_fill hfilling hle hlen).whole tail before _ _ (hd chunk before) calls

/-- The end of input at a boundary. -/
theorem delivers_atBoundary (hpos : 0 < c.remaining) (hb : c.AtBoundary) :
    c.Delivers [] [] (.ok ()) := by
  intro chunk before calls
  have hends : Ends chunk ⟨c, [], before, calls, none⟩ before (.ok ()) :=
    ends_atBoundary hpos hb before calls
  simpa using hends

/-! ### Every run ends -/

theorem Fed.of_step (hA : SizedAlloc A) (h : c.Fed w) (hstep : c.step = (.ok r, c')) : c'.Fed w := by
  have hkeeps := step_keeps hA h
  rw [hstep] at hkeeps
  exact hkeeps.1

omit [DestinationAlloc A] in
/-- A tensor that is taken leaves the core at a boundary. -/
theorem Fed.takeTensor (h : c.Fed w) (hs : c.state = .tensorReady) :
    ∃ t c', c.takeTensor = (some t, c') ∧ c'.Fed [] ∧ 0 < c'.remaining := by
  unfold Fed at h
  rw [hs] at h
  obtain ⟨t, ht, -⟩ := h
  refine ⟨t, { c with tensor := none }.resetToPrefix, ?_, ?_, ?_⟩
  · rw [StreamReaderCore.takeTensor, if_pos hs, ht]
  · exact ⟨rfl, rfl, Nat.zero_le _, rfl⟩
  · exact Nat.succ_pos 9

theorem exists_delivers_of_remaining (h : c.Fed w) (hpos : 0 < c.remaining)
    (ih : ∀ (c : StreamReaderCore A) (w rest' : Bytes), c.Fed w → rest'.length < rest.length →
      ∃ ts outcome, c.Delivers rest' ts outcome) :
    ∃ ts outcome, c.Delivers rest ts outcome := by
  by_cases hb : rest = [] ∧ c.AtBoundary
  · obtain ⟨rfl, hb⟩ := hb
    exact ⟨_, _, delivers_atBoundary hpos hb⟩
  · by_cases hlt : rest.length < c.remaining
    · exact ⟨_, _, delivers_torn h hlt fun hnil hb' => hb ⟨hnil, hb'⟩⟩
    · have hlen : (rest.take c.remaining).length = c.remaining := by
        rw [List.length_take]
        omega
      have hne : rest.take c.remaining ≠ [] := List.length_pos_iff.mp (by omega)
      obtain ⟨w', hfed⟩ := h.filledWith hne hlen.le
      obtain ⟨ts, outcome, hd⟩ := ih (c.filledWith (rest.take c.remaining)) w'
        (rest.drop c.remaining) hfed (by rw [List.length_drop]; omega)
      refine ⟨ts, outcome, ?_⟩
      simpa using delivers_full h hlen hd

/-- The bytes to come decide how a run ends. -/
theorem exists_delivers (rest : Bytes) (hA : SizedAlloc A) (h : c.Fed w) :
    ∃ ts outcome, c.Delivers rest ts outcome := by
  induction hn : rest.length using Nat.strong_induction_on generalizing c w rest with
  | h n ih =>
    have hshort : ∀ (c : StreamReaderCore A) (w rest' : Bytes), c.Fed w →
        rest'.length < rest.length → ∃ ts outcome, c.Delivers rest' ts outcome :=
      fun c w rest' hc hlt => ih _ (hn ▸ hlt) _ hc rfl
    rcases hstep : c.step with ⟨e | r, c'⟩
    · exact ⟨_, _, delivers_error hstep⟩
    · have hfed := h.of_step hA hstep
      rcases step_eq_ok hstep with ⟨-, hpos⟩ | ⟨rfl, hs⟩ | ⟨rfl, hs⟩
      · obtain ⟨ts, outcome, hd⟩ := exists_delivers_of_remaining hfed hpos hshort
        exact ⟨ts, outcome, delivers_of_step hstep hd⟩
      · obtain ⟨t, c'', ht, hfed', hpos⟩ := hfed.takeTensor hs
        obtain ⟨ts, outcome, hd⟩ := exists_delivers_of_remaining hfed' hpos hshort
        exact ⟨t :: ts, outcome, delivers_tensor hstep ht hd⟩
      · exact ⟨_, _, delivers_finished hstep⟩

/-- Bytes that have arrived count as if they were still to come. -/
theorem delivers_filledWith (hA : SizedAlloc A) (h : c.Fed w) (hdata : data ≠ [])
    (hle : data.length ≤ c.remaining) (hd : (c.filledWith data).Delivers tail ts outcome) :
    c.Delivers (data ++ tail) ts outcome := by
  have hpos := List.length_pos_iff.mpr hdata
  obtain ⟨w', hfed⟩ := h.filledWith hdata hle
  obtain ⟨hrem, hboundary⟩ := remaining_filledWith h hdata hle
  by_cases hlt : tail.length < (c.filledWith data).remaining
  · obtain ⟨rfl, rfl⟩ := hd.unique (delivers_torn hfed hlt fun _ => hboundary)
    refine delivers_torn h ?_ fun hnil => absurd (List.append_eq_nil_iff.mp hnil).1 hdata
    rw [List.length_append]
    omega
  · obtain ⟨hfilling, hfilled⟩ := h.filling (by omega)
    -- both runs fill the target with the same bytes
    obtain ⟨k, hk⟩ : ∃ k, k = (c.filledWith data).remaining := ⟨_, rfl⟩
    have hlen : (tail.take k).length = k := by
      rw [List.length_take]
      omega
    have hboth : (c.filledWith data).filledWith (tail.take k) = c.filledWith (data ++ tail.take k) :=
      filledWith_filledWith hfilling hfilled
    have hfull : (data ++ tail.take k).length = c.remaining := by
      rw [List.length_append]
      omega
    obtain ⟨w'', hfed'⟩ : ∃ w'', (c.filledWith (data ++ tail.take k)).Fed w'' :=
      h.filledWith (by simp [hdata]) hfull.le
    obtain ⟨ts', outcome', hd'⟩ := exists_delivers (tail.drop k) hA hfed'
    have hlate := delivers_full hfed (hlen.trans hk) (hboth.symm ▸ hd')
    rw [List.take_append_drop] at hlate
    obtain ⟨rfl, rfl⟩ := hd.unique hlate
    have hearly := delivers_full h hfull hd'
    rwa [List.append_assoc, List.take_append_drop] at hearly

end StreamReaderCore
end Hurray.Stream
