import Hurray.Base.Runs
import Hurray.Stream.Reader

/-!
Driving the reader. The source returns at least one byte of what it is asked for
and otherwise as few as it likes; nothing comes only at its end. What a run
delivers is then a matter of the bytes alone: the state that a stretch of bytes
leads to is found without looking at how they arrived.
-/
namespace Hurray.Stream
open Hurray.Base Hurray.Core Hurray.Descriptor StateTransition

/-! ### Memory being filled -/

section Overwrite
variable {mem a b : Bytes} {i : ℕ}

theorem overwrite_nil (mem : Bytes) (i : ℕ) : overwrite mem i [] = mem := by
  simp [overwrite]

theorem overwrite_overwrite (h : i ≤ mem.length) :
    overwrite (overwrite mem i a) (i + a.length) b = overwrite mem i (a ++ b) := by
  have hlen : (mem.take i ++ a).length = i + a.length := by
    rw [List.length_append, List.length_take]
    omega
  simp only [overwrite]
  rw [← hlen, List.take_left, List.drop_append, List.drop_eq_nil_of_le (by omega),
    List.nil_append, Nat.add_sub_cancel_left, List.drop_drop, hlen, List.length_append]
  simp only [List.append_assoc, Nat.add_assoc]

theorem overwrite_full (h : mem.length = i + a.length) : overwrite mem i a = mem.take i ++ a := by
  rw [overwrite, List.drop_eq_nil_of_le (by omega), List.append_nil]

theorem length_overwrite (h : i + a.length ≤ mem.length) :
    (overwrite mem i a).length = mem.length := by
  simp only [overwrite, List.length_append, List.length_take, List.length_drop]
  omega

end Overwrite

namespace StreamReaderCore
variable {A : Type} {c c' : StreamReaderCore A}

/-- The core is in a state that takes bytes, and has the memory to put them in. -/
def Filling (c : StreamReaderCore A) : Prop :=
  match c.state with
  | .descriptorPrefix | .descriptor => c.target ≤ c.staging.length
  | .buffer _ => ∃ p dest, c.pending = some p ∧ p.dest = some dest ∧ c.target ≤ dest.length
  | _ => False

/-- The core after `data` arrived and was reported. -/
def filledWith (c : StreamReaderCore A) (data : Bytes) : StreamReaderCore A :=
  { c.fillDst data with filled := c.filled + data.length }

/-- The only place at which the end of input is a clean one. -/
def AtBoundary (c : StreamReaderCore A) : Prop := c.state = .descriptorPrefix ∧ c.filled = 0

theorem fillDst_nil (c : StreamReaderCore A) : c.fillDst [] = c := by
  obtain ⟨options, destinations, state, staging, target, filled, pending, tensor⟩ := c
  cases state with
  | buffer index =>
    rcases pending with _ | ⟨d, buffers, _ | dest⟩ <;> simp [fillDst, overwrite_nil]
  | _ => simp [fillDst, overwrite_nil]

theorem filledWith_nil (c : StreamReaderCore A) : c.filledWith [] = c := by
  unfold filledWith
  rw [fillDst_nil]
  rfl

theorem filledWith_state (c : StreamReaderCore A) (data : Bytes) :
    (c.filledWith data).state = c.state ∧ (c.filledWith data).target = c.target ∧
      (c.filledWith data).filled = c.filled + data.length := by
  unfold filledWith fillDst
  cases hs : c.state <;> simp [hs]

theorem filledWith_filledWith {a b : Bytes} (hc : c.Filling) (h : c.filled ≤ c.target) :
    (c.filledWith a).filledWith b = c.filledWith (a ++ b) := by
  obtain ⟨options, destinations, state, staging, target, filled, pending, tensor⟩ := c
  simp only [Filling] at hc h
  cases state with
  | descriptorPrefix =>
    simp [filledWith, fillDst, overwrite_overwrite (h.trans hc), Nat.add_assoc]
  | descriptor =>
    simp [filledWith, fillDst, overwrite_overwrite (h.trans hc), Nat.add_assoc]
  | buffer index =>
    obtain ⟨p, dest, rfl, hdest, hle⟩ := hc
    simp [filledWith, fillDst, hdest, overwrite_overwrite (h.trans hle), Nat.add_assoc]
  | _ => exact hc.elim

theorem Filling.filledWith {data : Bytes} (hc : c.Filling) (h : c.filled + data.length ≤ c.target) :
    (c.filledWith data).Filling := by
  obtain ⟨options, destinations, state, staging, target, filled, pending, tensor⟩ := c
  simp only [Filling] at hc h
  cases state with
  | descriptorPrefix =>
    simp only [Filling, StreamReaderCore.filledWith, fillDst]
    rw [length_overwrite (by omega)]
    exact hc
  | descriptor =>
    simp only [Filling, StreamReaderCore.filledWith, fillDst]
    rw [length_overwrite (by omega)]
    exact hc
  | buffer index =>
    obtain ⟨p, dest, rfl, hdest, hle⟩ := hc
    refine ⟨_, overwrite dest filled data, rfl, by simp [hdest], ?_⟩
    rw [length_overwrite (by omega)]
    exact hle
  | _ => exact hc.elim

theorem remaining_of_filling (hc : c.Filling) : c.remaining = c.target - c.filled := by
  unfold Filling at hc
  unfold remaining
  cases hs : c.state <;> simp_all

/-- What a report of arrived bytes does. -/
theorem reportFilled_fillDst {data : Bytes} (hc : c.Filling) (hpos : 0 < data.length)
    (hle : data.length ≤ c.remaining) :
    (c.fillDst data).reportFilled data.length = (.ok (), c.filledWith data) := by
  obtain ⟨options, destinations, state, staging, target, filled, pending, tensor⟩ := c
  rw [remaining_of_filling hc] at hle
  simp only [Filling] at hc hle
  cases state with
  | descriptorPrefix =>
    simp [reportFilled, fillDst, filledWith, remaining, Nat.pos_iff_ne_zero.mp hpos,
      Nat.not_lt.mpr hle]
  | descriptor =>
    simp [reportFilled, fillDst, filledWith, remaining, Nat.pos_iff_ne_zero.mp hpos,
      Nat.not_lt.mpr hle]
  | buffer index =>
    simp [reportFilled, fillDst, filledWith, remaining, Nat.pos_iff_ne_zero.mp hpos,
      Nat.not_lt.mpr hle]
  | _ => exact hc.elim

/-- The end of input away from a boundary. -/
theorem reportFilled_zero (hc : c.Filling) (hb : ¬ c.AtBoundary) :
    c.reportFilled 0 = c.fail .unexpectedEof := by
  unfold Filling at hc
  unfold AtBoundary at hb
  unfold reportFilled
  cases hs : c.state <;> simp_all

/-- The end of input at a boundary. -/
theorem reportFilled_zero_atBoundary (hb : c.AtBoundary) :
    c.reportFilled 0 = (.ok (), { c with state := .finished }) := by
  obtain ⟨hs, hf⟩ := hb
  simp [reportFilled, hs, hf]

section Step
variable [DestinationAlloc A]

theorem step_of_remaining (h : 0 < c.remaining) : c.step = (.ok (.input c.remaining), c) := by
  have hne : c.remaining ≠ 0 := Nat.pos_iff_ne_zero.mp h
  unfold remaining at h
  unfold step
  split
  all_goals next hs => simp [hs] at h <;> rw [if_neg hne]

/-- A full target is left behind: the step is that of the next state. -/
theorem step_descriptorPrefix {u : Unit} (hs : c.state = .descriptorPrefix)
    (hfull : c.remaining = 0)
    (h : c.beginDescriptor = (.ok u, c')) : c.step = c'.step := by
  rw [step]
  split
  all_goals
    rename_i hs'
    rw [hs] at hs'
    cases hs'
  rw [if_pos hfull]
  split <;> simp_all

theorem step_descriptor {u : Unit} (hs : c.state = .descriptor) (hfull : c.remaining = 0)
    (h : c.decodeDescriptor = (.ok u, c')) : c.step = c'.step := by
  rw [step]
  split
  all_goals
    rename_i hs'
    rw [hs] at hs'
    cases hs'
  rw [if_pos hfull]
  split <;> simp_all

theorem step_buffer {u : Unit} (index : ℕ) (hs : c.state = .buffer index) (hfull : c.remaining = 0)
    (h : c.finishBuffer index = (.ok u, c')) : c.step = c'.step := by
  rw [step]
  split
  all_goals
    rename_i hs'
    rw [hs] at hs'
    cases hs'
  rw [if_pos hfull]
  split <;> simp_all

theorem step_tensorReady (hs : c.state = .tensorReady) : c.step = (.ok .tensor, c) := by
  unfold step
  split <;> simp_all

theorem step_finished (hs : c.state = .finished) : c.step = (.ok .finished, c) := by
  unfold step
  split <;> simp_all

end Step
end StreamReaderCore

/-! ### The driver -/

structure ReadDriver (A : Type) where
  core : StreamReaderCore A
  rest : Bytes
  taken : List StreamTensor
  calls : ℕ
  outcome : Option (Result Unit)

namespace ReadDriver
variable {A : Type} [DestinationAlloc A]

def start (core : StreamReaderCore A) (rest : Bytes) : ReadDriver A := ⟨core, rest, [], 0, none⟩

/-- One round: some of the bytes asked for arrive, or a tensor is taken, or the run ends. `chunk`
says by how much the source exceeds one byte at each call. -/
def round (chunk : ℕ → ℕ) (d : ReadDriver A) : Option (ReadDriver A) :=
  match d.outcome with
  | some _ => none
  | none =>
      match d.core.step with
      | (.ok (.input len), core) =>
          let data := d.rest.take (min len (chunk d.calls + 1))
          match (core.fillDst data).reportFilled data.length with
          | (.ok _, core) =>
              some { d with core, rest := d.rest.drop data.length, calls := d.calls + 1 }
          | (.error e, core) => some { d with core, outcome := some (.error e) }
      | (.ok .tensor, core) =>
          match core.takeTensor with
          | (some t, core) => some { d with core, taken := d.taken ++ [t] }
          | (none, core) => some { d with core, outcome := some (Exec.fail .coreFailed) }
      | (.ok .finished, core) => some { d with core, outcome := some (.ok ()) }
      | (.error e, core) => some { d with core, outcome := some (.error e) }

/-- A run from `d` ends with these tensors delivered and this outcome. -/
def Ends (chunk : ℕ → ℕ) (d : ReadDriver A) (taken : List StreamTensor) (outcome : Result Unit) :
    Prop :=
  ∃ e ∈ eval (round chunk) d, e.taken = taken ∧ e.outcome = some outcome

variable {chunk : ℕ → ℕ} {d e : ReadDriver A} {c c' c'' : StreamReaderCore A}
  {taken : List StreamTensor} {outcome : Result Unit}

/-- A run has one end. -/
theorem Ends.unique {taken' : List StreamTensor} {outcome' : Result Unit}
    (h : Ends chunk d taken outcome) (h' : Ends chunk d taken' outcome') :
    taken = taken' ∧ outcome = outcome' := by
  obtain ⟨e, he, rfl, hout⟩ := h
  obtain ⟨e', he', rfl, hout'⟩ := h'
  obtain rfl := Part.mem_unique he he'
  rw [hout] at hout'
  exact ⟨rfl, Option.some.inj hout'⟩

theorem ends_of_outcome (h : d.outcome = some outcome) : Ends chunk d d.taken outcome :=
  ⟨d, mem_eval.mpr ⟨.refl, by simp [round, h]⟩, rfl, h⟩

/-- The first round of a run does not change how it ends. -/
theorem Ends.of_round (hround : round chunk d = some e) (h : Ends chunk e taken outcome) :
    Ends chunk d taken outcome := by
  obtain ⟨f, hf, hfinal⟩ := h
  refine ⟨f, ?_, hfinal⟩
  rw [reaches_eval (.single hround)]
  exact hf

/-- A run on `rest` from `c` ends as one from `c'` on `rest'` does. -/
def Leads (chunk : ℕ → ℕ) (c : StreamReaderCore A) (rest : Bytes) (taken : List StreamTensor)
    (c' : StreamReaderCore A) (rest' : Bytes) (taken' : List StreamTensor) : Prop :=
  ∀ final outcome, (∀ calls, Ends chunk ⟨c', rest', taken', calls, none⟩ final outcome) →
    ∀ calls, Ends chunk ⟨c, rest, taken, calls, none⟩ final outcome

/-- A run on `rest` from `c` fails with an unexpected end of file and delivers nothing more. -/
def Torn (chunk : ℕ → ℕ) (c : StreamReaderCore A) (rest : Bytes) : Prop :=
  ∀ taken calls, Ends chunk ⟨c, rest, taken, calls, none⟩ taken (Exec.fail .unexpectedEof)

/-- From `c` the bytes `data` take the reader to `c'`, however they arrive; and if the input ends
inside of them, the run is torn. -/
structure Consumes (chunk : ℕ → ℕ) (c : StreamReaderCore A) (data : Bytes)
    (c' : StreamReaderCore A) : Prop where
  whole : ∀ tail taken, Leads chunk c (data ++ tail) taken c' tail taken
  torn : ∀ rest, rest <+: data → rest.length < data.length → (rest = [] → ¬ c.AtBoundary) →
    Torn chunk c rest

theorem Consumes.trans {a b : Bytes} (h : Consumes chunk c a c') (hb : ¬ c'.AtBoundary)
    (h' : Consumes chunk c' b c'') : Consumes chunk c (a ++ b) c'' := by
  refine ⟨?_, ?_⟩
  · intro tail taken final outcome hend
    rw [List.append_assoc]
    exact h.whole _ taken final outcome (h'.whole tail taken final outcome hend)
  · intro rest hprefix hlt hnil taken
    by_cases hshort : rest.length < a.length
    · exact h.torn rest (List.prefix_of_prefix_length_le hprefix (List.prefix_append a b)
        hshort.le) hshort hnil taken
    · obtain ⟨rest', rfl⟩ := List.prefix_of_prefix_length_le (List.prefix_append a b) hprefix
        (by omega)
      have hprefix' : rest' <+: b := (List.prefix_append_right_inj a).mp hprefix
      rw [List.length_append, List.length_append] at hlt
      exact h.whole rest' taken _ _ (h'.torn rest' hprefix' (by omega) (fun _ => hb) taken)

theorem exists_round (chunk : ℕ → ℕ) (h : d.outcome = none) : ∃ e, round chunk d = some e := by
  unfold round
  rw [h]
  dsimp only
  split
  · split <;> exact ⟨_, rfl⟩
  · split <;> exact ⟨_, rfl⟩
  · exact ⟨_, rfl⟩
  · exact ⟨_, rfl⟩

/-- A round only looks at the step of the core. -/
theorem consumes_of_step_eq (h : c.step = c'.step) : Consumes chunk c [] c' := by
  refine ⟨?_, fun rest _ hlt => absurd hlt (Nat.not_lt_zero _)⟩
  intro tail taken final outcome hend calls
  obtain ⟨e, he, hfinal⟩ := hend calls
  have hround : round chunk ⟨c, tail, taken, calls, none⟩ =
      round chunk ⟨c', tail, taken, calls, none⟩ := by
    unfold round
    dsimp only
    rw [h]
  obtain ⟨f, hf⟩ := exists_round chunk (d := ⟨c', tail, taken, calls, none⟩) rfl
  rw [reaches_eval (.single hf)] at he
  exact Ends.of_round (hround.trans hf) ⟨e, he, hfinal⟩

/-- A round that moves bytes. -/
theorem round_of_remaining (chunk : ℕ → ℕ) (taken : List StreamTensor) (calls : ℕ) {rest : Bytes}
    (hc : c.Filling) (hpos : 0 < c.remaining) (hrest : rest ≠ []) :
    ∃ n, 0 < n ∧ n ≤ c.remaining ∧ n ≤ rest.length ∧
      round chunk ⟨c, rest, taken, calls, none⟩ =
        some ⟨c.filledWith (rest.take n), rest.drop n, taken, calls + 1, none⟩ := by
  have hlen := List.length_pos_iff.mpr hrest
  obtain ⟨data, hdata⟩ : ∃ data, data = rest.take (min c.remaining (chunk calls + 1)) := ⟨_, rfl⟩
  have hn : data.length = min (min c.remaining (chunk calls + 1)) rest.length := by
    rw [hdata, List.length_take]
  have htake : rest.take data.length = data := by
    rw [hn, ← List.take_take, List.take_length, hdata]
  refine ⟨data.length, by omega, by omega, by omega, ?_⟩
  unfold round
  rw [StreamReaderCore.step_of_remaining hpos]
  dsimp only
  rw [← hdata, StreamReaderCore.reportFilled_fillDst hc (by omega) (by omega), htake]

/-- A round at the end of input. -/
theorem round_of_nil (chunk : ℕ → ℕ) (taken : List StreamTensor) (calls : ℕ) (hc : c.Filling)
    (hpos : 0 < c.remaining) (hb : ¬ c.AtBoundary) : ∃ core, round chunk ⟨c, [], taken, calls, none⟩ =
      some ⟨core, [], taken, calls, some (Exec.fail .unexpectedEof)⟩ := by
  unfold round
  rw [StreamReaderCore.step_of_remaining hpos]
  dsimp only
  rw [List.take_nil, c.fillDst_nil, List.length_nil, StreamReaderCore.reportFilled_zero hc hb]
  exact ⟨_, rfl⟩

/-- A target is filled by the bytes it asks for, in as many rounds as the source needs. -/
theorem consumes_fill {data : Bytes} (hc : c.Filling) (hle : c.filled ≤ c.target)
    (hlen : data.length = c.remaining) : Consumes chunk c data (c.filledWith data) := by
  induction hn : data.length using Nat.strong_induction_on generalizing c data with
  | h size ih =>
    by_cases hdata : data = []
    · rw [hdata, c.filledWith_nil]
      exact consumes_of_step_eq rfl
    have hpos : 0 < c.remaining := hlen ▸ List.length_pos_iff.mpr hdata
    have hrem := StreamReaderCore.remaining_of_filling hc
    -- what is left after the first `n` bytes is again a target to be filled
    have hnext (n : ℕ) (hn0 : 0 < n) (hnle : n ≤ c.remaining) :
        ¬ (c.filledWith (data.take n)).AtBoundary ∧
          Consumes chunk (c.filledWith (data.take n)) (data.drop n) (c.filledWith data) := by
      have htake : (data.take n).length = n := by
        rw [List.length_take]
        omega
      obtain ⟨hstate, htarget, hfilled⟩ := c.filledWith_state (data.take n)
      have hfilling : (c.filledWith (data.take n)).Filling := hc.filledWith (by omega)
      refine ⟨fun hb => ?_, ?_⟩
      · have hzero := hb.2
        omega
      · have hcons := ih (data.drop n).length (by rw [List.length_drop]; omega) hfilling (by omega)
          (by rw [StreamReaderCore.remaining_of_filling hfilling, List.length_drop]; omega) rfl
        rw [StreamReaderCore.filledWith_filledWith hc hle, List.take_append_drop] at hcons
        exact hcons
    refine ⟨?_, ?_⟩
    · intro tail taken final outcome hend calls
      obtain ⟨n, hn0, hnle, -, hround⟩ := round_of_remaining chunk taken calls hc hpos
        (show data ++ tail ≠ [] by simp [hdata])
      rw [List.take_append_of_le_length (by omega), List.drop_append_of_le_length (by omega)]
        at hround
      exact Ends.of_round hround
        ((hnext n hn0 hnle).2.whole tail taken final outcome hend (calls + 1))
    · intro rest hprefix hlt hnil taken calls
      by_cases hrest : rest = []
      · subst hrest
        obtain ⟨core, hround⟩ := round_of_nil chunk taken calls hc hpos (hnil rfl)
        exact Ends.of_round hround (ends_of_outcome rfl)
      · obtain ⟨n, hn0, hnle, hnrest, hround⟩ := round_of_remaining chunk taken calls hc hpos hrest
        obtain ⟨hb, hcons⟩ := hnext n hn0 hnle
        obtain ⟨u, rfl⟩ := hprefix
        rw [List.take_append_of_le_length hnrest, List.drop_append_of_le_length hnrest] at hcons
        rw [List.take_append_of_le_length hnrest] at hb
        refine Ends.of_round hround (hcons.torn _ (List.prefix_append _ u) ?_ (fun _ => hb) taken _)
        rw [List.length_append, List.length_drop]
        rw [List.length_append] at hlt
        omega

/-- A finished tensor is taken, and the run goes on from the core it leaves. -/
theorem leads_of_tensorReady {rest : Bytes} {t : StreamTensor} (hs : c.state = .tensorReady)
    (ht : c.takeTensor = (some t, c')) : Leads chunk c rest taken c' rest (taken ++ [t]) := by
  intro final outcome hend calls
  refine Ends.of_round (e := ⟨c', rest, taken ++ [t], calls, none⟩) ?_ (hend calls)
  unfold round
  rw [StreamReaderCore.step_tensorReady hs]
  dsimp only
  rw [ht]

/-- The end of input at a boundary is a clean one. -/
theorem ends_atBoundary (hpos : 0 < c.remaining) (hb : c.AtBoundary)
    (taken : List StreamTensor) (calls : ℕ) :
    Ends chunk ⟨c, [], taken, calls, none⟩ taken (.ok ()) := by
  have hfirst : round chunk ⟨c, [], taken, calls, none⟩ =
      some ⟨{ c with state := .finished }, [], taken, calls + 1, none⟩ := by
    unfold round
    rw [StreamReaderCore.step_of_remaining hpos]
    dsimp only
    rw [List.take_nil, c.fillDst_nil, List.length_nil,
      StreamReaderCore.reportFilled_zero_atBoundary hb]
    rfl
  have hsecond : round chunk ⟨{ c with state := .finished }, [], taken, calls + 1, none⟩ =
      some ⟨{ c with state := .finished }, [], taken, calls + 1, some (.ok ())⟩ := by
    unfold round
    rw [StreamReaderCore.step_finished rfl]
  exact Ends.of_round hfirst (Ends.of_round hsecond (ends_of_outcome rfl))

end ReadDriver
end Hurray.Stream
