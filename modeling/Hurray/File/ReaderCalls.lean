import Hurray.Base.Leaves
import Hurray.File.Reader

/-!
The calls of the file reader. A step leaves every range that is full behind it
until there is something to ask for or to announce, and comes to an end because
each turn takes the walk, the job or the tensor further.
-/
namespace Hurray.File
open Hurray.Base Hurray.Core Hurray.Descriptor Hurray.Stream

/-- The states in which a range of the file is being read. -/
def FileState.filling : FileState → Bool
  | .header | .trailer | .index | .kv | .descriptor | .buffer _ => true
  | _ => false

namespace FileReaderCore
variable {A : Type} {c : FileReaderCore A}

section Progress

/-- The names that the walk has not come to. -/
def namesLeft (c : FileReaderCore A) : ℕ :=
  c.walk.elim 0 fun walk => walk.names.length - walk.cursor

def rank (c : FileReaderCore A) : ℕ :=
  match c.state with
  | .header => 6
  | .trailer => 5
  | .index => 4
  | .kv => 3
  | .descriptor => 2
  | .buffer _ => 1
  | _ => 0

/-- The buffers of the tensor being read that are not complete. -/
def buffersLeft (c : FileReaderCore A) : ℕ :=
  match c.state with
  | .buffer index => c.pending.elim 0 fun p => p.descriptor.buffers.length - index
  | _ => 0

def phase (c : FileReaderCore A) : ℕ × ℕ × ℕ := (c.namesLeft, c.rank, c.buffersLeft)

/-- The core has come further than the phase. -/
def Past (p : ℕ × ℕ × ℕ) (c : FileReaderCore A) : Prop := WellFoundedRelation.rel c.phase p

theorem past_iff {p : ℕ × ℕ × ℕ} : Past p c ↔ c.namesLeft < p.1 ∨ c.namesLeft = p.1 ∧
    (c.rank < p.2.1 ∨ c.rank = p.2.1 ∧ c.buffersLeft < p.2.2) := by
  show Prod.Lex _ _ _ _ ↔ _
  rw [Prod.lex_def]
  apply or_congr Iff.rfl
  apply and_congr Iff.rfl
  show Prod.Lex _ _ _ _ ↔ _
  rw [Prod.lex_def]
  rfl

theorem Past.trans {p : ℕ × ℕ × ℕ} {d : FileReaderCore A} (hc : Past p c) (hd : Past c.phase d) :
    Past p d := by
  rw [past_iff] at hc hd ⊢
  simp only [phase] at hd
  omega

/-- The call comes further than the phase if it returns. -/
abbrev Passes (p : ℕ × ℕ × ℕ) : Result Unit × FileReaderCore A → Prop :=
  Leaves (fun _ c => Past p c) (fun _ _ => True) True

end Progress

section Leaves
variable {α : Type} {P : Unit → FileReaderCore A → Prop} {E : Error → FileReaderCore A → Prop}
  {p : Prop} {r : Result α} {next : α → Result Unit × FileReaderCore A}

theorem fail_eq (c : FileReaderCore A) (e : Error) : c.fail e = (Exec.fail e, (c.fail e).2) := by
  unfold fail
  split <;> rfl

theorem leaves_fail_iff {e : Error} : Leaves P E p (c.fail e) ↔ E e (c.fail e).2 := by
  rw [fail_eq]
  exact Iff.rfl

theorem leaves_orFail (hok : ∀ a, r = .ok a → Leaves P E p (next a))
    (herr : ∀ e, E e (c.fail e).2) (hpanic : r = Exec.panic → p) :
    Leaves P E p (c.orFail r next) := by
  rcases r with (e | _) | a
  · exact leaves_fail_iff.mpr (herr e)
  · exact hpanic rfl
  · exact hok a rfl

theorem leaves_orFailOpen (hok : ∀ a, r = .ok a → Leaves P E p (next a))
    (herr : ∀ e, E e { c with state := .failed }) (hpanic : r = Exec.panic → p) :
    Leaves P E p (c.orFailOpen r next) := by
  rcases r with (e | _) | a
  · exact herr e
  · exact hpanic rfl
  · exact hok a rfl

theorem leaves_request {offset : UInt64} {len : ℕ} {state : FileState}
    (hok : P () { c with cursor := offset, target := len, filled := 0,
                         staging := List.replicate len 0, state })
    (hpanic : ISIZE_MAX < len → p) : Leaves P E p (c.request offset len state) := by
  unfold request
  split
  · next h => exact hpanic h
  · exact hok

end Leaves

section Progress
variable {q : ℕ × ℕ × ℕ}

theorem passes_fail {e : Error} : Passes q (c.fail e) := leaves_fail_iff.mpr trivial

theorem passes_orFail {α : Type} {r : Result α} {next : α → Result Unit × FileReaderCore A}
    (h : ∀ a, r = .ok a → Passes q (next a)) : Passes q (c.orFail r next) :=
  leaves_orFail h (fun _ => trivial) fun _ => trivial

theorem passes_orFailOpen {α : Type} {r : Result α} {next : α → Result Unit × FileReaderCore A}
    (h : ∀ a, r = .ok a → Passes q (next a)) : Passes q (c.orFailOpen r next) :=
  leaves_orFailOpen h (fun _ => trivial) fun _ => trivial

theorem past_of_rank (hnames : c.namesLeft ≤ q.1) (hrank : c.rank < q.2.1) : Past q c := by
  rw [past_iff]
  omega

theorem past_of_namesLeft (h : c.namesLeft < q.1) : Past q c := past_iff.mpr (.inl h)

theorem passes_finishHeader (h : c.state = .header) : Passes c.phase c.finishHeader := by
  unfold finishHeader
  split
  · exact trivial
  · apply passes_orFailOpen
    intro flags _
    apply passes_orFailOpen
    intro alignment _
    apply passes_orFailOpen
    intro offset _
    apply leaves_request _ fun _ => trivial
    apply past_of_rank le_rfl
    simp [phase, rank, h]

theorem passes_finishTrailer (h : c.state = .trailer) : Passes c.phase c.finishTrailer := by
  unfold finishTrailer
  apply passes_orFailOpen
  intro t _
  apply passes_orFailOpen
  intro _ _
  apply leaves_request _ fun _ => trivial
  apply past_of_rank le_rfl
  simp [phase, rank, h]

theorem passes_finishIndex (crc32c : Bytes → UInt32) (h : c.state = .index) :
    Passes c.phase (c.finishIndex crc32c) := by
  unfold finishIndex
  apply passes_orFailOpen
  intro _ _
  apply passes_orFailOpen
  intro index _
  dsimp only
  split
  · apply leaves_request _ fun _ => trivial
    apply past_of_rank le_rfl
    simp [phase, rank, h]
  · apply past_of_rank le_rfl
    simp [phase, rank, h]

theorem passes_finishKv (h : c.state = .kv) : Passes c.phase c.finishKv := by
  unfold finishKv
  apply passes_orFailOpen
  intro kv _
  apply past_of_rank le_rfl
  simp [phase, rank, h]

theorem passes_startDescriptor {name : String}
    (h : ∀ d : FileReaderCore A, d.namesLeft = c.namesLeft → d.state = .descriptor → Past q d) :
    Passes q (c.startDescriptor name) := by
  unfold startDescriptor
  split
  · exact trivial
  · exact leaves_request (h _ rfl rfl) fun _ => trivial

/-- The walk comes to another name. -/
theorem passes_walkNext (h : c.namesLeft ≤ q.1) : Passes q c.walkNext := by
  unfold walkNext
  split
  · exact passes_fail
  · next walk hwalk =>
    split
    · next name hname =>
      apply passes_startDescriptor
      intro d hleft _
      apply past_of_namesLeft
      rw [hleft]
      have hlt := (List.getElem?_eq_some_iff.mp hname).1
      simp only [namesLeft, hwalk, Option.elim_some] at h ⊢
      omega
    · split
      · exact passes_fail
      · exact passes_fail

theorem passes_deliverTo {walk : Walk} {stack : List Open} {item : FileItem}
    (h : walk.names.length - walk.cursor ≤ q.1) (hrank : 0 < q.2.1) :
    Passes q (c.deliverTo walk stack item) := by
  induction stack generalizing item with
  | nil =>
    cases item with
    | tensor t => exact passes_fail
    | composite name head members => exact past_of_rank (Nat.zero_le _) hrank
  | cons top rest ih =>
    unfold deliverTo
    apply passes_orFail
    intro validator _
    dsimp only
    split
    · exact passes_walkNext h
    · apply passes_orFail
      intro _ _
      exact ih

theorem passes_completeTensor (h : c.namesLeft ≤ q.1) (hrank : 0 < q.2.1) :
    Passes q c.completeTensor := by
  unfold completeTensor
  split
  · exact passes_fail
  · dsimp only
    split
    · exact past_of_rank h hrank
    · unfold deliver
      split
      · exact passes_fail
      · next walk hwalk =>
        apply passes_deliverTo _ hrank
        simpa only [namesLeft, show c.walk = some walk from hwalk, Option.elim_some] using h
    · exact passes_fail

section Alloc
variable [DestinationAlloc A]

theorem passes_beginBuffer {index : ℕ}
    (h : ∀ d : FileReaderCore A, d.namesLeft = c.namesLeft → d.state = .buffer index →
      (∃ p dest, c.pending = some p ∧ index < p.descriptor.buffers.length ∧
        d.pending = some { p with dest }) → Past q d) :
    Passes q (c.beginBuffer index) := by
  unfold beginBuffer
  split
  · exact passes_fail
  · next p hp =>
    split
    · exact passes_fail
    · next handle hhandle =>
      split
      apply passes_orFail
      intro dest _
      exact h _ rfl rfl ⟨p, some dest, hp, (List.getElem?_eq_some_iff.mp hhandle).1, rfl⟩

theorem passes_beginBuffers {d : TensorDescriptor} (h : c.namesLeft ≤ q.1) (hrank : 1 < q.2.1) :
    Passes q (c.beginBuffers d) := by
  unfold beginBuffers
  dsimp only
  split
  · exact passes_completeTensor h (Nat.lt_of_succ_lt hrank)
  · apply passes_beginBuffer
    intro c' hleft hstate _
    apply past_of_rank (le_of_eq_of_le hleft h)
    rw [rank, hstate]
    exact hrank

theorem passes_finishBuffer {index : ℕ} (h : c.state = .buffer index) :
    Passes c.phase (c.finishBuffer index) := by
  have hrank : c.rank = 1 := by rw [rank, h]
  unfold finishBuffer
  split
  · exact passes_fail
  · next p hp =>
    split
    · exact passes_fail
    · dsimp only
      split
      · apply passes_orFail
        intro offset _
        apply passes_beginBuffer
        intro d hleft hstate hpending
        obtain ⟨p', dest, hp', hlt, hd⟩ := hpending
        cases hp'
        apply past_iff.mpr
        right
        refine ⟨hleft, ?_⟩
        right
        refine ⟨by simp only [phase, rank, h, hstate], ?_⟩
        simp only [phase, buffersLeft, h, hp, hstate, hd, Option.elim_some] at hlt ⊢
        omega
      · apply passes_completeTensor le_rfl
        show 0 < c.rank
        omega

theorem passes_walkDescriptor {d : TensorDescriptor} (h : 1 < c.rank) :
    Passes c.phase (c.walkDescriptor d) := by
  unfold walkDescriptor
  split
  · split
    · exact passes_fail
    · next walk hwalk =>
      split
      · exact passes_fail
      · apply passes_orFail
        intro validator _
        apply passes_walkNext
        simp [phase, namesLeft, hwalk]
  · split
    · exact passes_fail
    · exact passes_beginBuffers le_rfl h

theorem passes_finishDescriptor (h : c.state = .descriptor) :
    Passes c.phase c.finishDescriptor := by
  have hrank : c.rank = 2 := by rw [rank, h]
  unfold finishDescriptor
  apply passes_orFail
  intro d _
  split
  · apply past_of_rank le_rfl
    show 0 < c.rank
    omega
  · apply passes_beginBuffers le_rfl
    show 1 < c.rank
    omega
  · exact passes_walkDescriptor (by omega)
  · exact passes_fail

theorem passes_advance (crc32c : Bytes → UInt32) : Passes c.phase (c.advance crc32c) := by
  unfold advance
  split
  · next h => exact passes_finishHeader h
  · next h => exact passes_finishTrailer h
  · next h => exact passes_finishIndex crc32c h
  · next h => exact passes_finishKv h
  · next h => exact passes_finishDescriptor h
  · next h => exact passes_finishBuffer h
  · exact passes_fail

end Alloc
end Progress

variable [DestinationAlloc A]

/-- The next request or announcement. -/
def step (crc32c : Bytes → UInt32) (c : FileReaderCore A) : Result FileStep × FileReaderCore A :=
  match c.state with
  | .failed => (Exec.fail .coreFailed, c)
  | .ready => (.ok .ready, c)
  | .done .descriptor => (.ok .descriptor, c)
  | .done .tensor => (.ok .tensor, c)
  | .done .composite => (.ok .composite, c)
  | _ =>
      if c.filled < c.target then (.ok (.range c.cursor (c.target - c.filled)), c)
      else
        match _h : c.advance crc32c with
        | (.ok _, c') => step crc32c c'
        | (.error e, c') => (.error e, c')
termination_by c.phase
decreasing_by
  have hpast := passes_advance (c := c) crc32c
  rw [‹c.advance crc32c = _›] at hpast
  exact hpast

/-- What the core is like when a step returns. -/
def Answers (c : FileReaderCore A) : FileStep → Prop
  | .range offset len => c.state.filling = true ∧ c.filled < c.target ∧ offset = c.cursor ∧
      len = c.target - c.filled
  | .ready => c.state = .ready
  | .descriptor => c.state = .done .descriptor
  | .tensor => c.state = .done .tensor
  | .composite => c.state = .done .composite

theorem step_of_answers {crc32c : Bytes → UInt32} {s : FileStep} (h : c.Answers s) :
    c.step crc32c = (.ok s, c) := by
  rw [step]
  cases s with
  | range offset len =>
    obtain ⟨hfilling, hlt, rfl, rfl⟩ := h
    cases hs : c.state <;> simp_all [FileState.filling]
  | _ =>
    simp only [Answers] at h
    simp [h]

theorem step_of_advance {crc32c : Bytes → UInt32} {c' : FileReaderCore A} {u : Unit}
    (hfilling : c.state.filling = true) (hfull : ¬ c.filled < c.target)
    (h : c.advance crc32c = (.ok u, c')) : c.step crc32c = c'.step crc32c := by
  rw [step]
  cases hs : c.state <;> simp_all [FileState.filling]
  all_goals
    rw [if_neg (by omega)]
    split <;> simp_all

theorem step_of_advance_error {crc32c : Bytes → UInt32} {c' : FileReaderCore A}
    {e : Fault Error} (hfilling : c.state.filling = true) (hfull : ¬ c.filled < c.target)
    (h : c.advance crc32c = (.error e, c')) : c.step crc32c = (.error e, c') := by
  rw [step]
  cases hs : c.state <;> simp_all [FileState.filling]
  all_goals
    rw [if_neg (by omega)]
    split <;> simp_all

theorem step_of_failed {crc32c : Bytes → UInt32} (h : c.state = .failed) :
    c.step crc32c = (Exec.fail .coreFailed, c) := by
  rw [step]
  simp [h]

omit [DestinationAlloc A] in
theorem answers_or_turn (c : FileReaderCore A) : c.state = .failed ∨ (∃ s, c.Answers s) ∨
    c.state.filling = true ∧ ¬ c.filled < c.target := by
  by_cases hfilling : c.state.filling = true
  · by_cases hlt : c.filled < c.target
    · exact .inr (.inl ⟨.range _ _, hfilling, hlt, rfl, rfl⟩)
    · exact .inr (.inr ⟨hfilling, hlt⟩)
  · rcases hs : c.state with _ | _ | _ | _ | _ | _ | _ | d | _
    case ready => exact .inr (.inl ⟨.ready, hs⟩)
    case failed => exact .inl rfl
    case done =>
      cases d with
      | descriptor => exact .inr (.inl ⟨.descriptor, hs⟩)
      | tensor => exact .inr (.inl ⟨.tensor, hs⟩)
      | composite => exact .inr (.inl ⟨.composite, hs⟩)
    all_goals
      rw [hs] at hfilling
      exact absurd rfl hfilling

/-- What the turns of the loop keep, a step keeps. -/
theorem leaves_step {c : FileReaderCore A} {crc32c : Bytes → UInt32}
    {I : FileReaderCore A → Prop} {E : Error → FileReaderCore A → Prop} {p : Prop} (hc : I c)
    (hfailed : ∀ c, I c → c.state = .failed → E .coreFailed c)
    (hadvance : ∀ c, I c → c.state.filling = true → ¬ c.filled < c.target →
      Leaves (fun _ => I) E p (c.advance crc32c)) :
    Leaves (fun s c' => I c' ∧ c'.Answers s) E p (c.step crc32c) := by
  rcases answers_or_turn c with h | ⟨s, h⟩ | ⟨hfilling, hfull⟩
  · rw [step_of_failed h]
    exact hfailed c hc h
  · rw [step_of_answers h]
    exact ⟨hc, h⟩
  · have hturn := hadvance c hc hfilling hfull
    rcases h : c.advance crc32c with ⟨(e | _) | u, c'⟩
    · rw [step_of_advance_error hfilling hfull h]
      rw [h] at hturn
      exact hturn
    · rw [step_of_advance_error hfilling hfull h]
      rw [h] at hturn
      exact hturn
    · have hpasses := passes_advance (c := c) crc32c
      rw [h] at hpasses hturn
      have hpast : Past c.phase c' := hpasses
      have hkept : I c' := hturn
      rw [step_of_advance hfilling hfull h]
      exact leaves_step hkept hfailed hadvance
termination_by c.phase
decreasing_by exact hpast

/-- What a step returns when no range is full. -/
def announce (c : FileReaderCore A) : Result FileStep × FileReaderCore A :=
  match c.state with
  | .failed => (Exec.fail .coreFailed, c)
  | .ready => (.ok .ready, c)
  | .done .descriptor => (.ok .descriptor, c)
  | .done .tensor => (.ok .tensor, c)
  | .done .composite => (.ok .composite, c)
  | _ => (.ok (.range c.cursor (c.target - c.filled)), c)

/-- A step with a bound on its turns, which evaluates. -/
def stepWithin (crc32c : Bytes → UInt32) :
    ℕ → FileReaderCore A → Option (Result FileStep × FileReaderCore A)
  | 0, _ => none
  | n + 1, c =>
      if c.state.filling = true ∧ ¬ c.filled < c.target then
        match c.advance crc32c with
        | (.ok _, c') => stepWithin crc32c n c'
        | (.error e, c') => some (.error e, c')
      else some c.announce

omit [DestinationAlloc A] in
theorem announce_of_answers {s : FileStep} (h : c.Answers s) : c.announce = (.ok s, c) := by
  unfold announce
  cases s with
  | range offset len =>
    obtain ⟨hfilling, _, rfl, rfl⟩ := h
    cases hs : c.state <;> simp_all [FileState.filling]
  | _ =>
    simp only [Answers] at h
    rw [h]

theorem step_of_stepWithin {crc32c : Bytes → UInt32} {n : ℕ} {c : FileReaderCore A}
    {x : Result FileStep × FileReaderCore A} (h : stepWithin crc32c n c = some x) :
    c.step crc32c = x := by
  induction n generalizing c with
  | zero => cases h
  | succ n ih =>
    unfold stepWithin at h
    split at h
    · next hturn =>
      rcases hadvance : c.advance crc32c with ⟨e | u, c'⟩
      · rw [hadvance] at h
        cases h
        exact step_of_advance_error hturn.1 hturn.2 hadvance
      · rw [hadvance] at h
        rw [step_of_advance hturn.1 hturn.2 hadvance]
        exact ih h
    · next hturn =>
      cases h
      rcases answers_or_turn c with hfailed | ⟨s, hs⟩ | hcontra
      · rw [step_of_failed hfailed, announce, hfailed]
      · rw [step_of_answers hs, announce_of_answers hs]
      · exact absurd hcontra hturn

/-- The memory on offer. A target of which more than all is filled panics. -/
def inputDst (c : FileReaderCore A) : Result Bytes :=
  match c.state with
  | .buffer _ =>
      match c.pending.bind FilePending.dest with
      | some dest => Exec.slice dest c.filled (dest.length - c.filled)
      | none => .ok []
  | .header | .trailer | .index | .kv | .descriptor =>
      Exec.slice c.staging c.filled (c.staging.length - c.filled)
  | _ => .ok []

/-- The transport has put `data` at the front of what is on offer, as far as it fits. -/
def fillDst (c : FileReaderCore A) (data : Bytes) : FileReaderCore A :=
  match c.state with
  | .buffer _ =>
      { c with pending := c.pending.map fun p =>
                 { p with dest := p.dest.map fun mem =>
                            overwrite mem c.filled (data.take (mem.length - c.filled)) } }
  | .header | .trailer | .index | .kv | .descriptor =>
      { c with staging := overwrite c.staging c.filled
                 (data.take (c.staging.length - c.filled)) }
  | _ => c

/-- How many bytes of a range are outstanding. -/
def offered (c : FileReaderCore A) : Result ℕ :=
  if c.state.filling then Exec.subSize c.target c.filled else .ok 0

/-- Where a range stands after `n` more bytes of it. -/
def moved (c : FileReaderCore A) (n : ℕ) : Result (ℕ × UInt64) := do
  let filled ← Exec.inBits 64 (c.filled + n)
  let cursor ← addSize c.cursor n
  pure (filled, cursor)

def reportFilled (c : FileReaderCore A) (n : ℕ) : Result Unit × FileReaderCore A :=
  if c.state = .failed then (Exec.fail .coreFailed, c)
  else
    match c.offered with
    | .error e => (.error e, c)
    | .ok offered =>
        if offered = 0 ∨ offered < n then (Exec.fail (.invalidProgressReport n offered), c)
        else if n = 0 then c.fail .unexpectedEof
        else
          match c.moved n with
          | .error e => (.error e, c)
          | .ok (filled, cursor) => (.ok (), { c with filled, cursor })

/-- The core after `n` more bytes of its range. -/
def arrived (c : FileReaderCore A) (n : ℕ) : FileReaderCore A :=
  { c with filled := c.filled + n, cursor := c.cursor + UInt64.ofNat n }

omit [DestinationAlloc A] in
/-- The outcomes of a report. -/
theorem reportFilled_cases (c : FileReaderCore A) (n : ℕ) :
    (∃ e, c.reportFilled n = (Exec.fail e, c)) ∨
    (c.state.filling = true ∧ n = 0 ∧ c.reportFilled n = c.fail .unexpectedEof) ∨
    (c.state.filling = true ∧ c.filled + n ≤ c.target ∧ 0 < n ∧
      c.reportFilled n = (.ok (), c.arrived n)) ∨
    (c.state.filling = true ∧ c.reportFilled n = (Exec.panic, c) ∧
      (c.target < c.filled ∨ c.filled + n ≤ c.target ∧
        (2 ^ 64 ≤ c.filled + n ∨ UInt64.size ≤ c.cursor.toNat + n))) := by
  unfold reportFilled
  by_cases hfailed : c.state = .failed
  · rw [if_pos hfailed]
    exact .inl ⟨_, rfl⟩
  rw [if_neg hfailed]
  by_cases hfilling : c.state.filling = true
  · by_cases hle : c.filled ≤ c.target
    · rw [offered, if_pos hfilling, Exec.subSize, if_pos hle]
      dsimp only
      by_cases hbad : c.target - c.filled = 0 ∨ c.target - c.filled < n
      · rw [if_pos hbad]
        exact .inl ⟨_, rfl⟩
      rw [if_neg hbad]
      by_cases hzero : n = 0
      · rw [if_pos hzero]
        exact .inr (.inl ⟨hfilling, hzero, rfl⟩)
      rw [if_neg hzero, moved, Exec.inBits, addSize]
      by_cases hfit : c.filled + n < 2 ^ 64
      · rw [if_pos hfit]
        by_cases hcursor : c.cursor.toNat + n < UInt64.size
        · rw [if_pos hcursor]
          exact .inr (.inr (.inl ⟨hfilling, by omega, by omega, rfl⟩))
        · rw [if_neg hcursor]
          exact .inr (.inr (.inr ⟨hfilling, rfl, .inr ⟨by omega, .inr (by omega)⟩⟩))
      · rw [if_neg hfit]
        exact .inr (.inr (.inr ⟨hfilling, rfl, .inr ⟨by omega, .inl (by omega)⟩⟩))
    · rw [offered, if_pos hfilling, Exec.subSize, if_neg hle]
      exact .inr (.inr (.inr ⟨hfilling, rfl, .inl (by omega)⟩))
  · rw [offered, if_neg hfilling]
    exact .inl ⟨_, rfl⟩

omit [DestinationAlloc A] in
/-- A report of no more than was asked for. -/
theorem reportFilled_within {n : ℕ} (hfilling : c.state.filling = true) (hlt : c.filled < c.target)
    (hle : c.filled + n ≤ c.target) : c.reportFilled n =
      if n = 0 then c.fail .unexpectedEof
      else
        match c.moved n with
        | .error e => (.error e, c)
        | .ok (filled, cursor) => (.ok (), { c with filled, cursor }) := by
  have hfailed : c.state ≠ .failed := by
    intro h
    rw [h] at hfilling
    exact Bool.false_ne_true hfilling
  unfold reportFilled
  rw [if_neg hfailed, offered, if_pos hfilling, Exec.subSize, if_pos (by omega)]
  dsimp only
  rw [if_neg (by omega)]

omit [DestinationAlloc A] in
theorem reportFilled_zero (hfilling : c.state.filling = true) (hlt : c.filled < c.target) :
    c.reportFilled 0 = c.fail .unexpectedEof := by
  rw [reportFilled_within hfilling hlt hlt.le, if_pos rfl]

omit [DestinationAlloc A] in
theorem reportFilled_eq_ok {n : ℕ} (hfilling : c.state.filling = true)
    (hle : c.filled + n ≤ c.target) (hpos : 0 < n) (hfit : c.filled + n < 2 ^ 64)
    (hcursor : c.cursor.toNat + n < UInt64.size) : c.reportFilled n = (.ok (), c.arrived n) := by
  rw [reportFilled_within hfilling (by omega) hle, if_neg (by omega), moved, Exec.inBits,
    if_pos hfit, addSize, if_pos hcursor]
  rfl

omit [DestinationAlloc A] in
theorem reportFilled_of_overflow {n : ℕ} (hfilling : c.state.filling = true)
    (hle : c.filled + n ≤ c.target) (hpos : 0 < n) (hfit : c.filled + n < 2 ^ 64)
    (hcursor : UInt64.size ≤ c.cursor.toNat + n) : c.reportFilled n = (Exec.panic, c) := by
  rw [reportFilled_within hfilling (by omega) hle, if_neg (by omega), moved, Exec.inBits,
    if_pos hfit, addSize, if_neg (by omega)]
  rfl

def beginDescriptor (c : FileReaderCore A) (name : String) : Result Unit × FileReaderCore A :=
  match c.beginJob .descriptor with
  | (.error e, c) => (.error e, c)
  | (.ok _, c) => c.startDescriptor name

def beginTensor (c : FileReaderCore A) (name : String) : Result Unit × FileReaderCore A :=
  match c.beginJob .tensor with
  | (.error e, c) => (.error e, c)
  | (.ok _, c) => c.startDescriptor name

/-- The walk starts at the head and goes on in the order of the file. -/
def beginComposite (c : FileReaderCore A) (headName : String) : Result Unit × FileReaderCore A :=
  match c.beginJob .walk with
  | (.error e, c) => (.error e, c)
  | (.ok _, c) =>
      match (orderedNames c.index).idxOf? headName with
      | none => (Exec.fail (.tensorNotFound headName), c)
      | some start => { c with walk := some ⟨orderedNames c.index, start, []⟩ }.walkNext

def begin (c : FileReaderCore A) (job : Job) (name : String) : Result Unit × FileReaderCore A :=
  match job with
  | .descriptor => c.beginDescriptor name
  | .tensor => c.beginTensor name
  | .walk => c.beginComposite name

section Begin
variable {job : Job} {name : String}

/-- The core with the job in place of the last one. -/
def supersede (c : FileReaderCore A) (job : Job) : FileReaderCore A :=
  { c with job := some job, pending := none, walk := none, descriptorOut := none,
           tensorOut := none, compositeOut := none }

/-- A walk that has asked for its head. -/
def jobWalk (index : List IndexEntry) (job : Job) (name : String) : Option Walk :=
  if job = .walk then
    ((orderedNames index).idxOf? name).map fun start => ⟨orderedNames index, start + 1, []⟩
  else none

/-- The core that asks for the descriptor of an entry. -/
def describing (c : FileReaderCore A) (e : IndexEntry) : FileReaderCore A :=
  { c with entryName := e.name, entryDataOffset := e.dataOffset, cursor := e.descriptorOffset,
           target := e.descriptorLength.toNat, filled := 0,
           staging := List.replicate e.descriptorLength.toNat 0, state := .descriptor }

/-- The core at the start of a job. -/
def started (c : FileReaderCore A) (job : Job) (e : IndexEntry) : FileReaderCore A :=
  { c.supersede job with walk := jobWalk c.index job e.name }.describing e

/-- The tensor of a name. -/
def find (index : List IndexEntry) (name : String) : Option IndexEntry :=
  index.find? fun e => e.name = name

theorem find_eq_none {index : List IndexEntry} :
    find index name = none ↔ name ∉ index.map IndexEntry.name := by
  simp [find]

theorem name_of_find {index : List IndexEntry} {e : IndexEntry} (h : find index name = some e) :
    e.name = name ∧ e ∈ index :=
  ⟨of_decide_eq_true (List.find?_some (p := fun e : IndexEntry => e.name = name) h),
    List.mem_of_find?_eq_some h⟩

theorem mem_orderedNames {index : List IndexEntry} :
    name ∈ orderedNames index ↔ name ∈ index.map IndexEntry.name := by
  unfold orderedNames
  rw [List.mem_map, List.mem_map]
  simp only [List.mem_mergeSort]

omit [DestinationAlloc A] in
theorem startDescriptor_of_find {e : IndexEntry} (h : find c.index name = some e) :
    c.startDescriptor name = (.ok (), c.describing e) := by
  have hlen : ¬ ISIZE_MAX < e.descriptorLength.toNat := by
    have hlt : e.descriptorLength.toNat < 4294967296 := e.descriptorLength.toNat_lt_size
    have hmax : ISIZE_MAX = 9223372036854775807 := rfl
    omega
  have hfind : (c.index.find? fun e => e.name = name) = some e := h
  unfold startDescriptor
  rw [hfind]
  show request _ _ _ _ = _
  unfold request
  dsimp only
  rw [if_neg hlen]
  rfl

omit [DestinationAlloc A] in
theorem startDescriptor_of_find_none (h : find c.index name = none) :
    c.startDescriptor name = (Exec.fail (.tensorNotFound name), c) := by
  have hfind : (c.index.find? fun e => e.name = name) = none := h
  unfold startDescriptor
  rw [hfind]

omit [DestinationAlloc A] in
/-- The walk comes to the next name of the file. -/
theorem walkNext_of_find {walk : Walk} {e : IndexEntry} (hwalk : c.walk = some walk)
    (hname : walk.names[walk.cursor]? = some name) (h : find c.index name = some e) :
    c.walkNext =
      (.ok (), { c with walk := some { walk with cursor := walk.cursor + 1 } }.describing e) := by
  unfold walkNext
  rw [hwalk]
  dsimp only
  rw [hname]
  exact startDescriptor_of_find h

omit [DestinationAlloc A] in
theorem beginJob_of_isOpen (h : c.isOpen = true) : c.beginJob job = (.ok (), c.supersede job) :=
  if_pos h

omit [DestinationAlloc A] in
theorem begin_of_not_isOpen (h : c.isOpen = false) :
    c.begin job name = (Exec.fail .coreFailed, c) := by
  have hbegin : ∀ job, c.beginJob job = (Exec.fail .coreFailed, c) := by
    intro job
    unfold beginJob
    rw [h]
    rfl
  cases job with
  | descriptor =>
    show c.beginDescriptor name = _
    rw [beginDescriptor, hbegin]
    rfl
  | tensor =>
    show c.beginTensor name = _
    rw [beginTensor, hbegin]
    rfl
  | walk =>
    show c.beginComposite name = _
    rw [beginComposite, hbegin]
    rfl

omit [DestinationAlloc A] in
theorem begin_of_find_none (h : c.isOpen = true) (hfind : find c.index name = none) :
    c.begin job name = (Exec.fail (.tensorNotFound name), c.supersede job) := by
  have hstart : ∀ job, (c.supersede job).startDescriptor name =
      (Exec.fail (.tensorNotFound name), c.supersede job) := by
    intro job
    exact startDescriptor_of_find_none hfind
  cases job with
  | descriptor =>
    show c.beginDescriptor name = _
    rw [beginDescriptor, beginJob_of_isOpen h]
    exact hstart .descriptor
  | tensor =>
    show c.beginTensor name = _
    rw [beginTensor, beginJob_of_isOpen h]
    exact hstart .tensor
  | walk =>
    have hnone : (orderedNames c.index).idxOf? name = none := by
      rw [List.idxOf?_eq_none_iff, mem_orderedNames]
      exact find_eq_none.mp hfind
    show c.beginComposite name = _
    rw [beginComposite, beginJob_of_isOpen h]
    show (match (orderedNames c.index).idxOf? name with | none => _ | some start => _) = _
    rw [hnone]

omit [DestinationAlloc A] in
theorem begin_of_find {e : IndexEntry} (h : c.isOpen = true) (hfind : find c.index name = some e) :
    c.begin job name = (.ok (), c.started job e) := by
  obtain ⟨rfl, hmem⟩ := name_of_find hfind
  cases job with
  | descriptor =>
    show c.beginDescriptor e.name = _
    rw [beginDescriptor, beginJob_of_isOpen h]
    exact startDescriptor_of_find hfind
  | tensor =>
    show c.beginTensor e.name = _
    rw [beginTensor, beginJob_of_isOpen h]
    exact startDescriptor_of_find hfind
  | walk =>
    have hname : e.name ∈ orderedNames c.index := by
      rw [mem_orderedNames]
      exact List.mem_map_of_mem hmem
    obtain ⟨start, hstart⟩ := Option.isSome_iff_exists.mp (List.isSome_idxOf?.mpr hname)
    have hget : (orderedNames c.index)[start]? = some e.name := by
      obtain ⟨hlt, hget, -⟩ := List.idxOf?_eq_some_iff.mp hstart
      exact List.getElem?_eq_some_iff.mpr ⟨hlt, hget⟩
    show c.beginComposite e.name = _
    rw [beginComposite, beginJob_of_isOpen h]
    show (match (orderedNames c.index).idxOf? e.name with | none => _ | some start => _) = _
    rw [hstart]
    rw [started, jobWalk, if_pos rfl, hstart]
    exact walkNext_of_find (c := { c.supersede .walk with
      walk := some ⟨orderedNames c.index, start, []⟩ }) rfl hget hfind

end Begin

def takeDescriptor (c : FileReaderCore A) : Option TensorDescriptor × FileReaderCore A :=
  match c.descriptorOut with
  | none => (none, c)
  | some d => (some d, { c with descriptorOut := none }.finishJob)

def takeTensor (c : FileReaderCore A) : Option FileTensor × FileReaderCore A :=
  match c.tensorOut with
  | none => (none, c)
  | some t => (some t, { c with tensorOut := none }.finishJob)

def takeComposite (c : FileReaderCore A) : Option FileComposite × FileReaderCore A :=
  match c.compositeOut with
  | none => (none, c)
  | some composite => (some composite, { c with compositeOut := none }.finishJob)

end FileReaderCore
end Hurray.File
