import Hurray.File.ReaderCalls
import Hurray.Stream.ReadDriver

/-!
Driving the file reader over the bytes of a file. A read returns at least one
byte of what it is asked for if the file has one there, and otherwise as few as
it likes. However they are returned, a range that the file has arrives as a
whole, so that what a run comes to is a matter of the file alone.
-/
namespace Hurray.File
open Hurray.Base Hurray.Core Hurray.Descriptor Hurray.Stream

/-- The bytes of a range of the file. -/
def fetch (file : Bytes) (offset : UInt64) (len : ℕ) : Result Bytes := do
  let data := (file.drop offset.toNat).take len
  let _ ← addSize offset data.length
  Exec.reject (data.length < len) .unexpectedEof
  pure data

section Fetch
variable {file data : Bytes} {offset : UInt64} {len : ℕ}

theorem length_range (file : Bytes) (offset : UInt64) (len : ℕ) :
    ((file.drop offset.toNat).take len).length = min len (file.length - offset.toNat) := by
  rw [List.length_take, List.length_drop]

theorem fetch_eq_ok : fetch file offset len = .ok data ↔
    offset.toNat + data.length < UInt64.size ∧ data.length = len ∧
      data = (file.drop offset.toNat).take len := by
  unfold fetch
  constructor
  · intro h
    obtain ⟨_, hadd, h⟩ := Exec.bind_eq_ok.mp h
    obtain ⟨_, hlen, h⟩ := Exec.bind_eq_ok.mp h
    cases h
    rw [addSize] at hadd
    split at hadd
    · next hlt =>
      rw [Exec.reject_eq_ok] at hlen
      refine ⟨hlt, ?_, rfl⟩
      rw [length_range] at hlen ⊢
      omega
    · exact absurd hadd Exec.panic_ne_ok
  · intro h
    obtain ⟨hlt, hlen, hdata⟩ := h
    dsimp only
    rw [← hdata, addSize, if_pos hlt, Exec.ok_bind, Exec.reject_of_not (by omega)]
    rfl

theorem fetch_of_short (hlt : offset.toNat + min len (file.length - offset.toNat) < UInt64.size)
    (hshort : file.length - offset.toNat < len) : fetch file offset len = Exec.fail .unexpectedEof := by
  unfold fetch
  dsimp only
  rw [length_range, addSize, if_pos hlt, Exec.ok_bind, Exec.reject, if_pos (by omega)]
  rfl

theorem fetch_of_overflow (h : UInt64.size ≤ offset.toNat + min len (file.length - offset.toNat)) :
    fetch file offset len = Exec.panic := by
  unfold fetch
  dsimp only
  rw [length_range, addSize, if_neg (by omega)]
  rfl

end Fetch

namespace FileReaderCore
variable {A : Type} {c : FileReaderCore A}

/-! ### The memory of a range -/

def memory (c : FileReaderCore A) : Bytes :=
  match c.state with
  | .buffer _ => (c.pending.bind FilePending.dest).getD []
  | _ => c.staging

def setMemory (c : FileReaderCore A) (mem : Bytes) : FileReaderCore A :=
  match c.state with
  | .buffer _ => { c with pending := c.pending.map fun p => { p with dest := p.dest.map fun _ => mem } }
  | _ => { c with staging := mem }

/-- The core has asked for a range, of which nothing has arrived. -/
structure Awaits (c : FileReaderCore A) : Prop where
  filling : c.state.filling = true
  filled : c.filled = 0
  memory : c.memory.length = c.target
  target : c.target < 2 ^ 64
  dest : ∀ index, c.state = .buffer index → ∃ p dest, c.pending = some p ∧ p.dest = some dest

/-- The core after the first bytes of its range. -/
def after (c : FileReaderCore A) (got : Bytes) : FileReaderCore A :=
  { c.setMemory (got ++ c.memory.drop got.length) with
    filled := got.length, cursor := c.cursor + UInt64.ofNat got.length }

theorem setMemory_memory (h : c.Awaits) : c.setMemory c.memory = c := by
  unfold setMemory memory
  split
  · next index hs =>
    rw [hs]
    obtain ⟨p, dest, hp, hdest⟩ := h.dest index hs
    have hself : { p with dest := some dest } = p := by rw [← hdest]
    have hbind : c.pending.bind FilePending.dest = some dest := by
      rw [hp]
      exact hdest
    simp only [hbind, Option.getD_some]
    rw [hp, Option.map_some, hdest, Option.map_some, hself, ← hp, ← hs]
  · next hs =>
    split
    · next index hbuffer => exact absurd hbuffer (hs index)
    · rfl

theorem after_nil (h : c.Awaits) : c.after [] = c := by
  have hcursor : c.cursor + UInt64.ofNat ([] : Bytes).length = c.cursor := UInt64.add_zero _
  unfold after
  rw [List.nil_append, hcursor, List.length_nil, List.drop_zero, setMemory_memory h, ← h.filled]

theorem state_after (c : FileReaderCore A) (got : Bytes) : (c.after got).state = c.state ∧
    (c.after got).filled = got.length ∧ (c.after got).target = c.target ∧
      (c.after got).cursor = c.cursor + UInt64.ofNat got.length := by
  unfold after setMemory
  cases c.state <;> simp

/-- More bytes arrive behind those that have. -/
theorem after_append {got data : Bytes} (h : c.Awaits)
    (hle : got.length + data.length ≤ c.target) :
    ((c.after got).fillDst data).arrived data.length = c.after (got ++ data) := by
  have hmem := h.memory
  have hover : overwrite (got ++ c.memory.drop got.length) got.length
      (data.take ((got ++ c.memory.drop got.length).length - got.length)) =
        got ++ data ++ c.memory.drop (got ++ data).length := by
    have hroom : data.length ≤ (got ++ c.memory.drop got.length).length - got.length := by
      rw [List.length_append, List.length_drop]
      omega
    rw [List.take_of_length_le hroom, overwrite, List.take_left, List.drop_append,
      List.drop_eq_nil_of_le (by omega), List.nil_append, Nat.add_sub_cancel_left, List.drop_drop,
      List.length_append]
  have hcursor : c.cursor + UInt64.ofNat got.length + UInt64.ofNat data.length =
      c.cursor + UInt64.ofNat (got ++ data).length := by
    rw [UInt64.add_assoc, ← UInt64.ofNat_add, List.length_append]
  have hlen : got.length + data.length = (got ++ data).length := List.length_append.symm
  have hfilling := h.filling
  cases hs : c.state with
  | buffer index =>
    obtain ⟨p, dest, hp, hdest⟩ := h.dest index hs
    have hmemory : c.memory = dest := by
      rw [memory, hs, hp]
      show p.dest.getD [] = dest
      rw [hdest]
      rfl
    rw [hmemory] at hover
    simp only [after, setMemory, arrived, fillDst, hs, hp, hdest, hmemory, Option.map_some, hcursor,
      hlen, hover]
  | header | trailer | index | kv | descriptor =>
    have hmemory : c.memory = c.staging := by rw [memory, hs]
    rw [hmemory] at hover
    simp only [after, setMemory, arrived, fillDst, hs, hmemory, hcursor, hlen, hover]
  | _ =>
    rw [hs] at hfilling
    exact absurd hfilling Bool.false_ne_true

section Drive
variable [DestinationAlloc A] {crc32c : Bytes → UInt32}

/-- A step stays where it is or comes further. -/
theorem step_past (crc32c : Bytes → UInt32) (c : FileReaderCore A) :
    Leaves (fun s c' => (c' = c ∨ Past c.phase c') ∧ c'.Answers s) (fun _ _ => True) True
      (c.step crc32c) := by
  apply leaves_step (I := fun c' => c' = c ∨ Past c.phase c') (.inl rfl)
  · exact fun _ _ _ => trivial
  · intro d hd _ _
    apply (passes_advance (c := d) crc32c).mono
    · intro _ d' hpast
      right
      rcases hd with rfl | hd
      · exact hpast
      · exact hd.trans hpast
    · exact fun _ _ _ => trivial
    · exact fun _ => trivial

omit [DestinationAlloc A] in
theorem phase_fillDst (c : FileReaderCore A) (data : Bytes) : (c.fillDst data).phase = c.phase := by
  unfold fillDst
  cases hs : c.state with
  | buffer index => cases hp : c.pending <;> simp [phase, namesLeft, rank, buffersLeft, hs, hp]
  | _ => simp [phase, namesLeft, rank, buffersLeft, hs]

omit [DestinationAlloc A] in
theorem fillDst_progress (c : FileReaderCore A) (data : Bytes) :
    (c.fillDst data).target = c.target ∧ (c.fillDst data).filled = c.filled ∧
      (c.fillDst data).cursor = c.cursor ∧ (c.fillDst data).state = c.state := by
  unfold fillDst
  cases hs : c.state <;> simp [hs]

omit [DestinationAlloc A] in
/-- A report that succeeds takes a range further. -/
theorem reportFilled_progress {n : ℕ} {u : Unit} {c' : FileReaderCore A}
    (h : c.reportFilled n = (.ok u, c')) :
    c'.phase = c.phase ∧ c'.target - c'.filled < c.target - c.filled := by
  rcases reportFilled_cases c n with ⟨e, heq⟩ | ⟨_, _, heq⟩ | ⟨_, hle, hpos, heq⟩ | ⟨_, heq, _⟩
  · rw [h] at heq
    cases heq
  · rw [heq, fail_eq] at h
    cases h
  · rw [h] at heq
    cases heq
    refine ⟨rfl, ?_⟩
    simp only [arrived]
    omega
  · rw [h] at heq
    cases heq

/-- What a driver gets from a core: the `calls`th read returns at most `chunk calls + 1` bytes. -/
def drive (crc32c : Bytes → UInt32) (file : Bytes) (chunk : ℕ → ℕ) (calls : ℕ)
    (c : FileReaderCore A) : Result (FileStep × FileReaderCore A) :=
  match _hstep : c.step crc32c with
  | (.error e, _) => .error e
  | (.ok (.range offset len), c') =>
      let data := (file.drop offset.toNat).take (min len (chunk calls + 1))
      match _hreport : (c'.fillDst data).reportFilled data.length with
      | (.error e, _) => .error e
      | (.ok _, c'') => drive crc32c file chunk (calls + 1) c''
  | (.ok s, c') => .ok (s, c')
termination_by (c.phase, c.target - c.filled)
decreasing_by
  obtain ⟨hphase, hleft⟩ := reportFilled_progress ‹_›
  obtain ⟨htarget, hfilled, -, -⟩ := fillDst_progress c' data
  have hpast := step_past crc32c c
  rw [‹c.step crc32c = _›] at hpast
  obtain ⟨hpast, -⟩ := hpast
  rw [Prod.lex_def]
  simp only [hphase, phase_fillDst]
  rcases hpast with rfl | hpast
  · right
    refine ⟨rfl, ?_⟩
    rw [htarget, hfilled] at hleft
    exact hleft
  · left
    exact hpast

theorem answers_of_drive {file : Bytes} {chunk : ℕ → ℕ} {calls : ℕ} {c c' : FileReaderCore A}
    {s : FileStep} (h : drive crc32c file chunk calls c = .ok (s, c')) : c'.Answers s := by
  fun_induction drive crc32c file chunk calls c with
  | case1 => cases h
  | case2 => cases h
  | case3 calls c offset len c₁ data u c₂ hstep hreport ih => exact ih h
  | case4 calls c s c₁ hrange hstep =>
    have hpast := step_past crc32c c
    rw [hstep] at hpast
    cases h
    exact hpast.2

section Drives
variable {β : Type} {file : Bytes} {f : FileStep × FileReaderCore A → β} {r : Result β}

/-- Whatever the reads return, `r` is what the driver makes of the core. -/
def Drives (crc32c : Bytes → UInt32) (file : Bytes) (f : FileStep × FileReaderCore A → β)
    (c : FileReaderCore A) (r : Result β) : Prop :=
  ∀ chunk calls, (drive crc32c file chunk calls c).map f = r

/-- The driver goes on with the core that a call leaves. -/
def Goes (crc32c : Bytes → UInt32) (file : Bytes) (f : FileStep × FileReaderCore A → β)
    (x : Result Unit × FileReaderCore A) (r : Result β) : Prop :=
  match x with
  | (.ok _, c) => Drives crc32c file f c r
  | (.error e, _) => r = .error e

theorem drives_answers {s : FileStep} (h : c.Answers s) (hs : ∀ offset len, s ≠ .range offset len) :
    Drives crc32c file f c (.ok (f (s, c))) := by
  intro chunk calls
  rw [drive, step_of_answers h]
  cases s with
  | range offset len => exact absurd rfl (hs offset len)
  | _ => rfl

theorem drives_turn (hfilling : c.state.filling = true) (hfull : ¬ c.filled < c.target)
    (h : Goes crc32c file f (c.advance crc32c) r) : Drives crc32c file f c r := by
  intro chunk calls
  rcases hadvance : c.advance crc32c with ⟨e | u, c'⟩
  · rw [hadvance] at h
    rw [drive, step_of_advance_error hfilling hfull hadvance]
    exact Eq.symm h
  · rw [hadvance] at h
    have hdrive := h chunk calls
    rw [drive] at hdrive
    rw [drive, step_of_advance hfilling hfull hadvance]
    exact hdrive

/-- What the driver does about a range: it reads some of it, and reports that. -/
theorem drive_range (chunk : ℕ → ℕ) (calls : ℕ) (hfilling : c.state.filling = true)
    (hlt : c.filled < c.target) :
    drive crc32c file chunk calls c =
      let data := (file.drop c.cursor.toNat).take (min (c.target - c.filled) (chunk calls + 1))
      match (c.fillDst data).reportFilled data.length with
      | (.error e, _) => .error e
      | (.ok _, c') => drive crc32c file chunk (calls + 1) c' := by
  rw [drive, step_of_answers (s := .range c.cursor (c.target - c.filled)) ⟨hfilling, hlt, rfl, rfl⟩]
  dsimp only
  split <;> simp_all

/-- However the rest of a range is returned, all of it arrives if the file has it. -/
theorem drives_after {k : Bytes → Result β} (h : c.Awaits)
    (hgoes : ∀ data, fetch file c.cursor c.target = .ok data →
      Goes crc32c file f ((c.after data).advance crc32c) (k data))
    (got : Bytes) (hgot : got = (file.drop c.cursor.toNat).take got.length)
    (hle : got.length ≤ c.target) (hcursor : c.cursor.toNat + got.length < UInt64.size) :
    Drives crc32c file f (c.after got) (fetch file c.cursor c.target >>= k) := by
  obtain ⟨hstate, hfilled, htarget, hat⟩ := state_after c got
  have hfilling : (c.after got).state.filling = true := by rw [hstate, h.filling]
  have htarget64 := h.target
  have hsize : UInt64.size = 2 ^ 64 := rfl
  have hlength : got.length = min got.length (file.length - c.cursor.toNat) := by
    conv => lhs; rw [hgot]
    exact length_range file c.cursor got.length
  by_cases hfull : got.length = c.target
  · have hfetch : fetch file c.cursor c.target = .ok got := by
      rw [fetch_eq_ok, ← hfull]
      exact ⟨hcursor, rfl, hgot⟩
    rw [hfetch, Exec.ok_bind]
    apply drives_turn hfilling (by omega)
    exact hgoes got hfetch
  · have hlt : (c.after got).filled < (c.after got).target := by omega
    have hoffset : (c.after got).cursor.toNat = c.cursor.toNat + got.length := by
      rw [hat, UInt64.toNat_add, UInt64.toNat_ofNat_of_lt' (by omega), Nat.mod_eq_of_lt hcursor]
    intro chunk calls
    rw [drive_range chunk calls hfilling hlt, hoffset, hfilled, htarget]
    generalize hdata : (file.drop (c.cursor.toNat + got.length)).take
      (min (c.target - got.length) (chunk calls + 1)) = data
    have hdatalen : data.length =
        min (min (c.target - got.length) (chunk calls + 1))
          (file.length - (c.cursor.toNat + got.length)) := by
      rw [← hdata, List.length_take, List.length_drop]
    obtain ⟨htarget', hfilled', hat', hstate'⟩ := fillDst_progress (c.after got) data
    have hfilling' : ((c.after got).fillDst data).state.filling = true := by rw [hstate', hfilling]
    dsimp only
    by_cases hempty : data.length = 0
    · -- nothing is left of the file
      rw [hempty, reportFilled_zero hfilling' (by omega), fail_eq,
        fetch_of_short (by omega) (by omega)]
      rfl
    · by_cases hover : c.cursor.toNat + (got.length + data.length) < UInt64.size
      · have happend : got ++ data =
            (file.drop c.cursor.toNat).take (got ++ data).length := by
          rw [List.length_append, List.take_add, ← hgot, List.drop_drop]
          congr 1
          rw [hdatalen, ← List.length_drop, ← List.take_eq_take_min]
          exact hdata.symm
        rw [reportFilled_eq_ok hfilling' (by omega) (by omega) (by omega)
          (by rw [hat', hoffset]; omega)]
        dsimp only
        rw [after_append h (by omega)]
        have hlen : (got ++ data).length = got.length + data.length := List.length_append
        exact drives_after h hgoes (got ++ data) happend (by omega) (by omega) chunk (calls + 1)
      · rw [reportFilled_of_overflow hfilling' (by omega) (by omega) (by omega)
          (by rw [hat', hoffset]; omega), fetch_of_overflow (by omega)]
        rfl
termination_by c.target - got.length
decreasing_by omega

/-- The rule of a range: the driver gets it as a whole, or what is wrong with it. -/
theorem drives_range {k : Bytes → Result β} (h : c.Awaits)
    (hgoes : ∀ data, fetch file c.cursor c.target = .ok data →
      Goes crc32c file f ((c.after data).advance crc32c) (k data)) :
    Drives crc32c file f c (fetch file c.cursor c.target >>= k) := by
  have hafter := drives_after h hgoes [] rfl (Nat.zero_le _) c.cursor.toNat_lt_size
  rw [after_nil h] at hafter
  exact hafter

end Drives
end Drive
end FileReaderCore
end Hurray.File
