import Hurray.Base.Leaves
import Hurray.Stream.ReadDriver

/-!
One reader core over its whole life, under calls in any order. The bytes that
have come are those of the tensors that were taken and of what is being
assembled, whatever the calls are, and an error of the machine is its last word.
-/
namespace Hurray.Stream
open Hurray.Base Hurray.Core Hurray.Descriptor

namespace StreamReaderCore
variable {A : Type}

/-- The memory that is on offer. A range of a vector panics outside of it. -/
def inputDst (c : StreamReaderCore A) : Result Bytes :=
  match c.state with
  | .descriptorPrefix | .descriptor =>
      if c.target < c.filled then Exec.panic
      else Exec.slice c.staging c.filled (c.target - c.filled)
  | .buffer _ =>
      match c.pending.bind Pending.dest with
      | some dest => Exec.slice dest c.filled (dest.length - c.filled)
      | none => .ok []
  | _ => .ok []

/-- Nothing is delivered in these states, and they are not left. -/
def Dead (c : StreamReaderCore A) : Prop :=
  c.state = .failed ∨ ∃ reason, c.state = .unusable reason

end StreamReaderCore

/-- The bytes are those of the descriptor, and there is a buffer of the declared size for each
handle. -/
structure StreamTensor.Whole (w : Bytes) (t : StreamTensor) : Prop where
  decoded : decode w = .ok t.descriptor
  sizes : t.buffers.map List.length = t.descriptor.buffers.map fun h => h.byteSize.toNat

namespace StreamReaderCore
variable {A : Type} {c : StreamReaderCore A} {w data : Bytes} {index n : ℕ}

/-- A tensor that has its buffers up to an index. -/
structure Gathered (c : StreamReaderCore A) (p : Pending) (index : ℕ) : Prop where
  pending : c.pending = some p
  decoded : decode c.staging = .ok p.descriptor
  sizes : p.buffers.map List.length = (p.descriptor.buffers.take index).map fun h => h.byteSize.toNat

/-- The bytes that have come since the last tensor, by the state of the core. -/
def Fed (c : StreamReaderCore A) (w : Bytes) : Prop :=
  match c.state with
  | .descriptorPrefix => c.target = PREFIX_LEN ∧ c.staging.length = PREFIX_LEN ∧
      c.filled ≤ PREFIX_LEN ∧ w = c.staging.take c.filled
  | .descriptor => c.staging.length = c.target ∧ c.filled ≤ c.target ∧ w = c.staging.take c.filled
  | .buffer index => ∃ p dest h, c.Gathered p index ∧ p.descriptor.buffers[index]? = some h ∧
      p.dest = some dest ∧ dest.length = c.target ∧ c.target = h.byteSize.toNat ∧
      c.filled ≤ c.target ∧ w = c.staging ++ p.buffers.flatten ++ dest.take c.filled
  | .tensorReady => ∃ t, c.tensor = some t ∧ t.Whole c.staging ∧ w = c.staging ++ t.buffers.flatten
  | .finished => w = []
  | .failed | .unusable _ => True

section Fed

theorem fed_start (options : StreamReaderOptions) (a : A) :
    (withDestinations options a).Fed [] := ⟨rfl, rfl, Nat.zero_le _, rfl⟩

theorem fed_of_dead (h : c.Dead) : c.Fed w := by
  unfold Fed
  rcases h with hs | ⟨reason, hs⟩
  · rw [hs]
    trivial
  · rw [hs]
    trivial

/-- What is on offer is what is still wanted. -/
theorem Fed.inputDst (h : c.Fed w) : ∃ mem, c.inputDst = .ok mem ∧ mem.length = c.remaining := by
  obtain ⟨options, destinations, state, staging, target, filled, pending, tensor⟩ := c
  have hrange (mem : Bytes) (hlen : mem.length = target) (hle : filled ≤ target) :
      (Exec.slice mem filled (target - filled) : Result Bytes) =
          .ok ((mem.drop filled).take (target - filled)) ∧
        ((mem.drop filled).take (target - filled)).length = target - filled := by
    refine ⟨Exec.slice_eq_ok.mpr ⟨by omega, rfl⟩, ?_⟩
    rw [List.length_take, List.length_drop]
    omega
  cases state with
  | descriptorPrefix =>
    obtain ⟨rfl, hlen, hle, -⟩ := h
    obtain ⟨hslice, hsize⟩ := hrange staging hlen hle
    refine ⟨_, ?_, hsize⟩
    show (if PREFIX_LEN < filled then Exec.panic else _) = _
    rw [if_neg (Nat.not_lt.mpr hle)]
    exact hslice
  | descriptor =>
    obtain ⟨hlen, hle, -⟩ := h
    obtain ⟨hslice, hsize⟩ := hrange staging hlen hle
    refine ⟨_, ?_, hsize⟩
    show (if target < filled then Exec.panic else _) = _
    rw [if_neg (Nat.not_lt.mpr hle)]
    exact hslice
  | buffer index =>
    obtain ⟨p, dest, handle, ⟨rfl, -, -⟩, -, hdest, hlen, -, hle, -⟩ := h
    obtain ⟨hslice, hsize⟩ := hrange dest hlen hle
    refine ⟨_, ?_, hsize⟩
    show (match (some p).bind Pending.dest with
      | some dest => Exec.slice dest filled (dest.length - filled)
      | none => .ok []) = _
    rw [Option.bind_some, hdest]
    show Exec.slice dest filled (dest.length - filled) = _
    rw [hlen]
    exact hslice
  | _ => exact ⟨[], rfl, rfl⟩

theorem take_overwrite {mem : Bytes} {i : ℕ} (h : i ≤ mem.length) :
    (overwrite mem i data).take i = mem.take i := by
  have hlen : (mem.take i).length = i := List.length_take_of_le h
  rw [overwrite, List.append_assoc, List.take_append_of_le_length (by omega), List.take_take,
    Nat.min_self]

/-- A write into what is on offer leaves the bytes that were reported alone. -/
theorem Fed.fillDst (h : c.Fed w) (hdata : data.length ≤ c.remaining) : (c.fillDst data).Fed w := by
  obtain ⟨options, destinations, state, staging, target, filled, pending, tensor⟩ := c
  cases state with
  | descriptorPrefix =>
    obtain ⟨rfl, hlen, hle, rfl⟩ := h
    have hroom : data.length ≤ PREFIX_LEN - filled := hdata
    have hfilled : filled ≤ PREFIX_LEN := hle
    have hsize : staging.length = PREFIX_LEN := hlen
    refine ⟨rfl, ?_, hle, (take_overwrite (by omega)).symm⟩
    exact (length_overwrite (show filled + data.length ≤ staging.length by omega)).trans hlen
  | descriptor =>
    obtain ⟨hlen, hle, rfl⟩ := h
    have hroom : data.length ≤ target - filled := hdata
    have hfilled : filled ≤ target := hle
    have hsize : staging.length = target := hlen
    refine ⟨?_, hle, (take_overwrite (by omega)).symm⟩
    exact (length_overwrite (show filled + data.length ≤ staging.length by omega)).trans hlen
  | buffer index =>
    obtain ⟨p, dest, handle, ⟨rfl, hdecoded, hsizes⟩, hhandle, hdest, hlen, htarget, hle, rfl⟩ := h
    have hroom : data.length ≤ target - filled := hdata
    have hfilled : filled ≤ target := hle
    have hsize : dest.length = target := hlen
    refine ⟨{ p with dest := some (overwrite dest filled data) }, overwrite dest filled data, handle,
      ⟨?_, hdecoded, hsizes⟩, hhandle, rfl, ?_, htarget, hle, ?_⟩
    · show some { p with dest := p.dest.map fun mem => overwrite mem filled data } = _
      rw [hdest, Option.map_some]
    · exact (length_overwrite (show filled + data.length ≤ dest.length by omega)).trans hlen
    · show _ = staging ++ p.buffers.flatten ++ (overwrite dest filled data).take filled
      rw [take_overwrite (by omega)]
  | _ => exact h

theorem take_slice {mem : Bytes} {i k : ℕ} (h : n ≤ k) :
    mem.take i ++ ((mem.drop i).take k).take n = mem.take (i + n) := by
  rw [List.take_add, List.take_take, Nat.min_eq_left h]

/-- The first bytes of what is on offer are reported. -/
theorem Fed.reported {mem : Bytes} (h : c.Fed w) (hmem : c.inputDst = .ok mem) (hpos : 0 < n)
    (hn : n ≤ c.remaining) : { c with filled := c.filled + n }.Fed (w ++ mem.take n) := by
  obtain ⟨options, destinations, state, staging, target, filled, pending, tensor⟩ := c
  cases state with
  | descriptorPrefix =>
    obtain ⟨rfl, hlen, hle, rfl⟩ := h
    have hroom : n ≤ PREFIX_LEN - filled := hn
    have hslice : (if PREFIX_LEN < filled then Exec.panic
      else Exec.slice staging filled (PREFIX_LEN - filled)) = .ok mem := hmem
    rw [if_neg (Nat.not_lt.mpr hle)] at hslice
    obtain ⟨-, rfl⟩ := Exec.slice_eq_ok.mp hslice
    exact ⟨rfl, hlen, show filled + n ≤ PREFIX_LEN by omega, take_slice hroom⟩
  | descriptor =>
    obtain ⟨hlen, hle, rfl⟩ := h
    have hroom : n ≤ target - filled := hn
    have hslice : (if target < filled then Exec.panic
      else Exec.slice staging filled (target - filled)) = .ok mem := hmem
    have hfilled : filled ≤ target := hle
    rw [if_neg (Nat.not_lt.mpr hle)] at hslice
    obtain ⟨-, rfl⟩ := Exec.slice_eq_ok.mp hslice
    exact ⟨hlen, show filled + n ≤ target by omega, take_slice hroom⟩
  | buffer index =>
    obtain ⟨p, dest, handle, ⟨rfl, hdecoded, hsizes⟩, hhandle, hdest, hlen, htarget, hle, rfl⟩ := h
    have hroom : n ≤ target - filled := hn
    have hfilled : filled ≤ target := hle
    have hsize : dest.length = target := hlen
    have hslice : (match (some p).bind Pending.dest with
      | some dest => Exec.slice dest filled (dest.length - filled)
      | none => .ok []) = .ok mem := hmem
    rw [Option.bind_some, hdest] at hslice
    obtain ⟨-, rfl⟩ := Exec.slice_eq_ok.mp hslice
    refine ⟨p, dest, handle, ⟨rfl, hdecoded, hsizes⟩, hhandle, hdest, hlen, htarget,
      show filled + n ≤ target by omega, ?_⟩
    rw [List.append_assoc]
    congr 1
    exact take_slice (by omega)
  | _ => exact absurd (Nat.lt_of_lt_of_le hpos hn) (Nat.lt_irrefl 0)

end Fed

/-! ### Transitions -/

/-- A transition keeps the bytes that have come, or is the end. -/
abbrev Keeps (w : Bytes) : Result Unit × StreamReaderCore A → Prop :=
  Leaves (fun _ c => c.Fed w) (fun _ c => c.Dead) True

section Transitions

theorem keeps_fail (e : Error) : Keeps w (c.fail e) := .inl rfl

theorem length_resize {m : ℕ} (h : data.length ≤ m) : (resize data m).length = m := by
  rw [resize, List.length_append, List.length_replicate, List.length_take]
  omega

theorem keeps_beginDescriptor (h : c.Fed w) (hs : c.state = .descriptorPrefix)
    (hfull : c.remaining = 0) : Keeps w c.beginDescriptor := by
  unfold Fed at h
  unfold remaining at hfull
  rw [hs] at h hfull
  obtain ⟨htarget, hlen, hle, rfl⟩ := h
  dsimp only at hfull
  unfold beginDescriptor
  dsimp only
  split
  · exact keeps_fail _
  · next hmin =>
    split
    · exact keeps_fail _
    · have hfilled : c.filled = c.staging.length := by omega
      refine ⟨length_resize (by omega), ?_, ?_⟩
      · show c.filled ≤ lengthField c.staging
        omega
      · show c.staging.take c.filled = (resize c.staging (lengthField c.staging)).take c.filled
        rw [resize, hfilled, List.take_of_length_le (show c.staging.length ≤ lengthField c.staging by
          omega), List.take_left, List.take_length]

theorem keeps_completeTensor {p : Pending} (hp : c.Gathered p p.descriptor.buffers.length)
    (hw : w = c.staging ++ p.buffers.flatten) : Keeps w c.completeTensor := by
  unfold completeTensor
  rw [hp.pending]
  refine ⟨⟨p.descriptor, p.buffers⟩, rfl, ⟨hp.decoded, ?_⟩, hw⟩
  have hsizes := hp.sizes
  rwa [List.take_length] at hsizes

end Transitions

/-- The contract of an allocator that this takes: memory of the size of the request. -/
def SizedAlloc (A : Type) [DestinationAlloc A] : Prop :=
  ∀ (request : DestinationRequest) (a : A) (dest : Bytes),
    (DestinationAlloc.allocate request a).1 = .ok dest → dest.length = request.byteSize.toNat

theorem sizedAlloc_of_lawful [DestinationAlloc A] (hA : LawfulAlloc A) : SizedAlloc A := by
  intro request a dest hdest
  rw [hA.zeroed request a dest hdest, List.length_replicate]

section Allocating

section Destinations
variable [DestinationAlloc A]

theorem keeps_beginBuffer (hA : SizedAlloc A) {p : Pending} (hp : c.Gathered p index)
    (hw : w = c.staging ++ p.buffers.flatten) : Keeps w (c.beginBuffer index) := by
  unfold beginBuffer
  split
  · exact keeps_fail _
  · next handle hhandle =>
    have hget : p.descriptor.buffers[index]? = some handle := by
      rw [bufferHandle, hp.pending] at hhandle
      exact hhandle
    split
    · exact keeps_fail _
    · split
      · exact keeps_fail _
      · split
        · next e destinations _ =>
          cases e with
          | error e => exact .inl rfl
          | panic => exact trivial
        · next dest destinations halloc =>
          rw [hp.pending]
          have hlen := hA _ _ dest (congrArg Prod.fst halloc)
          refine ⟨{ p with dest := some dest }, dest, handle, ⟨rfl, hp.decoded, hp.sizes⟩, hget, rfl,
            hlen, rfl, Nat.zero_le _, ?_⟩
          rw [hw]
          exact (List.append_nil _).symm

theorem keeps_decodeDescriptor (hA : SizedAlloc A) (h : c.Fed w) (hs : c.state = .descriptor)
    (hfull : c.remaining = 0) : Keeps w c.decodeDescriptor := by
  unfold Fed at h
  unfold remaining at hfull
  rw [hs] at h hfull
  obtain ⟨hlen, hle, rfl⟩ := h
  dsimp only at hfull
  have hfilled : c.filled = c.staging.length := by omega
  unfold decodeDescriptor
  split
  · next e _ =>
    cases e with
    | error e => exact .inl rfl
    | panic => exact trivial
  · next d hd =>
    have hdecoded := Exec.mapError_eq_ok.mp hd
    have hw : c.staging.take c.filled = c.staging ++ ([] : List Bytes).flatten := by
      rw [hfilled, List.take_length]
      exact (List.append_nil _).symm
    dsimp only
    split
    · next hnone =>
      refine keeps_completeTensor (p := ⟨d, [], none⟩) ⟨rfl, hdecoded, ?_⟩ hw
      rw [List.take_length, List.length_eq_zero_iff.mp hnone]
      rfl
    · exact keeps_beginBuffer hA (p := ⟨d, [], none⟩) ⟨rfl, hdecoded, rfl⟩ hw

theorem keeps_finishBuffer (hA : SizedAlloc A) (h : c.Fed w) (hs : c.state = .buffer index)
    (hfull : c.remaining = 0) : Keeps w (c.finishBuffer index) := by
  unfold Fed at h
  unfold remaining at hfull
  rw [hs] at h hfull
  obtain ⟨p, dest, handle, hp, hhandle, hdest, hlen, htarget, hle, rfl⟩ := h
  dsimp only at hfull
  obtain ⟨hlt, hget⟩ := List.getElem?_eq_some_iff.mp hhandle
  have hsizes : (p.buffers ++ [dest]).map List.length =
      (p.descriptor.buffers.take (index + 1)).map fun h => h.byteSize.toNat := by
    rw [List.take_add_one, hhandle, List.map_append, List.map_append, hp.sizes, List.map_singleton,
      hlen, htarget]
    rfl
  have hw : c.staging ++ p.buffers.flatten ++ dest.take c.filled =
      c.staging ++ (p.buffers ++ [dest]).flatten := by
    rw [List.take_of_length_le (by omega), List.flatten_append, List.append_assoc,
      List.flatten_singleton]
  unfold finishBuffer
  rw [hp.pending]
  dsimp only
  rw [hdest]
  dsimp only
  split
  · exact keeps_beginBuffer hA (p := ⟨p.descriptor, p.buffers ++ [dest], none⟩)
      ⟨rfl, hp.decoded, hsizes⟩ hw
  · next hlast =>
    have hindex : p.descriptor.buffers.length = index + 1 := by omega
    rw [← hindex] at hsizes
    exact keeps_completeTensor (p := ⟨p.descriptor, p.buffers ++ [dest], none⟩)
      ⟨rfl, hp.decoded, hsizes⟩ hw

end Destinations

/-- What a step leaves when the machine goes on. -/
def Stepped (w : Bytes) (r : ReadStep) (c : StreamReaderCore A) : Prop :=
  c.Fed w ∧ ¬ c.Dead ∧ ∀ len, r = .input len → len = c.remaining ∧ 0 < len

theorem stepped_of_input (h : c.Fed w) (hlive : ¬ c.Dead) (hpos : ¬ c.remaining = 0) :
    Stepped w (.input c.remaining) c := by
  refine ⟨h, hlive, ?_⟩
  intro len hlen
  cases hlen
  exact ⟨rfl, Nat.pos_of_ne_zero hpos⟩

theorem not_dead {state : ReadState} (hs : c.state = state) (hfailed : state ≠ .failed)
    (hunusable : ∀ reason, state ≠ .unusable reason) : ¬ c.Dead := by
  intro hdead
  rcases hdead with hs' | ⟨reason, hs'⟩
  · exact hfailed (hs.symm.trans hs')
  · exact hunusable reason (hs.symm.trans hs')

variable [DestinationAlloc A]

/-- A transition that fails is the result of the step. -/
theorem step_of_error {x : StreamReaderCore A} {e : Fault Error} (hfull : c.remaining = 0)
    (h : (c.state = .descriptorPrefix ∧ c.beginDescriptor = (.error e, x)) ∨
      (c.state = .descriptor ∧ c.decodeDescriptor = (.error e, x)) ∨
      ∃ index, c.state = .buffer index ∧ c.finishBuffer index = (.error e, x)) :
    c.step = (.error e, x) := by
  rw [step]
  rcases h with ⟨hs, h⟩ | ⟨hs, h⟩ | ⟨index, hs, h⟩
  all_goals
    split
    all_goals
      rename_i hs'
      rw [hs] at hs'
      cases hs'
    rw [if_pos hfull]
    split <;> simp_all

theorem step_failed (hs : c.state = .failed) : c.step = (Exec.fail .coreFailed, c) := by
  unfold step
  split <;> simp_all

theorem step_unusable {reason : Unusable} (hs : c.state = .unusable reason) :
    c.step = (Exec.fail (.coreUnusable reason), c) := by
  unfold step
  split <;> simp_all

theorem step_of_dead (h : c.Dead) : ∃ e, c.step = (Exec.fail e, c) := by
  rcases h with hs | ⟨reason, hs⟩
  · exact ⟨_, step_failed hs⟩
  · exact ⟨_, step_unusable hs⟩

omit [DestinationAlloc A] in
theorem leaves_of_keeps {x : StreamReaderCore A} {e : Fault Error} (h : Keeps w (.error e, x)) :
    Leaves (Stepped w) (fun _ c => c.Dead) True (.error e, x) := by
  cases e with
  | error e => exact h
  | panic => exact trivial

/-- A step asks for what is on offer, or says what the state is. -/
theorem step_keeps (hA : SizedAlloc A) (h : c.Fed w) :
    Leaves (Stepped w) (fun _ c => c.Dead) True c.step := by
  induction c using StreamReaderCore.step.induct with
  | case1 c reason hs =>
    obtain ⟨e, he⟩ := step_of_dead (.inr ⟨reason, hs⟩)
    rw [he]
    exact .inr ⟨reason, hs⟩
  | case2 c hs =>
    obtain ⟨e, he⟩ := step_of_dead (.inl hs)
    rw [he]
    exact .inl hs
  | case3 c hs =>
    rw [step_finished hs]
    exact ⟨h, not_dead hs nofun nofun, nofun⟩
  | case4 c hs =>
    rw [step_tensorReady hs]
    exact ⟨h, not_dead hs nofun nofun, nofun⟩
  | case5 c hs hfull u c' hbegin ih =>
    have hkeeps := keeps_beginDescriptor h hs hfull
    rw [hbegin] at hkeeps
    rw [step_descriptorPrefix hs hfull hbegin]
    exact ih hkeeps
  | case6 c hs hfull e c' hbegin =>
    have hkeeps := keeps_beginDescriptor h hs hfull
    rw [hbegin] at hkeeps
    rw [step_of_error hfull (.inl ⟨hs, hbegin⟩)]
    exact leaves_of_keeps hkeeps
  | case7 c hs hpos =>
    rw [step_of_remaining (Nat.pos_of_ne_zero hpos)]
    exact stepped_of_input h (not_dead hs nofun nofun) hpos
  | case8 c hs hfull u c' hdecode ih =>
    have hkeeps := keeps_decodeDescriptor hA h hs hfull
    rw [hdecode] at hkeeps
    rw [step_descriptor hs hfull hdecode]
    exact ih hkeeps
  | case9 c hs hfull e c' hdecode =>
    have hkeeps := keeps_decodeDescriptor hA h hs hfull
    rw [hdecode] at hkeeps
    rw [step_of_error hfull (.inr (.inl ⟨hs, hdecode⟩))]
    exact leaves_of_keeps hkeeps
  | case10 c hs hpos =>
    rw [step_of_remaining (Nat.pos_of_ne_zero hpos)]
    exact stepped_of_input h (not_dead hs nofun nofun) hpos
  | case11 c index hs hfull u c' hfinish ih =>
    have hkeeps := keeps_finishBuffer hA h hs hfull
    rw [hfinish] at hkeeps
    rw [step_buffer index hs hfull hfinish]
    exact ih hkeeps
  | case12 c index hs hfull e c' hfinish =>
    have hkeeps := keeps_finishBuffer hA h hs hfull
    rw [hfinish] at hkeeps
    rw [step_of_error hfull (.inr (.inr ⟨index, hs, hfinish⟩))]
    exact leaves_of_keeps hkeeps
  | case13 c index hs hpos =>
    rw [step_of_remaining (Nat.pos_of_ne_zero hpos)]
    exact stepped_of_input h (not_dead hs nofun nofun) hpos

end Allocating
end StreamReaderCore

/-! ### The life of a core -/

inductive ReaderAction where
  | step
  | write (data : Bytes)
  | report (n : ℕ)
  | takeTensor
  | markUnusable

/-- A core with the bytes that were written to what it offered and reported, the tensors that
were taken with the bytes of their descriptors, and whether a step has returned an error. -/
structure ReaderLife (A : Type) where
  core : StreamReaderCore A
  fed : Bytes
  taken : List (Bytes × StreamTensor)
  erred : Bool

namespace ReaderLife
variable {A : Type}

def start (options : StreamReaderOptions) (a : A) : ReaderLife A :=
  ⟨.withDestinations options a, [], [], false⟩

/-- The bytes of the tensors that were taken. -/
def delivered (s : ReaderLife A) : Bytes := s.taken.flatMap fun p => p.1 ++ p.2.buffers.flatten

/-- What is on offer. -/
def offer (s : ReaderLife A) : Bytes := s.core.inputDst.toOption.getD []

variable [DestinationAlloc A]

/-- One call. A write stays within what is on offer, and a call that panics is the end. -/
def act (s : ReaderLife A) : ReaderAction → Option (ReaderLife A)
  | .step =>
      match s.core.step with
      | (.ok _, core) => some { s with core }
      | (.error (.error _), core) => some { s with core, erred := true }
      | (.error .panic, _) => none
  | .write data => some { s with core := s.core.fillDst (data.take s.offer.length) }
  | .report n =>
      match s.core.reportFilled n with
      | (.ok _, core) => some { s with core, fed := s.fed ++ s.offer.take n }
      | (.error _, core) => some { s with core }
  | .takeTensor =>
      match s.core.takeTensor with
      | (some t, core) => some { s with core, taken := s.taken ++ [(s.core.staging, t)] }
      | (none, core) => some { s with core }
  | .markUnusable => some { s with core := s.core.markUnusable }

def run (s : ReaderLife A) (actions : List ReaderAction) : Option (ReaderLife A) :=
  actions.foldlM act s

/-- What holds of a core at every moment. -/
structure Sound (s : ReaderLife A) : Prop where
  fed : ∃ w, s.core.Fed w ∧ s.fed = s.delivered ++ w
  taken : ∀ p ∈ s.taken, p.2.Whole p.1
  erred : s.erred = true → s.core.Dead

section Sound
variable {s t : ReaderLife A} {n : ℕ}

omit [DestinationAlloc A] in
theorem sound_start (options : StreamReaderOptions) (a : A) : (start options a).Sound := by
  refine ⟨⟨[], StreamReaderCore.fed_start options a, rfl⟩, ?_, nofun⟩
  intro p hp
  cases hp

theorem Sound.step (hA : StreamReaderCore.SizedAlloc A) (h : s.Sound)
    (hact : s.act .step = some t) : t.Sound := by
  obtain ⟨w, hfed, heq⟩ := h.fed
  have hkeeps := StreamReaderCore.step_keeps hA hfed
  unfold ReaderLife.act at hact
  dsimp only at hact
  rcases hstep : s.core.step with ⟨(e | _) | r, core⟩
  · rw [hstep] at hact hkeeps
    cases hact
    exact ⟨⟨w, StreamReaderCore.fed_of_dead hkeeps, heq⟩, h.taken, fun _ => hkeeps⟩
  · rw [hstep] at hact
    cases hact
  · rw [hstep] at hact hkeeps
    cases hact
    refine ⟨⟨w, hkeeps.1, heq⟩, h.taken, ?_⟩
    intro herred
    obtain ⟨e, he⟩ := StreamReaderCore.step_of_dead (h.erred herred)
    rw [he] at hstep
    cases hstep

omit [DestinationAlloc A] in
/-- What a report does, by the state it finds. -/
theorem reportFilled_cases {c : StreamReaderCore A} {w : Bytes} (h : c.Fed w) (n : ℕ) :
    (0 < n ∧ n ≤ c.remaining ∧ c.reportFilled n = (.ok (), { c with filled := c.filled + n })) ∨
    (n = 0 ∧ w = [] ∧ ¬ c.Dead ∧ c.reportFilled n = (.ok (), { c with state := .finished })) ∨
    ∃ e core, c.reportFilled n = (Exec.fail e, core) ∧ (core = c ∨ core.Dead) := by
  have hcount : (0 < n ∧ n ≤ c.remaining ∧ ¬ n = 0 ∧ ¬ c.remaining < n) ∨ n = 0 ∨
      (¬ n = 0 ∧ c.remaining < n) := by omega
  unfold StreamReaderCore.reportFilled
  split
  · exact .inr (.inr ⟨_, c, rfl, .inl rfl⟩)
  · exact .inr (.inr ⟨_, c, rfl, .inl rfl⟩)
  · exact .inr (.inr ⟨_, c, rfl, .inl rfl⟩)
  · exact .inr (.inr ⟨_, c, rfl, .inl rfl⟩)
  · rcases hcount with ⟨hpos, hle, hne, hnot⟩ | hzero | ⟨hne, hlt⟩
    · rw [if_neg hne, if_neg hnot]
      exact .inl ⟨hpos, hle, rfl⟩
    · rw [if_pos hzero]
      by_cases hclean : c.state = .descriptorPrefix ∧ c.filled = 0
      · rw [if_pos hclean]
        obtain ⟨hs, hfilled⟩ := hclean
        unfold StreamReaderCore.Fed at h
        rw [hs, hfilled] at h
        exact .inr (.inl ⟨hzero, h.2.2.2, StreamReaderCore.not_dead hs nofun nofun, rfl⟩)
      · rw [if_neg hclean]
        exact .inr (.inr ⟨_, _, rfl, .inr (.inl rfl)⟩)
    · rw [if_neg hne, if_pos hlt]
      exact .inr (.inr ⟨_, _, rfl, .inr (.inr ⟨_, rfl⟩)⟩)

omit [DestinationAlloc A] in
theorem length_offer {w : Bytes} (h : s.core.Fed w) :
    s.core.inputDst = .ok s.offer ∧ s.offer.length = s.core.remaining := by
  obtain ⟨mem, hmem, hlen⟩ := h.inputDst
  have hoffer : s.offer = mem := by
    rw [offer, hmem]
    rfl
  rw [hoffer]
  exact ⟨hmem, hlen⟩

theorem Sound.report (h : s.Sound) (hact : s.act (.report n) = some t) : t.Sound := by
  obtain ⟨w, hfed, heq⟩ := h.fed
  obtain ⟨hmem, -⟩ := length_offer hfed
  unfold ReaderLife.act at hact
  dsimp only at hact
  rcases reportFilled_cases hfed n with ⟨hpos, hle, hreport⟩ | ⟨rfl, rfl, hlive, hreport⟩ |
    ⟨e, core, hreport, hcore⟩
  · rw [hreport] at hact
    cases hact
    refine ⟨⟨w ++ s.offer.take n, hfed.reported hmem hpos hle, ?_⟩, h.taken, h.erred⟩
    show s.fed ++ s.offer.take n = s.delivered ++ _
    rw [heq, List.append_assoc]
  · rw [hreport] at hact
    cases hact
    refine ⟨⟨[], rfl, ?_⟩, h.taken, fun herred => absurd (h.erred herred) hlive⟩
    show s.fed ++ s.offer.take 0 = s.delivered ++ []
    rw [heq, List.take_zero, List.append_nil]
  · rw [hreport] at hact
    cases hact
    rcases hcore with rfl | hdead
    · exact h
    · exact ⟨⟨w, StreamReaderCore.fed_of_dead hdead, heq⟩, h.taken, fun _ => hdead⟩

theorem Sound.write (h : s.Sound) {data : Bytes} (hact : s.act (.write data) = some t) :
    t.Sound := by
  obtain ⟨w, hfed, heq⟩ := h.fed
  obtain ⟨-, hlen⟩ := length_offer hfed
  cases hact
  refine ⟨⟨w, hfed.fillDst ?_, heq⟩, h.taken, ?_⟩
  · rw [← hlen]
    exact List.length_take_le _ _
  · intro herred
    unfold StreamReaderCore.fillDst
    rcases h.erred herred with hs | ⟨reason, hs⟩
    · rw [hs]
      exact .inl hs
    · rw [hs]
      exact .inr ⟨reason, hs⟩

theorem Sound.takeTensor (h : s.Sound) (hact : s.act .takeTensor = some t) : t.Sound := by
  obtain ⟨w, hfed, heq⟩ := h.fed
  unfold ReaderLife.act at hact
  dsimp only at hact
  unfold StreamReaderCore.takeTensor at hact
  by_cases hs : s.core.state = .tensorReady
  · rw [if_pos hs] at hact
    unfold StreamReaderCore.Fed at hfed
    rw [hs] at hfed
    obtain ⟨tensor, htensor, hwhole, rfl⟩ := hfed
    rw [htensor] at hact
    cases hact
    refine ⟨⟨[], ⟨rfl, rfl, Nat.zero_le _, rfl⟩, ?_⟩, ?_, ?_⟩
    · show s.fed = delivered { s with taken := s.taken ++ [(s.core.staging, tensor)] } ++ []
      rw [List.append_nil, heq, delivered, delivered, List.flatMap_append, List.flatMap_singleton]
    · intro p hp
      rcases List.mem_append.mp hp with hp | hp
      · exact h.taken p hp
      · obtain rfl := List.mem_singleton.mp hp
        exact hwhole
    · intro herred
      exact absurd (h.erred herred) (StreamReaderCore.not_dead hs nofun nofun)
  · rw [if_neg hs] at hact
    cases hact
    exact h

theorem Sound.act (hA : StreamReaderCore.SizedAlloc A) (h : s.Sound) {a : ReaderAction}
    (hact : s.act a = some t) : t.Sound := by
  cases a with
  | step => exact h.step hA hact
  | write data => exact h.write hact
  | report n => exact h.report hact
  | takeTensor => exact h.takeTensor hact
  | markUnusable =>
    obtain ⟨w, -, heq⟩ := h.fed
    cases hact
    have hdead : s.core.markUnusable.Dead := .inr ⟨_, rfl⟩
    exact ⟨⟨w, StreamReaderCore.fed_of_dead hdead, heq⟩, h.taken, fun _ => hdead⟩

theorem Sound.run (hA : StreamReaderCore.SizedAlloc A) (h : s.Sound) {actions : List ReaderAction}
    (hrun : s.run actions = some t) : t.Sound := by
  induction actions generalizing s with
  | nil =>
    cases hrun
    exact h
  | cons a actions ih =>
    rw [ReaderLife.run, List.foldlM_cons] at hrun
    obtain ⟨u, hact, hrest⟩ := Option.bind_eq_some_iff.mp hrun
    exact ih (h.act hA hact) hrest

end Sound

/-- Whatever is called on a reader, in whatever order: what it asks for is what it offers, and it
asks for something; the tensors taken are whole, and their bytes are the first of those that were
reported; and nothing follows a step that has failed. -/
theorem run_safe (hA : StreamReaderCore.SizedAlloc A) (options : StreamReaderOptions) (a : A)
    (actions : List ReaderAction) {s : ReaderLife A}
    (hrun : (start options a).run actions = some s) :
    (∀ len core, s.core.step = (.ok (.input len), core) →
      0 < len ∧ ∃ mem, core.inputDst = .ok mem ∧ mem.length = len) ∧
    (∀ p ∈ s.taken, p.2.Whole p.1) ∧ s.delivered <+: s.fed ∧
    (s.erred = true → (∃ e, s.core.step = (Exec.fail e, s.core)) ∧ s.core.takeTensor.1 = none) := by
  have hsound := (sound_start options a).run hA hrun
  obtain ⟨w, hfed, heq⟩ := hsound.fed
  refine ⟨?_, hsound.taken, ⟨w, heq.symm⟩, ?_⟩
  · intro len core hstep
    have hkeeps := StreamReaderCore.step_keeps hA hfed
    rw [hstep] at hkeeps
    obtain ⟨hfed', -, hinput⟩ := hkeeps
    obtain ⟨rfl, hpos⟩ := hinput len rfl
    exact ⟨hpos, hfed'.inputDst⟩
  · intro herred
    refine ⟨StreamReaderCore.step_of_dead (hsound.erred herred), ?_⟩
    unfold StreamReaderCore.takeTensor
    rw [if_neg]
    intro hs
    exact StreamReaderCore.not_dead hs nofun nofun (hsound.erred herred)

end ReaderLife

namespace StreamReaderCore
variable {A : Type} [DestinationAlloc A]

/-- A step with a bound on its turns, which evaluates. -/
def stepWithin : ℕ → StreamReaderCore A → Option (Result ReadStep × StreamReaderCore A)
  | 0, _ => none
  | n + 1, c =>
      match c.state with
      | .unusable reason => some (Exec.fail (.coreUnusable reason), c)
      | .failed => some (Exec.fail .coreFailed, c)
      | .finished => some (.ok .finished, c)
      | .tensorReady => some (.ok .tensor, c)
      | .descriptorPrefix =>
          if 0 < c.remaining then some (.ok (.input c.remaining), c)
          else if c.beginDescriptor.1 = .ok () then stepWithin n c.beginDescriptor.2 else none
      | .descriptor =>
          if 0 < c.remaining then some (.ok (.input c.remaining), c)
          else if c.decodeDescriptor.1 = .ok () then stepWithin n c.decodeDescriptor.2 else none
      | .buffer index =>
          if 0 < c.remaining then some (.ok (.input c.remaining), c)
          else if (c.finishBuffer index).1 = .ok () then stepWithin n (c.finishBuffer index).2
          else none

theorem step_of_stepWithin {n : ℕ} {c : StreamReaderCore A}
    {x : Result ReadStep × StreamReaderCore A} (h : stepWithin n c = some x) : c.step = x := by
  induction n generalizing c with
  | zero => cases h
  | succ n ih =>
    have hpair {α β : Type} {p : α × β} {a : α} (h : p.1 = a) : p = (a, p.2) := by rw [← h]
    rw [stepWithin] at h
    cases hs : c.state with
    | unusable reason =>
      simp only [hs, Option.some.injEq] at h
      rw [← h, step_unusable hs]
    | failed =>
      simp only [hs, Option.some.injEq] at h
      rw [← h, step_failed hs]
    | finished =>
      simp only [hs, Option.some.injEq] at h
      rw [← h, step_finished hs]
    | tensorReady =>
      simp only [hs, Option.some.injEq] at h
      rw [← h, step_tensorReady hs]
    | descriptorPrefix =>
      simp only [hs] at h
      split at h
      · next hpos => rw [step_of_remaining hpos, Option.some.inj h]
      · next hfull =>
        split at h
        · next hok => rw [step_descriptorPrefix hs (by omega) (hpair hok), ih h]
        · cases h
    | descriptor =>
      simp only [hs] at h
      split at h
      · next hpos => rw [step_of_remaining hpos, Option.some.inj h]
      · next hfull =>
        split at h
        · next hok => rw [step_descriptor hs (by omega) (hpair hok), ih h]
        · cases h
    | buffer index =>
      simp only [hs] at h
      split at h
      · next hpos => rw [step_of_remaining hpos, Option.some.inj h]
      · next hfull =>
        split at h
        · next hok => rw [step_buffer index hs (by omega) (hpair hok), ih h]
        · cases h

end StreamReaderCore

namespace ReaderLife
variable {A : Type} [DestinationAlloc A]

/-- What a step leaves. -/
def stepped (s : ReaderLife A) : Result ReadStep × StreamReaderCore A → Option (ReaderLife A)
  | (.ok _, core) => some { s with core }
  | (.error (.error _), core) => some { s with core, erred := true }
  | (.error .panic, _) => none

theorem act_step (s : ReaderLife A) : s.act .step = s.stepped s.core.step := by
  unfold act
  dsimp only
  rcases s.core.step with ⟨(_ | _) | _, _⟩ <;> rfl

/-- A run whose steps take few turns, which evaluates. -/
def runWithin (n : ℕ) : ReaderLife A → List ReaderAction → Option (ReaderLife A)
  | s, [] => some s
  | s, .step :: actions =>
      (s.core.stepWithin n).bind fun x => (s.stepped x).bind fun s' => runWithin n s' actions
  | s, a :: actions => (s.act a).bind fun s' => runWithin n s' actions

theorem run_of_runWithin {n : ℕ} {actions : List ReaderAction} {s s' : ReaderLife A}
    (h : runWithin n s actions = some s') : s.run actions = some s' := by
  induction actions generalizing s with
  | nil => exact h
  | cons a actions ih =>
    have hcons : ∃ d, s.act a = some d ∧ runWithin n d actions = some s' := by
      cases a with
      | step =>
        obtain ⟨x, hx, h⟩ := Option.bind_eq_some_iff.mp h
        obtain ⟨d, hd, h⟩ := Option.bind_eq_some_iff.mp h
        refine ⟨d, ?_, h⟩
        rw [act_step, StreamReaderCore.step_of_stepWithin hx, hd]
      | _ => exact Option.bind_eq_some_iff.mp h
    obtain ⟨d, hact, hrest⟩ := hcons
    rw [run, List.foldlM_cons]
    show (s.act a).bind _ = _
    rw [hact]
    exact ih hrest

/-- A descriptor and its buffer arrive in pieces, the tensor is taken, and then more is reported than
was asked for. -/
def tensorCalls : List ReaderAction :=
  [.step, .write ((workedExampleBytes 0 61).take 10), .report 10, .step,
    .write ((workedExampleBytes 0 61).drop 10), .report 51, .step, .write (List.replicate 100 7), .report 100, .step,
    .write (List.replicate 92 7), .report 92, .step, .takeTensor, .report 11]

theorem run_safe_tensor : ∃ s, (start .default SystemDestinations.mk).run tensorCalls = some s ∧
    s.taken = [(workedExampleBytes 0 61, workedTensor)] ∧
    (∀ len core, s.core.step = (.ok (.input len), core) →
      0 < len ∧ ∃ mem, core.inputDst = .ok mem ∧ mem.length = len) ∧
    (∀ p ∈ s.taken, p.2.Whole p.1) ∧ s.delivered <+: s.fed ∧
    (s.erred = true → (∃ e, s.core.step = (Exec.fail e, s.core)) ∧ s.core.takeTensor.1 = none) := by
  have hA := StreamReaderCore.sizedAlloc_of_lawful lawfulAlloc_systemDestinations
  have hwithin : ((runWithin 2 (start .default SystemDestinations.mk) tensorCalls).map
      ReaderLife.taken) = some [(workedExampleBytes 0 61, workedTensor)] := by decide +kernel
  obtain ⟨s, hs, htaken⟩ := Option.map_eq_some_iff.mp hwithin
  have hrun := run_of_runWithin hs
  exact ⟨s, hrun, htaken, run_safe hA .default .mk tensorCalls hrun⟩

end ReaderLife
end Hurray.Stream
