import Hurray.Descriptor.DecodeSafety
import Hurray.File.ReaderLife
import Hurray.File.Submission
import Hurray.File.WalkAgreement

/-!
The file reader on files and drivers that nobody vouches for. A call panics where an
offset that the file claims leaves the words of the machine, and nowhere else.
-/
namespace Hurray.File
open Hurray.Base Hurray.Core Hurray.Descriptor Hurray.Stream
open CompositeAssembler (Sharded)

/-! ### The sections -/

section Sections

theorem safe_readBytesSlice (len : ℕ) : Reader.Safe (readBytesSlice len) := by
  intro bytes
  unfold readBytesSlice
  split
  · exact Exec.fail_ne_panic
  · exact Exec.ok_ne_panic

theorem safe_readU16 : Reader.Safe readU16 := by
  intro bytes
  unfold readU16
  split
  · exact Exec.fail_ne_panic
  · exact Exec.ok_ne_panic

theorem safe_readU32 : Reader.Safe readU32 := by
  intro bytes
  unfold readU32
  split
  · exact Exec.fail_ne_panic
  · exact Exec.ok_ne_panic

theorem safe_readU64 : Reader.Safe readU64 := by
  intro bytes
  unfold readU64
  split
  · exact Exec.fail_ne_panic
  · exact Exec.ok_ne_panic

theorem safe_readByte : Reader.Safe readByte := by
  apply Reader.safe_bind (safe_readBytesSlice 1)
  intro slice hslice
  obtain ⟨bytes, rest, hread⟩ := hslice
  apply Reader.safe_lift
  unfold readBytesSlice at hread
  split at hread
  · cases hread
  · next hlen =>
    cases hread
    apply Exec.safe_index
    rw [List.length_take]
    omega

theorem safe_readText (len : ℕ) (e : Error) : Reader.Safe (readText len e) :=
  Reader.safe_bind (safe_readBytesSlice len) fun _ _ => Reader.safe_lift Exec.orFail_ne_panic

theorem safe_parseEntries (count : ℕ) (seen : List String) :
    Reader.Safe (parseEntries count seen) := by
  induction count generalizing seen with
  | zero => exact Reader.safe_pure
  | succ count ih =>
    exact Reader.safe_bind safe_readU16 fun nameLen _ =>
      Reader.safe_bind Reader.safe_reject fun _ _ =>
      Reader.safe_bind (safe_readText nameLen.toNat _) fun name _ =>
      Reader.safe_bind Reader.safe_reject fun _ _ =>
      Reader.safe_bind safe_readU64 fun _ _ =>
      Reader.safe_bind safe_readU32 fun _ _ =>
      Reader.safe_bind safe_readU64 fun _ _ =>
      Reader.safe_bind safe_readU64 fun _ _ =>
      Reader.safe_bind safe_readU32 fun _ _ =>
      Reader.safe_bind (ih (name :: seen)) fun _ _ => Reader.safe_pure

theorem parseIndex_safe (bytes : Bytes) : (parseIndex bytes).Safe := by
  apply Exec.safe_bind (safe_readU64 bytes)
  intro x _
  exact Exec.safe_bind (safe_parseEntries x.1.toNat [] x.2) fun _ _ => Exec.ok_ne_panic

theorem safe_parseKvScalar (tag : UInt8) : Reader.Safe (parseKvScalar tag) := by
  unfold parseKvScalar
  split_ifs
  · exact Reader.safe_bind safe_readU32 fun len _ =>
      Reader.safe_bind (safe_readText len.toNat _) fun _ _ => Reader.safe_pure
  · exact Reader.safe_bind safe_readU64 fun _ _ => Reader.safe_pure
  · exact Reader.safe_bind safe_readU64 fun _ _ => Reader.safe_pure
  · exact Reader.safe_bind safe_readU64 fun _ _ => Reader.safe_pure
  · exact Reader.safe_bind safe_readByte fun _ _ =>
      Reader.safe_bind Reader.safe_reject fun _ _ => Reader.safe_pure
  · exact Reader.safe_bind safe_readU32 fun len _ =>
      Reader.safe_bind (safe_readBytesSlice len.toNat) fun _ _ => Reader.safe_pure
  · exact Reader.safe_lift Exec.fail_ne_panic

theorem safe_parseKvValue (tag : UInt8) : Reader.Safe (parseKvValue tag) := by
  unfold parseKvValue
  split
  · exact Reader.safe_bind safe_readByte fun elemTag _ =>
      Reader.safe_bind Reader.safe_reject fun _ _ =>
      Reader.safe_bind safe_readU32 fun count _ =>
      Reader.safe_bind (Reader.safe_many (safe_parseKvScalar elemTag) count.toNat) fun _ _ =>
      Reader.safe_pure
  · exact safe_parseKvScalar tag

theorem safe_parseKvEntries (count : ℕ) (seen : List String) :
    Reader.Safe (parseKvEntries count seen) := by
  induction count generalizing seen with
  | zero => exact Reader.safe_pure
  | succ count ih =>
    exact Reader.safe_bind safe_readU16 fun keyLen _ =>
      Reader.safe_bind Reader.safe_reject fun _ _ =>
      Reader.safe_bind (safe_readText keyLen.toNat _) fun key _ =>
      Reader.safe_bind Reader.safe_reject fun _ _ =>
      Reader.safe_bind safe_readByte fun tag _ =>
      Reader.safe_bind (safe_parseKvValue tag) fun _ _ =>
      Reader.safe_bind (ih (key :: seen)) fun _ _ => Reader.safe_pure

theorem parseKv_safe (bytes : Bytes) : (parseKv bytes).Safe := by
  apply Exec.safe_bind (safe_readU32 bytes)
  intro x _
  exact Exec.safe_bind (safe_parseKvEntries x.1.toNat [] x.2) fun _ _ => Exec.ok_ne_panic

end Sections

/-! ### The header and the trailer -/

section Opening
variable {bytes : Bytes}

theorem headerFlags_safe (h : bytes.length = 64) : (headerFlags bytes).Safe :=
  Exec.safe_bind (Exec.safe_slice (by omega)) fun _ _ =>
  Exec.safe_bind Exec.reject_ne_panic fun _ _ =>
  Exec.safe_bind (Exec.safe_index (by omega)) fun _ _ =>
  Exec.safe_bind Exec.reject_ne_panic fun _ _ =>
  Exec.safe_bind (Exec.safe_slice (by omega)) fun _ _ =>
  Exec.safe_bind Exec.reject_ne_panic fun _ _ => Exec.ok_ne_panic

theorem headerAlignment_safe (h : bytes.length = 64) : (headerAlignment bytes).Safe :=
  Exec.safe_bind (Exec.safe_slice (by omega)) fun _ _ =>
  Exec.safe_bind Exec.reject_ne_panic fun _ _ => Exec.ok_ne_panic

theorem headerAlignment_ne_zero {alignment : UInt32} (h : headerAlignment bytes = .ok alignment) :
    alignment.toUInt64 ≠ 0 := by
  obtain ⟨field, -, hcheck⟩ := Exec.bind_eq_ok.mp h
  obtain ⟨_, hpow, halignment⟩ := Exec.bind_eq_ok.mp hcheck
  obtain rfl := Except.ok.inj halignment
  obtain ⟨k, -, hk⟩ := not_not.mp fun hnot => Exec.reject_eq_ok.mp hpow (.inl hnot)
  intro hzero
  have hnat : (u32OfBytes field).toNat = 0 := congrArg UInt64.toNat hzero
  have hpos : 0 < 2 ^ k := Nat.two_pow_pos k
  omega

theorem readTrailer_safe (h : bytes.length = 40) : (readTrailer bytes).Safe :=
  Exec.safe_bind (Exec.safe_slice (by omega)) fun _ _ =>
  Exec.safe_bind Exec.reject_ne_panic fun _ _ =>
  Exec.safe_bind (Exec.safe_slice (by omega)) fun _ _ =>
  Exec.safe_bind (Exec.safe_slice (by omega)) fun _ _ =>
  Exec.safe_bind (Exec.safe_slice (by omega)) fun _ _ =>
  Exec.safe_bind (Exec.safe_slice (by omega)) fun _ _ =>
  Exec.safe_bind (Exec.safe_slice (by omega)) fun _ _ => Exec.ok_ne_panic

theorem subU64_safe {a b : UInt64} (h : b ≤ a) : (Exec.subU64 a b : Result UInt64).Safe := by
  rw [Exec.subU64, if_pos h]
  exact Exec.ok_ne_panic

theorem checkIndexRange_safe {size : UInt64} (h : TRAILER_SIZE ≤ size) (offset length : UInt64) :
    (checkIndexRange size offset length).Safe :=
  Exec.safe_bind Exec.orFail_ne_panic fun _ _ =>
  Exec.safe_bind (subU64_safe h) fun _ _ => Exec.reject_ne_panic

end Opening

/-! ### The offset of the next buffer -/

section Align
variable {offset alignment : UInt64}

/-- The multiple of the alignment that comes next is one of the machine. -/
def AlignFits (offset alignment : UInt64) : Prop :=
  roundUp offset.toNat alignment.toNat < UInt64.size

theorem alignUp_cases (h : alignment ≠ 0) :
    (AlignFits offset alignment ∧ ∃ r, alignUp offset alignment = .ok r ∧
      AlignFits r alignment) ∨
    (¬ AlignFits offset alignment ∧ alignUp offset alignment = Exec.panic) := by
  have hpos : 0 < alignment.toNat := Nat.pos_of_ne_zero fun h0 => h (UInt64.toNat_inj.mp h0)
  by_cases hfits : AlignFits offset alignment
  · left
    obtain ⟨r, hr⟩ := exists_word hfits
    refine ⟨hfits, r, (alignUp_eq_ok h).mpr hr, ?_⟩
    rw [AlignFits, hr, roundUp_of_dvd (dvd_roundUp hpos _)]
    exact hfits
  · right
    refine ⟨hfits, ?_⟩
    have hnone : ∀ r, alignUp offset alignment ≠ .ok r := by
      intro r hr
      apply hfits
      rw [AlignFits, ← (alignUp_eq_ok h).mp hr]
      exact r.toNat_lt_size
    unfold alignUp Exec.rem Exec.addU64 at hnone ⊢
    rw [if_neg h, Exec.ok_bind] at hnone ⊢
    split at hnone
    · exact absurd rfl (hnone offset)
    · next hrem =>
      split at hnone
      · exact absurd rfl (hnone _)
      · next hadd => rw [if_neg hrem, if_neg hadd]

end Align

namespace FileReaderCore
variable {A : Type} {c : FileReaderCore A}

section Go
variable {α : Type} {a : α} {next : α → Result Unit × FileReaderCore A}

theorem orFail_ok : c.orFail (.ok a) next = next a := rfl

theorem orFail_panic : c.orFail Exec.panic next = (Exec.panic, c) := rfl

theorem orFailOpen_ok : c.orFailOpen (.ok a) next = next a := rfl

end Go

/-! ### What holds of a core at every moment -/

/-- The memory that is being filled, by the state. -/
def InMemory (c : FileReaderCore A) : Prop :=
  match c.state with
  | .header => c.Staged ∧ c.target = 64
  | .trailer => c.Staged ∧ c.target = 40 ∧ TRAILER_SIZE ≤ c.size
  | .index | .kv | .descriptor => c.Staged ∧ c.target < 2 ^ 64
  | .buffer _ => c.filled ≤ c.target ∧ c.target < 2 ^ 64 ∧
      ∀ p dest, c.pending = some p → p.dest = some dest → dest.length = c.target
  | _ => True

/-- What the calls rely on beside the memory. -/
structure Backed (c : FileReaderCore A) : Prop where
  alignment : c.dataBufferAlignment ≠ 0
  pending : ∀ p, c.pending = some p → Sharded p.descriptor
  heads : ∀ walk, c.walk = some walk → ∀ top ∈ walk.stack, Sharded top.head

structure Bounded (c : FileReaderCore A) : Prop extends c.Backed where
  memory : c.InMemory

/-- The descriptor has its buffers read by the job. -/
def ReadsBuffers (c : FileReaderCore A) (d : TensorDescriptor) : Prop :=
  c.job = some .tensor ∨
    c.job = some .walk ∧ d.layout.isVirtual = false ∧
      (c.walk.any fun walk => walk.stack.isEmpty) = false

variable [DestinationAlloc A]

/-- The offsets that come of a range that is full are words. An index has the length of a vector,
and where another buffer follows, the offset of the next one does not overflow. The first buffer
has no bytes to be read if its size is zero, and then its offset alone decides. -/
def TurnFits (c : FileReaderCore A) : Prop :=
  match c.state with
  | .trailer => ∀ t, readTrailer c.staging = .ok t →
      checkIndexRange c.size t.indexOffset t.indexLength = .ok () →
        t.indexLength.toNat ≤ ISIZE_MAX
  | .descriptor => ∀ d first dest, decode c.staging = .ok d → c.ReadsBuffers d →
      d.buffers[0]? = some first → first.byteSize = 0 → 1 < d.buffers.length →
      (DestinationAlloc.allocate ⟨0, 0, first.alignment⟩ c.destinations).1 = .ok dest →
        AlignFits c.entryDataOffset c.dataBufferAlignment
  | .buffer index => ∀ p dest, c.pending = some p → p.dest = some dest →
      index + 1 < p.descriptor.buffers.length → AlignFits c.cursor c.dataBufferAlignment
  | _ => True

/-- A core whose next turn fits, if its range is full. -/
def Steady (c : FileReaderCore A) : Prop :=
  c.Bounded ∧ (¬ c.filled < c.target → c.TurnFits)

/-- The turn does not panic, and it leaves a core that is steady, or one that has failed. -/
abbrev Steadies : Result Unit × FileReaderCore A → Prop :=
  Leaves (fun _ c => c.Steady) (fun _ c => c.Bounded) False

omit [DestinationAlloc A] in
/-- A core that is not filling is bounded by what it rests on. -/
theorem Backed.bounded (h : c.Backed) (hstate : c.state.filling = false) : c.Bounded := by
  refine ⟨h, ?_⟩
  unfold InMemory
  cases hs : c.state <;> simp_all [FileState.filling]

theorem Backed.steady (h : c.Backed) (hstate : c.state.filling = false) : c.Steady := by
  refine ⟨h.bounded hstate, ?_⟩
  intro _
  unfold TurnFits
  cases hs : c.state <;> simp_all [FileState.filling]

omit [DestinationAlloc A] in
theorem Backed.fail (h : c.Backed) (e : Error) : (c.fail e).2.Bounded := by
  unfold FileReaderCore.fail
  split
  · exact Backed.bounded ⟨h.alignment, h.pending, h.heads⟩ rfl
  · exact Backed.bounded ⟨h.alignment, h.pending, h.heads⟩ rfl
  · exact Backed.bounded ⟨h.alignment, h.pending, h.heads⟩ rfl
  · exact Backed.bounded ⟨h.alignment, h.pending, h.heads⟩ rfl
  · refine Backed.bounded ⟨h.alignment, ?_, ?_⟩ rfl
    · intro p hp
      cases hp
    · intro walk hwalk
      cases hwalk

theorem Backed.steadies_fail (h : c.Backed) (e : Error) : Steadies (c.fail e) :=
  leaves_fail_iff.mpr (h.fail e)

theorem Backed.steadies_orFail (h : c.Backed) {α : Type} {r : Result α}
    {next : α → Result Unit × FileReaderCore A} (hr : r.Safe)
    (hok : ∀ a, r = .ok a → Steadies (next a)) : Steadies (c.orFail r next) :=
  leaves_orFail hok h.fail hr

theorem Backed.steadies_orFailOpen (h : c.Backed) {α : Type} {r : Result α}
    {next : α → Result Unit × FileReaderCore A} (hr : r.Safe)
    (hok : ∀ a, r = .ok a → Steadies (next a)) : Steadies (c.orFailOpen r next) := by
  apply leaves_orFailOpen hok _ hr
  intro _
  exact Backed.bounded ⟨h.alignment, h.pending, h.heads⟩ rfl

/-! ### The open sequence -/

theorem steadies_finishHeader (h : c.Bounded) (hs : c.state = .header) :
    Steadies c.finishHeader := by
  have hmemory := h.memory
  unfold InMemory at hmemory
  rw [hs] at hmemory
  obtain ⟨⟨hstaging, -⟩, htarget⟩ := hmemory
  have hlen : c.staging.length = 64 := hstaging.trans htarget
  unfold finishHeader
  split
  · exact Backed.bounded ⟨h.alignment, h.pending, h.heads⟩ rfl
  · next hsize =>
    have hroom : TRAILER_SIZE ≤ c.size :=
      UInt64.le_trans (by decide) (UInt64.not_lt.mp hsize)
    apply h.steadies_orFailOpen (headerFlags_safe hlen)
    intro flags _
    dsimp only
    refine Backed.steadies_orFailOpen ?_ (headerAlignment_safe hlen) ?_
    · exact ⟨h.alignment, h.pending, h.heads⟩
    intro alignment halignment
    have hne := headerAlignment_ne_zero halignment
    refine Backed.steadies_orFailOpen ?_ (subU64_safe hroom) ?_
    · exact ⟨hne, h.pending, h.heads⟩
    intro offset _
    apply leaves_request
    · refine ⟨⟨⟨hne, h.pending, h.heads⟩, ?_⟩, ?_⟩
      · exact ⟨staged_replicate rfl rfl rfl, rfl, hroom⟩
      · intro hfull
        exact absurd (show 0 < 40 by decide) hfull
    · decide

theorem steadies_finishTrailer (h : c.Bounded) (hs : c.state = .trailer) (hfits : c.TurnFits) :
    Steadies c.finishTrailer := by
  have hmemory := h.memory
  unfold InMemory at hmemory
  unfold TurnFits at hfits
  rw [hs] at hmemory hfits
  obtain ⟨⟨hstaging, -⟩, htarget, hsize⟩ := hmemory
  have hlen : c.staging.length = 40 := hstaging.trans htarget
  unfold finishTrailer
  apply h.steadies_orFailOpen (readTrailer_safe hlen)
  intro t ht
  dsimp only
  refine Backed.steadies_orFailOpen ?_ (checkIndexRange_safe hsize _ _) ?_
  · exact ⟨h.alignment, h.pending, h.heads⟩
  intro _ hrange
  have hmax := hfits t ht hrange
  apply leaves_request
  · refine ⟨⟨⟨h.alignment, h.pending, h.heads⟩, ?_⟩, fun _ => trivial⟩
    exact ⟨staged_replicate rfl rfl rfl, t.indexLength.toNat_lt⟩
  · intro hlt
    omega

theorem steadies_finishIndex (crc32c : Bytes → UInt32) (h : c.Bounded) :
    Steadies (c.finishIndex crc32c) := by
  unfold finishIndex
  apply h.steadies_orFailOpen Exec.reject_ne_panic
  intro _ _
  apply h.steadies_orFailOpen (parseIndex_safe c.staging)
  intro index _
  dsimp only
  split
  · have hlt : c.kvRange.2.toNat < 2 ^ 32 := c.kvRange.2.toNat_lt
    apply leaves_request
    · refine ⟨⟨⟨h.alignment, h.pending, h.heads⟩, ?_⟩, fun _ => trivial⟩
      exact ⟨staged_replicate rfl rfl rfl, Nat.lt_trans hlt (by decide)⟩
    · intro hmax
      have hword : ISIZE_MAX = 9223372036854775807 := rfl
      omega
  · exact Backed.steady ⟨h.alignment, h.pending, h.heads⟩ rfl

theorem steadies_finishKv (h : c.Bounded) : Steadies c.finishKv := by
  unfold finishKv
  apply h.steadies_orFailOpen (parseKv_safe c.staging)
  intro kv _
  exact Backed.steady ⟨h.alignment, h.pending, h.heads⟩ rfl

/-! ### The jobs -/

omit [DestinationAlloc A] in
/-- Without a destination the memory is that of the range alone. -/
theorem Bounded.setPending (h : c.Bounded) {pending : Option FilePending}
    (hpending : ∀ p, pending = some p → Sharded p.descriptor ∧ p.dest = none) :
    { c with pending }.Bounded := by
  refine ⟨⟨h.alignment, fun p hp => (hpending p hp).1, h.heads⟩, ?_⟩
  have hmemory := h.memory
  unfold InMemory at hmemory ⊢
  dsimp only at hmemory ⊢
  split at hmemory
  · exact hmemory
  · exact hmemory
  · exact hmemory
  · exact hmemory
  · exact hmemory
  · refine ⟨hmemory.1, hmemory.2.1, ?_⟩
    intro p dest hp hdest
    rw [(hpending p hp).2] at hdest
    cases hdest
  · trivial

omit [DestinationAlloc A] in
theorem Bounded.dropPending (h : c.Bounded) : { c with pending := none }.Bounded := by
  apply h.setPending
  intro p hp
  cases hp

omit [DestinationAlloc A] in
theorem decode_nil {d : TensorDescriptor} : decode [] ≠ .ok d := by
  intro h
  obtain ⟨_, hlen, -⟩ := Exec.bind_eq_ok.mp h
  exact absurd (Exec.reject_eq_ok.mp hlen) (by decide)

/-- A descriptor that is asked for; one of no bytes does not decode. -/
theorem Backed.steady_describing (h : c.Backed) (e : IndexEntry) : (c.describing e).Steady := by
  have hlt : e.descriptorLength.toNat < 2 ^ 32 := e.descriptorLength.toNat_lt
  refine ⟨⟨⟨h.alignment, h.pending, h.heads⟩, ?_⟩, ?_⟩
  · exact ⟨staged_replicate rfl rfl rfl, Nat.lt_trans hlt (by decide)⟩
  · intro hfull d first dest hdecode
    have hzero : e.descriptorLength.toNat = 0 := Nat.eq_zero_of_not_pos hfull
    have hstaging : (c.describing e).staging = [] := by
      show List.replicate e.descriptorLength.toNat 0 = []
      rw [hzero]
      rfl
    rw [hstaging] at hdecode
    exact absurd hdecode decode_nil

theorem Bounded.steadies_startDescriptor (h : c.Bounded) (name : String) :
    Steadies (c.startDescriptor name) := by
  cases hfind : find c.index name with
  | none =>
    rw [startDescriptor_of_find_none hfind]
    exact h
  | some e =>
    rw [startDescriptor_of_find hfind]
    exact h.toBacked.steady_describing e

theorem Bounded.steadies_walkNext (h : c.Bounded) : Steadies c.walkNext := by
  unfold walkNext
  split
  · exact h.steadies_fail _
  · next walk hwalk =>
    split
    · apply Bounded.steadies_startDescriptor
      refine ⟨⟨h.alignment, h.pending, ?_⟩, h.memory⟩
      intro walk' hwalk'
      cases hwalk'
      exact h.heads walk hwalk
    · split
      · exact h.steadies_fail _
      · exact h.steadies_fail _

theorem Bounded.steadies_deliverTo (h : c.Bounded) (walk : Walk) {stack : List Open}
    {item : FileItem} (hitem : Sharded item.descriptor) (hstack : ∀ top ∈ stack, Sharded top.head) :
    Steadies (c.deliverTo walk stack item) := by
  induction stack generalizing item with
  | nil =>
    cases item with
    | tensor t => exact h.steadies_fail _
    | composite name head members =>
      refine Backed.steady ⟨h.alignment, h.pending, ?_⟩ rfl
      intro walk' hwalk'
      cases hwalk'
  | cons top rest ih =>
    obtain ⟨htop, hrest⟩ := List.forall_mem_cons.mp hstack
    unfold deliverTo
    apply h.steadies_orFail
    · exact Exec.mapError_eq_panic.not.mpr (CompositeValidator.pushMember_safe hitem)
    · intro validator _
      dsimp only
      split
      · apply Bounded.steadies_walkNext
        refine ⟨⟨h.alignment, h.pending, ?_⟩, h.memory⟩
        intro walk' hwalk'
        cases hwalk'
        exact List.forall_mem_cons.mpr ⟨htop, hrest⟩
      · apply h.steadies_orFail
        · exact Exec.mapError_eq_panic.not.mpr CompositeValidator.finish_safe
        · intro _ _
          exact ih htop hrest

theorem Bounded.steadies_completeTensor (h : c.Bounded) : Steadies c.completeTensor := by
  unfold completeTensor
  split
  · exact h.steadies_fail _
  · next p hp =>
    dsimp only
    split
    · exact Backed.steady ⟨h.alignment, h.dropPending.pending, h.heads⟩ rfl
    · unfold deliver
      split
      · exact h.dropPending.steadies_fail _
      · next walk hwalk =>
        exact h.dropPending.steadies_deliverTo walk (h.pending p hp) (h.heads walk hwalk)
    · exact h.dropPending.steadies_fail _

/-- A buffer that is begun. If it has no bytes, the next one follows at once. -/
theorem Backed.steadies_beginBuffer (hA : LawfulAlloc A) (h : c.Backed) {index : ℕ}
    (hfits : ∀ p handle dest, c.pending = some p → p.descriptor.buffers[index]? = some handle →
      handle.byteSize = 0 → index + 1 < p.descriptor.buffers.length →
      (DestinationAlloc.allocate ⟨index, 0, handle.alignment⟩ c.destinations).1 = .ok dest →
        AlignFits p.nextOffset c.dataBufferAlignment) :
    Steadies (c.beginBuffer index) := by
  unfold beginBuffer
  split
  · exact h.steadies_fail _
  · next p hp =>
    split
    · exact h.steadies_fail _
    · next handle hhandle =>
      split
      next dest destinations halloc =>
      have hsafe := hA.safe ⟨index, handle.byteSize, handle.alignment⟩ c.destinations
      rw [halloc] at hsafe
      refine Backed.steadies_orFail ?_ hsafe ?_
      · exact ⟨h.alignment, h.pending, h.heads⟩
      intro mem hmem
      have hgranted : (DestinationAlloc.allocate ⟨index, handle.byteSize, handle.alignment⟩
          c.destinations).1 = .ok mem := by
        rw [halloc]
        exact hmem
      have hzeroed := hA.zeroed _ _ _ hgranted
      refine ⟨⟨⟨h.alignment, ?_, h.heads⟩, ?_⟩, ?_⟩
      · intro p' hp'
        cases hp'
        exact h.pending p hp
      · refine ⟨Nat.zero_le _, handle.byteSize.toNat_lt, ?_⟩
        intro p' dest' hp' hdest'
        cases hp'
        cases hdest'
        rw [hzeroed]
        exact List.length_replicate
      · intro hfull p' dest' hp' _ hlt
        cases hp'
        have hzero : handle.byteSize = 0 := UInt64.toNat_inj.mp (Nat.eq_zero_of_not_pos hfull)
        rw [hzero] at hgranted
        exact hfits p handle mem hp hhandle hzero hlt hgranted

theorem Bounded.steadies_beginBuffers (hA : LawfulAlloc A) (h : c.Bounded) {d : TensorDescriptor}
    (hd : Sharded d)
    (hfits : ∀ first dest, d.buffers[0]? = some first → first.byteSize = 0 →
      1 < d.buffers.length →
      (DestinationAlloc.allocate ⟨0, 0, first.alignment⟩ c.destinations).1 = .ok dest →
        AlignFits c.entryDataOffset c.dataBufferAlignment) :
    Steadies (c.beginBuffers d) := by
  have hbounded :
      { c with pending := some ⟨c.entryName, d, [], none, c.entryDataOffset⟩ }.Bounded := by
    apply h.setPending
    intro p hp
    cases hp
    exact ⟨hd, rfl⟩
  unfold beginBuffers
  dsimp only
  split
  · apply Bounded.steadies_completeTensor
    exact ⟨⟨h.alignment, hbounded.pending, h.heads⟩, hbounded.memory⟩
  · apply Backed.steadies_beginBuffer hA
    · exact ⟨h.alignment, hbounded.pending, h.heads⟩
    · intro p handle dest hp hhandle hzero hlt hgranted
      cases hp
      exact hfits handle dest hhandle hzero hlt hgranted

theorem steadies_finishBuffer (hA : LawfulAlloc A) (h : c.Bounded) {index : ℕ}
    (hs : c.state = .buffer index) (hfits : c.TurnFits) : Steadies (c.finishBuffer index) := by
  unfold TurnFits at hfits
  rw [hs] at hfits
  unfold finishBuffer
  split
  · exact h.steadies_fail _
  · next p hp =>
    split
    · exact h.steadies_fail _
    · next dest hdest =>
      have hsharded := h.pending p hp
      have hbounded : { c with pending := some { p with
          buffers := p.buffers ++ [dest], dest := none } }.Bounded := by
        apply h.setPending
        intro p' hp'
        cases hp'
        exact ⟨hsharded, rfl⟩
      dsimp only
      split
      · next hlt =>
        rcases alignUp_cases h.alignment with ⟨-, offset, hoffset, haligned⟩ | ⟨hnot, -⟩
        · rw [hoffset, orFail_ok]
          apply Backed.steadies_beginBuffer hA
          · refine ⟨h.alignment, ?_, h.heads⟩
            intro p' hp'
            cases hp'
            exact hsharded
          · intro p' handle dest' hp' _ _ _ _
            cases hp'
            exact haligned
        · exact absurd (hfits p dest hp hdest hlt) hnot
      · exact hbounded.steadies_completeTensor

theorem Bounded.steadies_walkDescriptor (hA : LawfulAlloc A) (h : c.Bounded)
    {d : TensorDescriptor} (hd : Sharded d) (hjob : c.job = some .walk)
    (hfits : ∀ first dest, c.ReadsBuffers d → d.buffers[0]? = some first → first.byteSize = 0 →
      1 < d.buffers.length →
      (DestinationAlloc.allocate ⟨0, 0, first.alignment⟩ c.destinations).1 = .ok dest →
        AlignFits c.entryDataOffset c.dataBufferAlignment) :
    Steadies (c.walkDescriptor d) := by
  unfold walkDescriptor
  split
  · split
    · exact h.steadies_fail _
    · next walk hwalk =>
      split
      · exact h.steadies_fail _
      · apply h.steadies_orFail
        · exact Exec.mapError_eq_panic.not.mpr CompositeValidator.new_safe
        · intro validator _
          apply Bounded.steadies_walkNext
          refine ⟨⟨h.alignment, h.pending, ?_⟩, h.memory⟩
          intro walk' hwalk'
          cases hwalk'
          exact List.forall_mem_cons.mpr ⟨hd, h.heads walk hwalk⟩
  · next hlayout =>
    split
    · apply Backed.steadies_fail
      exact ⟨h.alignment, h.pending, h.heads⟩
    · next hstack =>
      have hvirtual : d.layout.isVirtual = false := by
        cases hl : d.layout with
        | composite l => exact absurd hl (hlayout l)
        | _ => rfl
      have hreads : c.ReadsBuffers d :=
        .inr ⟨hjob, hvirtual, Bool.eq_false_iff.mpr hstack⟩
      exact h.steadies_beginBuffers hA hd fun first dest => hfits first dest hreads

theorem steadies_finishDescriptor (hA : LawfulAlloc A) (h : c.Bounded)
    (hs : c.state = .descriptor) (hfits : c.TurnFits) : Steadies c.finishDescriptor := by
  unfold TurnFits at hfits
  rw [hs] at hfits
  unfold finishDescriptor
  apply h.steadies_orFail
  · exact Exec.mapError_eq_panic.not.mpr (decode_safe c.staging)
  · intro d hmap
    have hdecode := Exec.mapError_eq_ok.mp hmap
    obtain ⟨hdecodable, -⟩ := decode_eq_ok_iff.mp hdecode
    have hd : Sharded d := hdecodable.fields.shard
    split
    · exact Backed.steady ⟨h.alignment, h.pending, h.heads⟩ rfl
    · next hjob =>
      apply h.steadies_beginBuffers hA hd
      intro first dest
      exact hfits d first dest hdecode (.inl hjob)
    · next hjob =>
      apply h.steadies_walkDescriptor hA hd hjob
      intro first dest
      exact hfits d first dest hdecode
    · exact h.steadies_fail _

/-- A turn that fits comes to no panic. -/
theorem steadies_advance (hA : LawfulAlloc A) (crc32c : Bytes → UInt32) (h : c.Bounded)
    (hfits : c.TurnFits) : Steadies (c.advance crc32c) := by
  unfold advance
  split
  · next hs => exact steadies_finishHeader h hs
  · next hs => exact steadies_finishTrailer h hs hfits
  · exact steadies_finishIndex crc32c h
  · exact steadies_finishKv h
  · next hs => exact steadies_finishDescriptor hA h hs hfits
  · next hs => exact steadies_finishBuffer hA h hs hfits
  · exact h.steadies_fail _

theorem steady_step (hA : LawfulAlloc A) (crc32c : Bytes → UInt32) (h : c.Steady) :
    Leaves (fun _ c' => c'.Bounded) (fun _ c' => c'.Bounded) False (c.step crc32c) := by
  have hstep := leaves_step h (fun _ hc _ => hc.1)
    fun _ hc _ hfull => steadies_advance hA crc32c hc.1 (hc.2 hfull)
  exact hstep.mono (fun _ _ hc => hc.1.1) (fun _ _ hc => hc) id

/-! ### Where a step panics -/

section Panics
variable {crc32c : Bytes → UInt32}

theorem step_panics_of_advance (hfilling : c.state.filling = true) (hfull : ¬ c.filled < c.target)
    (h : (c.advance crc32c).1 = Exec.panic) : (c.step crc32c).1 = Exec.panic := by
  rw [step_of_advance_error hfilling hfull (Prod.ext h rfl)]
  rfl

theorem step_panics_of_buffer {index : ℕ} {p : FilePending} {dest : Bytes}
    (h : c.dataBufferAlignment ≠ 0) (hs : c.state = .buffer index) (hfull : ¬ c.filled < c.target)
    (hp : c.pending = some p) (hdest : p.dest = some dest)
    (hlt : index + 1 < p.descriptor.buffers.length)
    (hnot : ¬ AlignFits c.cursor c.dataBufferAlignment) : (c.step crc32c).1 = Exec.panic := by
  rcases alignUp_cases h with ⟨hfits, -⟩ | ⟨-, hpanic⟩
  · exact absurd hfits hnot
  · apply step_panics_of_advance _ hfull
    · unfold advance
      rw [hs]
      dsimp only
      unfold finishBuffer
      rw [hp]
      dsimp only
      rw [hdest]
      dsimp only
      rw [if_pos hlt, hpanic, orFail_panic]
    · rw [hs]
      rfl

/-- The core that has begun the first buffer of a descriptor, which is of no bytes. -/
theorem beginBuffers_eq {d : TensorDescriptor} {first : BufferHandle} {dest : Bytes}
    (hfirst : d.buffers[0]? = some first) (hzero : first.byteSize = 0)
    (hgranted : (DestinationAlloc.allocate ⟨0, 0, first.alignment⟩ c.destinations).1 = .ok dest) :
    c.beginBuffers d = (.ok (), { c with
      entryName := ""
      pending := some ⟨c.entryName, d, [], some dest, c.entryDataOffset⟩
      destinations := (DestinationAlloc.allocate ⟨0, 0, first.alignment⟩ c.destinations).2
      cursor := c.entryDataOffset, target := 0, filled := 0, state := .buffer 0 }) := by
  have hlen : ¬ d.buffers.length = 0 := by
    have hpos := (List.getElem?_eq_some_iff.mp hfirst).1
    omega
  unfold beginBuffers
  dsimp only
  rw [if_neg hlen]
  unfold beginBuffer
  dsimp only
  rw [hfirst]
  dsimp only
  rw [hzero, hgranted]
  rfl

theorem finishDescriptor_of_readsBuffers {d : TensorDescriptor} (hdecode : decode c.staging = .ok d)
    (hreads : c.ReadsBuffers d) : c.finishDescriptor = c.beginBuffers d := by
  unfold finishDescriptor
  rw [Exec.mapError_eq_ok.mpr hdecode, orFail_ok]
  rcases hreads with hjob | ⟨hjob, hvirtual, hstack⟩
  · rw [hjob]
  · rw [hjob]
    dsimp only
    unfold walkDescriptor
    split
    · next hlayout =>
      rw [hlayout] at hvirtual
      cases hvirtual
    · rw [hstack]
      rfl

theorem step_panics_of_descriptor {d : TensorDescriptor} {first : BufferHandle} {dest : Bytes}
    (h : c.dataBufferAlignment ≠ 0) (hs : c.state = .descriptor) (hfull : ¬ c.filled < c.target)
    (hdecode : decode c.staging = .ok d) (hreads : c.ReadsBuffers d)
    (hfirst : d.buffers[0]? = some first) (hzero : first.byteSize = 0)
    (hlt : 1 < d.buffers.length)
    (hgranted : (DestinationAlloc.allocate ⟨0, 0, first.alignment⟩ c.destinations).1 = .ok dest)
    (hnot : ¬ AlignFits c.entryDataOffset c.dataBufferAlignment) :
    (c.step crc32c).1 = Exec.panic := by
  have hfilling : c.state.filling = true := by
    rw [hs]
    rfl
  have hadvance : c.advance crc32c = c.beginBuffers d := by
    unfold advance
    rw [hs]
    exact finishDescriptor_of_readsBuffers hdecode hreads
  rw [step_of_advance hfilling hfull (hadvance.trans (beginBuffers_eq hfirst hzero hgranted))]
  exact step_panics_of_buffer h rfl (Nat.lt_irrefl 0) rfl rfl hlt hnot

theorem step_panics_of_trailer {t : Trailer} (hs : c.state = .trailer)
    (hfull : ¬ c.filled < c.target) (ht : readTrailer c.staging = .ok t)
    (hrange : checkIndexRange c.size t.indexOffset t.indexLength = .ok ())
    (hlong : ISIZE_MAX < t.indexLength.toNat) : (c.step crc32c).1 = Exec.panic := by
  apply step_panics_of_advance _ hfull
  · unfold advance
    rw [hs]
    dsimp only
    unfold finishTrailer
    rw [ht, orFailOpen_ok]
    dsimp only
    rw [hrange, orFailOpen_ok]
    unfold request
    dsimp only
    rw [if_pos hlong]
  · rw [hs]
    rfl

theorem step_panics_of_not_turnFits (h : c.Bounded) (hfull : ¬ c.filled < c.target)
    (hnot : ¬ c.TurnFits) : (c.step crc32c).1 = Exec.panic := by
  unfold TurnFits at hnot
  cases hs : c.state with
  | trailer =>
    rw [hs] at hnot
    push Not at hnot
    obtain ⟨t, ht, hrange, hlong⟩ := hnot
    exact step_panics_of_trailer hs hfull ht hrange hlong
  | descriptor =>
    rw [hs] at hnot
    push Not at hnot
    obtain ⟨d, first, dest, hdecode, hreads, hfirst, hzero, hlt, hgranted, hfits⟩ := hnot
    exact step_panics_of_descriptor h.alignment hs hfull hdecode hreads hfirst hzero hlt hgranted
      hfits
  | buffer index =>
    rw [hs] at hnot
    push Not at hnot
    obtain ⟨p, dest, hp, hdest, hlt, hfits⟩ := hnot
    exact step_panics_of_buffer h.alignment hs hfull hp hdest hlt hfits
  | _ =>
    rw [hs] at hnot
    exact absurd trivial hnot

end Panics

/-! ### The calls -/

/-- The words of the core have room for the call. -/
def Fits (c : FileReaderCore A) : ReaderAction → Prop
  | .step => c.state.filling = true → ¬ c.filled < c.target → c.TurnFits
  | .report n => c.state.filling = true → 0 < n → c.filled + n ≤ c.target →
      c.cursor.toNat + n < UInt64.size
  | _ => True

/-- No call of a run panics, and neither does a look at the memory on offer. -/
def Unharmed (crc32c : Bytes → UInt32) : FileReaderCore A → List ReaderAction → Prop
  | c, [] => c.inputDst.Safe
  | c, a :: actions => c.inputDst.Safe ∧ ∃ c', c.act crc32c a = some c' ∧ Unharmed crc32c c' actions

/-- Each call of a run fits where it is made. -/
def Fitting (crc32c : Bytes → UInt32) : FileReaderCore A → List ReaderAction → Prop
  | _, [] => True
  | c, a :: actions => c.Fits a ∧ ∀ c', c.act crc32c a = some c' → Fitting crc32c c' actions

section Calls
variable {crc32c : Bytes → UInt32} {n : ℕ}

omit [DestinationAlloc A] in
theorem Bounded.filled_le (h : c.Bounded) (hfilling : c.state.filling = true) :
    c.filled ≤ c.target ∧ c.target < 2 ^ 64 := by
  have hmemory := h.memory
  unfold InMemory at hmemory
  cases hs : c.state with
  | header =>
    rw [hs] at hmemory
    obtain ⟨⟨-, hle⟩, htarget⟩ := hmemory
    exact ⟨hle, by omega⟩
  | trailer =>
    rw [hs] at hmemory
    obtain ⟨⟨-, hle⟩, htarget, -⟩ := hmemory
    exact ⟨hle, by omega⟩
  | index =>
    rw [hs] at hmemory
    exact ⟨hmemory.1.2, hmemory.2⟩
  | kv =>
    rw [hs] at hmemory
    exact ⟨hmemory.1.2, hmemory.2⟩
  | descriptor =>
    rw [hs] at hmemory
    exact ⟨hmemory.1.2, hmemory.2⟩
  | buffer index =>
    rw [hs] at hmemory
    exact ⟨hmemory.1, hmemory.2.1⟩
  | _ =>
    rw [hs] at hfilling
    exact absurd hfilling Bool.false_ne_true

omit [DestinationAlloc A] in
theorem Bounded.inputDst_safe (h : c.Bounded) : c.inputDst.Safe := by
  have hmemory := h.memory
  unfold InMemory at hmemory
  have hstaged (hstaged : c.Staged) :
      (Exec.slice c.staging c.filled (c.staging.length - c.filled) : Result Bytes).Safe := by
    obtain ⟨hlen, hle⟩ := hstaged
    exact Exec.safe_slice (by omega)
  unfold inputDst
  split
  · next hs =>
    rw [hs] at hmemory
    split
    · next dest hdest =>
      obtain ⟨p, hp, hdest⟩ := Option.bind_eq_some_iff.mp hdest
      have hlen := hmemory.2.2 p dest hp hdest
      have hle := hmemory.1
      exact Exec.safe_slice (by omega)
    · exact Exec.ok_ne_panic
  · next hs =>
    rw [hs] at hmemory
    exact hstaged hmemory.1
  · next hs =>
    rw [hs] at hmemory
    exact hstaged hmemory.1
  · next hs =>
    rw [hs] at hmemory
    exact hstaged hmemory.1
  · next hs =>
    rw [hs] at hmemory
    exact hstaged hmemory.1
  · next hs =>
    rw [hs] at hmemory
    exact hstaged hmemory.1
  · exact Exec.ok_ne_panic

omit [DestinationAlloc A] in
theorem Bounded.setStaging (h : c.Bounded) {staging : Bytes}
    (hlen : staging.length = c.staging.length) : { c with staging }.Bounded := by
  refine ⟨⟨h.alignment, h.pending, h.heads⟩, ?_⟩
  have hmemory := h.memory
  have hstaged (hstaged : c.Staged) : { c with staging }.Staged := ⟨hlen.trans hstaged.1, hstaged.2⟩
  unfold InMemory at hmemory ⊢
  dsimp only at hmemory ⊢
  split at hmemory
  · exact ⟨hstaged hmemory.1, hmemory.2⟩
  · exact ⟨hstaged hmemory.1, hmemory.2⟩
  · exact ⟨hstaged hmemory.1, hmemory.2⟩
  · exact ⟨hstaged hmemory.1, hmemory.2⟩
  · exact ⟨hstaged hmemory.1, hmemory.2⟩
  · exact hmemory
  · trivial

omit [DestinationAlloc A] in
theorem Bounded.setDest (h : c.Bounded) {write : Bytes → Bytes}
    (hlen : ∀ mem, c.filled ≤ mem.length → (write mem).length = mem.length) :
    { c with pending := c.pending.map fun p : FilePending =>
      { p with dest := p.dest.map write } }.Bounded := by
  refine ⟨⟨h.alignment, ?_, h.heads⟩, ?_⟩
  · intro p hp
    obtain ⟨p', hp', rfl⟩ := Option.map_eq_some_iff.mp hp
    exact h.pending p' hp'
  · have hmemory := h.memory
    unfold InMemory at hmemory ⊢
    dsimp only at hmemory ⊢
    split at hmemory
    · exact hmemory
    · exact hmemory
    · exact hmemory
    · exact hmemory
    · exact hmemory
    · obtain ⟨hle, htarget, hdest⟩ := hmemory
      refine ⟨hle, htarget, ?_⟩
      intro p dest hp hpdest
      obtain ⟨p', hp', rfl⟩ := Option.map_eq_some_iff.mp hp
      obtain ⟨mem, hmem, rfl⟩ := Option.map_eq_some_iff.mp hpdest
      have hmemlen := hdest p' mem hp' hmem
      rw [hlen mem (by omega), hmemlen]
    · trivial

omit [DestinationAlloc A] in
theorem Bounded.fillDst (h : c.Bounded) (data : Bytes) : (c.fillDst data).Bounded := by
  have hlen (mem : Bytes) (hmem : c.filled ≤ mem.length) :
      (overwrite mem c.filled (data.take (mem.length - c.filled))).length = mem.length := by
    apply length_overwrite
    rw [List.length_take]
    omega
  have hmemory := h.memory
  unfold InMemory at hmemory
  have hstaged (hstaged : c.Staged) : { c with
      staging := overwrite c.staging c.filled
        (data.take (c.staging.length - c.filled)) }.Bounded :=
    h.setStaging (hlen _ (hstaged.2.trans hstaged.1.ge))
  unfold FileReaderCore.fillDst
  split
  · exact h.setDest hlen
  · next hs =>
    rw [hs] at hmemory
    exact hstaged hmemory.1
  · next hs =>
    rw [hs] at hmemory
    exact hstaged hmemory.1
  · next hs =>
    rw [hs] at hmemory
    exact hstaged hmemory.1
  · next hs =>
    rw [hs] at hmemory
    exact hstaged hmemory.1
  · next hs =>
    rw [hs] at hmemory
    exact hstaged hmemory.1
  · exact h

omit [DestinationAlloc A] in
theorem Bounded.arrived (h : c.Bounded) (hle : c.filled + n ≤ c.target) :
    (c.arrived n).Bounded := by
  refine ⟨⟨h.alignment, h.pending, h.heads⟩, ?_⟩
  have hmemory := h.memory
  unfold InMemory FileReaderCore.arrived at *
  dsimp only at hmemory ⊢
  split at hmemory
  · exact ⟨⟨hmemory.1.1, hle⟩, hmemory.2⟩
  · exact ⟨⟨hmemory.1.1, hle⟩, hmemory.2⟩
  · exact ⟨⟨hmemory.1.1, hle⟩, hmemory.2⟩
  · exact ⟨⟨hmemory.1.1, hle⟩, hmemory.2⟩
  · exact ⟨⟨hmemory.1.1, hle⟩, hmemory.2⟩
  · exact ⟨hle, hmemory.2⟩
  · trivial

theorem Bounded.reportFilled (h : c.Bounded) (hfits : c.Fits (.report n)) :
    Leaves (fun _ c' => c'.Bounded) (fun _ c' => c'.Bounded) False (c.reportFilled n) := by
  rcases reportFilled_cases c n with ⟨e, heq⟩ | ⟨-, -, heq⟩ | ⟨-, hle, -, heq⟩ |
    ⟨hfilling, -, hpanic⟩
  · rw [heq]
    exact h
  · rw [heq]
    exact leaves_fail_iff.mpr (h.fail _)
  · rw [heq]
    exact h.arrived hle
  · exfalso
    obtain ⟨hfilled, htarget⟩ := h.filled_le hfilling
    have hcursor : c.cursor.toNat < UInt64.size := c.cursor.toNat_lt_size
    rcases hpanic with hlt | ⟨hle, hword | hcursorn⟩
    · omega
    · omega
    · have hfit := hfits hfilling (by omega) hle
      omega

omit [DestinationAlloc A] in
theorem Bounded.begin (h : c.Bounded) (job : Job) (name : String) :
    Leaves (fun _ c' => c'.Bounded) (fun _ c' => c'.Bounded) False (c.begin job name) := by
  have hsupersede : (c.supersede job).Bounded := by
    refine ⟨⟨h.alignment, h.dropPending.pending, ?_⟩, h.dropPending.memory⟩
    intro walk hwalk
    cases hwalk
  by_cases hopen : c.isOpen = true
  · cases hfind : find c.index name with
    | none =>
      rw [begin_of_find_none hopen hfind]
      exact hsupersede
    | some e =>
      rw [begin_of_find hopen hfind]
      refine ⟨⟨h.alignment, hsupersede.pending, ?_⟩, ?_⟩
      · intro walk hwalk top htop
        have hjob : jobWalk c.index job e.name = some walk := hwalk
        unfold jobWalk at hjob
        split at hjob
        · obtain ⟨start, -, rfl⟩ := Option.map_eq_some_iff.mp hjob
          cases htop
        · cases hjob
      · have hlt : e.descriptorLength.toNat < 2 ^ 32 := e.descriptorLength.toNat_lt
        exact ⟨staged_replicate rfl rfl rfl, Nat.lt_trans hlt (by decide)⟩
  · rw [begin_of_not_isOpen (Bool.eq_false_iff.mpr hopen)]
    exact h

/-- A call that fits returns. -/
theorem act_of_fits (hA : LawfulAlloc A) (h : c.Bounded) {a : ReaderAction} (hfits : c.Fits a) :
    ∃ c', c.act crc32c a = some c' ∧ c'.Bounded := by
  have hsurvivor {α : Type} {x : Result α × FileReaderCore A}
      (hx : Leaves (fun _ c' => c'.Bounded) (fun _ c' => c'.Bounded) False x) :
      ∃ c', survivor x = some c' ∧ c'.Bounded := by
    rcases x with ⟨(e | _) | a, c'⟩
    · exact ⟨c', rfl, hx⟩
    · exact absurd hx id
    · exact ⟨c', rfl, hx⟩
  cases a with
  | step =>
    apply hsurvivor
    by_cases hfilling : c.state.filling = true
    · exact steady_step hA crc32c ⟨h, hfits hfilling⟩
    · exact steady_step hA crc32c (h.toBacked.steady (Bool.eq_false_iff.mpr hfilling))
  | fill data => exact ⟨_, rfl, h.fillDst data⟩
  | report n => exact hsurvivor (h.reportFilled hfits)
  | begin job name => exact hsurvivor (h.begin job name)
  | takeDescriptor =>
    refine ⟨_, rfl, ?_⟩
    unfold takeDescriptor
    split
    · exact h
    · exact Backed.bounded ⟨h.alignment, h.pending, h.heads⟩ rfl
  | takeTensor =>
    refine ⟨_, rfl, ?_⟩
    unfold takeTensor
    split
    · exact h
    · exact Backed.bounded ⟨h.alignment, h.pending, h.heads⟩ rfl
  | takeComposite =>
    refine ⟨_, rfl, ?_⟩
    unfold takeComposite
    split
    · exact h
    · exact Backed.bounded ⟨h.alignment, h.pending, h.heads⟩ rfl

/-- A call that does not fit panics. -/
theorem act_of_not_fits (h : c.Bounded) {a : ReaderAction} (hnot : ¬ c.Fits a) :
    c.act crc32c a = none := by
  have hsurvivor {α : Type} {x : Result α × FileReaderCore A} (hx : x.1 = Exec.panic) :
      survivor x = none := by
    rcases x with ⟨r, c'⟩
    cases hx
    rfl
  cases a with
  | step =>
    unfold Fits at hnot
    push Not at hnot
    obtain ⟨-, hfull, hturn⟩ := hnot
    exact hsurvivor (step_panics_of_not_turnFits h (Nat.not_lt.mpr hfull) hturn)
  | report n =>
    unfold Fits at hnot
    push Not at hnot
    obtain ⟨hfilling, hpos, hle, hcursor⟩ := hnot
    obtain ⟨-, htarget⟩ := h.filled_le hfilling
    apply hsurvivor
    rw [reportFilled_of_overflow hfilling hle hpos (by omega) hcursor]
  | _ => exact absurd trivial hnot

theorem unharmed_iff_fitting (hA : LawfulAlloc A) (h : c.Bounded) (actions : List ReaderAction) :
    c.Unharmed crc32c actions ↔ c.Fitting crc32c actions := by
  induction actions generalizing c with
  | nil => exact iff_of_true h.inputDst_safe trivial
  | cons a actions ih =>
    constructor
    · intro hrun
      obtain ⟨-, c', hact, hrest⟩ := hrun
      have hfits : c.Fits a := by
        by_contra hnot
        rw [act_of_not_fits h hnot] at hact
        cases hact
      refine ⟨hfits, ?_⟩
      intro d hd
      obtain rfl : c' = d := Option.some.inj (hact.symm.trans hd)
      obtain ⟨e, he, hbounded⟩ := act_of_fits hA h hfits
      obtain rfl : c' = e := Option.some.inj (hact.symm.trans he)
      exact (ih hbounded).mp hrest
    · intro hrun
      obtain ⟨hfits, hrest⟩ := hrun
      obtain ⟨c', hact, hbounded⟩ := act_of_fits hA h hfits
      exact ⟨h.inputDst_safe, c', hact, (ih hbounded).mpr (hrest c' hact)⟩

omit [DestinationAlloc A] in
theorem bounded_withDestinations (size : UInt64) (destinations : A) (depth : ℕ) :
    ((withDestinations size destinations).withMaxCompositeDepth depth).Bounded := by
  refine ⟨⟨show (1 : UInt64) ≠ 0 by decide, ?_, ?_⟩, ?_⟩
  · intro p hp
    cases hp
  · intro walk hwalk
    cases hwalk
  · exact ⟨staged_replicate rfl rfl rfl, rfl⟩

/-- Whatever the file and the driver, a reader goes through a run without a panic if and only if
each call fits where it is made. -/
theorem run_unharmed_iff (hA : LawfulAlloc A) (crc32c : Bytes → UInt32) (size : UInt64)
    (destinations : A) (depth : ℕ) (actions : List ReaderAction) :
    ((withDestinations size destinations).withMaxCompositeDepth depth).Unharmed crc32c actions ↔
      ((withDestinations size destinations).withMaxCompositeDepth depth).Fitting crc32c actions :=
  unharmed_iff_fitting hA (bounded_withDestinations size destinations depth) actions

theorem run_unharmed_opening :
    ((withDestinations 208 SystemDestinations.mk).withMaxCompositeDepth 64).Unharmed (fun _ => 0)
        workedOpening ↔
      ((withDestinations 208 SystemDestinations.mk).withMaxCompositeDepth 64).Fitting (fun _ => 0)
        workedOpening :=
  run_unharmed_iff lawfulAlloc_systemDestinations (fun _ => 0) 208 SystemDestinations.mk 64 _

theorem run_of_unharmed {actions : List ReaderAction} (h : c.Unharmed crc32c actions) :
    ∃ c', run crc32c c actions = some c' := by
  induction actions generalizing c with
  | nil => exact ⟨c, rfl⟩
  | cons a actions ih =>
    obtain ⟨-, d, hact, hrest⟩ := h
    obtain ⟨c', hrun⟩ := ih hrest
    refine ⟨c', ?_⟩
    rw [run, List.foldlM_cons, hact]
    exact hrun

end Calls

end FileReaderCore

/-- The worked example with a buffer of no bytes before its own. -/
def emptyFirst : TensorDescriptor := { workedExample with
  buffers := ⟨0, 64, .cpu, .producerSynced, .standard, BufferHandle.pow_least,
    BufferHandle.least_le _, BufferHandle.producer_synced⟩ :: workedExample.buffers }

/-- The index puts the data of the tensor at the last offset there is. -/
def lastOffsetIndex : Bytes :=
  encodeIndexSection [⟨"a", 64, 77, 0xFFFFFFFFFFFFFFFF, 192⟩]

def lastOffsetRun : List ReaderAction :=
  [.step, .fill workedHeader, .report 64,
    .step, .fill (workedTrailer 141 lastOffsetIndex 0), .report 40,
    .step, .fill lastOffsetIndex, .report 43, .step, .begin .tensor "a",
    .step, .fill ((encode emptyFirst).toOption.getD []), .report 77]

namespace FileReaderCore

/-- No byte of the first buffer has to be there, and the offset of the second one overflows. -/
theorem aligned_offset_overflows :
    (∃ c, run (fun _ => 0) (new 224) lastOffsetRun = some c ∧
      (c.step (fun _ => 0)).1 = Exec.panic) ∧
    ¬ (new 224).Unharmed (fun _ => 0) (lastOffsetRun ++ [.step]) := by
  have hwithin : (runWithin (fun _ => 0) 3 (new 224) lastOffsetRun).bind
      (fun c => (c.stepWithin (fun _ => 0) 3).map Prod.fst) = some Exec.panic := by
    decide +kernel
  obtain ⟨c, hc, hstep⟩ := Option.bind_eq_some_iff.mp hwithin
  obtain ⟨x, hx, hpanic⟩ := Option.map_eq_some_iff.mp hstep
  have hrun := run_of_runWithin hc
  have hfirst : (c.step (fun _ => 0)).1 = Exec.panic := by
    rw [step_of_stepWithin hx, hpanic]
  refine ⟨⟨c, hrun, hfirst⟩, ?_⟩
  intro h
  obtain ⟨c', hlonger⟩ := run_of_unharmed h
  rw [run, List.foldlM_append] at hlonger
  obtain ⟨d, hd, hlast⟩ := Option.bind_eq_some_iff.mp hlonger
  obtain rfl : c = d := Option.some.inj (hrun.symm.trans hd)
  obtain ⟨e, he, -⟩ := Option.bind_eq_some_iff.mp hlast
  have hnone : survivor (c.step (fun _ => 0)) = none := by
    rw [← Prod.eta (c.step (fun _ => 0)), hfirst]
    rfl
  rw [show c.act (fun _ => 0) .step = none from hnone] at he
  cases he

end FileReaderCore
end Hurray.File
