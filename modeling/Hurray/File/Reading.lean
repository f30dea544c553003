import Hurray.File.ReadDriver

/-!
What reading a file comes to, as plain functions of its bytes: opening it, and
reading a descriptor, a tensor or a composite by name. The machine that asks for
ranges refines these functions, whatever the reads return and whatever it did
before.
-/
namespace Hurray.File
open Hurray.Base Hurray.Core Hurray.Descriptor Hurray.Stream

/-- What a reader knows of a file that it has opened. -/
structure FileView where
  dataBufferAlignment : UInt64
  index : List IndexEntry
  kv : List (String × KvValue)

/-- Whether a vector of the length can be allocated at all. -/
def reserve (len : ℕ) : Result Unit := if ISIZE_MAX < len then Exec.panic else .ok ()

def readHeader (file : Bytes) (size : UInt64) : Result (UInt32 × UInt32) := do
  let header ← fetch file 0 FILE_HEADER_SIZE.toNat
  Exec.reject (size < FILE_HEADER_SIZE + TRAILER_SIZE)
    (.invalidHeader "file too small to contain a valid trailer")
  let flags ← headerFlags header
  let alignment ← headerAlignment header
  pure (flags, alignment)

def locate (file : Bytes) (size : UInt64) : Result Trailer := do
  let offset ← Exec.subU64 size TRAILER_SIZE
  let bytes ← fetch file offset TRAILER_SIZE.toNat
  let t ← readTrailer bytes
  checkIndexRange size t.indexOffset t.indexLength
  pure t

def readIndex (crc32c : Bytes → UInt32) (file : Bytes) (flags : UInt32) (t : Trailer) :
    Result (List IndexEntry) := do
  reserve t.indexLength.toNat
  let bytes ← fetch file t.indexOffset t.indexLength.toNat
  checkIndexCrc flags t.indexCrc (crc32c bytes)
  parseIndex bytes

def readKv (file : Bytes) (flags : UInt32) (t : Trailer) : Result (List (String × KvValue)) :=
  if (flags &&& HAS_KV_METADATA ≠ 0 ∨ t.kvOffset ≠ 0) ∧ t.kvOffset ≠ 0 ∧ t.kvLength ≠ 0 then do
    let bytes ← fetch file t.kvOffset t.kvLength.toNat
    parseKv bytes
  else pure []

def openFile (crc32c : Bytes → UInt32) (file : Bytes) (size : UInt64) : Result FileView := do
  let (flags, alignment) ← readHeader file size
  let t ← locate file size
  let index ← readIndex crc32c file flags t
  let kv ← readKv file flags t
  pure ⟨alignment.toUInt64, index, kv⟩

def readDescriptor (file : Bytes) (e : IndexEntry) : Result TensorDescriptor := do
  let bytes ← fetch file e.descriptorOffset e.descriptorLength.toNat
  Exec.mapError .core (decode bytes)

/-- The buffers from an offset on, each into memory of its own. -/
def readBuffers {A : Type} [DestinationAlloc A] (file : Bytes) (alignment : UInt64) :
    List BufferHandle → ℕ → UInt64 → A → Result (List Bytes × A)
  | [], _, _, a => .ok ([], a)
  | h :: hs, index, offset, a => do
      let granted := DestinationAlloc.allocate ⟨index, h.byteSize, h.alignment⟩ a
      let _ ← granted.1
      let data ← fetch file offset h.byteSize.toNat
      if hs.isEmpty then pure ([data], granted.2)
      else do
        let next ← alignUp (offset + h.byteSize) alignment
        let (buffers, a) ← readBuffers file alignment hs (index + 1) next granted.2
        pure (data :: buffers, a)

def readTensor {A : Type} [DestinationAlloc A] (file : Bytes) (alignment : UInt64) (name : String)
    (dataOffset : UInt64) (d : TensorDescriptor) (a : A) : Result (FileTensor × A) := do
  let (buffers, a) ← readBuffers file alignment d.buffers 0 dataOffset a
  pure (⟨name, d, buffers⟩, a)

/-- The heads that are open after an item, or the composite that is complete with it. -/
def handOver : List Open → FileItem → Result (List Open ⊕ FileComposite)
  | [], .composite name head members => .ok (.inr ⟨name, head, members⟩)
  | [], .tensor _ => Exec.fail .coreFailed
  | top :: rest, item => do
      let validator ← Exec.mapError .core (top.validator.pushMember item.descriptor)
      let members := top.members ++ [item]
      if UInt32.ofNat members.length < top.memberCount then
        pure (.inl ({ top with members, validator } :: rest))
      else do
        Exec.mapError .core validator.finish
        handOver rest (.composite top.name top.head members)

/-- A head is opened, and a tensor is read and handed over; the walk is to start at a head. -/
def readNode {A : Type} [DestinationAlloc A] (file : Bytes) (alignment : UInt64) (depth : ℕ)
    (stack : List Open) (e : IndexEntry) (d : TensorDescriptor) (a : A) :
    Result ((List Open ⊕ FileComposite) × A) :=
  match d.layout with
  | .composite layout => do
      Exec.reject (depth ≤ stack.length) (.compositeNestingTooDeep depth)
      let validator ← Exec.mapError .core (CompositeValidator.new d)
      pure (.inl (⟨e.name, d, layout.memberCount, [], validator⟩ :: stack), a)
  | _ => do
      Exec.reject (stack.isEmpty = true) (.notAComposite e.name)
      let (t, a) ← readTensor file alignment e.name e.dataOffset d a
      let handed ← handOver stack (.tensor t)
      pure (handed, a)

section Node
variable {A : Type} [DestinationAlloc A] {file : Bytes} {alignment : UInt64} {depth : ℕ}
  {stack : List Open} {e : IndexEntry} {d : TensorDescriptor} {a : A}

theorem readNode_of_head {layout : CompositeLayout} (h : d.layout = .composite layout) :
    readNode file alignment depth stack e d a = (do
      Exec.reject (depth ≤ stack.length) (.compositeNestingTooDeep depth)
      let validator ← Exec.mapError .core (CompositeValidator.new d)
      pure (.inl (⟨e.name, d, layout.memberCount, [], validator⟩ :: stack), a)) := by
  unfold readNode
  rw [h]

theorem readNode_of_tensor (h : ∀ layout, d.layout = .composite layout → False) :
    readNode file alignment depth stack e d a = (do
      Exec.reject (stack.isEmpty = true) (.notAComposite e.name)
      let (t, a) ← readTensor file alignment e.name e.dataOffset d a
      let handed ← handOver stack (.tensor t)
      pure (handed, a)) := by
  unfold readNode
  split
  · next layout hlayout => exact (h layout hlayout).elim
  · rfl

end Node

/-- The walk over the names that are left. -/
def readWalk {A : Type} [DestinationAlloc A] (file : Bytes) (alignment : UInt64) (depth : ℕ)
    (index : List IndexEntry) : List String → List Open → A → Result (FileComposite × A)
  | [], [], _ => Exec.fail .coreFailed
  | [], top :: _, _ => Exec.fail (.tornComposite top.memberCount (UInt32.ofNat top.members.length))
  | name :: names, stack, a => do
      let e ← Exec.orFail (FileReaderCore.find index name) (.tensorNotFound name)
      let d ← readDescriptor file e
      let node ← readNode file alignment depth stack e d a
      match node.1 with
      | .inl stack => readWalk file alignment depth index names stack node.2
      | .inr composite => pure (composite, node.2)

/-- What a job delivers. -/
inductive Delivery where
  | descriptor (d : TensorDescriptor)
  | tensor (t : FileTensor)
  | composite (c : FileComposite)

/-- The names from the head of a walk on. -/
def namesFrom (index : List IndexEntry) (name : String) : List String :=
  ((orderedNames index).idxOf? name).elim [] fun start => (orderedNames index).drop start

def readJob {A : Type} [DestinationAlloc A] (file : Bytes) (alignment : UInt64) (depth : ℕ)
    (index : List IndexEntry) (job : Job) (e : IndexEntry) (a : A) : Result (Delivery × A) :=
  match job with
  | .descriptor => do
      let d ← readDescriptor file e
      pure (.descriptor d, a)
  | .tensor => do
      let d ← readDescriptor file e
      let (t, a) ← readTensor file alignment e.name e.dataOffset d a
      pure (.tensor t, a)
  | .walk => do
      let (composite, a) ← readWalk file alignment depth index (namesFrom index e.name) [] a
      pure (.composite composite, a)

namespace FileReaderCore
variable {A : Type} [DestinationAlloc A] {crc32c : Bytes → UInt32} {file : Bytes}
  {c : FileReaderCore A}

section Rules
variable {α β : Type} {f : FileStep × FileReaderCore A → β} {r : Result α}
  {next : α → Result Unit × FileReaderCore A} {k : α → Result β}

theorem goes_fail (e : Error) : Goes crc32c file f (c.fail e) (Exec.fail e) := by
  rw [fail_eq]
  exact rfl

theorem goes_orFail (h : ∀ a, r = .ok a → Goes crc32c file f (next a) (k a)) :
    Goes crc32c file f (c.orFail r next) (r >>= k) := by
  rcases r with (e | _) | a
  · exact goes_fail e
  · exact rfl
  · exact h a rfl

theorem goes_orFailOpen (h : ∀ a, r = .ok a → Goes crc32c file f (next a) (k a)) :
    Goes crc32c file f (c.orFailOpen r next) (r >>= k) := by
  rcases r with (e | _) | a
  · exact rfl
  · exact rfl
  · exact h a rfl

end Rules

/-! ### Ranges that go to the staging memory -/

omit [DestinationAlloc A] in
theorem awaits_staging {len : ℕ} (hstate : c.state.filling = true)
    (hbuffer : ∀ index, c.state ≠ .buffer index) (hfilled : c.filled = 0) (htarget : c.target = len)
    (hstaging : c.staging = List.replicate len 0) (hlen : len < 2 ^ 64) : c.Awaits where
  filling := hstate
  filled := hfilled
  memory := by
    have hmemory : c.memory = c.staging := by
      unfold memory
      split
      · next index h => exact absurd h (hbuffer index)
      · rfl
    rw [hmemory, hstaging, htarget]
    exact List.length_replicate
  target := by omega
  dest := fun index h => absurd h (hbuffer index)

omit [DestinationAlloc A] in
/-- A staged range that has arrived. -/
theorem after_staging {data : Bytes} (hbuffer : ∀ index, c.state ≠ .buffer index)
    (hlen : data.length = c.staging.length) : c.after data =
      { c with staging := data, filled := data.length,
               cursor := c.cursor + UInt64.ofNat data.length } := by
  have hmemory : c.memory = c.staging := by
    unfold memory
    split
    · next index h => exact absurd h (hbuffer index)
    · rfl
  have hset : ∀ mem, c.setMemory mem = { c with staging := mem } := by
    intro mem
    unfold setMemory
    split
    · next index h => exact absurd h (hbuffer index)
    · rfl
  unfold after
  rw [hmemory, hlen, List.drop_length, List.append_nil, hset, ← hlen]

/-- The core with a staged range of which all has arrived. -/
def staged (c : FileReaderCore A) (data : Bytes) : FileReaderCore A :=
  { c with staging := data, filled := data.length,
           cursor := c.cursor + UInt64.ofNat data.length }

section Staged
variable {β : Type} {f : FileStep × FileReaderCore A → β} {k : Bytes → Result β} {len : ℕ}
  {offset : UInt64}

theorem drives_staged (hstate : c.state.filling = true) (hbuffer : ∀ index, c.state ≠ .buffer index)
    (hfilled : c.filled = 0) (htarget : c.target = len) (hstaging : c.staging = List.replicate len 0)
    (hlen : len < 2 ^ 64) (hcursor : c.cursor = offset)
    (h : ∀ data, fetch file offset len = .ok data →
      Goes crc32c file f ((c.staged data).advance crc32c) (k data)) :
    Drives crc32c file f c (fetch file offset len >>= k) := by
  subst hcursor htarget
  apply drives_range (awaits_staging hstate hbuffer hfilled rfl hstaging hlen)
  intro data hdata
  obtain ⟨_, hdatalen, _⟩ := fetch_eq_ok.mp hdata
  rw [after_staging hbuffer]
  · exact h data hdata
  · rw [hstaging, List.length_replicate, hdatalen]

theorem goes_request {state : FileState} (hstate : state.filling = true)
    (hbuffer : ∀ index, state ≠ .buffer index) (hlen : len < 2 ^ 64)
    (h : ∀ data, fetch file offset len = .ok data →
      Goes crc32c file f (({ c with cursor := offset, target := len, filled := 0,
                                    staging := List.replicate len 0, state }.staged
        data).advance crc32c) (k data)) :
    Goes crc32c file f (c.request offset len state)
      (reserve len >>= fun _ => fetch file offset len >>= k) := by
  unfold request reserve
  by_cases hmax : ISIZE_MAX < len
  · rw [if_pos hmax, if_pos hmax]
    exact rfl
  · rw [if_neg hmax, if_neg hmax, Exec.ok_bind]
    apply drives_staged hstate hbuffer
    · rfl
    · rfl
    · rfl
    · exact hlen
    · rfl
    · exact h

theorem goes_request_of_le {state : FileState} (hstate : state.filling = true)
    (hbuffer : ∀ index, state ≠ .buffer index) (hlen : len ≤ ISIZE_MAX)
    (h : ∀ data, fetch file offset len = .ok data →
      Goes crc32c file f (({ c with cursor := offset, target := len, filled := 0,
                                    staging := List.replicate len 0, state }.staged
        data).advance crc32c) (k data)) :
    Goes crc32c file f (c.request offset len state) (fetch file offset len >>= k) := by
  have hlt : len < 2 ^ 64 := lt_of_le_of_lt hlen (by decide)
  have hgoes := goes_request hstate hbuffer hlt h
  rw [reserve, if_neg (by omega), Exec.ok_bind] at hgoes
  exact hgoes

omit [DestinationAlloc A] in
theorem toNat_le_isize (n : UInt32) : n.toNat ≤ ISIZE_MAX := by
  have hlt : n.toNat < 4294967296 := n.toNat_lt_size
  have hmax : ISIZE_MAX = 9223372036854775807 := rfl
  omega

end Staged

/-! ### Opening -/

/-- What a reader that opens a file shows of it. -/
def openView (x : FileStep × FileReaderCore A) : FileStep × FileView × ℕ × A :=
  (x.1, ⟨x.2.dataBufferAlignment, x.2.index, x.2.kv⟩, x.2.maxCompositeDepth, x.2.destinations)

theorem goes_ready {v : FileView} (hv : v = ⟨c.dataBufferAlignment, c.index, c.kv⟩)
    (hstate : c.state = .ready) : Goes crc32c file openView (.ok (), c)
      (.ok (.ready, v, c.maxCompositeDepth, c.destinations)) := by
  have h : Drives crc32c file openView c (.ok (openView (.ready, c))) :=
    drives_answers hstate nofun
  rw [hv]
  exact h

theorem goes_finishKv : Goes crc32c file openView c.finishKv (parseKv c.staging >>= fun kv =>
    pure (.ready, ⟨c.dataBufferAlignment, c.index, kv⟩, c.maxCompositeDepth, c.destinations)) := by
  unfold finishKv
  apply goes_orFailOpen
  intro kv _
  exact goes_ready rfl rfl

theorem goes_finishIndex {t : Trailer} (hkv : c.kv = [])
    (hrange : c.kvRange = (t.kvOffset, t.kvLength)) :
    Goes crc32c file openView (c.finishIndex crc32c) (do
      checkIndexCrc c.flags c.storedCrc (crc32c c.staging)
      let index ← parseIndex c.staging
      let kv ← readKv file c.flags t
      pure (.ready, ⟨c.dataBufferAlignment, index, kv⟩, c.maxCompositeDepth, c.destinations)) := by
  unfold finishIndex
  apply goes_orFailOpen
  intro _ _
  apply goes_orFailOpen
  intro index _
  have hoffset : c.kvRange.1 = t.kvOffset := by rw [hrange]
  have hlength : c.kvRange.2 = t.kvLength := by rw [hrange]
  dsimp only
  rw [hoffset, hlength, readKv]
  split
  · rw [bind_assoc]
    apply goes_request_of_le
    · rfl
    · nofun
    · exact toNat_le_isize t.kvLength
    · intro data _
      exact goes_finishKv
  · apply goes_ready _ rfl
    rw [hkv]

theorem goes_finishTrailer (hkv : c.kv = []) : Goes crc32c file openView c.finishTrailer (do
    let t ← readTrailer c.staging
    checkIndexRange c.size t.indexOffset t.indexLength
    let index ← readIndex crc32c file c.flags t
    let kv ← readKv file c.flags t
    pure (.ready, ⟨c.dataBufferAlignment, index, kv⟩, c.maxCompositeDepth, c.destinations)) := by
  unfold finishTrailer
  apply goes_orFailOpen
  intro t _
  apply goes_orFailOpen
  intro _ _
  rw [readIndex]
  simp only [bind_assoc]
  apply goes_request
  · rfl
  · nofun
  · exact t.indexLength.toNat_lt_size
  · intro data _
    exact goes_finishIndex hkv rfl

theorem goes_finishHeader (hkv : c.kv = []) : Goes crc32c file openView c.finishHeader (do
    Exec.reject (c.size < FILE_HEADER_SIZE + TRAILER_SIZE)
      (.invalidHeader "file too small to contain a valid trailer")
    let flags ← headerFlags c.staging
    let alignment ← headerAlignment c.staging
    let t ← locate file c.size
    let index ← readIndex crc32c file flags t
    let kv ← readKv file flags t
    pure (.ready, ⟨alignment.toUInt64, index, kv⟩, c.maxCompositeDepth, c.destinations)) := by
  unfold finishHeader
  by_cases hsize : c.size < FILE_HEADER_SIZE + TRAILER_SIZE
  · rw [if_pos hsize, Exec.reject, if_pos hsize]
    exact rfl
  rw [if_neg hsize, Exec.reject, if_neg hsize, Exec.ok_bind]
  apply goes_orFailOpen
  intro flags _
  apply goes_orFailOpen
  intro alignment _
  rw [locate]
  simp only [bind_assoc, pure_bind]
  apply goes_orFailOpen
  intro offset _
  apply goes_request_of_le
  · rfl
  · intro index hstate
    cases hstate
  · decide
  · intro data _
    exact goes_finishTrailer hkv

/-- Opening, whatever the reads return. -/
theorem drives_open (crc32c : Bytes → UInt32) (file : Bytes) (size : UInt64) (a : A) (depth : ℕ) :
    Drives crc32c file openView ((withDestinations size a).withMaxCompositeDepth depth)
      (openFile crc32c file size >>= fun v => pure (.ready, v, depth, a)) := by
  rw [openFile, readHeader]
  simp only [bind_assoc, pure_bind]
  apply drives_staged
  · rfl
  · intro index hstate
    cases hstate
  · rfl
  · rfl
  · rfl
  · decide
  · rfl
  · intro data _
    exact goes_finishHeader rfl

/-! ### Buffers -/

section Buffers
variable {β : Type} {f : FileStep × FileReaderCore A → β} {index : ℕ} {p : FilePending}

/-- The core with a buffer of which all has arrived. -/
def buffered (c : FileReaderCore A) (p : FilePending) (data : Bytes) : FileReaderCore A :=
  { c with pending := some { p with dest := some data }, filled := data.length,
           cursor := c.cursor + UInt64.ofNat data.length }

omit [DestinationAlloc A] in
theorem memory_buffer {mem : Bytes} (hstate : c.state = .buffer index) (hp : c.pending = some p)
    (hdest : p.dest = some mem) : c.memory = mem := by
  rw [memory, hstate]
  show (c.pending.bind FilePending.dest).getD [] = mem
  rw [hp, Option.bind_some, hdest]
  rfl

omit [DestinationAlloc A] in
theorem setMemory_buffer {mem data : Bytes} (hstate : c.state = .buffer index)
    (hp : c.pending = some p) (hdest : p.dest = some mem) :
    c.setMemory data = { c with pending := some { p with dest := some data } } := by
  unfold setMemory
  split
  · rw [hp, Option.map_some, hdest, Option.map_some]
  · next h => exact absurd hstate (h index)

theorem advance_buffer (hstate : c.state = .buffer index) :
    c.advance crc32c = c.finishBuffer index := by
  unfold advance
  rw [hstate]

theorem drives_buffer {mem : Bytes} {k : Bytes → Result β} (hstate : c.state = .buffer index)
    (hp : c.pending = some p) (hdest : p.dest = some mem) (hfilled : c.filled = 0)
    (htarget : c.target = mem.length) (hlen : mem.length < 2 ^ 64)
    (h : ∀ data, fetch file c.cursor mem.length = .ok data →
      Goes crc32c file f ((c.buffered p data).finishBuffer index) (k data)) :
    Drives crc32c file f c (fetch file c.cursor mem.length >>= k) := by
  have hmemory := memory_buffer hstate hp hdest
  have hawaits : c.Awaits := by
    constructor
    · rw [hstate]
      rfl
    · exact hfilled
    · rw [hmemory, htarget]
    · omega
    · exact fun _ _ => ⟨p, mem, hp, hdest⟩
  rw [← htarget] at h ⊢
  apply drives_range hawaits
  intro data hdata
  obtain ⟨_, hdatalen, _⟩ := fetch_eq_ok.mp hdata
  have hafter : c.after data = c.buffered p data := by
    have hdrop : mem.drop data.length = [] := List.drop_eq_nil_of_le (by omega)
    unfold after
    rw [hmemory, hdrop, List.append_nil, setMemory_buffer hstate hp hdest]
    rfl
  rw [hafter, advance_buffer (c := c.buffered p data) hstate]
  exact h data hdata

/-- What a job reads of its core while the buffers of a tensor arrive. -/
def context (c : FileReaderCore A) :
    List IndexEntry × UInt64 × ℕ × Option Job × Option Walk :=
  (c.index, c.dataBufferAlignment, c.maxCompositeDepth, c.job, c.walk)

/-- The tensor being assembled has the name, the descriptor and these buffers. -/
def Assembled (c : FileReaderCore A) (name : String) (d : TensorDescriptor)
    (buffers : List Bytes) : Prop :=
  ∃ q, c.pending = some q ∧ q.name = name ∧ q.descriptor = d ∧ q.buffers = buffers

theorem beginBuffer_eq {h : BufferHandle} (hp : c.pending = some p)
    (hh : p.descriptor.buffers[index]? = some h) : c.beginBuffer index =
      { c with destinations := (DestinationAlloc.allocate ⟨index, h.byteSize, h.alignment⟩
          c.destinations).2 }.orFail
        (DestinationAlloc.allocate ⟨index, h.byteSize, h.alignment⟩ c.destinations).1 fun dest =>
          (.ok (), { c with
            destinations := (DestinationAlloc.allocate ⟨index, h.byteSize, h.alignment⟩
              c.destinations).2,
            pending := some { p with dest := some dest }, cursor := p.nextOffset,
            target := h.byteSize.toNat, filled := 0, state := .buffer index }) := by
  unfold beginBuffer
  rw [hp]
  dsimp only
  rw [hh]

/-- A buffer that is complete is followed by the padding, and by the next one if there is one. -/
theorem finishBuffer_eq {mem : Bytes} (hp : c.pending = some p) (hdest : p.dest = some mem) :
    c.finishBuffer index =
      if index + 1 < p.descriptor.buffers.length then
        { c with pending := some { p with buffers := p.buffers ++ [mem], dest := none } }.orFail
          (alignUp c.cursor c.dataBufferAlignment) fun offset =>
            { c with pending := some { p with buffers := p.buffers ++ [mem], dest := none,
                                              nextOffset := offset } }.beginBuffer (index + 1)
      else
        { c with pending := some { p with buffers := p.buffers ++ [mem],
                                          dest := none } }.completeTensor := by
  unfold finishBuffer
  rw [hp]
  dsimp only
  rw [hdest]

/-- The core with the memory of a buffer, all of which has arrived. -/
def received (c : FileReaderCore A) (p : FilePending) (index : ℕ) (h : BufferHandle)
    (data : Bytes) : FileReaderCore A :=
  { c with
    destinations :=
      (DestinationAlloc.allocate ⟨index, h.byteSize, h.alignment⟩ c.destinations).2,
    pending := some { p with dest := some data }, cursor := p.nextOffset + h.byteSize,
    target := h.byteSize.toNat, filled := data.length, state := .buffer index }

theorem goes_buffer (hA : LawfulAlloc A) {h : BufferHandle} {k : Bytes → Result β}
    (hp : c.pending = some p) (hh : p.descriptor.buffers[index]? = some h)
    (hk : ∀ data, Goes crc32c file f ((c.received p index h data).finishBuffer index) (k data)) :
    Goes crc32c file f (c.beginBuffer index)
      ((DestinationAlloc.allocate ⟨index, h.byteSize, h.alignment⟩ c.destinations).1 >>= fun _ =>
        fetch file p.nextOffset h.byteSize.toNat >>= k) := by
  rw [beginBuffer_eq hp hh]
  apply goes_orFail
  intro mem hmem
  have hlen : mem.length = h.byteSize.toNat := by
    rw [hA.zeroed _ _ mem hmem]
    exact List.length_replicate
  let waiting : FileReaderCore A := { c with
    destinations := (DestinationAlloc.allocate ⟨index, h.byteSize, h.alignment⟩ c.destinations).2,
    pending := some { p with dest := some mem }, cursor := p.nextOffset,
    target := h.byteSize.toNat, filled := 0, state := .buffer index }
  have hdrives : Drives crc32c file f waiting (fetch file p.nextOffset mem.length >>= k) := by
    apply drives_buffer rfl rfl rfl rfl hlen.symm (by rw [hlen]; exact h.byteSize.toNat_lt_size)
    intro data hdata
    obtain ⟨_, hdatalen, _⟩ := fetch_eq_ok.mp hdata
    have hcursor : p.nextOffset + UInt64.ofNat data.length = p.nextOffset + h.byteSize := by
      rw [hdatalen, hlen, UInt64.ofNat_toNat]
    have hgoes := hk data
    rw [received, ← hcursor] at hgoes
    exact hgoes
  rw [hlen] at hdrives
  exact hdrives

/-- The buffers of a tensor arrive one after the other. -/
theorem goes_beginBuffer (hA : LawfulAlloc A) {h : BufferHandle} {hs : List BufferHandle}
    {alignment offset : UInt64} {a : A} {k : List Bytes × A → Result β} (hp : c.pending = some p)
    (hdrop : p.descriptor.buffers.drop index = h :: hs)
    (halignment : c.dataBufferAlignment = alignment) (hoffset : p.nextOffset = offset)
    (ha : c.destinations = a)
    (hk : ∀ buffers d, context d = c.context →
      Assembled d p.name p.descriptor (p.buffers ++ buffers) →
      Goes crc32c file f d.completeTensor (k (buffers, d.destinations))) :
    Goes crc32c file f (c.beginBuffer index)
      (readBuffers file alignment (h :: hs) index offset a >>= k) := by
  subst halignment hoffset ha
  induction hs generalizing c p index h k with
  | nil =>
    have hh : p.descriptor.buffers[index]? = some h := by
      rw [← List.head?_drop, hdrop, List.head?_cons]
    have hlen : p.descriptor.buffers.length = index + 1 := by
      have hlength := congrArg List.length hdrop
      rw [List.length_drop, List.length_singleton] at hlength
      omega
    rw [readBuffers]
    simp only [bind_assoc]
    apply goes_buffer hA hp hh
    intro data
    rw [finishBuffer_eq rfl rfl, if_neg (by dsimp only; omega)]
    exact hk [data] _ rfl ⟨_, rfl, rfl, rfl, rfl⟩
  | cons h' hs ih =>
    have hh : p.descriptor.buffers[index]? = some h := by
      rw [← List.head?_drop, hdrop, List.head?_cons]
    have hnext : p.descriptor.buffers.drop (index + 1) = h' :: hs := by
      rw [← List.drop_drop, hdrop]
      rfl
    have hlen : index + 1 < p.descriptor.buffers.length := by
      have hlength := congrArg List.length hnext
      rw [List.length_drop, List.length_cons] at hlength
      omega
    rw [readBuffers]
    simp only [bind_assoc]
    apply goes_buffer hA hp hh
    intro data
    rw [finishBuffer_eq rfl rfl, if_pos hlen]
    simp only [List.isEmpty_cons, Bool.false_eq_true, if_false, bind_assoc, pure_bind]
    apply goes_orFail
    intro offset _
    have hgoes := ih (c := { c.received p index h data with
      pending := some { p with buffers := p.buffers ++ [data], dest := none,
                               nextOffset := offset } })
      (k := fun x => k (data :: x.1, x.2)) rfl hnext ?_
    · dsimp only [received] at hgoes
      exact hgoes
    intro buffers d hcontext hassembled
    rw [List.append_assoc] at hassembled
    exact hk (data :: buffers) d hcontext hassembled

/-- A tensor with its buffers, or at once if it has none. -/
theorem goes_beginBuffers (hA : LawfulAlloc A) {d : TensorDescriptor} {alignment offset : UInt64}
    {name : String} {a : A} {k : FileTensor × A → Result β}
    (halignment : c.dataBufferAlignment = alignment) (hoffset : c.entryDataOffset = offset)
    (hname : c.entryName = name) (ha : c.destinations = a)
    (hk : ∀ buffers d', context d' = c.context → Assembled d' name d buffers →
      Goes crc32c file f d'.completeTensor (k (⟨name, d, buffers⟩, d'.destinations))) :
    Goes crc32c file f (c.beginBuffers d)
      (readTensor file alignment name offset d a >>= k) := by
  unfold beginBuffers readTensor
  simp only [bind_assoc, pure_bind]
  cases hbuffers : d.buffers with
  | nil =>
    rw [List.length_nil, if_pos rfl, readBuffers, Exec.ok_bind, ← ha]
    exact hk [] _ rfl ⟨_, rfl, hname, rfl, rfl⟩
  | cons h hs =>
    rw [List.length_cons, if_neg (Nat.succ_ne_zero _)]
    refine goes_beginBuffer hA (p := ⟨c.entryName, d, [], none, c.entryDataOffset⟩) rfl hbuffers
      halignment hoffset ha ?_
    intro buffers d' hcontext hassembled
    rw [hname, List.nil_append] at hassembled
    exact hk buffers d' hcontext hassembled

end Buffers

/-! ### Jobs -/

/-- What a driver collects from a core. -/
def jobView (x : FileStep × FileReaderCore A) : Option Delivery × A :=
  (match x.1 with
    | .descriptor => x.2.takeDescriptor.1.map .descriptor
    | .tensor => x.2.takeTensor.1.map .tensor
    | .composite => x.2.takeComposite.1.map .composite
    | _ => none, x.2.destinations)

theorem goes_completeTensor {t : FileTensor} (hjob : c.job = some .tensor)
    (h : c.Assembled t.name t.descriptor t.buffers) :
    Goes crc32c file jobView c.completeTensor (.ok (some (.tensor t), c.destinations)) := by
  obtain ⟨q, hq, hname, hd, hbuffers⟩ := h
  unfold completeTensor
  rw [hq]
  dsimp only
  rw [hjob, hname, hd, hbuffers]
  exact drives_answers (s := .tensor) rfl nofun

/-- The core as it comes to a name of the walk. -/
theorem advance_descriptor (hstate : c.state = .descriptor) :
    c.advance crc32c = c.finishDescriptor := by
  unfold advance
  rw [hstate]

section Describing
variable {β : Type} {f : FileStep × FileReaderCore A → β} {e : IndexEntry}

/-- The core at the end of the bytes of a descriptor. -/
def described (c : FileReaderCore A) (e : IndexEntry) (data : Bytes) : FileReaderCore A :=
  (c.describing e).staged data

/-- What a job does with a descriptor. -/
def proceed (c : FileReaderCore A) (job : Job) (d : TensorDescriptor) :
    Result Unit × FileReaderCore A :=
  match job with
  | .descriptor => (.ok (), { c with descriptorOut := some d, state := .done .descriptor })
  | .tensor => c.beginBuffers d
  | .walk => c.walkDescriptor d

theorem finishDescriptor_eq {job : Job} (hjob : c.job = some job) :
    c.finishDescriptor =
      c.orFail (Exec.mapError .core (decode c.staging)) fun d => c.proceed job d := by
  unfold finishDescriptor
  congr 1
  funext d
  split
  · next h =>
    cases h.symm.trans hjob
    rfl
  · next h =>
    cases h.symm.trans hjob
    rfl
  · next h =>
    cases h.symm.trans hjob
    rfl
  · next h => cases h.symm.trans hjob

theorem drives_describing {k : TensorDescriptor → Result β} (job : Job) (hjob : c.job = some job)
    (h : ∀ data d, Goes crc32c file f ((c.described e data).proceed job d) (k d)) :
    Drives crc32c file f (c.describing e) (readDescriptor file e >>= k) := by
  rw [readDescriptor, bind_assoc]
  apply drives_staged
  · rfl
  · nofun
  · rfl
  · rfl
  · rfl
  · exact lt_of_le_of_lt (toNat_le_isize e.descriptorLength) (by decide)
  · rfl
  · intro data _
    rw [advance_descriptor rfl, finishDescriptor_eq (c := (c.describing e).staged data) hjob]
    apply goes_orFail
    intro d _
    exact h data d

end Describing

/-! ### The walk -/

theorem goes_deliverTo {β : Type} {f : FileStep × FileReaderCore A → β} {walk : Walk}
    {stack : List Open} {item : FileItem} {k : List Open ⊕ FileComposite → Result β}
    (hnext : ∀ stack', Goes crc32c file f
      { c with walk := some { walk with stack := stack' } }.walkNext (k (.inl stack')))
    (hdone : ∀ composite, Goes crc32c file f (.ok (), { c with
      compositeOut := some composite, walk := none, state := .done .composite })
        (k (.inr composite))) :
    Goes crc32c file f (c.deliverTo walk stack item) (handOver stack item >>= k) := by
  induction stack generalizing item with
  | nil =>
    cases item with
    | tensor t => exact goes_fail _
    | composite name head members => exact hdone ⟨name, head, members⟩
  | cons top rest ih =>
    unfold deliverTo handOver
    simp only [bind_assoc]
    apply goes_orFail
    intro validator _
    by_cases hlt : UInt32.ofNat (top.members ++ [item]).length < top.memberCount
    · simp only [hlt, if_true, pure_bind]
      exact hnext _
    · simp only [hlt, if_false, bind_assoc]
      apply goes_orFail
      intro _ _
      exact ih

/-- A descriptor that the walk has come to. -/
theorem goes_walkDescriptor {β : Type} {f : FileStep × FileReaderCore A → β} (hA : LawfulAlloc A)
    {walk : Walk} {alignment : UInt64} {depth : ℕ} {a : A} {e : IndexEntry} {d : TensorDescriptor}
    {k : (List Open ⊕ FileComposite) × A → Result β}
    (hwalk : c.walk = some walk) (hjob : c.job = some .walk) (hname : c.entryName = e.name)
    (hoffset : c.entryDataOffset = e.dataOffset) (halignment : c.dataBufferAlignment = alignment)
    (hdepth : c.maxCompositeDepth = depth) (ha : c.destinations = a)
    (hnext : ∀ stack d', context d' = (c.index, alignment, depth, some .walk,
        some { walk with stack }) →
      Goes crc32c file f d'.walkNext (k (.inl stack, d'.destinations)))
    (hdone : ∀ composite d', d'.compositeOut = some composite → d'.state = .done .composite →
      Goes crc32c file f (.ok (), d') (k (.inr composite, d'.destinations))) :
    Goes crc32c file f (c.walkDescriptor d)
      (readNode file alignment depth walk.stack e d a >>= k) := by
  unfold walkDescriptor
  split
  · next layout hlayout =>
    rw [readNode_of_head hlayout, hwalk]
    dsimp only
    rw [hdepth]
    simp only [bind_assoc, pure_bind]
    by_cases hdeep : depth ≤ walk.stack.length
    · rw [if_pos hdeep, Exec.reject, if_pos hdeep]
      exact goes_fail _
    · rw [if_neg hdeep, Exec.reject, if_neg hdeep, Exec.ok_bind]
      apply goes_orFail
      intro validator _
      rw [hname, ← ha]
      apply hnext
      show (c.index, c.dataBufferAlignment, depth, c.job, some { walk with stack := _ }) = _
      rw [halignment, hjob]
  · next hlayout =>
    rw [readNode_of_tensor hlayout, hwalk]
    simp only [bind_assoc, pure_bind, Option.any_some]
    by_cases hempty : walk.stack.isEmpty = true
    · rw [if_pos hempty, Exec.reject, if_pos hempty, hname]
      exact goes_fail _
    · rw [if_neg hempty, Exec.reject, if_neg hempty, Exec.ok_bind]
      apply goes_beginBuffers hA halignment hoffset hname ha
      intro buffers d' hcontext hassembled
      obtain ⟨q, hq, hqname, hqd, hqbuffers⟩ := hassembled
      simp only [context, Prod.mk.injEq] at hcontext
      obtain ⟨hindex', halignment', hdepth', hjob', hwalk'⟩ := hcontext
      unfold completeTensor
      rw [hq]
      dsimp only
      rw [hjob', hjob, hqname, hqd, hqbuffers]
      dsimp only
      unfold deliver
      dsimp only
      rw [hwalk', hwalk]
      dsimp only
      apply goes_deliverTo
      · intro stack
        apply hnext
        show (d'.index, d'.dataBufferAlignment, d'.maxCompositeDepth, some Job.walk,
          some { walk with stack }) = _
        rw [hindex', halignment', halignment, hdepth', hdepth]
      · intro composite
        exact hdone composite _ rfl rfl

/-- What the driver of a walk gets. -/
def walkResult (x : FileComposite × A) : Option Delivery × A := (some (.composite x.1), x.2)

/-- A name of the walk, before the names that are left. -/
theorem drives_walk (hA : LawfulAlloc A) (walk : Walk) {names : List String} {alignment : UInt64}
    {depth : ℕ} {index : List IndexEntry} {a : A} {e : IndexEntry} (hwalk : c.walk = some walk)
    (hjob : c.job = some .walk) (halignment : c.dataBufferAlignment = alignment)
    (hdepth : c.maxCompositeDepth = depth) (hindex : c.index = index) (ha : c.destinations = a)
    (hrest : ∀ stack (d' : FileReaderCore A), context d' = (index, alignment, depth, some .walk,
        some { walk with stack }) →
      Goes crc32c file jobView d'.walkNext
        (readWalk file alignment depth index names stack d'.destinations >>= fun x =>
          pure (walkResult x))) :
    Drives crc32c file jobView (c.describing e) (do
      let d ← readDescriptor file e
      let node ← readNode file alignment depth walk.stack e d a
      let x ← (match node.1 with
        | .inl stack => readWalk file alignment depth index names stack node.2
        | .inr composite => pure (composite, node.2))
      pure (walkResult x)) := by
  apply drives_describing .walk hjob
  intro data d
  apply goes_walkDescriptor hA (c := c.described e data) hwalk hjob rfl rfl halignment hdepth ha
  · intro stack d' hcontext
    apply hrest
    rw [hcontext, ← hindex]
    rfl
  · intro composite d' hout hstate
    have hview : jobView (.composite, d') = walkResult (composite, d'.destinations) := by
      rw [jobView, takeComposite, hout]
      rfl
    have hdrives : Drives crc32c file jobView d' (.ok (jobView (.composite, d'))) :=
      drives_answers hstate nofun
    rw [hview] at hdrives
    exact hdrives

theorem goes_walkNext (hA : LawfulAlloc A) {walk : Walk} {names : List String}
    {alignment : UInt64} {depth : ℕ} {index : List IndexEntry}
    (hcontext : c.context = (index, alignment, depth, some .walk, some walk))
    (hnames : walk.names.drop walk.cursor = names) :
    Goes crc32c file jobView c.walkNext
      (readWalk file alignment depth index names walk.stack c.destinations >>= fun x =>
        pure (walkResult x)) := by
  induction names generalizing c walk with
  | nil =>
    have hend : walk.names[walk.cursor]? = none := by
      rw [← List.head?_drop, hnames, List.head?_nil]
    simp only [context, Prod.mk.injEq] at hcontext
    obtain ⟨_, _, _, _, hwalk⟩ := hcontext
    unfold walkNext
    rw [hwalk]
    dsimp only
    rw [hend]
    dsimp only
    cases walk.stack with
    | nil => exact goes_fail _
    | cons top rest => exact goes_fail _
  | cons name names ih =>
    have hname : walk.names[walk.cursor]? = some name := by
      rw [← List.head?_drop, hnames, List.head?_cons]
    have hrest : walk.names.drop (walk.cursor + 1) = names := by
      rw [← List.drop_drop, hnames]
      rfl
    simp only [context, Prod.mk.injEq] at hcontext
    obtain ⟨hindex, halignment, hdepth, hjob, hwalk⟩ := hcontext
    rw [readWalk]
    simp only [bind_assoc]
    cases hfind : find index name with
    | none =>
      have hcore : find c.index name = none := by rw [hindex, hfind]
      unfold walkNext
      rw [hwalk]
      dsimp only
      rw [hname]
      dsimp only
      rw [startDescriptor_of_find_none (c := { c with
        walk := some { walk with cursor := walk.cursor + 1 } }) hcore]
      exact rfl
    | some e =>
      have hcore : find c.index name = some e := by rw [hindex, hfind]
      rw [walkNext_of_find hwalk hname hcore]
      show Drives crc32c file jobView _ _
      apply drives_walk hA { walk with cursor := walk.cursor + 1 }
        (c := { c with walk := some { walk with cursor := walk.cursor + 1 } })
        rfl hjob halignment hdepth hindex rfl
      intro stack d' hcontext
      exact ih hcontext hrest

/-- A job, whatever the reads return and whatever the core did before. -/
theorem drives_started (hA : LawfulAlloc A) {name : String} {e : IndexEntry}
    (hfind : find c.index name = some e) (job : Job) :
    Drives crc32c file jobView (c.started job e)
      (readJob file c.dataBufferAlignment c.maxCompositeDepth c.index job e c.destinations >>=
        fun x => pure (some x.1, x.2)) := by
  obtain ⟨rfl, hmem⟩ := name_of_find hfind
  cases job with
  | descriptor =>
    rw [readJob]
    simp only [bind_assoc, pure_bind]
    apply drives_describing .descriptor rfl
    intro data d
    exact drives_answers (s := .descriptor) rfl nofun
  | tensor =>
    rw [readJob]
    simp only [bind_assoc, pure_bind]
    apply drives_describing .tensor rfl
    intro data d
    apply goes_beginBuffers hA
    · rfl
    · rfl
    · rfl
    · rfl
    · intro buffers d' hcontext hassembled
      simp only [context, Prod.mk.injEq] at hcontext
      exact goes_completeTensor hcontext.2.2.2.1 hassembled
  | walk =>
    have hname : e.name ∈ orderedNames c.index := by
      rw [mem_orderedNames]
      exact List.mem_map_of_mem hmem
    obtain ⟨start, hstart⟩ := Option.isSome_iff_exists.mp (List.isSome_idxOf?.mpr hname)
    obtain ⟨hlt, hget, -⟩ := List.idxOf?_eq_some_iff.mp hstart
    have hnames : namesFrom c.index e.name =
        e.name :: (orderedNames c.index).drop (start + 1) := by
      rw [namesFrom, hstart, Option.elim_some, List.drop_eq_getElem_cons hlt, hget]
    have hwalk : jobWalk c.index .walk e.name = some ⟨orderedNames c.index, start + 1, []⟩ := by
      rw [jobWalk, if_pos rfl, hstart, Option.map_some]
    rw [readJob, hnames, readWalk, hfind, started, hwalk]
    simp only [bind_assoc, pure_bind]
    apply drives_walk hA ⟨orderedNames c.index, start + 1, []⟩ (c := { c.supersede .walk with
      walk := some ⟨orderedNames c.index, start + 1, []⟩ }) rfl rfl rfl rfl rfl rfl
    intro stack d' hcontext
    exact goes_walkNext hA hcontext rfl

end FileReaderCore
end Hurray.File
