import Hurray.Base.Runs
import Hurray.File.WrittenReading

/-!
From the tensors that are given to a writer to the tensors that a reader delivers.
Every item is submitted, and its bytes go to a sink that accepts at least one byte
of what it is offered and otherwise as few as it likes; the file is then opened and
read by reads that return as few bytes as they like.
-/
namespace Hurray.File
open Hurray.Base Hurray.Core Hurray.Descriptor Hurray.Stream StateTransition

/-! ### What is written -/

def FileTensor.submission (t : FileTensor) : FileSubmission :=
  .tensor t.name t.descriptor t.buffers

/-- The tensors at the places where a writer puts them from an offset on. -/
def stow (alignment : ℕ) : ℕ → List FileTensor → List Stowed
  | _, [] => []
  | offset, t :: ts =>
      let placement : Placement :=
        ⟨alignment, offset, (encode t.descriptor).toOption.getD [], t.buffers⟩
      ⟨t.name, t.descriptor, placement⟩ :: stow alignment placement.itemEnd ts

/-- Where the tensors of a file end. -/
def tensorsEnd (options : FileWriterOptions) (ts : List FileTensor) : ℕ :=
  FILE_HEADER_SIZE.toNat + (Stowed.images (stow options.dataBufferAlignment.toNat
    FILE_HEADER_SIZE.toNat ts)).length

/-- The metadata with its padding. -/
def metadataSize (start : ℕ) (kv : List (String × KvValue)) : ℕ :=
  if kv.isEmpty then 0
  else roundUp (start + ((encodeKvSection kv).toOption.getD []).length) 8 - start

/-- The index of these names: a count, and an entry for each. -/
def indexSize (names : List String) : ℕ :=
  8 + (names.map fun name => 34 + (utf8Bytes name).length).sum

def fileSize (options : FileWriterOptions) (ts : List FileTensor) (kv : List (String × KvValue)) :
    ℕ :=
  tensorsEnd options ts + metadataSize (tensorsEnd options ts) kv +
    indexSize (ts.map FileTensor.name) + TRAILER_SIZE.toNat

/-- What a file is written of: tensors that can be encoded, with payloads of the declared sizes, and
metadata that is accepted and whose length is within its field. The index is one vector in
memory. -/
structure Writable (options : FileWriterOptions) (ts : List FileTensor)
    (kv : List (String × KvValue)) : Prop where
  named : ∀ t ∈ ts, Named t.name
  distinct : (ts.map FileTensor.name).Nodup
  encodes : ∀ t ∈ ts, ∃ encoded, encode t.descriptor = .ok encoded
  sizes : ∀ t ∈ ts,
    t.descriptor.buffers.map (fun h => h.byteSize.toNat) = t.buffers.map List.length
  keys : validateKvKeys kv = .ok ()
  metadata : ∃ bytes, encodeKvSection kv = .ok bytes ∧ bytes.length < UInt32.size
  index : indexSize (ts.map FileTensor.name) ≤ ISIZE_MAX
  size : fileSize options ts kv < UInt64.size

theorem length_encodeIndexSection (entries : List IndexEntry) :
    (encodeIndexSection entries).length = indexSize (entries.map IndexEntry.name) := by
  have hentries : (entries.flatMap encodeIndexEntry).length =
      ((entries.map IndexEntry.name).map fun name => 34 + (utf8Bytes name).length).sum := by
    induction entries with
    | nil => rfl
    | cons e entries ih =>
      simp only [List.flatMap_cons, List.length_append, ih, List.map_cons, List.sum_cons,
        encodeIndexEntry, length_u16Bytes, length_u32Bytes, length_u64Bytes]
      omega
  rw [encodeIndexSection, List.length_append, length_u64Bytes, hentries, indexSize]

theorem submission_injective : Function.Injective FileTensor.submission := by
  intro t u h
  obtain ⟨hname, hdescriptor, hbuffers⟩ := FileSubmission.tensor.inj h
  obtain ⟨name, d, buffers⟩ := t
  cases hname
  cases hdescriptor
  cases hbuffers
  rfl

/-- The items that were written tell the tensors. -/
theorem Stowed.tensors_of_items {us : List Stowed} {ts : List FileTensor}
    (h : us.map Stowed.item = ts.map FileTensor.submission) : us.map Stowed.tensor = ts := by
  have hitem : us.map Stowed.item = (us.map Stowed.tensor).map FileTensor.submission := by
    rw [List.map_map]
    rfl
  rw [hitem] at h
  exact List.map_injective_iff.mpr submission_injective h

theorem Stowed.names_of_tensors {us : List Stowed} {ts : List FileTensor}
    (h : us.map Stowed.tensor = ts) :
    (us.map Stowed.entry).map IndexEntry.name = ts.map FileTensor.name := by
  rw [← h, List.map_map, List.map_map]
  rfl

theorem indexSize_perm {names names' : List String} (h : names.Perm names') :
    indexSize names = indexSize names' := by
  rw [indexSize, indexSize, (h.map _).sum_eq]

structure FileWriteDriver where
  core : FileWriterCore
  flight : Option FileWriteOp
  todo : List FileSubmission
  sent : Bytes
  calls : ℕ

namespace FileWriteDriver
variable (crc32c : Bytes → UInt32) (accept : ℕ → ℕ)

/-- One round: an item is submitted, or bytes are offered and some accepted, or an item is
complete. `accept` says by how much the sink exceeds one byte at each call. -/
def round (d : FileWriteDriver) : Option FileWriteDriver :=
  match d.flight with
  | none =>
      match d.todo with
      | [] => none
      | item :: todo =>
          match d.core.submit crc32c item with
          | .ok op => some { d with flight := some op, todo }
          | .error _ => none
  | some op =>
      match op.step with
      | (.ok (.output len), op) =>
          let n := min len (accept d.calls + 1)
          match op.reportWritten n with
          | (.ok _, next) => some { d with flight := some next, calls := d.calls + 1,
                                           sent := d.sent ++ op.outputSrc.take n }
          | (.error _, _) => none
      | (.ok _, op) => some { d with core := op.core, flight := none }
      | (.error _, _) => none

variable {crc32c accept} {d : FileWriteDriver} {op : FileWriteOp} {core : FileWriterCore}
  {commit : Commit} {offset : UInt64} {torn : Bool}

/-- An operation over a core that takes items, with room for what is left of it. -/
structure Emitting (core : FileWriterCore) (commit : Commit) (op : FileWriteOp) : Prop where
  moved : ∃ torn, op.core = core.movedTo op.core.offset torn
  usable : core.unusable = none
  commit : op.commit = some commit
  healthy : op.failed = false
  room : op.core.offset.toNat + op.left.length < UInt64.size

variable (crc32c accept) in
/-- An operation is written to the end, however short the writes. -/
theorem reaches_itemWritten (hflight : d.flight = some op) (h : Emitting core commit op) :
    ∃ calls offset, offset.toNat = op.core.offset.toNat + op.left.length ∧
      Reaches (round crc32c accept) d { d with core := commit.apply (core.movedTo offset false),
                                               flight := none, sent := d.sent ++ op.left, calls } := by
  induction hn : op.left.length using Nat.strong_induction_on generalizing d op with
  | h n ih =>
    obtain ⟨torn, hcore⟩ := h.moved
    have hu : op.core.unusable = none := by
      rw [hcore]
      exact h.usable
    obtain ⟨cursor, written, hleft, hstep⟩ := FileWriteOp.stepLoop_spec op
    rw [← FileWriteOp.step_eq_stepLoop hu h.healthy] at hstep
    generalize hop : op.moveTo cursor written = op' at hleft hstep
    have hcore' : op'.core = op.core := by rw [← hop]; rfl
    have hcommit' : op'.commit = some commit := by rw [← hop]; exact h.commit
    have hhealthy' : op'.failed = false := by rw [← hop]; exact h.healthy
    have hplan' : op'.plan[op'.cursor]? = op.plan[cursor]? := by rw [← hop]; rfl
    rcases hstep with ⟨hnone, hstep⟩ | ⟨hpos, hstep⟩
    · have hnil : op.left = [] := by
        rw [← hleft]
        exact FileWriteOp.left_of_none (hplan'.trans hnone)
      refine ⟨d.calls, op.core.offset, ?_, .single ?_⟩
      · rw [← hn, hnil]
        rfl
      · show round crc32c accept d = _
        unfold round
        rw [hflight]
        dsimp only
        rw [hstep]
        dsimp only
        rw [hnil, List.append_nil, FileWriteOp.complete, hcommit', Option.elim_some, hcore', hcore]
        rfl
    · obtain ⟨k, hk⟩ : ∃ k, k = min op'.offered (accept d.calls + 1) := ⟨_, rfl⟩
      have hle : k ≤ op'.offered := by omega
      have htaken : (op'.outputSrc.take k).length = k := by
        rw [List.length_take, FileWriteOp.length_outputSrc, Nat.min_eq_left hle]
      have hroom := h.room
      have hfits : op'.core.offset.toNat + k < UInt64.size := by
        have hlen := congrArg List.length (FileWriteOp.left_eq_of_accepted hle op'.core.offset)
        rw [List.length_append, htaken, hleft] at hlen
        rw [hcore']
        omega
      have hu' : op'.core.unusable = none := by rw [hcore', hu]
      rcases FileWriteOp.reportWritten_cases hu' hhealthy' k with
        ⟨-, -, next, hnext, hreport⟩ | ⟨-, -, hpanic⟩ | ⟨hlt, -⟩ | ⟨hlt, -⟩ | ⟨hzero, -⟩
      · have hfront := FileWriteOp.left_eq_of_accepted hle next
        have hlen := congrArg List.length hfront
        rw [List.length_append, htaken, hleft] at hlen
        rw [hcore'] at hnext
        have hemitting : Emitting core commit (op'.accepted k next) := by
          refine ⟨⟨op'.core.torn || decide (op'.emittedBytes = 0), ?_⟩, h.usable, hcommit', hhealthy',
            ?_⟩
          · show { op'.core with
              offset := next, torn := op'.core.torn || decide (op'.emittedBytes = 0) } = _
            rw [hcore', hcore]
            rfl
          · show next.toNat + (op'.accepted k next).left.length < UInt64.size
            omega
        obtain ⟨calls, offset, hoffset, hreach⟩ := ih (op'.accepted k next).left.length (by omega)
          (d := { d with flight := some (op'.accepted k next), calls := d.calls + 1,
                         sent := d.sent ++ op'.outputSrc.take k }) rfl hemitting rfl
        have hround : round crc32c accept d = some { d with
            flight := some (op'.accepted k next), calls := d.calls + 1,
            sent := d.sent ++ op'.outputSrc.take k } := by
          unfold round
          rw [hflight]
          dsimp only
          rw [hstep]
          dsimp only
          rw [← hk, hreport]
        refine ⟨calls, offset, ?_, .head hround ?_⟩
        · rw [hoffset]
          show next.toNat + _ = _
          omega
        · rw [← hleft, hfront, ← List.append_assoc]
          exact hreach
      · have hok := FileWriteOp.reportWritten_of_room hu' hhealthy' (by omega) hle hfits
        rw [hpanic] at hok
        cases hok
      · omega
      · omega
      · omega

variable (crc32c accept) in
/-- An item that is accepted is written to the end, if the file has room for it. -/
theorem reaches_written {item : FileSubmission} (todo : List FileSubmission) (sent : Bytes)
    (calls : ℕ)
    (halign : core.alignment ≠ 0) (hsubmit : core.submit crc32c item = .ok op)
    (hcommit : op.commit = some commit)
    (hroom : core.offset.toNat + op.image.length < UInt64.size) :
    ∃ calls' offset, offset.toNat = core.offset.toNat + op.image.length ∧
      Reaches (round crc32c accept) ⟨core, none, item :: todo, sent, calls⟩
        ⟨commit.apply (core.movedTo offset false), none, todo, sent ++ op.image, calls'⟩ := by
  obtain ⟨hretired, plan, bytes, payloads, commit', -, hop⟩ :=
    FileWriterCore.submit_eq_start halign hsubmit
  obtain ⟨hu, htorn⟩ := FileWriterCore.retired_eq_none.mp hretired
  have hcore : op.core = core := by rw [hop]; rfl
  have hleft : op.left = op.image := by
    rw [hop]
    exact FileWriteOp.left_start rfl rfl
  have hemitting : Emitting core commit op := by
    refine ⟨⟨false, ?_⟩, hu, hcommit, ?_, ?_⟩
    · rw [hcore, FileWriterCore.movedTo, ← htorn]
    · rw [hop]
      rfl
    · rw [hcore, hleft]
      exact hroom
  obtain ⟨calls', offset, hoffset, hreach⟩ := reaches_itemWritten crc32c accept
    (d := ⟨core, some op, todo, sent, calls⟩) rfl hemitting
  rw [hleft] at hreach hoffset
  rw [hcore] at hoffset
  refine ⟨calls', offset, hoffset, .head ?_ hreach⟩
  show round crc32c accept ⟨core, none, item :: todo, sent, calls⟩ = _
  unfold round
  dsimp only
  rw [hsubmit]

variable (crc32c accept) in
/-- Tensors are accepted and written one after another. -/
theorem reaches_tensors {options : FileWriterOptions} {ts : List FileTensor} {body : Bytes}
    {items : List FileSubmission} (todo : List FileSubmission) (calls : ℕ) (halign : core.alignment ≠ 0)
    (hstocked : Stowed.Stocked options core body items) (hopen : core.Open)
    (hoffset : core.offset.toNat = body.length) (hnamed : ∀ t ∈ ts, Named t.name)
    (hdistinct : (ts.map FileTensor.name).Nodup)
    (hfresh : ∀ t ∈ ts, t.name ∉ core.seenNames)
    (hencodes : ∀ t ∈ ts, ∃ encoded, encode t.descriptor = .ok encoded)
    (hsizes : ∀ t ∈ ts,
      t.descriptor.buffers.map (fun h => h.byteSize.toNat) = t.buffers.map List.length)
    (hroom : body.length + (Stowed.images
      (stow options.dataBufferAlignment.toNat body.length ts)).length < UInt64.size) :
    ∃ core' calls' body', body' = body ++ Stowed.images
        (stow options.dataBufferAlignment.toNat body.length ts) ∧
      Reaches (round crc32c accept)
        ⟨core, none, ts.map FileTensor.submission ++ todo, body, calls⟩
        ⟨core', none, todo, body', calls'⟩ ∧
      core'.alignment ≠ 0 ∧ core'.Open ∧ core'.offset.toNat = body'.length ∧
      Stowed.Stocked options core' body' (items ++ ts.map FileTensor.submission) := by
  induction ts generalizing core body items calls with
  | nil =>
    refine ⟨core, calls, body, (List.append_nil _).symm, .refl, halign, hopen, hoffset, ?_⟩
    rw [List.map_nil, List.append_nil]
    exact hstocked
  | cons t ts ih =>
    rw [List.forall_mem_cons] at hnamed hfresh hencodes hsizes
    obtain ⟨hname, hnames⟩ := List.nodup_cons.mp hdistinct
    obtain ⟨encoded, henc⟩ := hencodes.1
    have halignment : core.alignment.toNat = options.dataBufferAlignment.toNat := by
      rw [hstocked.alignment, UInt32.toNat_toUInt64]
    let s : Stowed := ⟨t.name, t.descriptor, core.place encoded t.buffers⟩
    have hplacement : s.placement = ⟨options.dataBufferAlignment.toNat, body.length,
        (encode t.descriptor).toOption.getD [], t.buffers⟩ := by
      show Placement.mk core.alignment.toNat core.offset.toNat encoded t.buffers = _
      rw [halignment, hoffset, henc]
      rfl
    have hstow : stow options.dataBufferAlignment.toNat body.length (t :: ts) =
        s :: stow options.dataBufferAlignment.toNat s.placement.itemEnd ts := by
      rw [stow, ← hplacement]
    have hlength : (body ++ s.placement.image).length = s.placement.itemEnd := by
      rw [List.length_append, ← s.placement.length_image, ← hoffset]
      rfl
    rw [hstow, Stowed.images, List.flatMap_cons, ← Stowed.images, ← hlength] at hroom ⊢
    rw [← List.append_assoc]
    rw [List.length_append] at hroom
    have hfits : s.placement.itemEnd < UInt64.size := by
      rw [← hlength, List.length_append]
      omega
    have hsubmit : core.submit crc32c t.submission = .ok (core.start s.placement.plan
        s.placement.encoded s.placement.buffers (.tensor s.entry)) :=
      (FileWriterCore.tensor_eq_ok halign).mpr
        ⟨hopen, ⟨hnamed.1.1, hnamed.1.2, hfresh.1⟩, hsizes.1, encoded, henc, hfits, rfl⟩
    have himage : (core.start s.placement.plan s.placement.encoded s.placement.buffers
        (.tensor s.entry)).image = s.placement.image := FileWriterCore.image_start_plan _ _
    obtain ⟨calls₁, offset, hnext, hfirst⟩ := reaches_written crc32c accept
      (ts.map FileTensor.submission ++ todo) body calls halign hsubmit rfl
      (by rw [himage, hoffset]; omega)
    rw [himage] at hnext hfirst
    let core₁ : FileWriterCore := (Commit.tensor s.entry).apply (core.movedTo offset false)
    have halign₁ : core₁.alignment ≠ 0 := halign
    have hstocked' : Stowed.Stocked options core₁ (body ++ s.placement.image)
        (items ++ [s.item]) := hstocked.tensor hopen.headerWritten
          ⟨rfl, henc, hsizes.1, hfits, hnamed.1.1, hnamed.1.2⟩ hfresh.1 hoffset
    have hoffset' : offset.toNat = (body ++ s.placement.image).length := by
      rw [hnext, hoffset, List.length_append]
    have hretired : core₁.retired = none :=
      FileWriterCore.retired_eq_none.mpr ⟨(FileWriterCore.retired_eq_none.mp hopen.retired).1, rfl⟩
    have hunseen : ∀ t' ∈ ts, t'.name ∉ t.name :: core.seenNames := by
      intro t' ht' hseen
      rcases List.mem_cons.mp hseen with heq | hseen
      · rw [← heq] at hname
        exact hname (List.mem_map_of_mem ht')
      · exact hfresh.2 t' ht' hseen
    have happended := @List.length_append _ body s.placement.image
    obtain ⟨core', calls', body', hbody, hreach, hgoes, hopen', hend, hstocked''⟩ := ih
      calls₁ halign₁ hstocked' ⟨hretired, hopen.finished, hopen.headerWritten⟩ hoffset'
      hnamed.2 hnames hunseen hencodes.2 hsizes.2 (by omega)
    refine ⟨core', calls', body', ?_, .trans hfirst hreach, hgoes, hopen', hend, ?_⟩
    · rw [hbody]
    · rw [List.append_assoc] at hstocked''
      exact hstocked''

/-- The metadata of a footer is as long as said, if the file has room for it. -/
theorem exists_planKv {kv : List (String × KvValue)} {bytes : Bytes}
    (henc : encodeKvSection kv = .ok bytes)
    (hroom : core.offset.toNat + metadataSize core.offset.toNat kv < UInt64.size) :
    ∃ footer kvOffset kvLength, core.planKv kv = .ok (footer, kvOffset, kvLength) ∧
      footer.length = metadataSize core.offset.toNat kv := by
  by_cases hkv : kv = []
  · refine ⟨[], 0, 0, FileWriterCore.planKv_eq_ok.mpr (.inl ⟨hkv, rfl, rfl, rfl⟩), ?_⟩
    rw [hkv]
    rfl
  · have hround := le_roundUp (core.offset.toNat + bytes.length) 8
    have hsize : metadataSize core.offset.toNat kv =
        roundUp (core.offset.toNat + bytes.length) 8 - core.offset.toNat := by
      rw [metadataSize, if_neg (by simpa using hkv), henc]
      rfl
    rw [hsize] at hroom ⊢
    refine ⟨_, _, _, FileWriterCore.planKv_eq_ok.mpr
      (.inr ⟨hkv, bytes, henc, by omega, rfl, rfl, rfl⟩), ?_⟩
    rw [List.length_append, List.length_replicate]
    omega

variable (crc32c accept) in
/-- The header is written first. -/
theorem reaches_header {options : FileWriterOptions} (todo : List FileSubmission)
    (hcore : FileWriterCore.withOptions options = .ok core) :
    ∃ core' calls body, body.length = FILE_HEADER_SIZE.toNat ∧
      Reaches (round crc32c accept) ⟨core, none, .header :: todo, [], 0⟩
        ⟨core', none, todo, body, calls⟩ ∧
      core'.alignment ≠ 0 ∧ core'.Open ∧ core'.offset.toNat = body.length ∧ core'.seenNames = [] ∧
      Stowed.Stocked options core' body [.header] := by
  obtain ⟨halign, -⟩ := FileWriterLife.consistent_withOptions hcore
  obtain ⟨_, -, hpure⟩ := Exec.bind_eq_ok.mp hcore
  cases hpure
  have hlength : (FileWriterCore.build options).encodeHeader.length = FILE_HEADER_SIZE.toNat :=
    Stowed.length_encodeHeader
  have hheader : (FileWriterCore.build options).submit crc32c .header =
      .ok ((FileWriterCore.build options).start [.owned]
        (FileWriterCore.build options).encodeHeader [] .header) :=
    FileWriterCore.header_eq_ok.mpr ⟨rfl, rfl, rfl, rfl⟩
  have hroom : (FileWriterCore.build options).offset.toNat +
      (FileWriterCore.build options).encodeHeader.length < UInt64.size := by
    rw [hlength]
    show 0 + FILE_HEADER_SIZE.toNat < UInt64.size
    decide
  obtain ⟨calls, offset, hoffset, hreach⟩ := reaches_written crc32c accept todo [] 0 halign
    hheader rfl (by
      rw [FileWriterCore.image_start_owned]
      exact hroom)
  rw [FileWriterCore.image_start_owned] at hoffset hreach
  have hstocked : Stowed.Stocked options
      (Commit.header.apply ((FileWriterCore.build options).movedTo offset false))
      ([] ++ (FileWriterCore.build options).encodeHeader) ([] ++ [.header]) :=
    Stowed.stocked_build.header rfl
  exact ⟨_, calls, _, hlength, hreach, halign, ⟨rfl, rfl, rfl⟩, hoffset.trans (Nat.zero_add _), rfl,
    hstocked⟩

/-- Tensors and metadata become a file with a footer, however short the writes. -/
theorem reaches_footed {options : FileWriterOptions} {ts : List FileTensor}
    {kv : List (String × KvValue)} (hcore : FileWriterCore.withOptions options = .ok core)
    (h : Writable options ts kv) (crc32c : Bytes → UInt32) (accept : ℕ → ℕ) :
    ∃ w ∈ eval (round crc32c accept)
        ⟨core, none, .header :: (ts.map FileTensor.submission ++ [.finish kv]), [], 0⟩,
      w.flight = none ∧ w.todo = [] ∧ w.sent.length = fileSize options ts kv ∧
      Footed crc32c options kv (.header :: ts.map FileTensor.submission) w.sent := by
  have hsize := h.size
  obtain ⟨core₁, calls₁, header, hlength, hfirst, halign₁, hopen₁, hoffset₁, hseen, hstocked₁⟩ :=
    reaches_header crc32c accept (ts.map FileTensor.submission ++ [.finish kv]) hcore
  have hunseen : ∀ t ∈ ts, t.name ∉ core₁.seenNames := by
    intro t _
    rw [hseen]
    exact List.not_mem_nil
  have hend : header.length + (Stowed.images
      (stow options.dataBufferAlignment.toNat header.length ts)).length = tensorsEnd options ts := by
    rw [hlength]
    rfl
  obtain ⟨core₂, calls₂, body, hbody, hsecond, halign₂, hopen₂, hoffset₂, hstocked₂⟩ :=
    reaches_tensors crc32c accept [.finish kv] calls₁ halign₁ hstocked₁ hopen₁ hoffset₁ h.named
      h.distinct hunseen h.encodes h.sizes (by
        rw [hend]
        unfold fileSize at hsize
        omega)
  have hbodyEnd : core₂.offset.toNat = tensorsEnd options ts := by
    rw [hoffset₂, hbody, List.length_append, hend]
  obtain ⟨bytes, henc, -⟩ := h.metadata
  have hsize' := hsize
  unfold fileSize at hsize'
  rw [← hbodyEnd] at hsize'
  obtain ⟨footer, kvOffset, kvLength, hplan, hfooter⟩ := exists_planKv henc
    (show core₂.offset.toNat + metadataSize core₂.offset.toNat kv < UInt64.size by omega)
  have hindex : (encodeIndexSection core₂.indexOrder).length =
      indexSize (ts.map FileTensor.name) := by
    obtain ⟨us, haccount⟩ : ∃ us, Stowed.Account core₂ body
        (.header :: ts.map FileTensor.submission) us := by
      rcases hstocked₂.stock with ⟨-, -, hitems, -⟩ | haccount
      · cases hitems
      · exact haccount
    have htensors := Stowed.tensors_of_items (List.cons.inj haccount.items).2.symm
    rw [length_encodeIndexSection, indexSize_perm ((indexOrder_perm core₂).map IndexEntry.name),
      haccount.entries, Stowed.names_of_tensors htensors]
  obtain ⟨indexOffset, hindexOffset⟩ := exists_word
    (n := core₂.offset.toNat + footer.length) (by omega)
  have hfinish : core₂.submit crc32c (.finish kv) = .ok _ := FileWriterCore.finish_eq_ok.mpr
    ⟨hopen₂, h.keys, footer, kvOffset, kvLength, indexOffset, hplan, hindexOffset, rfl⟩
  generalize hop : core₂.start _ _ _ _ = op at hfinish
  have himage : core₂.offset.toNat + op.image.length = fileSize options ts kv := by
    rw [← hop, FileWriterCore.image_start_owned]
    simp only [List.length_append, hfooter, hindex, length_encodeTrailer]
    rw [fileSize, hbodyEnd]
    show _ + (_ + _ + TRAILER_SIZE.toNat) = _
    omega
  obtain ⟨calls₃, offset₃, -, hthird⟩ := reaches_written crc32c accept [] body calls₂
    halign₂ hfinish (show op.commit = some .footer by rw [← hop]; rfl) (himage ▸ hsize)
  have hsent : (body ++ op.image).length = fileSize options ts kv := by
    rw [List.length_append, ← hoffset₂]
    exact himage
  refine ⟨_, mem_eval.mpr ⟨.trans hfirst (.trans hsecond hthird), rfl⟩, rfl, rfl, hsent, ?_⟩
  exact ⟨⟨core₂, op, body, hstocked₂, hoffset₂, hfinish, rfl⟩, hsent ▸ hsize⟩

end FileWriteDriver

open FileReaderCore

theorem valid_of_withOptions {options : FileWriterOptions} {core : FileWriterCore}
    (h : FileWriterCore.withOptions options = .ok core) : options.Valid := by
  obtain ⟨_, hvalid, -⟩ := Exec.bind_eq_ok.mp h
  exact not_not.mp (Exec.reject_eq_ok.mp (Exec.mapError_eq_ok.mp hvalid))

section Roundtrip
variable {A : Type} [DestinationAlloc A] {options : FileWriterOptions} {core : FileWriterCore}
  {ts : List FileTensor} {kv : List (String × KvValue)}

/-- What is written opens, with all that the writer has put into it. -/
theorem written_opens (hcore : FileWriterCore.withOptions options = .ok core)
    (h : Writable options ts kv) (crc32c : Bytes → UInt32) (accept chunk : ℕ → ℕ) (a : A)
    (depth : ℕ) :
    ∃ w ∈ eval (FileWriteDriver.round crc32c accept)
        ⟨core, none, .header :: (ts.map FileTensor.submission ++ [.finish kv]), [], 0⟩,
      w.flight = none ∧ w.todo = [] ∧
      ∃ us index t opened, us.map Stowed.tensor = ts ∧
        Sealed crc32c options kv w.sent us index t ∧
        drive crc32c w.sent chunk 0
          ((withDestinations (UInt64.ofNat w.sent.length) a).withMaxCompositeDepth depth) =
            .ok (.ready, opened) ∧
        opened.OpenWith (index, kv, options.dataBufferAlignment.toUInt64, depth) := by
  obtain ⟨w, hw, hflight, htodo, -, hfooted⟩ :=
    FileWriteDriver.reaches_footed hcore h crc32c accept
  obtain ⟨us, index, t, hitems, hsealed⟩ := hfooted.exists_sealed
  have htensors := Stowed.tensors_of_items (List.cons.inj hitems).2.symm
  have hvector : (encodeIndexSection index).length ≤ ISIZE_MAX := by
    rw [length_encodeIndexSection, indexSize_perm (hsealed.order.perm.map IndexEntry.name),
      Stowed.names_of_tensors htensors]
    exact h.index
  have hkv : ∀ bytes, encodeKvSection kv = .ok bytes → bytes.length < UInt32.size := by
    intro bytes hbytes
    obtain ⟨bytes', hbytes', hlt⟩ := h.metadata
    obtain rfl : bytes = bytes' := Except.ok.inj (hbytes.symm.trans hbytes')
    exact hlt
  have hopen := hsealed.openFile (valid_of_withOptions hcore) hvector hkv
  obtain ⟨opened, hopened⟩ := exists_opened hopen a depth chunk 0
  obtain ⟨view, hview, hwith⟩ := openWith_of_drive hopened
  obtain rfl := Except.ok.inj (hopen.symm.trans hview)
  exact ⟨w, hw, hflight, htodo, us, index, t, opened, htensors, hsealed, hopened, hwith⟩

/-- The round trip of a file. The writer ends with a file, whatever the sink accepts; a reader opens
it, whatever the reads return, with the metadata and with the entries of the tensors in the order
that was asked for; and whatever was read before, each name leads to exactly its tensor. -/
theorem file_roundTrip (hA : LawfulAlloc A)
    (hcore : FileWriterCore.withOptions options = .ok core) (h : Writable options ts kv)
    (hroundTrips : ∀ t ∈ ts, RoundTrips t.descriptor)
    (hgrants : ∀ t ∈ ts, GrantsAll A t.descriptor) (crc32c : Bytes → UInt32) (accept chunk : ℕ → ℕ)
    (a : A) (depth : ℕ) :
    ∃ w ∈ eval (FileWriteDriver.round crc32c accept)
        ⟨core, none, .header :: (ts.map FileTensor.submission ++ [.finish kv]), [], 0⟩,
      w.flight = none ∧ w.todo = [] ∧
      ∃ opened, drive crc32c w.sent chunk 0
          ((withDestinations (UInt64.ofNat w.sent.length) a).withMaxCompositeDepth depth) =
            .ok (.ready, opened) ∧
        opened.kv = kv ∧
        (∃ entries, List.Forall₂ (EntryAt w.sent options.dataBufferAlignment.toNat) ts entries ∧
          InOrder options.sortedIndex entries opened.index) ∧
        ∀ (actions : List ReaderAction) (used : FileReaderCore A),
          run crc32c opened actions = some used → ∀ t ∈ ts, ∃ begun,
            used.begin .tensor t.name = (.ok (), begun) ∧ ∀ chunk calls,
              (drive crc32c w.sent chunk calls begun).map delivery = .ok (some (.tensor t)) := by
  obtain ⟨w, hw, hflight, htodo, us, index, t, opened, htensors, hsealed, hopened, hwith⟩ :=
    written_opens hcore h crc32c accept chunk a depth
  have hsettings := hwith.2
  simp only [settings, Prod.mk.injEq] at hsettings
  refine ⟨w, hw, hflight, htodo, opened, hopened, hsettings.2.1, ⟨us.map Stowed.entry, ?_, ?_⟩, ?_⟩
  · rw [← htensors, List.forall₂_map_left_iff, List.forall₂_map_right_iff, List.forall₂_same]
    intro u hu
    have hentry := (hsealed.entryAt hu).2
    rwa [UInt32.toNat_toUInt64] at hentry
  · rw [hsettings.1]
    exact hsealed.order
  · intro actions used hused t ht
    rw [← htensors] at ht
    obtain ⟨u, hu, rfl⟩ := List.mem_map.mp ht
    have hmem : u.tensor ∈ ts := htensors ▸ List.mem_map_of_mem hu
    exact hsealed.delivers (valid_of_withOptions hcore) hA hu (hroundTrips _ hmem)
      (hgrants _ hmem) (run_stays hwith hused)

end Roundtrip

/-- A tensor, a head without buffers, and a tensor again, under names that are not in order. -/
def workedTensors : List FileTensor :=
  [⟨"b", workedExample, [List.replicate 192 7]⟩, ⟨"c", workedGroup 1, []⟩,
    ⟨"a", workedExample, [List.replicate 192 9]⟩]

def workedKv : List (String × KvValue) :=
  [("k", .string "v"), ("l", .array [.bool true, .bool false]), ("m", .bytes [])]

theorem roundTrips_worked : ∀ t ∈ workedTensors, RoundTrips t.descriptor := by
  have hall : ∀ t ∈ workedTensors,
      encode t.descriptor = .ok ((encode t.descriptor).toOption.getD []) ∧
      lengthField ((encode t.descriptor).toOption.getD []) =
        ((encode t.descriptor).toOption.getD []).length ∧
      decode ((encode t.descriptor).toOption.getD []) = .ok t.descriptor := by decide +kernel
  exact fun t ht => ⟨_, hall t ht⟩

theorem writable_worked : Writable ⟨4096, true⟩ workedTensors workedKv where
  named := by
    unfold Named
    decide
  distinct := by decide
  encodes := by
    intro t ht
    obtain ⟨b, hb, -⟩ := roundTrips_worked t ht
    exact ⟨b, hb⟩
  sizes := by decide +kernel
  keys := by decide +kernel
  metadata := ⟨(encodeKvSection workedKv).toOption.getD [], by decide +kernel, by decide +kernel⟩
  index := by decide +kernel
  size := by decide +kernel

theorem grantsAll_systemDestinations {ts : List FileTensor}
    (hall : ∀ t ∈ ts, ∀ h ∈ t.descriptor.buffers,
      h.byteSize.toNat + (h.alignment.toNat - 1) ≤ ISIZE_MAX) :
    ∀ t ∈ ts, GrantsAll SystemDestinations t.descriptor := by
  intro t ht i h hh
  exact systemDestinations_grants i (hall t ht h (List.mem_of_getElem? hh))

theorem file_roundTrip_worked :
    ∃ w ∈ eval (FileWriteDriver.round (fun _ => 0) fun _ => 0)
        ⟨FileWriterCore.build ⟨4096, true⟩, none,
          .header :: (workedTensors.map FileTensor.submission ++ [.finish workedKv]), [], 0⟩,
      w.flight = none ∧ w.todo = [] ∧
      ∃ opened, drive (fun _ => 0) w.sent (fun _ => 0) 0 ((withDestinations
          (UInt64.ofNat w.sent.length) SystemDestinations.mk).withMaxCompositeDepth 64) =
            .ok (.ready, opened) ∧
        opened.kv = workedKv ∧
        (∃ entries, List.Forall₂ (EntryAt w.sent 4096) workedTensors entries ∧
          InOrder true entries opened.index) ∧
        ∀ (actions : List ReaderAction) (used : FileReaderCore SystemDestinations),
          run (fun _ => 0) opened actions = some used → ∀ t ∈ workedTensors, ∃ begun,
            used.begin .tensor t.name = (.ok (), begun) ∧ ∀ chunk calls,
              (drive (fun _ => 0) w.sent chunk calls begun).map delivery =
                .ok (some (.tensor t)) := by
  exact file_roundTrip lawfulAlloc_systemDestinations (by decide +kernel) writable_worked
    roundTrips_worked (grantsAll_systemDestinations (by decide +kernel)) _ _ _ _ _

end Hurray.File
