import Hurray.Base.Regions
import Hurray.File.WriterLife

/-!
What a writer has written when its footer is out: the header, the tensors at the
places that the index says, and the footer, with nothing between them but
padding. Every step of a writer's life keeps the account of what it has stowed.
-/
namespace Hurray.File
open Hurray.Base Hurray.Core Hurray.Descriptor Hurray.Stream

/-! ### Regions of a tensor -/

/-- The payloads of a tensor, each at a multiple of the alignment if the first is. -/
def payloadRegions (alignment : ℕ) : List Bytes → ℕ → List (Region UInt8)
  | [], _ => []
  | payload :: rest, start =>
      ⟨start, payload⟩ :: payloadRegions alignment rest (roundUp (start + payload.length) alignment)

section Payloads
variable {alignment start : ℕ} {payloads : List Bytes}

theorem fills_region (alignment : ℕ) (payloads : List Bytes) (start : ℕ) :
    Region.Fills 0 (region alignment payloads start) start
      (payloadRegions alignment payloads start) (regionEnd alignment payloads start) := by
  induction payloads generalizing start with
  | nil => exact Region.fills_nil
  | cons payload rest ih =>
    cases rest with
    | nil =>
      have hfills := Region.fills_singleton (0 : UInt8) ⟨start, payload⟩
      simpa [region, regionEnd, payloadRegions, gap, Region.stop] using hfills
    | cons next rest =>
      have hfills := ih (roundUp (start + payload.length) alignment)
      have hround := le_roundUp (start + payload.length) alignment
      have happend := (Region.fills_singleton (0 : UInt8) ⟨start, payload⟩).append
        (hfills.after_filler hround)
      rw [region, regionEnd, add_gap_cons, payloadRegions, List.append_assoc]
      exact happend

theorem aligned_of_mem_payloadRegions (halign : 0 < alignment) (hstart : alignment ∣ start)
    {r : Region UInt8} (hr : r ∈ payloadRegions alignment payloads start) : alignment ∣ r.start := by
  induction payloads generalizing start with
  | nil => cases hr
  | cons payload rest ih =>
    rcases List.mem_cons.mp hr with rfl | hr
    · exact hstart
    · exact ih (dvd_roundUp halign _) hr

theorem contents_payloadRegions :
    (payloadRegions alignment payloads start).map Region.contents = payloads := by
  induction payloads generalizing start with
  | nil => rfl
  | cons payload rest ih =>
    rw [payloadRegions, List.map_cons, ih]

/-- The last payload ends where the tensor does. -/
theorem stop_getLast?_payloadRegions {r : Region UInt8}
    (h : (payloadRegions alignment payloads start).getLast? = some r) :
    r.stop = regionEnd alignment payloads start := by
  induction payloads generalizing start with
  | nil => cases h
  | cons payload rest ih =>
    cases rest with
    | nil =>
      cases h
      rfl
    | cons next rest =>
      rw [regionEnd, add_gap_cons]
      apply ih
      rw [payloadRegions, List.getLast?_cons_of_ne_nil (by simp [payloadRegions])] at h
      exact h

end Payloads

namespace Placement
variable (p : Placement)

def dataRegions : List (Region UInt8) := payloadRegions p.alignment p.buffers p.dataStart

/-- The descriptor and the buffers. -/
def regions : List (Region UInt8) := ⟨p.offset, p.encoded⟩ :: p.dataRegions

theorem fills_image : Region.Fills 0 p.image p.offset p.regions p.itemEnd := by
  have hdescriptor := Region.fills_singleton (0 : UInt8) ⟨p.offset, p.encoded⟩
  have hdata := (fills_region p.alignment p.buffers p.dataStart).after_filler
    p.descriptorEnd_le_dataStart
  have hpadding := Region.fills_filler (z := (0 : UInt8)) p.dataEnd_le_itemEnd
  have hfills := (hdescriptor.append hdata).append hpadding
  rw [List.append_nil, ← List.append_assoc] at hfills
  exact hfills

end Placement

/-! ### What a writer has stowed -/

/-- A tensor with the place it has in the file. -/
structure Stowed where
  name : String
  descriptor : TensorDescriptor
  placement : Placement

namespace Stowed

def tensor (t : Stowed) : FileTensor := ⟨t.name, t.descriptor, t.placement.buffers⟩

def item (t : Stowed) : FileSubmission := .tensor t.name t.descriptor t.placement.buffers

def entry (t : Stowed) : IndexEntry := t.placement.entry t.name

/-- The tensor was accepted. -/
structure Accepted (alignment : ℕ) (t : Stowed) : Prop where
  alignment : t.placement.alignment = alignment
  encoded : encode t.descriptor = .ok t.placement.encoded
  sizes : t.descriptor.buffers.map (fun h => h.byteSize.toNat) = t.placement.buffers.map List.length
  fits : t.placement.itemEnd < UInt64.size
  nonempty : (utf8Bytes t.name).length ≠ 0
  length : (utf8Bytes t.name).length ≤ 65535

/-- The tensors are one after another. -/
def Follow : ℕ → List Stowed → ℕ → Prop
  | start, [], stop => start = stop
  | start, t :: ts, stop => t.placement.offset = start ∧ Follow t.placement.itemEnd ts stop

def images (ts : List Stowed) : Bytes := ts.flatMap fun t => t.placement.image

section Follow
variable {start stop : ℕ} {ts : List Stowed} {t : Stowed}

theorem Follow.snoc (h : Follow start ts t.placement.offset) :
    Follow start (ts ++ [t]) t.placement.itemEnd := by
  induction ts generalizing start with
  | nil => exact ⟨h.symm, rfl⟩
  | cons t' ts ih => exact ⟨h.1, ih h.2⟩

theorem Follow.fills (h : Follow start ts stop) : Region.Fills 0 (images ts) start
    (ts.flatMap fun t => t.placement.regions) stop := by
  induction ts generalizing start with
  | nil =>
    cases h
    exact Region.fills_nil
  | cons t ts ih =>
    obtain ⟨rfl, hrest⟩ := h
    exact t.placement.fills_image.append (ih hrest)

/-- Tensors start at multiples of 8. -/
theorem Follow.aligned (h : Follow start ts stop) (hstart : 8 ∣ start) :
    8 ∣ stop ∧ ∀ t ∈ ts, 8 ∣ t.placement.offset := by
  induction ts generalizing start with
  | nil =>
    cases h
    exact ⟨hstart, fun t ht => absurd ht List.not_mem_nil⟩
  | cons t ts ih =>
    obtain ⟨rfl, hrest⟩ := h
    obtain ⟨hstop, hmem⟩ := ih hrest (dvd_roundUp (Nat.succ_pos 7) _)
    exact ⟨hstop, List.forall_mem_cons.mpr ⟨hstart, hmem⟩⟩

/-- The image of a tensor is in the bytes of all of them. -/
theorem Follow.image (h : Follow start ts stop) (ht : t ∈ ts) :
    start ≤ t.placement.offset ∧ t.placement.itemEnd ≤ stop ∧
      t.placement.image <+: (images ts).drop (t.placement.offset - start) := by
  induction ts generalizing start with
  | nil => cases ht
  | cons t' ts ih =>
    obtain ⟨rfl, hrest⟩ := h
    have hstop := hrest.fills.le
    rcases List.mem_cons.mp ht with rfl | ht
    · refine ⟨le_rfl, hstop, ?_⟩
      rw [Nat.sub_self]
      exact List.prefix_append _ _
    · obtain ⟨hstart, hend, himage⟩ := ih hrest ht
      have hlen := t'.placement.length_image
      refine ⟨by omega, hend, ?_⟩
      have hskip : t.placement.offset - t'.placement.offset =
          t'.placement.image.length + (t.placement.offset - t'.placement.itemEnd) := by omega
      rw [hskip, ← List.drop_drop, images, List.flatMap_cons, List.drop_left]
      exact himage

end Follow

/-- The account of the items that are out. -/
structure Account (core : FileWriterCore) (file : Bytes) (items : List FileSubmission)
    (ts : List Stowed) : Prop where
  header : core.headerWritten = true
  contents : file = core.encodeHeader ++ images ts
  follow : Follow FILE_HEADER_SIZE.toNat ts file.length
  accepted : ∀ t ∈ ts, t.Accepted core.alignment.toNat
  entries : core.entries = ts.map entry
  names : ∀ name, name ∈ core.seenNames ↔ name ∈ ts.map Stowed.name
  distinct : (ts.map Stowed.name).Nodup
  items : items = .header :: ts.map item

/-- The core has the options it was made with, and nothing is out or there is an account. -/
structure Stocked (options : FileWriterOptions) (core : FileWriterCore) (file : Bytes)
    (items : List FileSubmission) : Prop where
  alignment : core.alignment = options.dataBufferAlignment.toUInt64
  sortedIndex : core.sortedIndex = options.sortedIndex
  stock : (core.headerWritten = false ∧ file = [] ∧ items = [] ∧ core.entries = [] ∧
    core.seenNames = []) ∨ ∃ ts, Account core file items ts

section Stocked
variable {options : FileWriterOptions} {core : FileWriterCore} {file : Bytes}
  {items : List FileSubmission} {offset : UInt64}

theorem length_encodeHeader : core.encodeHeader.length = FILE_HEADER_SIZE.toNat := by
  simp [FileWriterCore.encodeHeader, FILE_MAGIC, FILE_HEADER_SIZE]

theorem stocked_build : Stocked options (FileWriterCore.build options) [] [] :=
  ⟨rfl, rfl, .inl ⟨rfl, rfl, rfl, rfl, rfl⟩⟩

/-- The account after the header. -/
theorem Stocked.header (h : Stocked options core file items) (hheader : core.headerWritten = false) :
    Stocked options (Commit.header.apply (core.movedTo offset false))
      (file ++ core.encodeHeader) (items ++ [.header]) := by
  refine ⟨h.alignment, h.sortedIndex, .inr ⟨[], ?_⟩⟩
  rcases h.stock with ⟨-, rfl, rfl, hentries, hnames⟩ | ⟨ts, haccount⟩
  · refine ⟨rfl, (List.append_nil _).symm, length_encodeHeader.symm, ?_, hentries, ?_,
      List.nodup_nil, rfl⟩
    · intro t ht
      cases ht
    · intro name
      show name ∈ core.seenNames ↔ _
      rw [hnames]
      rfl
  · rw [haccount.header] at hheader
    cases hheader

/-- The account after a tensor. -/
theorem Stocked.tensor (h : Stocked options core file items) {t : Stowed}
    (hopen : core.headerWritten = true) (haccepted : t.Accepted core.alignment.toNat)
    (hfresh : t.name ∉ core.seenNames) (hoffset : t.placement.offset = file.length) :
    Stocked options ((Commit.tensor t.entry).apply (core.movedTo offset false))
      (file ++ t.placement.image) (items ++ [t.item]) := by
  refine ⟨h.alignment, h.sortedIndex, .inr ?_⟩
  rcases h.stock with ⟨hheader, -⟩ | ⟨ts, haccount⟩
  · rw [hopen] at hheader
    cases hheader
  · have himages : images (ts ++ [t]) = images ts ++ t.placement.image := by
      rw [images, List.flatMap_append, List.flatMap_singleton]
      rfl
    have hfollow := haccount.follow
    rw [← hoffset] at hfollow
    refine ⟨ts ++ [t], hopen, ?_, ?_, ?_, ?_, ?_, ?_, ?_⟩
    · rw [haccount.contents, himages, List.append_assoc]
      rfl
    · rw [List.length_append, ← hoffset, t.placement.length_image]
      exact hfollow.snoc
    · intro t' ht'
      rcases List.mem_append.mp ht' with ht' | ht'
      · exact haccount.accepted t' ht'
      · obtain rfl := List.mem_singleton.mp ht'
        exact haccepted
    · show core.entries ++ [t.entry] = _
      rw [haccount.entries, List.map_append]
      rfl
    · intro name
      show name ∈ t.entry.name :: core.seenNames ↔ _
      rw [List.mem_cons, haccount.names, List.map_append, List.mem_append, or_comm]
      exact or_congr_right List.mem_singleton.symm
    · rw [List.map_append, List.nodup_append]
      refine ⟨haccount.distinct, List.pairwise_singleton _ _, ?_⟩
      intro name hname name' hname'
      obtain rfl := List.mem_singleton.mp hname'
      intro heq
      exact hfresh ((haccount.names _).mpr (heq ▸ hname))
    · rw [haccount.items, List.map_append]
      rfl

end Stocked
end Stowed

open Stowed

/-! ### The life of a writer -/

/-- A file is the items of a writer and the footer that it accepted behind them. -/
structure Footed (crc32c : Bytes → UInt32) (options : FileWriterOptions)
    (kv : List (String × KvValue)) (items : List FileSubmission) (file : Bytes) : Prop where
  written : ∃ core op body, Stocked options core body items ∧ core.offset.toNat = body.length ∧
    core.finish crc32c kv = .ok op ∧ file = body ++ op.image
  size : file.length < UInt64.size

namespace FileFlight
variable {f : FileFlight} {crc32c : Bytes → UInt32} {n : ℕ}

/-- What an operation that said that its item is written keeps, whatever is called on it. -/
structure Out (f : FileFlight) : Prop where
  image : f.first.image = f.sent
  size : f.before.offset.toNat + f.sent.length < UInt64.size
  finished : ∀ kv, f.item = .finish kv → f.op.core.finished = true

theorem Complete.out (h : f.Complete) (hsound : f.Sound crc32c) : f.Out := by
  obtain ⟨offset, commit, hoffset, hcommit, hcore⟩ := h.core
  refine ⟨h.image, hoffset ▸ offset.toNat_lt_size, ?_⟩
  intro kv hitem
  have haccepted := hsound.accepted
  rw [hitem] at haccepted
  obtain ⟨-, -, footer, kvOffset, kvLength, indexOffset, -, -, hfirst⟩ :=
    FileWriterCore.finish_eq_ok.mp haccepted
  rw [hfirst] at hcommit
  cases hcommit
  rw [hcore]
  rfl

theorem Spoiled.step_eq (h : f.Spoiled) : f.step = f := by
  obtain ⟨reason, hreason⟩ := Option.ne_none_iff_exists'.mp h.unusable
  unfold FileFlight.step FileWriteOp.step
  rw [hreason]
  rfl

theorem Sound.step_out (h : f.Sound crc32c) (hout : f.written = true → f.Out)
    (hwritten : f.step.written = true) : f.step.Out := by
  have hstep := h.step
  have hbefore := h.before_retired.1
  obtain ⟨-, plan, bytes, payloads, commit, -, hfirst⟩ :=
    FileWriterCore.submit_eq_start h.alignment h.accepted
  have hcommit : f.first.commit ≠ none := by
    rw [hfirst]
    exact Option.some_ne_none commit
  rcases h.phase with hrun | hcomplete | hspoiled
  · rcases hrun.step hcommit hbefore with hrun | hcomplete
    · rw [hrun.written] at hwritten
      cases hwritten
    · exact hcomplete.out hstep
  · exact (hcomplete.step hbefore).out hstep
  · rw [hspoiled.step_eq] at hwritten ⊢
    exact hout hwritten

theorem written_report : (f.report n).written = f.written := by
  unfold FileFlight.report
  split <;> rfl

/-- A report on an operation that is out changes nothing of it. -/
theorem Sound.report_out (h : f.Sound crc32c) (hout : f.written = true → f.Out)
    (hwritten : (f.report n).written = true) :
    (f.report n).Out ∧ (f.op.reportWritten n).1 ≠ Exec.panic := by
  rw [written_report] at hwritten
  rcases h.phase with hrun | hcomplete | hspoiled
  · rw [hrun.written] at hwritten
    cases hwritten
  · obtain ⟨hcomplete, hsafe⟩ := hcomplete.report (n := n) h.before_retired.1
    exact ⟨hcomplete.out (h.report hsafe), hsafe⟩
  · obtain ⟨reason, hreason⟩ := Option.ne_none_iff_exists'.mp hspoiled.unusable
    have heq : f.op.reportWritten n = (Exec.fail (.coreUnusable reason), f.op) := by
      unfold FileWriteOp.reportWritten
      rw [hreason]
    refine ⟨?_, hspoiled.report.2⟩
    unfold FileFlight.report
    rw [heq]
    exact ⟨(hout hwritten).image, (hout hwritten).size, (hout hwritten).finished⟩

theorem Out.sinkClosed (h : f.Out) : f.sinkClosed.Out := ⟨h.image, h.size, h.finished⟩

/-- The account after an item that is out as a whole. -/
theorem Complete.stocked (h : f.Complete) (hsound : f.Sound crc32c) {options : FileWriterOptions}
    {file : Bytes} {items : List FileSubmission} (hbefore : Stocked options f.before file items)
    (hoffset : f.before.offset.toNat = file.length) (hfinished : f.op.core.finished = false) :
    Stocked options f.op.core (file ++ f.sent) (items ++ [f.item]) := by
  obtain ⟨offset, commit, -, hcommit, hcore⟩ := h.core
  have haccepted := hsound.accepted
  have himage := h.image
  cases hitem : f.item with
  | header =>
    rw [hitem] at haccepted
    obtain ⟨-, -, hheader, hfirst⟩ := FileWriterCore.header_eq_ok.mp haccepted
    rw [hfirst] at hcommit himage
    cases hcommit
    rw [FileWriterCore.image_start_owned] at himage
    rw [hcore, ← himage]
    exact hbefore.header hheader
  | tensor name d buffers =>
    rw [hitem] at haccepted
    obtain ⟨hopen, hfree, hsizes, encoded, henc, hfits, hfirst⟩ :=
      (FileWriterCore.tensor_eq_ok hsound.alignment).mp haccepted
    rw [hfirst] at hcommit himage
    cases hcommit
    have hplaced : (f.before.place encoded buffers).image = f.sent :=
      (FileWriterCore.image_start_plan (f.before.place encoded buffers) _).symm.trans himage
    rw [hcore, ← hplaced]
    exact hbefore.tensor (t := ⟨name, d, f.before.place encoded buffers⟩) hopen.headerWritten
      ⟨rfl, henc, hsizes, hfits, hfree.nonempty, hfree.length⟩ hfree.fresh hoffset
  | finish kv =>
    rw [hitem] at haccepted
    obtain ⟨-, -, footer, kvOffset, kvLength, indexOffset, -, -, hfirst⟩ :=
      FileWriterCore.finish_eq_ok.mp haccepted
    rw [hfirst] at hcommit
    cases hcommit
    rw [hcore] at hfinished
    cases hfinished

end FileFlight

namespace FileWriterLife
variable {s : FileWriterLife} {f : FileFlight} {crc32c : Bytes → UInt32}
  {options : FileWriterOptions}

/-- The items that said that they are written. -/
def items (s : FileWriterLife) : List FileSubmission := s.written.map FileAttempt.item

/-- The bytes on the sink. -/
def emitted (s : FileWriterLife) : Bytes := s.reported ++ s.flight.elim [] FileFlight.sent

/-- The items that are out, with one that is in flight. -/
def done (s : FileWriterLife) : List FileSubmission :=
  s.items ++ s.flight.elim [] fun f => if f.written then [f.item] else []

theorem reported_drop (s : FileWriterLife) (f : FileFlight) :
    (s.drop f).reported = s.reported ++ f.sent := sent_snoc

theorem items_drop (s : FileWriterLife) (f : FileFlight) :
    (s.drop f).items = s.items ++ if f.written then [f.item] else [] := by
  have hwritten : (s.drop f).written = s.written ++ if f.written then [f.attempt] else [] :=
    written_snoc
  rw [items, items, hwritten, List.map_append]
  split <;> rfl

/-- What holds of the account at every moment. -/
structure Kept (crc32c : Bytes → UInt32) (options : FileWriterOptions) (s : FileWriterLife) :
    Prop where
  sound : s.Sound crc32c
  stocked : s.core.retired = none → s.core.finished = false →
    Stocked options s.core s.reported s.items
  out : ∀ f, s.flight = some f → f.written = true → f.Out
  footed : ∀ kv, .finish kv ∈ s.items → s.flight = none ∧ s.core.finished = true ∧
    ∃ items, s.items = items ++ [.finish kv] ∧ Footed crc32c options kv items s.reported

/-- With an operation in flight, the core is as it was when it took the item. -/
theorem Kept.flight_stocked (h : s.Kept crc32c options) (hf : s.flight = some f) :
    f.Sound crc32c ∧ Stocked options f.before s.reported s.items ∧
      f.before.offset.toNat = s.reported.length := by
  obtain ⟨hbefore, hsound⟩ := h.sound.flight f hf
  have hretired : s.core.retired = none := by
    rw [← hbefore]
    exact retired_of_submit hsound.accepted
  have hfinished : s.core.finished = false := by
    rw [← hbefore]
    exact not_finished_of_submit hsound.alignment hsound.accepted
  rw [hbefore]
  exact ⟨hsound, h.stocked hretired hfinished, (h.sound.consistent hretired hfinished).offset⟩

theorem Kept.flight_footed (h : s.Kept crc32c options) (hf : s.flight = some f)
    (hwritten : f.written = true) {kv : List (String × KvValue)} (hitem : f.item = .finish kv) :
    Footed crc32c options kv s.items (s.reported ++ f.sent) := by
  obtain ⟨hsound, hstocked, hoffset⟩ := h.flight_stocked hf
  have hout := h.out f hf hwritten
  have haccepted := hsound.accepted
  rw [hitem] at haccepted
  refine ⟨⟨f.before, f.first, s.reported, hstocked, hoffset, haccepted, ?_⟩, ?_⟩
  · rw [hout.image]
  · rw [List.length_append, ← hoffset]
    exact hout.size

theorem kept_start {core : FileWriterCore} (h : FileWriterCore.withOptions options = .ok core) :
    (start core).Kept crc32c options := by
  obtain ⟨halign, hconsistent⟩ := consistent_withOptions h
  obtain ⟨_, -, hcore⟩ := Exec.bind_eq_ok.mp h
  cases hcore
  refine ⟨sound_start halign hconsistent, fun _ _ => stocked_build, ?_, ?_⟩
  · intro f hf
    cases hf
  · intro kv hkv
    cases hkv

theorem Kept.goOn {g : FileFlight} (h : s.Kept crc32c options) (hf : s.flight = some f)
    (hsound : ({ s with flight := some g } : FileWriterLife).Sound crc32c)
    (hout : g.written = true → g.Out) :
    ({ s with flight := some g } : FileWriterLife).Kept crc32c options := by
  refine ⟨hsound, h.stocked, ?_, ?_⟩
  · intro g' hg'
    cases hg'
    exact hout
  · intro kv hkv
    rw [(h.footed kv hkv).1] at hf
    cases hf

theorem Kept.submit (h : s.Kept crc32c options) (item : FileSubmission)
    (hsound : (s.submit crc32c item).Sound crc32c) :
    (s.submit crc32c item).Kept crc32c options := by
  unfold FileWriterLife.submit at hsound ⊢
  split at hsound
  · next op hop =>
    refine ⟨hsound, h.stocked, ?_, ?_⟩
    · intro f hf hwritten
      cases hf
      cases hwritten
    · intro kv hkv
      have hfinished := not_finished_of_submit (h.sound.alignment (retired_of_submit hop)) hop
      rw [(h.footed kv hkv).2.1] at hfinished
      cases hfinished
  · exact h

/-- The account when an operation is dropped that leaves its core in use. -/
theorem Kept.stocked_drop (h : s.Kept crc32c options) (hf : s.flight = some f)
    (hretired : f.op.core.retired = none) (hfinished : f.op.core.finished = false) :
    Stocked options f.op.core (s.drop f).reported (s.drop f).items := by
  obtain ⟨hsound, hstocked, hoffset⟩ := h.flight_stocked hf
  obtain ⟨hunusable, htorn⟩ := FileWriterCore.retired_eq_none.mp hretired
  rw [reported_drop, items_drop]
  rcases hsound.phase with hrun | hcomplete | hspoiled
  · have hsent : f.sent = [] := by
      obtain ⟨offset, -, hcore⟩ := hrun.core
      rw [hcore] at htorn
      simpa [FileWriterCore.movedTo] using htorn
    rw [hrun.untouched hsound.before_retired.2 hsent, hsent, hrun.written, List.append_nil,
      if_neg Bool.false_ne_true, List.append_nil]
    exact hstocked
  · rw [hcomplete.written, if_pos rfl]
    exact hcomplete.stocked hsound hstocked hoffset hfinished
  · exact absurd hunusable hspoiled.unusable

theorem Kept.drop (h : s.Kept crc32c options) (hf : s.flight = some f) :
    (s.drop f).Kept crc32c options := by
  refine ⟨h.sound.drop hf, h.stocked_drop hf, fun g hg => absurd hg (by simp [FileWriterLife.drop]), ?_⟩
  intro kv hkv
  rw [items_drop, List.mem_append] at hkv
  rcases hkv with hkv | hkv
  · rw [(h.footed kv hkv).1] at hf
    cases hf
  · cases hwritten : f.written with
    | false =>
      rw [hwritten] at hkv
      cases hkv
    | true =>
      rw [hwritten, if_pos rfl, List.mem_singleton] at hkv
      refine ⟨rfl, (h.out f hf hwritten).finished kv hkv.symm, s.items, ?_, ?_⟩
      · rw [items_drop, hwritten, if_pos rfl, hkv]
      · rw [reported_drop]
        exact h.flight_footed hf hwritten hkv.symm

/-- An operation that panics is not out, and its core is retired. -/
theorem Kept.dropPanicked (h : s.Kept crc32c options) (hf : s.flight = some f) {n : ℕ}
    (hpanic : (f.op.reportWritten n).1 = Exec.panic) :
    (s.drop (f.report n)).Kept crc32c options := by
  have hsound := (h.sound.flight f hf).2
  have hwritten : (f.report n).written = false := by
    by_contra hnot
    exact (hsound.report_out (h.out f hf) (Bool.eq_true_of_not_eq_false hnot)).2 hpanic
  have hretired : (s.drop (f.report n)).core.retired ≠ none := by
    intro hnone
    have hnot := (FileWriterCore.retired_eq_none.mp hnone).2
    rw [show (s.drop (f.report n)).core.torn = true from (hsound.torn_of_panic hpanic).1] at hnot
    cases hnot
  refine ⟨h.sound.dropPanicked hf hpanic, fun hnone => absurd hnone hretired,
    fun g hg => absurd hg (by simp [FileWriterLife.drop]), ?_⟩
  intro kv hkv
  rw [items_drop, hwritten, if_neg Bool.false_ne_true, List.append_nil] at hkv
  rw [(h.footed kv hkv).1] at hf
  cases hf

theorem Kept.act (h : s.Kept crc32c options) (a : FileWriterAction) :
    (s.act crc32c a).Kept crc32c options := by
  have hsound := h.sound.act a
  unfold FileWriterLife.act at hsound ⊢
  cases hf : s.flight with
  | none =>
    rw [hf] at hsound
    cases a with
    | submit item => exact h.submit item hsound
    | poison reason =>
      have hretired : (s.core.poison reason).retired ≠ none := Option.some_ne_none reason
      refine ⟨h.sound.poison reason, fun hnone => absurd hnone hretired, fun f hf => absurd hf (by simp), ?_⟩
      intro kv hkv
      exact ⟨rfl, (h.footed kv hkv).2⟩
    | _ => exact h
  | some f =>
    rw [hf] at hsound
    have hflight := (h.sound.flight f hf).2
    cases a with
    | submit item => exact h
    | poison reason => exact h
    | step => exact h.goOn hf hsound (hflight.step_out (h.out f hf))
    | report n =>
      dsimp only at hsound ⊢
      split at hsound
      · next hpanic =>
        rw [if_pos hpanic]
        exact h.dropPanicked hf hpanic
      · next hpanic =>
        rw [if_neg hpanic]
        exact h.goOn hf hsound fun hwritten => (hflight.report_out (h.out f hf) hwritten).1
    | sinkClosed => exact h.goOn hf hsound fun hwritten => (h.out f hf hwritten).sinkClosed
    | drop => exact h.drop hf

/-- Whatever is done with a writer, once a footer is out the file is what the items make it. -/
theorem footed_of_run {core : FileWriterCore} (h : FileWriterCore.withOptions options = .ok core)
    {actions : List FileWriterAction} {kv : List (String × KvValue)}
    (hdone : .finish kv ∈ (run crc32c core actions).done) :
    ∃ items, (run crc32c core actions).done = items ++ [.finish kv] ∧
      Footed crc32c options kv items (run crc32c core actions).emitted := by
  have hkept : (run crc32c core actions).Kept crc32c options :=
    List.foldlRecOn actions (FileWriterLife.act crc32c) (kept_start h) fun s hs a _ => hs.act a
  generalize run crc32c core actions = s at hdone hkept
  rw [done, List.mem_append] at hdone
  rcases hdone with hdone | hdone
  · obtain ⟨hflight, -, items, hitems, hfooted⟩ := hkept.footed kv hdone
    refine ⟨items, ?_, ?_⟩
    · rw [done, hflight, Option.elim_none, List.append_nil, hitems]
    · rw [emitted, hflight, Option.elim_none, List.append_nil]
      exact hfooted
  · cases hf : s.flight with
    | none =>
      rw [hf] at hdone
      cases hdone
    | some f =>
      rw [hf, Option.elim_some] at hdone
      cases hwritten : f.written with
      | false =>
        rw [hwritten] at hdone
        cases hdone
      | true =>
        rw [hwritten, if_pos rfl, List.mem_singleton] at hdone
        refine ⟨s.items, ?_, ?_⟩
        · rw [done, hf, Option.elim_some, hwritten, if_pos rfl, hdone]
        · rw [emitted, hf, Option.elim_some]
          exact hkept.flight_footed hf hwritten hdone.symm

end FileWriterLife
end Hurray.File
