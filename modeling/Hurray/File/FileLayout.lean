import Hurray.File.WrittenFile

/-!
The layout of a file that a writer has written: the regions of its header, its
descriptors, its buffers, its metadata, its index and its trailer are one after
another at the alignments of the format, and what is between them is zero.
-/
namespace Hurray.File
open Hurray.Base Hurray.Core Hurray.Descriptor Hurray.Stream

/-- The parts of a file. The metadata is no region or one. -/
structure FileParts where
  header : Region UInt8
  tensors : List Stowed
  kv : List (Region UInt8)
  index : Region UInt8
  trailer : Region UInt8

namespace FileParts

def regions (p : FileParts) : List (Region UInt8) :=
  p.header :: (p.tensors.flatMap fun t => t.placement.regions) ++ p.kv ++ [p.index, p.trailer]

end FileParts

/-- The parts are where the format wants them, and the index and the trailer say so. -/
structure LaidOut (crc32c : Bytes → UInt32) (options : FileWriterOptions)
    (kv : List (String × KvValue)) (file : Bytes) (p : FileParts) : Prop where
  holds : ∀ r ∈ p.regions, r.contents <+: file.drop r.start
  increasing : p.regions.Pairwise fun r s => r.stop ≤ s.start
  padding : ∀ i < file.length, (∀ r ∈ p.regions, ¬ r.Covers i) → file[i]? = some 0
  header : p.header = ⟨0, (FileWriterCore.build options).encodeHeader⟩
  descriptors : ∀ t ∈ p.tensors, encode t.descriptor = .ok t.placement.encoded ∧
    8 ∣ t.placement.offset ∧ 64 ≤ t.placement.offset ∧
    t.entry.descriptorOffset.toNat = t.placement.offset ∧
    t.entry.descriptorLength.toNat = t.placement.encoded.length
  buffers : ∀ t ∈ p.tensors, t.placement.dataRegions.map Region.contents = t.placement.buffers ∧
    ∀ r ∈ t.placement.dataRegions, options.dataBufferAlignment.toNat ∣ r.start
  bufferless : ∀ t ∈ p.tensors, t.placement.buffers = [] →
    t.entry.dataOffset.toNat = t.placement.descriptorEnd ∧ t.entry.dataLength = 0
  span : ∀ t ∈ p.tensors, ∀ first last, t.placement.dataRegions.head? = some first →
    t.placement.dataRegions.getLast? = some last → t.entry.dataOffset.toNat = first.start ∧
      t.entry.dataOffset.toNat + t.entry.dataLength.toNat = last.stop
  kv : (kv = [] ∧ p.kv = []) ∨
    (kv ≠ [] ∧ ∃ r, p.kv = [r] ∧ 8 ∣ r.start ∧ encodeKvSection kv = .ok r.contents)
  index : 8 ∣ p.index.start ∧ ∃ entries, entries.Perm (p.tensors.map Stowed.entry) ∧
    p.index.contents = encodeIndexSection entries
  trailer : p.trailer.start = p.index.stop ∧ ∃ indexOffset indexLength kvOffset kvLength,
    p.trailer.contents = FileWriterCore.encodeTrailer indexOffset indexLength kvOffset kvLength
      (crc32c p.index.contents) ∧
    indexOffset.toNat = p.index.start ∧ indexLength.toNat = p.index.contents.length ∧
    (p.kv = [] → kvOffset = 0 ∧ kvLength = 0) ∧
    (∀ r ∈ p.kv, kvOffset.toNat = r.start ∧ kvLength = UInt32.ofNat r.contents.length) ∧
    indexOffset.toNat + indexLength.toNat + 40 = file.length

namespace Stowed
variable {t : Stowed} {alignment : ℕ}

/-- The entry of an accepted tensor, in numbers. -/
theorem Accepted.entry (h : t.Accepted alignment) :
    t.entry.descriptorOffset.toNat = t.placement.offset ∧
    t.entry.descriptorLength.toNat = t.placement.encoded.length ∧
    t.entry.dataOffset.toNat = t.placement.dataStart ∧
    t.entry.dataOffset.toNat + t.entry.dataLength.toNat = t.placement.dataEnd := by
  have hfits := h.fits
  have hdescriptor : t.placement.offset ≤ t.placement.descriptorEnd := Nat.le_add_right _ _
  have hstart := t.placement.descriptorEnd_le_dataStart
  have hend := t.placement.dataStart_le_dataEnd
  have hitem := t.placement.dataEnd_le_itemEnd
  have hoffset : t.entry.dataOffset.toNat = t.placement.dataStart :=
    UInt64.toNat_ofNat_of_lt' (by omega)
  have hlength : t.entry.dataLength.toNat = t.placement.dataEnd - t.placement.dataStart :=
    UInt64.toNat_ofNat_of_lt' (by omega)
  refine ⟨UInt64.toNat_ofNat_of_lt' (by omega), ?_, hoffset, by omega⟩
  exact UInt32.toNat_ofNat_of_lt' (encode_length_lt h.encoded)

theorem Accepted.bufferless (h : t.Accepted alignment) (hnone : t.placement.buffers = []) :
    t.entry.dataOffset.toNat = t.placement.descriptorEnd ∧ t.entry.dataLength = 0 := by
  obtain ⟨-, -, hoffset, hspan⟩ := h.entry
  have hstart : t.placement.dataStart = t.placement.descriptorEnd := by
    rw [Placement.dataStart, hnone]
    rfl
  have hend : t.placement.dataEnd = t.placement.dataStart := by
    rw [Placement.dataEnd, hnone]
    rfl
  refine ⟨hoffset.trans hstart, UInt64.toNat_inj.mp ?_⟩
  rw [UInt64.toNat_zero]
  omega

/-- The length in the index spans the buffers, from the first to the last. -/
theorem Accepted.span (h : t.Accepted alignment) {first last : Region UInt8}
    (hfirst : t.placement.dataRegions.head? = some first)
    (hlast : t.placement.dataRegions.getLast? = some last) :
    t.entry.dataOffset.toNat = first.start ∧
      t.entry.dataOffset.toNat + t.entry.dataLength.toNat = last.stop := by
  obtain ⟨-, -, hoffset, hspan⟩ := h.entry
  have hstart : first.start = t.placement.dataStart := by
    rw [Placement.dataRegions] at hfirst
    cases hbuffers : t.placement.buffers with
    | nil =>
      rw [hbuffers] at hfirst
      cases hfirst
    | cons payload rest =>
      rw [hbuffers] at hfirst
      cases hfirst
      rfl
  exact ⟨hoffset.trans hstart.symm, hspan.trans (stop_getLast?_payloadRegions hlast).symm⟩

/-- The buffers of a tensor that has any start at the alignment. -/
theorem aligned_dataRegions (halign : 0 < t.placement.alignment) {r : Region UInt8}
    (hr : r ∈ t.placement.dataRegions) : t.placement.alignment ∣ r.start := by
  refine aligned_of_mem_payloadRegions halign ?_ hr
  rw [Placement.dataStart]
  cases hbuffers : t.placement.buffers with
  | nil =>
    rw [Placement.dataRegions, hbuffers] at hr
    cases hr
  | cons payload rest => exact dvd_roundUp halign _

end Stowed

theorem length_encodeTrailer {indexOffset indexLength kvOffset : UInt64} {kvLength crc : UInt32} :
    (FileWriterCore.encodeTrailer indexOffset indexLength kvOffset kvLength crc).length = 40 := by
  simp [FileWriterCore.encodeTrailer, TRAILER_MAGIC]

theorem indexOrder_perm (core : FileWriterCore) : core.indexOrder.Perm core.entries := by
  unfold FileWriterCore.indexOrder
  split
  · exact List.mergeSort_perm _ _
  · exact List.Perm.refl _

section Footed
variable {crc32c : Bytes → UInt32} {options : FileWriterOptions} {kv : List (String × KvValue)}
  {items : List FileSubmission} {file body footer : Bytes} {core : FileWriterCore}
  {ts : List Stowed} {kvOffset indexOffset : UInt64} {kvLength : UInt32}

/-- The items in front of the footer. -/
theorem fills_body (h : Stowed.Account core body items ts) :
    Region.Fills 0 body 0 (⟨0, core.encodeHeader⟩ :: ts.flatMap fun t => t.placement.regions)
      body.length := by
  have hheader := Region.fills_singleton (0 : UInt8) ⟨0, core.encodeHeader⟩
  have hstop : (⟨0, core.encodeHeader⟩ : Region UInt8).stop = FILE_HEADER_SIZE.toNat := by
    rw [Region.stop, Stowed.length_encodeHeader]
    exact Nat.zero_add _
  rw [hstop] at hheader
  have hfills := hheader.append h.follow.fills
  rw [← h.contents] at hfills
  exact hfills

/-- The metadata of a footer, and where the index starts behind it. -/
theorem fills_footer (hoffset : core.offset.toNat = body.length) (halign : 8 ∣ body.length)
    (hplan : core.planKv kv = .ok (footer, kvOffset, kvLength))
    (hindex : indexOffset.toNat = core.offset.toNat + footer.length) :
    8 ∣ indexOffset.toNat ∧ ∃ regions,
      Region.Fills 0 footer body.length regions indexOffset.toNat ∧
      ((kv = [] ∧ regions = [] ∧ kvOffset = 0 ∧ kvLength = 0) ∨
        (kv ≠ [] ∧ ∃ r, regions = [r] ∧ 8 ∣ r.start ∧ encodeKvSection kv = .ok r.contents ∧
          kvOffset.toNat = r.start ∧ kvLength = UInt32.ofNat r.contents.length)) := by
  rcases FileWriterCore.planKv_eq_ok.mp hplan with
    ⟨hkv, rfl, rfl, rfl⟩ | ⟨hkv, bytes, hbytes, -, rfl, rfl, rfl⟩
  · have hstart : indexOffset.toNat = body.length := by
      rw [hindex, hoffset]
      rfl
    rw [hstart]
    exact ⟨halign, [], Region.fills_nil, .inl ⟨hkv, rfl, rfl, rfl⟩⟩
  · have hround := le_roundUp (body.length + bytes.length) 8
    have hstart : indexOffset.toNat = roundUp (body.length + bytes.length) 8 := by
      rw [hindex, List.length_append, List.length_replicate, hoffset]
      omega
    have hfills := (Region.fills_singleton (0 : UInt8) ⟨body.length, bytes⟩).append
      (Region.fills_filler hround)
    rw [hstart, hoffset]
    exact ⟨dvd_roundUp (Nat.succ_pos 7) _, [⟨body.length, bytes⟩], hfills,
      .inr ⟨hkv, _, rfl, halign, hbytes, rfl, rfl⟩⟩

/-- A file with a footer is laid out as the format wants it. -/
theorem Footed.laidOut (h : Footed crc32c options kv items file) (hvalid : options.Valid) :
    ∃ p, items = .header :: p.tensors.map Stowed.item ∧ LaidOut crc32c options kv file p := by
  obtain ⟨⟨core, op, body, hstocked, hoffset, hfinish, hfile⟩, hsize⟩ := h
  obtain ⟨hopen, -, footer, kvOffset, kvLength, indexOffset, hplan, hindex, rfl⟩ :=
    FileWriterCore.finish_eq_ok.mp hfinish
  rw [FileWriterCore.image_start_owned] at hfile
  obtain ⟨ts, haccount⟩ : ∃ ts, Stowed.Account core body items ts := by
    rcases hstocked.stock with ⟨hheader, -⟩ | haccount
    · rw [hopen.headerWritten] at hheader
      cases hheader
    · exact haccount
  have haligned := haccount.follow.aligned (by decide)
  obtain ⟨hindexAligned, kvRegions, hfooter, hkv⟩ :=
    fills_footer hoffset haligned.1 hplan hindex
  generalize hsection : encodeIndexSection core.indexOrder = indexBytes at hfile
  have hlengths : indexOffset.toNat + indexBytes.length + 40 = file.length := by
    have hlen := congrArg List.length hfile
    have hbody := hfooter.length
    simp only [List.length_append, length_encodeTrailer] at hlen
    omega
  have hindexLength : (UInt64.ofNat indexBytes.length).toNat = indexBytes.length :=
    UInt64.toNat_ofNat_of_lt' (by omega)
  generalize htrailer : FileWriterCore.encodeTrailer indexOffset (UInt64.ofNat indexBytes.length)
    kvOffset kvLength (crc32c indexBytes) = trailer at hfile
  have htrailerLength : trailer.length = 40 := by
    rw [← htrailer]
    exact length_encodeTrailer
  let p : FileParts := ⟨⟨0, core.encodeHeader⟩, ts, kvRegions, ⟨indexOffset.toNat, indexBytes⟩,
    ⟨indexOffset.toNat + indexBytes.length, trailer⟩⟩
  have hfills : Region.Fills 0 file 0 p.regions file.length := by
    have hindexFills := Region.fills_singleton (0 : UInt8) p.index
    have htrailerFills := Region.fills_singleton (0 : UInt8) p.trailer
    have hall := ((fills_body haccount).append hfooter).append (hindexFills.append htrailerFills)
    have hstop : p.trailer.stop = file.length := by
      show indexOffset.toNat + indexBytes.length + trailer.length = _
      rw [htrailerLength]
      exact hlengths
    have hcontents : body ++ footer ++ (indexBytes ++ trailer) = file := by
      rw [hfile]
      simp only [List.append_assoc]
    rw [hstop, hcontents] at hall
    exact hall
  have hheader : core.encodeHeader = (FileWriterCore.build options).encodeHeader := by
    unfold FileWriterCore.encodeHeader FileWriterCore.fileFlags
    rw [hstocked.alignment, hstocked.sortedIndex]
    rfl
  have halignment : core.alignment.toNat = options.dataBufferAlignment.toNat := by
    rw [hstocked.alignment, UInt32.toNat_toUInt64]
  have hpositive : 0 < options.dataBufferAlignment.toNat := by
    have hmin := hvalid.2.1
    rw [UInt32.le_iff_toNat_le] at hmin
    exact Nat.lt_of_lt_of_le (by decide) hmin
  refine ⟨p, haccount.items, ?_⟩
  constructor
  · intro r hr
    exact hfills.holds hr
  · exact hfills.pairwise
  · intro i hi hfree
    exact hfills.filler (Nat.zero_le i) hi hfree
  · rw [← hheader]
  · intro t ht
    obtain ⟨hdescriptor, hlength, -⟩ := (haccount.accepted t ht).entry
    exact ⟨(haccount.accepted t ht).encoded, haligned.2 t ht, (haccount.follow.image ht).1,
      hdescriptor, hlength⟩
  · intro t ht
    refine ⟨contents_payloadRegions, ?_⟩
    intro r hr
    have hplaced := (haccount.accepted t ht).alignment.trans halignment
    rw [← hplaced] at hpositive ⊢
    exact Stowed.aligned_dataRegions hpositive hr
  · intro t ht hnone
    exact (haccount.accepted t ht).bufferless hnone
  · intro t ht first last hfirst hlast
    exact (haccount.accepted t ht).span hfirst hlast
  · rcases hkv with ⟨hkv, hnone, -⟩ | ⟨hkv, r, hregions, hstart, hbytes, -⟩
    · exact .inl ⟨hkv, hnone⟩
    · exact .inr ⟨hkv, r, hregions, hstart, hbytes⟩
  · refine ⟨hindexAligned, core.indexOrder, ?_, hsection.symm⟩
    rw [← haccount.entries]
    exact indexOrder_perm core
  · refine ⟨rfl, indexOffset, UInt64.ofNat indexBytes.length, kvOffset, kvLength, htrailer.symm,
      rfl, hindexLength, ?_, ?_, ?_⟩
    · intro hnone
      rcases hkv with ⟨-, -, hzero⟩ | ⟨-, r, hregions, -⟩
      · exact hzero
      · exact absurd (hregions.symm.trans hnone) (List.cons_ne_nil _ _)
    · intro r hr
      have hmem : r ∈ kvRegions := hr
      rcases hkv with ⟨-, hnone, -⟩ | ⟨-, r', hregions, -, -, hwords⟩
      · rw [hnone] at hmem
        cases hmem
      · rw [hregions] at hmem
        obtain rfl := List.mem_singleton.mp hmem
        exact hwords
    · rw [hindexLength]
      exact hlengths

end Footed

namespace FileWriterLife

/-- However a writer is driven, the file is laid out as the format wants it once a footer is out. -/
theorem run_laidOut {options : FileWriterOptions} {core : FileWriterCore}
    (h : FileWriterCore.withOptions options = .ok core) (crc32c : Bytes → UInt32)
    (actions : List FileWriterAction) {kv : List (String × KvValue)}
    (hdone : .finish kv ∈ (run crc32c core actions).done) :
    ∃ p, (run crc32c core actions).done = .header :: p.tensors.map Stowed.item ++ [.finish kv] ∧
      LaidOut crc32c options kv (run crc32c core actions).emitted p := by
  obtain ⟨items, hitems, hfooted⟩ := footed_of_run h hdone
  obtain ⟨_, hvalid, -⟩ := Exec.bind_eq_ok.mp h
  obtain ⟨p, rfl, hlaid⟩ :=
    hfooted.laidOut (not_not.mp (Exec.reject_eq_ok.mp (Exec.mapError_eq_ok.mp hvalid)))
  exact ⟨p, hitems, hlaid⟩

/-- The worked example is written, and the file is finished. -/
def workedWriting : List FileWriterAction :=
  [.submit .header, .step, .report 64, .step, .drop,
    .submit (.tensor "a" workedExample [List.replicate 192 7]), .step, .report 40, .report 21, .step,
    .report 3971, .step, .report 192, .step, .drop,
    .submit (.finish []), .step, .report 83, .step]

theorem run_laidOut_worked :
    ∃ p, (run (fun _ => 0) FileWriterCore.new workedWriting).done =
        .header :: p.tensors.map Stowed.item ++ [.finish []] ∧
      LaidOut (fun _ => 0) .default [] (run (fun _ => 0) FileWriterCore.new workedWriting).emitted
        p := by
  have hfooter : ((run (fun _ => 0) FileWriterCore.new workedWriting).done.any fun item =>
      match item with
      | .finish [] => true
      | _ => false) = true := by decide +kernel
  obtain ⟨item, hitem, hfinish⟩ := List.any_eq_true.mp hfooter
  have hdone : .finish [] ∈ (run (fun _ => 0) FileWriterCore.new workedWriting).done := by
    split at hfinish
    · exact hitem
    · cases hfinish
  exact run_laidOut (show FileWriterCore.withOptions .default = .ok FileWriterCore.new from rfl)
    (fun _ => 0) workedWriting hdone

end FileWriterLife
end Hurray.File
