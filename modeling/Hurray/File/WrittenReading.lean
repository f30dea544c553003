import Hurray.File.FileLayout
import Hurray.File.LengthAgreement
import Hurray.File.SectionRoundtrip
import Hurray.Stream.StreamRoundtrip

/-!
What a reader makes of a file that a writer has written. Each part that the
reader locates is where the writer has put it, so that the file opens with the
index and the metadata of the writer, and every entry leads to its tensor.
-/
namespace Hurray.File
open Hurray.Base Hurray.Core Hurray.Descriptor Hurray.Stream

section Fetch
variable {file data : Bytes} {offset : UInt64} {n : ℕ}

theorem fetch_of_prefix (h : data <+: file.drop offset.toNat) (hlen : data.length = n)
    (hend : offset.toNat + n < UInt64.size) : fetch file offset n = .ok data := by
  subst hlen
  exact fetch_eq_ok.mpr ⟨hend, rfl, List.prefix_iff_eq_take.mp h⟩

end Fetch

/-! ### Header and trailer -/

theorem headerFlags_encodeHeader (core : FileWriterCore) :
    headerFlags core.encodeHeader = .ok core.fileFlags := by
  have hmagic : (Exec.slice core.encodeHeader 0 8 : Result Bytes) = .ok FILE_MAGIC := rfl
  have hmajor : (Exec.index core.encodeHeader 8 : Result UInt8) = .ok 1 := rfl
  have hflags : (Exec.slice core.encodeHeader 12 4 : Result Bytes) = .ok (u32Bytes core.fileFlags) :=
    rfl
  have hreserved : core.fileFlags &&& RESERVED_FLAGS = 0 := by
    unfold FileWriterCore.fileFlags
    cases core.sortedIndex <;> decide
  rw [headerFlags, hmagic, hmajor, hflags]
  simp only [Exec.ok_bind, u32OfBytes_u32Bytes, hreserved]
  rfl

theorem headerAlignment_encodeHeader {options : FileWriterOptions} (hvalid : options.Valid)
    {core : FileWriterCore} (h : core.alignment = options.dataBufferAlignment.toUInt64) :
    headerAlignment core.encodeHeader = .ok options.dataBufferAlignment := by
  have hfield : (Exec.slice core.encodeHeader 16 4 : Result Bytes) =
      .ok (u32Bytes core.alignment.toUInt32) := rfl
  have hword : core.alignment.toUInt32 = options.dataBufferAlignment := by
    rw [h]
    exact UInt32.toUInt32_toUInt64 _
  rw [headerAlignment, hfield, Exec.ok_bind, u32OfBytes_u32Bytes, hword]
  dsimp only
  rw [Exec.reject_of_not]
  · rfl
  · intro hbad
    rcases hbad with hpow | hmax
    · exact hpow hvalid.1
    · exact absurd hmax (UInt32.not_lt.mpr hvalid.2.2)

theorem readTrailer_encodeTrailer (t : Trailer) : readTrailer (FileWriterCore.encodeTrailer
    t.indexOffset t.indexLength t.kvOffset t.kvLength t.indexCrc) = .ok t := by
  obtain ⟨indexOffset, indexLength, kvOffset, kvLength, crc⟩ := t
  generalize hw : FileWriterCore.encodeTrailer indexOffset indexLength kvOffset kvLength crc = w
  have hmagic : (Exec.slice w 36 4 : Result Bytes) = .ok TRAILER_MAGIC := hw ▸ rfl
  have h₁ : (Exec.slice w 0 8 : Result Bytes) = .ok (u64Bytes indexOffset) := hw ▸ rfl
  have h₂ : (Exec.slice w 8 8 : Result Bytes) = .ok (u64Bytes indexLength) := hw ▸ rfl
  have h₃ : (Exec.slice w 16 8 : Result Bytes) = .ok (u64Bytes kvOffset) := hw ▸ rfl
  have h₄ : (Exec.slice w 24 4 : Result Bytes) = .ok (u32Bytes kvLength) := hw ▸ rfl
  have h₅ : (Exec.slice w 28 4 : Result Bytes) = .ok (u32Bytes crc) := hw ▸ rfl
  rw [readTrailer, hmagic, h₁, h₂, h₃, h₄, h₅]
  simp only [Exec.ok_bind, u64OfBytes_u64Bytes, u32OfBytes_u32Bytes]
  rfl

theorem checkIndexRange_of_le {size offset length : UInt64}
    (h : offset.toNat + length.toNat + TRAILER_SIZE.toNat ≤ size.toNat) :
    checkIndexRange size offset length = .ok () := by
  have hsize := size.toNat_lt_size
  have htrailer : TRAILER_SIZE ≤ size := by
    rw [UInt64.le_iff_toNat_le]
    omega
  have hsum : checkedAdd offset length = some (offset + length) :=
    checkedAdd_eq_some.mpr ⟨by omega, rfl⟩
  have hlimit : (Exec.subU64 size TRAILER_SIZE : Result UInt64) = .ok (size - TRAILER_SIZE) :=
    Exec.subU64_eq_ok.mpr ⟨htrailer, rfl⟩
  rw [checkIndexRange, hsum, Exec.orFail_some, Exec.ok_bind, hlimit, Exec.ok_bind,
    Exec.reject_of_not]
  rw [UInt64.not_lt, UInt64.le_iff_toNat_le, toNat_add_of_lt (by omega),
    UInt64.toNat_sub_of_le _ _ htrailer]
  omega

/-! ### The parts of a file -/

/-- The index has the entries in the order that the options ask for. -/
structure InOrder (sorted : Bool) (entries index : List IndexEntry) : Prop where
  perm : index.Perm entries
  written : sorted = false → index = entries
  sorted : sorted = true → index.Pairwise fun e f => utf8Bytes e.name ≤ utf8Bytes f.name

theorem inOrder_indexOrder (core : FileWriterCore) :
    InOrder core.sortedIndex core.entries core.indexOrder := by
  refine ⟨indexOrder_perm core, ?_, ?_⟩
  · intro hsorted
    rw [FileWriterCore.indexOrder, if_neg (by simp [hsorted])]
  · intro hsorted
    rw [FileWriterCore.indexOrder, if_pos hsorted]
    have hpairwise := @List.pairwise_mergeSort _
      (fun a b : IndexEntry => decide (utf8Bytes a.name ≤ utf8Bytes b.name))
      (by
        intro a b c hab hbc
        rw [decide_eq_true_eq] at hab hbc ⊢
        exact List.le_trans hab hbc)
      (by
        intro a b
        rw [Bool.or_eq_true, decide_eq_true_eq, decide_eq_true_eq]
        exact List.le_total _ _) core.entries
    exact hpairwise.imp of_decide_eq_true

/-- The tensors of a file, its index and what its trailer says. -/
structure Sealed (crc32c : Bytes → UInt32) (options : FileWriterOptions)
    (kv : List (String × KvValue)) (file : Bytes) (ts : List Stowed) (index : List IndexEntry)
    (t : Trailer) : Prop where
  header : (FileWriterCore.build options).encodeHeader <+: file
  accepted : ∀ t ∈ ts, t.Accepted options.dataBufferAlignment.toNat
  images : ∀ t ∈ ts, t.placement.image <+: file.drop t.placement.offset
  distinct : (ts.map Stowed.name).Nodup
  increasing : ts.Pairwise fun t u => t.placement.offset < u.placement.offset
  order : InOrder options.sortedIndex (ts.map Stowed.entry) index
  start : FILE_HEADER_SIZE.toNat ≤ t.indexOffset.toNat
  indexed : encodeIndexSection index <+: file.drop t.indexOffset.toNat
  indexLength : t.indexLength.toNat = (encodeIndexSection index).length
  indexCrc : t.indexCrc = crc32c (encodeIndexSection index)
  trailer : FileWriterCore.encodeTrailer t.indexOffset t.indexLength t.kvOffset t.kvLength t.indexCrc
    <+: file.drop (t.indexOffset.toNat + t.indexLength.toNat)
  stop : t.indexOffset.toNat + t.indexLength.toNat + TRAILER_SIZE.toNat = file.length
  size : file.length < UInt64.size
  keys : validateKvKeys kv = .ok ()
  kv : (kv = [] ∧ t.kvOffset = 0) ∨ ∃ bytes, encodeKvSection kv = .ok bytes ∧
    t.kvOffset ≠ 0 ∧ t.kvLength = UInt32.ofNat bytes.length ∧ bytes <+: file.drop t.kvOffset.toNat

/-- The header is a matter of the options. -/
theorem Stowed.Stocked.encodeHeader_eq {options : FileWriterOptions} {core : FileWriterCore}
    {body : Bytes} {items : List FileSubmission} (h : Stowed.Stocked options core body items) :
    core.encodeHeader = (FileWriterCore.build options).encodeHeader := by
  unfold FileWriterCore.encodeHeader FileWriterCore.fileFlags
  rw [h.alignment, h.sortedIndex]
  rfl

/-- The image of a tensor is in the file that its account is of. -/
theorem Stowed.Account.image {core : FileWriterCore} {body : Bytes} {items : List FileSubmission}
    {ts : List Stowed} (h : Stowed.Account core body items ts) {t : Stowed} (ht : t ∈ ts) :
    t.placement.offset ≤ body.length ∧ t.placement.image <+: body.drop t.placement.offset := by
  obtain ⟨hstart, hend, himage⟩ := h.follow.image ht
  have hlen := t.placement.length_image
  have hheader : core.encodeHeader.length = FILE_HEADER_SIZE.toNat := Stowed.length_encodeHeader
  refine ⟨by omega, ?_⟩
  have hskip : t.placement.offset =
      core.encodeHeader.length + (t.placement.offset - FILE_HEADER_SIZE.toNat) := by omega
  rw [h.contents, hskip, ← List.drop_drop, List.drop_left]
  exact himage

/-- Every tensor starts behind the ones before it. -/
theorem Stowed.Follow.increasing {start stop : ℕ} {ts : List Stowed}
    (h : Stowed.Follow start ts stop)
    (hencoded : ∀ t ∈ ts, encode t.descriptor = .ok t.placement.encoded) :
    ts.Pairwise fun t u => t.placement.offset < u.placement.offset := by
  induction ts generalizing start with
  | nil => exact .nil
  | cons t ts ih =>
    obtain ⟨rfl, hrest⟩ := h
    obtain ⟨henc, hencoded⟩ := List.forall_mem_cons.mp hencoded
    have hpos := List.length_pos_iff.mpr (encode_ne_nil henc)
    have hdescriptor : t.placement.descriptorEnd =
        t.placement.offset + t.placement.encoded.length := rfl
    have hstart := t.placement.descriptorEnd_le_dataStart
    have hdata := t.placement.dataStart_le_dataEnd
    have hend := t.placement.dataEnd_le_itemEnd
    refine List.pairwise_cons.mpr ⟨?_, ih hrest hencoded⟩
    intro u hu
    have hbehind := (hrest.image hu).1
    omega

/-- The file of a writer has its parts. -/
theorem Footed.exists_sealed {crc32c : Bytes → UInt32} {options : FileWriterOptions}
    {kv : List (String × KvValue)} {items : List FileSubmission} {file : Bytes}
    (h : Footed crc32c options kv items file) :
    ∃ ts index t, items = .header :: ts.map Stowed.item ∧
      Sealed crc32c options kv file ts index t := by
  obtain ⟨⟨core, op, body, hstocked, hoffset, hfinish, hfile⟩, hsize⟩ := h
  obtain ⟨hopen, hkeys, footer, kvOffset, kvLength, indexOffset, hplan, hindex, rfl⟩ :=
    FileWriterCore.finish_eq_ok.mp hfinish
  rw [FileWriterCore.image_start_owned] at hfile
  obtain ⟨ts, haccount⟩ : ∃ ts, Stowed.Account core body items ts := by
    rcases hstocked.stock with ⟨hheader, -⟩ | haccount
    · rw [hopen.headerWritten] at hheader
      cases hheader
    · exact haccount
  have halignment : core.alignment.toNat = options.dataBufferAlignment.toNat := by
    rw [hstocked.alignment, UInt32.toNat_toUInt64]
  have hbody : FILE_HEADER_SIZE.toNat ≤ body.length := haccount.follow.fills.le
  generalize hsection : encodeIndexSection core.indexOrder = indexBytes at hfile
  generalize htrailer : FileWriterCore.encodeTrailer indexOffset (UInt64.ofNat indexBytes.length)
    kvOffset kvLength (crc32c indexBytes) = trailer at hfile
  have htrailerLength : trailer.length = 40 := by
    rw [← htrailer]
    exact length_encodeTrailer
  have hstop : indexOffset.toNat + indexBytes.length + 40 = file.length := by
    rw [hfile]
    simp only [List.length_append]
    omega
  have hindexLength : (UInt64.ofNat indexBytes.length).toNat = indexBytes.length :=
    UInt64.toNat_ofNat_of_lt' (by omega)
  have hindexed : file.drop indexOffset.toNat = indexBytes ++ trailer := by
    have hfront : file = (body ++ footer) ++ (indexBytes ++ trailer) := by
      rw [hfile]
      simp only [List.append_assoc]
    rw [hfront]
    apply List.drop_left'
    rw [List.length_append]
    omega
  refine ⟨ts, core.indexOrder, ⟨indexOffset, UInt64.ofNat indexBytes.length, kvOffset, kvLength,
    crc32c indexBytes⟩, haccount.items, ?_⟩
  constructor
  · rw [← hstocked.encodeHeader_eq, hfile, haccount.contents, List.append_assoc]
    exact List.prefix_append _ _
  · intro t ht
    rw [← halignment]
    exact haccount.accepted t ht
  · intro t ht
    obtain ⟨hwithin, himage⟩ := haccount.image ht
    rw [hfile]
    exact prefix_drop_of_append himage hwithin
  · exact haccount.distinct
  · exact haccount.follow.increasing fun t ht => (haccount.accepted t ht).encoded
  · rw [← haccount.entries, ← hstocked.sortedIndex]
    exact inOrder_indexOrder core
  · show _ ≤ indexOffset.toNat
    omega
  · rw [hsection, hindexed]
    exact List.prefix_append _ _
  · rw [hsection]
    exact hindexLength
  · rw [hsection]
  · rw [htrailer, ← List.drop_drop, hindexed, hindexLength, List.drop_left]
  · show indexOffset.toNat + (UInt64.ofNat indexBytes.length).toNat + 40 = file.length
    rw [hindexLength]
    exact hstop
  · exact hsize
  · exact hkeys
  · rcases FileWriterCore.planKv_eq_ok.mp hplan with
      ⟨hkv, -, hzero, -⟩ | ⟨-, bytes, hbytes, -, hfooter, hkvOffset, hkvLength⟩
    · exact .inl ⟨hkv, hzero⟩
    · refine .inr ⟨bytes, hbytes, ?_, hkvLength, ?_⟩
      · intro hzero
        have hnone := congrArg UInt64.toNat (hkvOffset.symm.trans hzero)
        rw [hoffset, UInt64.toNat_zero] at hnone
        rw [hnone] at hbody
        exact absurd hbody (by decide)
      · show bytes <+: file.drop kvOffset.toNat
        rw [hkvOffset, hoffset, hfile, List.drop_left, hfooter]
        simp only [List.append_assoc]
        exact List.prefix_append _ _

/-! ### Opening -/

theorem length_le_encodeIndexSection (entries : List IndexEntry) :
    entries.length ≤ (encodeIndexSection entries).length := by
  have hentries : entries.length ≤ (entries.flatMap encodeIndexEntry).length := by
    induction entries with
    | nil => exact Nat.zero_le _
    | cons e entries ih =>
      rw [List.flatMap_cons, List.length_append, List.length_cons, encodeIndexEntry]
      simp only [List.length_append, length_u16Bytes]
      omega
  rw [encodeIndexSection, List.length_append]
  omega

namespace Sealed
variable {crc32c : Bytes → UInt32} {options : FileWriterOptions} {kv : List (String × KvValue)}
  {file : Bytes} {ts : List Stowed} {index : List IndexEntry} {t : Trailer}

theorem toNat_size (h : Sealed crc32c options kv file ts index t) :
    (UInt64.ofNat file.length).toNat = file.length := UInt64.toNat_ofNat_of_lt' h.size

theorem readHeader (h : Sealed crc32c options kv file ts index t) (hvalid : options.Valid) :
    readHeader file (UInt64.ofNat file.length) =
      .ok ((FileWriterCore.build options).fileFlags, options.dataBufferAlignment) := by
  have hstart := h.start
  have hstop := h.stop
  have hfetch : fetch file 0 FILE_HEADER_SIZE.toNat =
      .ok (FileWriterCore.build options).encodeHeader :=
    fetch_of_prefix h.header Stowed.length_encodeHeader (by decide)
  have hlarge : ¬ UInt64.ofNat file.length < FILE_HEADER_SIZE + TRAILER_SIZE := by
    rw [UInt64.not_lt, UInt64.le_iff_toNat_le, h.toNat_size]
    show FILE_HEADER_SIZE.toNat + TRAILER_SIZE.toNat ≤ file.length
    omega
  rw [File.readHeader, hfetch, Exec.ok_bind, Exec.reject_of_not hlarge, Exec.ok_bind,
    headerFlags_encodeHeader, Exec.ok_bind, headerAlignment_encodeHeader hvalid rfl]
  rfl

theorem locate (h : Sealed crc32c options kv file ts index t) :
    locate file (UInt64.ofNat file.length) = .ok t := by
  have hstop := h.stop
  have hle : TRAILER_SIZE ≤ UInt64.ofNat file.length := by
    rw [UInt64.le_iff_toNat_le, h.toNat_size]
    omega
  have hplace : (UInt64.ofNat file.length - TRAILER_SIZE).toNat =
      t.indexOffset.toNat + t.indexLength.toNat := by
    rw [UInt64.toNat_sub_of_le _ _ hle, h.toNat_size]
    omega
  have hfetch : fetch file (UInt64.ofNat file.length - TRAILER_SIZE) TRAILER_SIZE.toNat =
      .ok (FileWriterCore.encodeTrailer t.indexOffset t.indexLength t.kvOffset t.kvLength
        t.indexCrc) := by
    apply fetch_of_prefix
    · rw [hplace]
      exact h.trailer
    · exact length_encodeTrailer
    · rw [hplace, hstop]
      exact h.size
  rw [File.locate, Exec.subU64_eq_ok.mpr ⟨hle, rfl⟩, Exec.ok_bind, hfetch, Exec.ok_bind,
    readTrailer_encodeTrailer, Exec.ok_bind, checkIndexRange_of_le, Exec.ok_bind]
  · rfl
  · rw [h.toNat_size]
    exact hstop.le

theorem readIndex (h : Sealed crc32c options kv file ts index t)
    (hvector : (encodeIndexSection index).length ≤ ISIZE_MAX) (flags : UInt32) :
    readIndex crc32c file flags t = .ok index := by
  have hstop := h.stop
  have hsize := h.size
  have hlength := h.indexLength
  have hcount := length_le_encodeIndexSection index
  have hfetch : fetch file t.indexOffset t.indexLength.toNat = .ok (encodeIndexSection index) :=
    fetch_of_prefix h.indexed hlength.symm (by omega)
  have hnames : ∀ e ∈ index, Named e.name := by
    intro e he
    obtain ⟨t, ht, rfl⟩ := List.mem_map.mp (h.order.perm.mem_iff.mp he)
    exact ⟨(h.accepted t ht).nonempty, (h.accepted t ht).length⟩
  have hnodup : (index.map IndexEntry.name).Nodup := by
    rw [(h.order.perm.map IndexEntry.name).nodup_iff, List.map_map]
    exact h.distinct
  rw [File.readIndex, reserve, if_neg (by omega), Exec.ok_bind, hfetch, Exec.ok_bind,
    checkIndexCrc, Exec.reject_of_not, Exec.ok_bind,
    parseIndex_encodeIndexSection (by omega) hnames hnodup]
  exact fun hbad => hbad.2 h.indexCrc.symm

theorem readKv (h : Sealed crc32c options kv file ts index t)
    (hkv : ∀ bytes, encodeKvSection kv = .ok bytes → bytes.length < UInt32.size) (flags : UInt32) :
    readKv file flags t = .ok kv := by
  rw [File.readKv]
  rcases h.kv with ⟨rfl, hzero⟩ | ⟨bytes, hbytes, hoffset, hlength, hprefix⟩
  · rw [if_neg]
    · rfl
    · exact fun hbad => hbad.2.1 hzero
  · have hlt := hkv bytes hbytes
    have hlen : t.kvLength.toNat = bytes.length := by
      rw [hlength]
      exact UInt32.toNat_ofNat_of_lt' hlt
    have hpos : 0 < bytes.length := by
      obtain ⟨entries, -, hpure⟩ := Exec.bind_eq_ok.mp hbytes
      cases hpure
      rw [List.length_append, length_u32Bytes]
      omega
    have hnonzero : t.kvLength ≠ 0 := by
      intro hzero
      rw [hzero] at hlen
      exact absurd hlen.symm (Nat.pos_iff_ne_zero.mp hpos)
    have hwithin := hprefix.length_le
    rw [List.length_drop] at hwithin
    have hsize := h.size
    have hfetch : fetch file t.kvOffset t.kvLength.toNat = .ok bytes :=
      fetch_of_prefix hprefix hlen.symm (by omega)
    rw [if_pos ⟨.inr hoffset, hoffset, hnonzero⟩, hfetch, Exec.ok_bind,
      parseKv_encodeKvSection hbytes hlt h.keys]

/-- The file opens, with what the writer has put into it. -/
theorem openFile (h : Sealed crc32c options kv file ts index t) (hvalid : options.Valid)
    (hvector : (encodeIndexSection index).length ≤ ISIZE_MAX)
    (hkv : ∀ bytes, encodeKvSection kv = .ok bytes → bytes.length < UInt32.size) :
    openFile crc32c file (UInt64.ofNat file.length) =
      .ok ⟨options.dataBufferAlignment.toUInt64, index, kv⟩ := by
  rw [File.openFile, h.readHeader hvalid, Exec.ok_bind]
  dsimp only
  rw [h.locate, Exec.ok_bind, h.readIndex hvector, Exec.ok_bind, h.readKv hkv]
  rfl

end Sealed
/-! ### Reading a tensor -/

section Reading
variable {A : Type} [DestinationAlloc A] {file : Bytes} {alignment : UInt64}

/-- The allocator has memory for each buffer. -/
def GrantsAll (A : Type) [DestinationAlloc A] (d : TensorDescriptor) : Prop :=
  ∀ i h, d.buffers[i]? = some h → Grants A ⟨i, h.byteSize, h.alignment⟩

/-- Payloads that are in the file are read from it, whatever is between them. -/
theorem readBuffers_of_placed (index : ℕ) {hs : List BufferHandle} {buffers : List Bytes}
    {offset : UInt64} (halign : alignment ≠ 0)
    (hgrants : ∀ i h, hs[i]? = some h → Grants A ⟨index + i, h.byteSize, h.alignment⟩)
    (hsizes : hs.map (fun h => h.byteSize.toNat) = buffers.map List.length)
    (hplaced : Placed file alignment.toNat buffers offset.toNat)
    (hend : regionEnd alignment.toNat buffers offset.toNat < UInt64.size) (a : A) :
    ∃ a', readBuffers file alignment hs index offset a = .ok (buffers, a') := by
  induction hs generalizing buffers index offset a with
  | nil =>
    obtain rfl : buffers = [] := List.map_eq_nil_iff.mp hsizes.symm
    exact ⟨a, rfl⟩
  | cons h hs ih =>
    cases buffers with
    | nil => cases hsizes
    | cons payload rest =>
      obtain ⟨hsize, hsizes⟩ := List.cons.inj hsizes
      replace hsize : h.byteSize.toNat = payload.length := hsize
      obtain ⟨hpayload, hplaced⟩ := hplaced
      obtain ⟨mem, a', hgranted, -⟩ := hgrants 0 h rfl a
      have hstop : offset.toNat + payload.length < UInt64.size := by
        have hle := le_regionEnd alignment.toNat rest
          (offset.toNat + payload.length +
            gap alignment.toNat rest (offset.toNat + payload.length))
        rw [regionEnd] at hend
        omega
      have hfetch : fetch file offset h.byteSize.toNat = .ok payload :=
        fetch_of_prefix hpayload hsize.symm (by omega)
      have hallocated : DestinationAlloc.allocate ⟨index, h.byteSize, h.alignment⟩ a =
          (.ok mem, a') := hgranted
      unfold readBuffers
      dsimp only
      rw [hallocated, Exec.ok_bind, hfetch, Exec.ok_bind]
      cases hs with
      | nil =>
        obtain rfl : rest = [] := List.map_eq_nil_iff.mp hsizes.symm
        exact ⟨a', rfl⟩
      | cons next hs =>
        cases rest with
        | nil => cases hsizes
        | cons payload' rest =>
          rw [regionEnd, add_gap_cons] at hend
          have hsum : (offset + h.byteSize).toNat = offset.toNat + payload.length := by
            rw [toNat_add_of_lt (by omega), hsize]
          have hround : roundUp (offset.toNat + payload.length) alignment.toNat < UInt64.size :=
            Nat.lt_of_le_of_lt (le_regionEnd _ _ _) hend
          obtain ⟨start, hstart⟩ := exists_word hround
          have hnext : alignUp (offset + h.byteSize) alignment = .ok start := by
            rw [alignUp_eq_ok halign, hsum]
            exact hstart
          rw [← hstart] at hplaced hend
          obtain ⟨a'', hrest⟩ := ih (index + 1) (by
            intro i h' hh'
            have hgrant := hgrants (i + 1) h' hh'
            rwa [Nat.add_comm i 1, ← Nat.add_assoc] at hgrant) hsizes hplaced hend a'
          rw [List.isEmpty_cons, if_neg Bool.false_ne_true, hnext, Exec.ok_bind, hrest]
          exact ⟨a'', rfl⟩

variable {t : FileTensor} {e : IndexEntry}

theorem EntryAt.readDescriptor {k : ℕ} (h : EntryAt file k t e) (hfile : file.length < UInt64.size)
    (hroundTrips : RoundTrips t.descriptor) : readDescriptor file e = .ok t.descriptor := by
  obtain ⟨encoded, henc, hlength, hprefix⟩ := h.descriptor
  obtain ⟨b, hb, -, hdecode⟩ := hroundTrips
  obtain rfl : encoded = b := Except.ok.inj (henc.symm.trans hb)
  have hwithin := hprefix.length_le
  have hpos := List.length_pos_iff.mpr (encode_ne_nil henc)
  rw [List.length_drop] at hwithin
  exact readDescriptor_eq_ok.mpr
    ⟨encoded, fetch_of_prefix hprefix hlength.symm (by omega), hdecode⟩

/-- The entry leads to its tensor. -/
theorem EntryAt.readTensor (h : EntryAt file alignment.toNat t e)
    (hfile : file.length < UInt64.size) (halign : alignment ≠ 0)
    (hsizes : t.descriptor.buffers.map (fun h => h.byteSize.toNat) = t.buffers.map List.length)
    (hgrants : GrantsAll A t.descriptor) (a : A) :
    ∃ a', readTensor file alignment e.name e.dataOffset t.descriptor a = .ok (t, a') := by
  have hend := h.dataLength
  have hwithin := h.within
  obtain ⟨a', hbuffers⟩ := readBuffers_of_placed 0 halign (by
    intro i handle hhandle
    rw [Nat.zero_add]
    exact hgrants i handle hhandle) hsizes h.data (by omega) a
  refine ⟨a', ?_⟩
  rw [File.readTensor, hbuffers, Exec.ok_bind, h.name]
  rfl

end Reading

theorem FileWriterOptions.Valid.alignment_ne_zero {options : FileWriterOptions}
    (h : options.Valid) : options.dataBufferAlignment.toUInt64 ≠ 0 := by
  intro hzero
  have hnat := congrArg UInt64.toNat hzero
  rw [UInt32.toNat_toUInt64] at hnat
  have hmin := UInt32.le_iff_toNat_le.mp h.2.1
  rw [hnat] at hmin
  exact absurd hmin (by decide)

namespace Sealed
variable {A : Type} [DestinationAlloc A] {crc32c : Bytes → UInt32} {options : FileWriterOptions}
  {kv : List (String × KvValue)} {file : Bytes} {ts : List Stowed} {index : List IndexEntry}
  {t : Trailer} {u : Stowed}

/-- The entry of a tensor is found by its name, and says where the tensor is. -/
theorem entryAt (h : Sealed crc32c options kv file ts index t) (hu : u ∈ ts) :
    FileReaderCore.find index u.name = some u.entry ∧
      EntryAt file options.dataBufferAlignment.toUInt64.toNat u.tensor u.entry := by
  have haccepted := h.accepted u hu
  have hsize := h.size
  have himage := h.images u hu
  have hwithin : u.placement.offset ≤ file.length := by
    have hlen := himage.length_le
    have hpos := List.length_pos_iff.mpr (encode_ne_nil haccepted.encoded)
    rw [List.length_drop, Placement.image] at hlen
    simp only [List.length_append] at hlen
    omega
  constructor
  · have hnodup : (index.map IndexEntry.name).Nodup := by
      rw [(h.order.perm.map IndexEntry.name).nodup_iff, List.map_map]
      exact h.distinct
    exact find_of_nodup hnodup (h.order.perm.mem_iff.mpr (List.mem_map_of_mem hu))
  · rw [UInt32.toNat_toUInt64, ← haccepted.alignment]
    exact entryAt_of_image haccepted.encoded haccepted.fits himage hwithin

/-- An open reader delivers each tensor of the file, under any schedule of reads. -/
theorem delivers (h : Sealed crc32c options kv file ts index t) (hvalid : options.Valid)
    (hA : LawfulAlloc A) (hu : u ∈ ts) (hroundTrips : RoundTrips u.descriptor)
    (hgrants : GrantsAll A u.descriptor) {c : FileReaderCore A} {depth : ℕ}
    (hc : c.OpenWith (index, kv, options.dataBufferAlignment.toUInt64, depth)) :
    ∃ begun, c.begin .tensor u.name = (.ok (), begun) ∧ ∀ chunk calls,
      (FileReaderCore.drive crc32c file chunk calls begun).map FileReaderCore.delivery =
        .ok (some (.tensor u.tensor)) := by
  obtain ⟨hopen, hsettings⟩ := hc
  simp only [FileReaderCore.settings, Prod.mk.injEq] at hsettings
  obtain ⟨hindex, -, halignment, -⟩ := hsettings
  obtain ⟨hfind, hentry⟩ := h.entryAt hu
  rw [← hindex] at hfind
  obtain ⟨a', htensor⟩ := hentry.readTensor h.size hvalid.alignment_ne_zero (h.accepted u hu).sizes
    hgrants c.destinations
  refine ⟨_, FileReaderCore.begin_of_find hopen hfind, ?_⟩
  intro chunk calls
  rw [FileReaderCore.delivery_eq hA hfind, readJob, hentry.readDescriptor h.size hroundTrips,
    Exec.ok_bind, halignment]
  show Except.map _ (File.readTensor file _ u.entry.name u.entry.dataOffset u.tensor.descriptor
    c.destinations >>= _) = _
  rw [htensor]
  rfl

end Sealed
end Hurray.File
