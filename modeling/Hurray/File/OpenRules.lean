import Hurray.File.HistoryIndependence
import Hurray.File.SectionFormat

/-!
What a file is that opens, against the rules by which the format has a reader
reject it. The reader never looks at a stored checksum that the flags do not
announce, and it takes any low element tag for an array without elements.
-/
namespace Hurray.File
open Hurray.Base Hurray.Core Hurray.Descriptor Hurray.Stream

/-! ### Where the format puts the fields of a file -/

/-- The bytes of a file at a place. -/
def bytesAt (file : Bytes) (offset len : ℕ) : Bytes := (file.drop offset).take len

def fileFlags (file : Bytes) : UInt32 := u32OfBytes (bytesAt file 12 4)

def trailerAt (size : UInt64) : ℕ := size.toNat - TRAILER_SIZE.toNat

def trailerOf (file : Bytes) (size : UInt64) : Trailer where
  indexOffset := u64OfBytes (bytesAt file (trailerAt size) 8)
  indexLength := u64OfBytes (bytesAt file (trailerAt size + 8) 8)
  kvOffset := u64OfBytes (bytesAt file (trailerAt size + 16) 8)
  kvLength := u32OfBytes (bytesAt file (trailerAt size + 24) 4)
  indexCrc := u32OfBytes (bytesAt file (trailerAt size + 28) 4)

def indexBytes (file : Bytes) (t : Trailer) : Bytes :=
  bytesAt file t.indexOffset.toNat t.indexLength.toNat

def kvBytes (file : Bytes) (t : Trailer) : Bytes :=
  bytesAt file t.kvOffset.toNat t.kvLength.toNat

/-! ### The rules -/

structure IndexRules (es : List IndexWire) : Prop where
  names : ∀ e ∈ es, e.name ≠ [] ∧ ValidUtf8 e.name
  distinct : (es.map IndexWire.name).Nodup

structure KvRules (es : List KvWire) : Prop where
  keys : ∀ e ∈ es, e.key ≠ [] ∧ ValidUtf8 e.key
  distinct : (es.map KvWire.key).Nodup
  tags : ∀ e ∈ es, 0x01 ≤ e.tag ∧ e.tag ≤ 0x07
  elementTags : ∀ e ∈ es, ∀ x, elementTag e.tag e.payload = some x → 0x01 ≤ x ∧ x ≤ 0x06

/-- The rules of the format for a file of this size. -/
structure FormatRules (crc32c : Bytes → UInt32) (file : Bytes) (size : UInt64) : Prop where
  magic : bytesAt file 0 8 = FILE_MAGIC
  trailerMagic : bytesAt file (trailerAt size + 36) 4 = TRAILER_MAGIC
  version : ∀ major, file[8]? = some major → major ≤ SUPPORTED_CONTAINER_VERSION_MAJOR
  flags : fileFlags file &&& RESERVED_FLAGS = 0
  indexRange : (trailerOf file size).indexOffset.toNat + (trailerOf file size).indexLength.toNat ≤
    trailerAt size
  checksum : fileFlags file &&& HAS_INDEX_CRC32C ≠ 0 →
    crc32c (indexBytes file (trailerOf file size)) = (trailerOf file size).indexCrc
  noChecksum : fileFlags file &&& HAS_INDEX_CRC32C = 0 → (trailerOf file size).indexCrc = 0
  index : ∃ es, IndexSection (indexBytes file (trailerOf file size)) es ∧ IndexRules es
  kv : (trailerOf file size).kvOffset ≠ 0 → (trailerOf file size).kvLength ≠ 0 →
    ∃ es, KvSection (kvBytes file (trailerOf file size)) es ∧ KvRules es

/-- An array without elements whose element tag is 0x00. -/
def KvWire.Untyped (e : KvWire) : Prop := e.tag = 0x07 ∧ e.payload = 0x00 :: u32Bytes 0

/-- What a reader leaves unchecked: the trailer stores no checksum that the flags do not announce,
and the key-value section holds no untyped array. -/
structure Unstrained (file : Bytes) (size : UInt64) : Prop where
  checksum : fileFlags file &&& HAS_INDEX_CRC32C ≠ 0 ∨ (trailerOf file size).indexCrc = 0
  arrays : (trailerOf file size).kvOffset ≠ 0 → (trailerOf file size).kvLength ≠ 0 →
    ∀ es, KvSection (kvBytes file (trailerOf file size)) es → ∀ e ∈ es, ¬ e.Untyped

/-! ### What the sections were checked for -/

theorem indexRules_of_denotes {es : List IndexWire} {entries : List IndexEntry}
    (h : List.Forall₂ IndexWire.Denotes es entries) (hnames : ∀ e ∈ es, e.name ≠ [])
    (hnodup : (entries.map IndexEntry.name).Nodup) : IndexRules es := by
  have hmap : es.map IndexWire.name = (entries.map IndexEntry.name).map utf8Bytes := by
    clear hnames hnodup
    induction h with
    | nil => rfl
    | cons h _ ih => rw [List.map_cons, List.map_cons, List.map_cons, ih, h.name]
  constructor
  · intro e he
    refine ⟨hnames e he, ?_⟩
    have hmem : e.name ∈ es.map IndexWire.name := List.mem_map_of_mem he
    rw [hmap] at hmem
    obtain ⟨name, -, hname⟩ := List.mem_map.mp hmem
    exact ⟨name, hname⟩
  · rw [hmap]
    exact hnodup.map fun _ _ h => utf8Bytes_inj.mp h

theorem Stands.tag_range {tag : UInt8} {payload : Bytes} {v : KvValue} (h : Stands tag payload v) :
    0x01 ≤ tag ∧ tag ≤ 0x07 := by
  cases h with
  | scalar _ => exact v.tag_range
  | array _ _ => decide

/-- An element tag is that of the first element, if there is one. -/
theorem Stands.elementTag {tag x : UInt8} {payload : Bytes} {v : KvValue}
    (h : Stands tag payload v) (hx : elementTag tag payload = some x) :
    0x01 ≤ x ∨ tag = 0x07 ∧ payload = x :: u32Bytes 0 := by
  cases h with
  | scalar hscalar =>
    rw [File.elementTag, if_neg] at hx
    · cases hx
    · cases v with
      | array elements => exact hscalar.elim
      | _ =>
        dsimp only [kvWireTag]
        decide
  | @array elemTag elements hall hlen =>
    cases hx
    cases elements with
    | nil => exact .inr ⟨rfl, rfl⟩
    | cons v elements =>
      left
      rw [← (hall v List.mem_cons_self).1]
      exact v.tag_range.1

theorem kvRules_of_denotes {es : List KvWire} {kv : List (String × KvValue)}
    (h : List.Forall₂ KvWire.Denotes es kv) (hadmitted : ∀ e ∈ es, e.Admitted)
    (hnodup : (kv.map Prod.fst).Nodup) (huntyped : ∀ e ∈ es, ¬ e.Untyped) : KvRules es := by
  have hmap : es.map KvWire.key = (kv.map Prod.fst).map utf8Bytes := by
    clear hadmitted hnodup huntyped
    induction h with
    | nil => rfl
    | cons h _ ih => rw [List.map_cons, List.map_cons, List.map_cons, ih, h.key]
  have hframed := framed_of_denotes h
  constructor
  · intro e he
    refine ⟨(hadmitted e he).key, ?_⟩
    have hmem : e.key ∈ es.map KvWire.key := List.mem_map_of_mem he
    rw [hmap] at hmem
    obtain ⟨key, -, hkey⟩ := List.mem_map.mp hmem
    exact ⟨key, hkey⟩
  · rw [hmap]
    exact hnodup.map fun _ _ h => utf8Bytes_inj.mp h
  · intro e he
    obtain ⟨v, hv⟩ := (hframed e he).payload
    exact hv.tag_range
  · intro e he x hx
    obtain ⟨v, hv⟩ := (hframed e he).payload
    refine ⟨?_, (hadmitted e he).elementTag x hx⟩
    rcases hv.elementTag hx with hle | ⟨htag, hpayload⟩
    · exact hle
    · by_contra hlt
      have hzero : x = 0x00 := by
        have hnat : x.toNat < 1 := UInt8.lt_iff_toNat_lt.mp (UInt8.not_le.mp hlt)
        apply UInt8.toNat_inj.mp
        show x.toNat = 0
        omega
      rw [hzero] at hpayload
      exact huntyped e he ⟨htag, hpayload⟩

/-! ### What opening checks -/

section Opens
variable {file data : Bytes} {size : UInt64} {crc32c : Bytes → UInt32}

/-- A slice of a range is a range. -/
theorem slice_of_fetch {offset : UInt64} {len i n : ℕ} {w : Bytes}
    (h : fetch file offset len = .ok data) (hw : (Exec.slice data i n : Result Bytes) = .ok w) :
    w = bytesAt file (offset.toNat + i) n := by
  obtain ⟨-, hlen, hdata⟩ := fetch_eq_ok.mp h
  obtain ⟨hle, rfl⟩ := Exec.slice_eq_ok.mp hw
  have hroom : n ≤ len - i := by omega
  rw [bytesAt, hdata, List.drop_take, List.take_take, List.drop_drop, min_eq_left hroom]

theorem fetch_eq_bytesAt {offset : UInt64} {len : ℕ} (h : fetch file offset len = .ok data) :
    data = bytesAt file offset.toNat len := (fetch_eq_ok.mp h).2.2

/-- What a header that is accepted was checked for. -/
theorem readHeader_rules {flags alignment : UInt32}
    (h : readHeader file size = .ok (flags, alignment)) : flags = fileFlags file ∧
      bytesAt file 0 8 = FILE_MAGIC ∧
      (∀ major, file[8]? = some major → major ≤ SUPPORTED_CONTAINER_VERSION_MAJOR) ∧
      fileFlags file &&& RESERVED_FLAGS = 0 := by
  simp only [readHeader, headerFlags, Exec.bind_eq_ok, Exec.reject_eq_ok, Exec.index_eq_ok,
    not_not, pure, Except.pure, Except.ok.injEq, Prod.mk.injEq] at h
  obtain ⟨header, hfetch, -, -, _, ⟨magic, hmagic, -, hfile, major, hmajor, -, hversion, field,
    hfield, -, hreserved, rfl⟩, _, -, hflags, -⟩ := h
  have hat := slice_of_fetch hfetch hfield
  rw [UInt64.toNat_ofNat, Nat.zero_mod, Nat.zero_add] at hat
  have hsame : u32OfBytes field = fileFlags file := by rw [hat, fileFlags]
  refine ⟨by rw [← hflags, hsame], ?_, ?_, by rw [← hsame, hreserved]⟩
  · have hat := slice_of_fetch hfetch hmagic
    rw [UInt64.toNat_ofNat, Nat.zero_mod, Nat.zero_add] at hat
    rw [← hat, hfile]
  · intro x hx
    have hsame : header[8]? = file[8]? := by
      rw [fetch_eq_bytesAt hfetch, bytesAt, List.getElem?_take_of_lt (by decide)]
      rfl
    rw [hsame, hx] at hmajor
    cases hmajor
    exact UInt8.not_lt.mp hversion

/-- Where an accepted trailer locates the index. -/
theorem locate_rules {t : Trailer} (h : locate file size = .ok t) : t = trailerOf file size ∧
    bytesAt file (trailerAt size + 36) 4 = TRAILER_MAGIC ∧
    t.indexOffset.toNat + t.indexLength.toNat ≤ trailerAt size := by
  simp only [locate, readTrailer, checkIndexRange, Exec.bind_eq_ok, Exec.reject_eq_ok,
    Exec.orFail_eq_ok, not_not, pure, Except.pure, Except.ok.injEq] at h
  obtain ⟨offset, hsub, trailer, hfetch, _, ⟨magic, hmagic, -, hfile, indexOffset, hindexOffset,
    indexLength, hindexLength, kvOffset, hkvOffset, kvLength, hkvLength, indexCrc, hindexCrc, rfl⟩,
    -, ⟨stop, hadd, limit, hlimit, hle⟩, rfl⟩ := h
  obtain ⟨hsize, rfl⟩ := Exec.subU64_eq_ok.mp hsub
  obtain ⟨-, rfl⟩ := Exec.subU64_eq_ok.mp hlimit
  obtain ⟨hlt, rfl⟩ := checkedAdd_eq_some.mp hadd
  have hat : (size - TRAILER_SIZE).toNat = trailerAt size := UInt64.toNat_sub_of_le _ _ hsize
  have hslice : ∀ {i n : ℕ} {w : Bytes}, (Exec.slice trailer i n : Result Bytes) = .ok w →
      w = bytesAt file (trailerAt size + i) n := by
    intro i n w hw
    rw [← hat]
    exact slice_of_fetch hfetch hw
  refine ⟨?_, ?_, ?_⟩
  · rw [trailerOf, hslice hindexOffset, hslice hindexLength, hslice hkvOffset, hslice hkvLength,
      hslice hindexCrc, Nat.add_zero]
  · rw [← hslice hmagic, hfile]
  · have hnat := UInt64.le_iff_toNat_le.mp (UInt64.not_lt.mp hle)
    rw [UInt64.toNat_add, Nat.mod_eq_of_lt hlt, hat] at hnat
    exact hnat

/-- A file that opens obeys the rules if it does not strain what goes unchecked. -/
theorem rules_of_open {v : FileView} (h : openFile crc32c file size = .ok v)
    (hunstrained : Unstrained file size) : FormatRules crc32c file size := by
  simp only [openFile, readIndex, Exec.bind_eq_ok, Prod.exists, checkIndexCrc,
    Exec.reject_eq_ok] at h
  obtain ⟨flags, alignment, hheader, t, hlocate, index, ⟨_, -, bytes, hbytes, -, hcrc, hindex⟩, kv,
    hkv, -⟩ := h
  obtain ⟨rfl, hmagic, hversion, hreserved⟩ := readHeader_rules hheader
  obtain ⟨rfl, htrailerMagic, hrange⟩ := locate_rules hlocate
  have hindexBytes : bytes = indexBytes file (trailerOf file size) := fetch_eq_bytesAt hbytes
  rw [hindexBytes] at hcrc hindex
  obtain ⟨es, hsection, hdenotes, hnames, hnodup⟩ := parseIndex_eq_ok.mp hindex
  constructor
  · exact hmagic
  · exact htrailerMagic
  · exact hversion
  · exact hreserved
  · exact hrange
  · intro hflag
    by_contra hne
    exact hcrc ⟨hflag, hne⟩
  · intro hflag
    rcases hunstrained.checksum with hset | hzero
    · exact absurd hflag hset
    · exact hzero
  · exact ⟨es, hsection, indexRules_of_denotes hdenotes hnames hnodup⟩
  · intro hoffset hlength
    rw [readKv, if_pos ⟨.inr hoffset, hoffset, hlength⟩] at hkv
    obtain ⟨bytes, hbytes, hkv⟩ := Exec.bind_eq_ok.mp hkv
    have hkvBytes : bytes = kvBytes file (trailerOf file size) := fetch_eq_bytesAt hbytes
    rw [hkvBytes] at hkv
    obtain ⟨es, hsection, hdenotes, hadmitted, hnodup⟩ := parseKv_eq_ok.mp hkv
    refine ⟨es, hsection, kvRules_of_denotes hdenotes hadmitted hnodup ?_⟩
    exact hunstrained.arrays hoffset hlength es hsection

theorem unstrained_of_rules (h : FormatRules crc32c file size) : Unstrained file size := by
  constructor
  · by_cases hflag : fileFlags file &&& HAS_INDEX_CRC32C = 0
    · exact .inr (h.noChecksum hflag)
    · exact .inl hflag
  · intro hoffset hlength es hes e he huntyped
    obtain ⟨fs, hfs, hrules⟩ := h.kv hoffset hlength
    obtain rfl := hes.unique hfs
    have hx : elementTag e.tag e.payload = some 0x00 := by
      rw [huntyped.1, huntyped.2]
      rfl
    have hle := (hrules.elementTags e he 0x00 hx).1
    exact absurd hle (by decide)

end Opens

namespace FileReaderCore
variable {A : Type} [DestinationAlloc A]

/-- However the reads return, a file that comes to be open obeys the rules if and only if it does
not strain what goes unchecked. -/
theorem open_obeys_rules_iff {crc32c : Bytes → UInt32} {file : Bytes} {size : UInt64} {a : A}
    {depth calls : ℕ} {chunk : ℕ → ℕ} {c : FileReaderCore A}
    (hready : drive crc32c file chunk calls ((withDestinations size a).withMaxCompositeDepth depth) =
      .ok (.ready, c)) : FormatRules crc32c file size ↔ Unstrained file size := by
  obtain ⟨view, hview, -⟩ := openWith_of_drive hready
  constructor
  · exact unstrained_of_rules
  · exact rules_of_open hview

end FileReaderCore

/-- The key-value section of the file below: an array of two numbers under the key `k`. -/
def ruledKv : Bytes :=
  (encodeKvSection [("k", .array [.uint64 5, .uint64 6])]).toOption.getD []

/-- The file of the worked example with a key-value section and the CRC-32C of its index. -/
def ruledFile : Bytes :=
  FILE_MAGIC ++ [1, 0, 0, 0] ++ u32Bytes (HAS_KV_METADATA ||| HAS_INDEX_CRC32C) ++ u32Bytes 4096 ++
    List.replicate 44 0 ++ workedExampleBytes 0 61 ++ ruledKv ++ workedIndex 4096 ++
      (u64Bytes 154 ++ u64Bytes 43 ++ u64Bytes 125 ++ u32Bytes 29 ++ u32Bytes 0x816CCA87 ++
        u32Bytes 0 ++ TRAILER_MAGIC)

namespace FileReaderCore

theorem open_obeys_rules_iff_ruledFile : ∃ view, ∃ c : FileReaderCore SystemDestinations,
    openFile (fun _ => 0x816CCA87) ruledFile 237 = .ok view ∧ view.kv.map Prod.fst = ["k"] ∧
    drive (fun _ => 0x816CCA87) ruledFile (fun _ => 6) 0
      ((withDestinations 237 SystemDestinations.mk).withMaxCompositeDepth 64) = .ok (.ready, c) ∧
    (FormatRules (fun _ => 0x816CCA87) ruledFile 237 ↔ Unstrained ruledFile 237) := by
  have hopen : ((openFile (fun _ => 0x816CCA87) ruledFile 237).map fun v => v.kv.map Prod.fst) =
      .ok ["k"] := by decide +kernel
  rcases hview : openFile (fun _ => 0x816CCA87) ruledFile 237 with e | view
  · rw [hview] at hopen
    cases hopen
  · rw [hview] at hopen
    obtain ⟨c, hc⟩ := exists_opened hview SystemDestinations.mk 64 (fun _ => 6) 0
    exact ⟨view, c, rfl, Except.ok.inj hopen, hc, open_obeys_rules_iff hc⟩

end FileReaderCore

/-- The file of the worked example with a checksum that its flags do not announce. -/
def checksummedFile : Bytes :=
  workedHeader ++ workedExampleBytes 0 61 ++ workedIndex 4096 ++
    workedTrailer 125 (workedIndex 4096) 7

/-- A file without tensors whose only key `k` has an array without elements, of element tag 0x00. -/
def untypedFile : Bytes :=
  workedHeader ++ ([1, 0, 0, 0, 1, 0, 0x6B, 0x07, 0x00] ++ u32Bytes 0) ++ encodeIndexSection [] ++
    (u64Bytes 77 ++ u64Bytes 8 ++ u64Bytes 64 ++ u32Bytes 13 ++ u32Bytes 0 ++ u32Bytes 0 ++
      TRAILER_MAGIC)

namespace FileReaderCore

/-- Both files open, whatever the reads return, and each breaks a rule. -/
theorem strained_files_open :
    (∀ (chunk : ℕ → ℕ) (calls : ℕ), ∃ c : FileReaderCore SystemDestinations,
      drive (fun _ => 0) checksummedFile chunk calls
        ((withDestinations 208 SystemDestinations.mk).withMaxCompositeDepth 64) = .ok (.ready, c)) ∧
    ¬ FormatRules (fun _ => 0) checksummedFile 208 ∧
    (∀ (chunk : ℕ → ℕ) (calls : ℕ), ∃ c : FileReaderCore SystemDestinations,
      drive (fun _ => 0) untypedFile chunk calls
        ((withDestinations 125 SystemDestinations.mk).withMaxCompositeDepth 64) = .ok (.ready, c)) ∧
    ¬ FormatRules (fun _ => 0) untypedFile 125 := by
  have hopens : ∀ {file : Bytes} {size : UInt64},
      ((openFile (fun _ => 0) file size).map fun _ => ()) = .ok () →
      ∀ (chunk : ℕ → ℕ) (calls : ℕ), ∃ c : FileReaderCore SystemDestinations,
        drive (fun _ => 0) file chunk calls
          ((withDestinations size SystemDestinations.mk).withMaxCompositeDepth 64) =
            .ok (.ready, c) := by
    intro file size h chunk calls
    rcases hview : openFile (fun _ => 0) file size with e | view
    · rw [hview] at h
      cases h
    · exact exists_opened hview SystemDestinations.mk 64 chunk calls
  refine ⟨hopens (by decide +kernel), ?_, hopens (by decide +kernel), ?_⟩
  · intro h
    have hcrc := h.noChecksum (by decide +kernel)
    exact absurd hcrc (by decide +kernel)
  · intro h
    have hunstrained := unstrained_of_rules h
    have hsection : KvSection (kvBytes untypedFile (trailerOf untypedFile 125))
        [⟨[0x6B], 0x07, [0, 0, 0, 0, 0]⟩] := by
      constructor
      · decide
      · rw [List.forall_mem_singleton]
        have hstands : Stands 0x07 [0, 0, 0, 0, 0] (.array []) :=
          @Stands.array 0x00 [] nofun (by decide)
        exact ⟨by decide, _, hstands⟩
      · exact ⟨[], by decide +kernel⟩
    have huntyped := hunstrained.arrays (by decide +kernel) (by decide +kernel) _ hsection
      ⟨[0x6B], 0x07, [0, 0, 0, 0, 0]⟩ List.mem_cons_self
    exact huntyped ⟨rfl, rfl⟩

end FileReaderCore
end Hurray.File
