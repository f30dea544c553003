import Hurray.Base.Positions
import Hurray.File.OpenRules
import Hurray.File.ReaderSafety
import Hurray.File.SectionRoundtrip

/-!
The index on bytes that nobody vouches for. The section is walked by a position, as the source
walks it: the walk stays in the section, ends after as many entries as fit there, and accepts what
the writer writes, but for the flags of an entry.
-/
namespace Hurray.File
open Hurray.Base Hurray.Core Hurray.Descriptor Hurray.Stream

/-! ### The walk by positions -/

abbrev Cursor := Reader Error ℕ

def readU16At (bytes : Bytes) : Cursor UInt16 := do
  let v ← takeAt bytes 2 (.invalidHeader "truncated field (u16)")
  pure (u16OfBytes v)

def readU32At (bytes : Bytes) : Cursor UInt32 := do
  let v ← takeAt bytes 4 (.invalidHeader "truncated field (u32)")
  pure (u32OfBytes v)

def readU64At (bytes : Bytes) : Cursor UInt64 := do
  let v ← takeAt bytes 8 (.invalidHeader "truncated field (u64)")
  pure (u64OfBytes v)

def readBytesSliceAt (bytes : Bytes) (len : ℕ) : Cursor Bytes :=
  takeAt bytes len (.invalidHeader "truncated byte slice")

def parseEntriesAt (bytes : Bytes) : ℕ → List String → Cursor (List IndexEntry)
  | 0, _ => pure []
  | count + 1, seen => do
      let nameLen ← readU16At bytes
      Reader.reject (nameLen = 0) .tensorNameEmpty
      let nameBytes ← readBytesSliceAt bytes nameLen.toNat
      let name ← Reader.lift (Exec.orFail (fromUtf8 nameBytes)
        (.invalidHeader "tensor name is not valid UTF-8"))
      Reader.reject (name ∈ seen) (.duplicateTensorName name)
      let descriptorOffset ← readU64At bytes
      let descriptorLength ← readU32At bytes
      let dataOffset ← readU64At bytes
      let dataLength ← readU64At bytes
      let _flags ← readU32At bytes
      let entries ← parseEntriesAt bytes count (name :: seen)
      pure (⟨name, descriptorOffset, descriptorLength, dataOffset, dataLength⟩ :: entries)

def parseIndexAt (bytes : Bytes) : Result (List IndexEntry) := do
  let (count, pos) ← readU64At bytes 0
  let (entries, _) ← parseEntriesAt bytes count.toNat [] pos
  pure entries

section Positions
variable {bytes : Bytes}

theorem tracks_field {α : Type} {n : ℕ} {e : Error} {ofBytes : Bytes → α} {p : Parser α}
    (h : p = fun s => if s.length < n then Exec.fail e else .ok (ofBytes (s.take n), s.drop n)) :
    Tracks bytes (takeAt bytes n e >>= fun v => pure (ofBytes v)) p := by
  have heq : p = ((fun s => if s.length < n then Exec.fail e else .ok (s.take n, s.drop n) :
      Parser Bytes) >>= fun v => pure (ofBytes v)) := by
    rw [h]
    funext s
    show _ = (ite _ _ _ >>= fun r => _)
    split
    · rfl
    · rfl
  rw [heq]
  exact tracks_take.bind fun _ => tracks_pure

theorem tracks_readU16 : Tracks bytes (readU16At bytes) readU16 := tracks_field rfl

theorem tracks_readU32 : Tracks bytes (readU32At bytes) readU32 := tracks_field rfl

theorem tracks_readU64 : Tracks bytes (readU64At bytes) readU64 := tracks_field rfl

theorem tracks_parseEntries (count : ℕ) (seen : List String) :
    Tracks bytes (parseEntriesAt bytes count seen) (parseEntries count seen) := by
  induction count generalizing seen with
  | zero => exact tracks_pure
  | succ count ih =>
    unfold parseEntriesAt parseEntries readText
    simp only [bind_assoc]
    apply tracks_readU16.bind
    intro nameLen
    apply tracks_lift.bind
    intro _
    apply tracks_take.bind
    intro nameBytes
    apply tracks_lift.bind
    intro name
    apply tracks_lift.bind
    intro _
    apply tracks_readU64.bind
    intro descriptorOffset
    apply tracks_readU32.bind
    intro descriptorLength
    apply tracks_readU64.bind
    intro dataOffset
    apply tracks_readU64.bind
    intro dataLength
    apply tracks_readU32.bind
    intro _
    apply (ih (name :: seen)).bind
    intro _
    exact tracks_pure

/-- A walk of two parts whose end is dropped. -/
theorem bind_fst {α β σ : Type} {x : Result α} {f : α → Result (β × σ)} :
    (x >>= fun a => f a >>= fun r => .ok r.1) = (x >>= f).map Prod.fst := by
  rcases x with e | a
  · rfl
  · show (f a >>= fun r => .ok r.1) = (f a).map Prod.fst
    rcases f a with e | r
    · rfl
    · rfl

/-- The walk by positions is the one by what is left. -/
theorem parseIndexAt_eq (bytes : Bytes) : parseIndexAt bytes = parseIndex bytes := by
  have hwalk : Tracks bytes
      (readU64At bytes >>= fun count => parseEntriesAt bytes count.toNat [])
      (readU64 >>= fun count => parseEntries count.toNat []) :=
    tracks_readU64.bind fun count => tracks_parseEntries count.toNat []
  have hsame := hwalk.same 0 (Nat.zero_le _)
  have hpositions : parseIndexAt bytes =
      ((readU64At bytes >>= fun count => parseEntriesAt bytes count.toNat []) 0).map Prod.fst :=
    bind_fst
  have hrest : parseIndex bytes =
      ((readU64 >>= fun count => parseEntries count.toNat []) bytes).map Prod.fst := bind_fst
  rw [hpositions, hsame, hrest, List.drop_zero]
  rcases (readU64 >>= fun count => parseEntries count.toNat []) bytes with e | r
  · rfl
  · rfl

end Positions

/-! ### The number of rounds -/

/-- The bytes of an entry with a name of one byte. -/
def MIN_ENTRY_SIZE : ℕ := 35

/-- One round of the loop over the entries. -/
def parseEntry (seen : List String) : Parser IndexEntry := do
  let nameLen ← readU16
  Reader.reject (nameLen = 0) .tensorNameEmpty
  let name ← readText nameLen.toNat (.invalidHeader "tensor name is not valid UTF-8")
  Reader.reject (name ∈ seen) (.duplicateTensorName name)
  let descriptorOffset ← readU64
  let descriptorLength ← readU32
  let dataOffset ← readU64
  let dataLength ← readU64
  let _flags ← readU32
  pure ⟨name, descriptorOffset, descriptorLength, dataOffset, dataLength⟩

section Rounds
variable {seen : List String} {s t : Bytes}

theorem parseEntries_succ (count : ℕ) : parseEntries (count + 1) seen =
    parseEntry seen >>= fun entry =>
      parseEntries count (entry.name :: seen) >>= fun entries => pure (entry :: entries) := by
  simp only [parseEntries, parseEntry, bind_assoc, pure_bind]

theorem length_of_parseEntry {entry : IndexEntry} (h : parseEntry seen s = .ok (entry, t)) :
    t.length + MIN_ENTRY_SIZE ≤ s.length := by
  simp only [parseEntry, Reader.bind_eq_ok, readU16_eq_ok, readU32_eq_ok, readU64_eq_ok,
    Reader.reject_eq_ok, readText_eq_ok, Reader.pure_eq_ok] at h
  obtain ⟨nameLen, _, rfl, _, _, ⟨hzero, rfl⟩, name, _, ⟨hlen, rfl⟩, _, _, ⟨-, rfl⟩, _, _, rfl, _, _,
    rfl, _, _, rfl, _, _, rfl, _, _, rfl, -, rfl⟩ := h
  have hpos : nameLen.toNat ≠ 0 := fun h => hzero (UInt16.toNat_inj.mp h)
  simp only [List.length_append, length_u16Bytes, length_u32Bytes, length_u64Bytes, hlen,
    MIN_ENTRY_SIZE]
  omega

/-- A section has no room for more entries than it has bytes for, so that a count beyond that is
as good as any other. -/
theorem parseEntries_enough {m n : ℕ} (hm : s.length / MIN_ENTRY_SIZE < m)
    (hn : s.length / MIN_ENTRY_SIZE < n) : parseEntries m seen s = parseEntries n seen s := by
  induction m generalizing n seen s with
  | zero => exact absurd hm (Nat.not_lt_zero _)
  | succ m ih =>
    cases n with
    | zero => exact absurd hn (Nat.not_lt_zero _)
    | succ n =>
      rw [parseEntries_succ, parseEntries_succ]
      show (parseEntry seen s >>= fun r => _) = (parseEntry seen s >>= fun r => _)
      rcases hentry : parseEntry seen s with e | r
      · rfl
      · obtain ⟨entry, t⟩ := r
        have hlen := length_of_parseEntry hentry
        have hdiv : (t.length + MIN_ENTRY_SIZE) / MIN_ENTRY_SIZE ≤ s.length / MIN_ENTRY_SIZE :=
          Nat.div_le_div_right hlen
        rw [Nat.add_div_right _ (by decide)] at hdiv
        have hrest : parseEntries m (entry.name :: seen) t =
            parseEntries n (entry.name :: seen) t := ih (by omega) (by omega)
        show (parseEntries m (entry.name :: seen) t >>= fun r => _) =
          (parseEntries n (entry.name :: seen) t >>= fun r => _)
        rw [hrest]

theorem parseEntries_bounded (count : ℕ) :
    parseEntries count seen s = parseEntries (min count (s.length / MIN_ENTRY_SIZE + 1)) seen s := by
  by_cases hcount : count ≤ s.length / MIN_ENTRY_SIZE + 1
  · rw [Nat.min_eq_left hcount]
  · rw [Nat.min_eq_right (by omega)]
    exact parseEntries_enough (by omega) (by omega)

end Rounds

/-! ### What is accepted -/

namespace IndexWire

/-- The entry as a writer writes it. -/
def unflagged (e : IndexWire) : IndexWire := { e with flags := 0 }

theorem Denotes.wire {e : IndexWire} {entry : IndexEntry} (h : e.Denotes entry) :
    entry.wire = e.unflagged := by
  rw [IndexEntry.wire, unflagged, h.name, h.descriptorOffset, h.descriptorLength, h.dataOffset,
    h.dataLength]

end IndexWire

/-- The entries are those of the section, which a writer writes as they stand there but for their
flags. -/
structure Reencodes (bytes : Bytes) (es : List IndexWire) (entries : List IndexEntry) : Prop where
  stored : (u64OfBytes (bytes.take 8)).toNat = entries.length
  consumed : ∃ rest, bytes = bytes.take 8 ++ es.flatMap IndexWire.bytes ++ rest
  encoded : encodeIndexSection entries =
    bytes.take 8 ++ (es.map IndexWire.unflagged).flatMap IndexWire.bytes
  names : entries.map (fun e => utf8Bytes e.name) = es.map IndexWire.name
  rules : IndexRules es

section Index
variable {bytes : Bytes}

theorem reencodes {entries : List IndexEntry} (h : parseIndex bytes = .ok entries) :
    ∃ es, Reencodes bytes es entries := by
  obtain ⟨es, ⟨hcount, -, rest, rfl⟩, hdenotes, hnames, hnodup⟩ := parseIndex_eq_ok.mp h
  have hlen := hdenotes.length_eq
  have htake : (u64Bytes (UInt64.ofNat es.length) ++ (es.flatMap IndexWire.bytes ++ rest)).take 8 =
      u64Bytes (UInt64.ofNat es.length) := List.take_left' (length_u64Bytes _)
  have hwires : entries.map IndexEntry.wire = es.map IndexWire.unflagged := by
    clear hcount h hnames hnodup hlen htake
    induction hdenotes with
    | nil => rfl
    | cons h _ ih => rw [List.map_cons, List.map_cons, h.wire, ih]
  refine ⟨es, ?_, ⟨rest, ?_⟩, ?_, ?_, indexRules_of_denotes hdenotes hnames hnodup⟩
  · rw [htake, u64OfBytes_u64Bytes, UInt64.toNat_ofNat_of_lt' hcount, hlen]
  · rw [htake, List.append_assoc]
  · have hentries : encodeIndexEntry = IndexWire.bytes ∘ IndexEntry.wire :=
      funext encodeIndexEntry_eq
    rw [htake, ← hwires, encodeIndexSection, hentries, hlen, List.flatMap_map]
    rfl
  · have hname := congrArg (List.map IndexWire.name) hwires
    rw [List.map_map, List.map_map] at hname
    exact hname

/-- What is written is read back. On any bytes the reader keeps to the section, makes no more
rounds than entries fit there, and accepts an index of the count that is stored, which is written
as it was read but for the flags. -/
theorem parseIndex_codec :
    (∀ entries : Slice IndexEntry, (∀ e ∈ entries.elems, Named e.name) →
      (entries.elems.map IndexEntry.name).Nodup →
        parseIndex (encodeIndexSection entries.elems) = .ok entries.elems) ∧
    ∀ bytes : Bytes, (parseIndexAt bytes).Safe ∧ parseIndexAt bytes = parseIndex bytes ∧
      parseIndex bytes = (do
        let (count, rest) ← readU64 bytes
        let (entries, _) ←
          parseEntries (min count.toNat (rest.length / MIN_ENTRY_SIZE + 1)) [] rest
        pure entries) ∧
      ∀ entries, parseIndex bytes = .ok entries → ∃ es, Reencodes bytes es entries := by
  constructor
  · intro entries hnames hnodup
    exact parseIndex_encodeIndexSection
      (Nat.lt_trans entries.length_lt (by decide)) hnames hnodup
  · intro bytes
    refine ⟨?_, parseIndexAt_eq bytes, ?_, fun entries h => reencodes h⟩
    · rw [parseIndexAt_eq]
      exact parseIndex_safe bytes
    · simp only [parseIndex]
      congr 1
      funext r
      rw [parseEntries_bounded]

end Index

def workedEntry : IndexEntry := ⟨"w", 64, 45, 4096, 16⟩

/-- An index of one entry, with flags that no writer sets. -/
def flaggedIndex : Bytes := u64Bytes 1 ++ IndexWire.bytes { workedEntry.wire with flags := 7 }

theorem parseIndex_codec_worked :
    parseIndex (encodeIndexSection [workedEntry]) = .ok [workedEntry] ∧
      ∃ es, Reencodes flaggedIndex es [workedEntry] :=
  ⟨parseIndex_codec.1 ⟨[workedEntry], by decide⟩ (fun e he => by
      obtain rfl := List.mem_singleton.mp he
      exact ⟨by decide, by decide⟩) (by decide),
    (parseIndex_codec.2 flaggedIndex).2.2.2 [workedEntry] (by decide)⟩

end Hurray.File
