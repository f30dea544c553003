import Hurray.File.SectionRoundtrip

/-!
The metadata on bytes that nobody vouches for. What a section holds is written as it stands there,
unless one of its arrays is empty: the reader takes such an array and the writer refuses it.
-/
namespace Hurray.File
open Hurray.Base Hurray.Core Hurray.Descriptor Hurray.Stream

section Values
variable {tag : UInt8} {p : Bytes} {v : KvValue}

theorem Stands.tag_eq (h : Stands tag p v) : kvWireTag v = tag := by
  cases h with
  | scalar _ => rfl
  | array _ _ => rfl

theorem Stands.measured (h : Stands tag p v) : v.Measured := by
  cases h with
  | scalar hscalar => exact hscalar.measured
  | array hall hlen =>
    rw [KvValue.Measured]
    exact ⟨hlen, fun v hv => (hall v hv).2.measured⟩

/-- A value is written as it stands, but for an empty array. -/
theorem Stands.encode (h : Stands tag p v) (helem : ∀ x, elementTag tag p = some x → x ≤ 0x06)
    (hempty : v ≠ .array []) : encodeKvPayload v = .ok p := by
  cases h with
  | scalar hscalar =>
    apply KvValue.encode_scalar
    cases v with
    | array elements => exact hscalar.elim
    | _ =>
      dsimp only [kvWireTag]
      decide
  | @array elemTag elements hall hlen =>
    have hle : elemTag ≤ 0x06 := helem elemTag rfl
    refine encodeKvPayload_array_eq_ok.mpr ⟨elemTag, ⟨?_, ?_, fun v hv => (hall v hv).1⟩, rfl⟩
    · intro hnil
      exact hempty (congrArg KvValue.array hnil)
    · intro htag
      rw [htag] at hle
      exact absurd hle (by decide)

theorem encodeKvPayload_empty_ne_ok : encodeKvPayload (.array []) ≠ .ok p := by
  intro h
  obtain ⟨_, ⟨hnonempty, -⟩, -⟩ := encodeKvPayload_array_eq_ok.mp h
  exact hnonempty rfl

end Values

namespace KvWire
variable {e : KvWire} {entry : String × KvValue}

/-- The entry is an array whose count is zero. -/
def EmptyArray (e : KvWire) : Prop := e.tag = 0x07 ∧ (e.payload.drop 1).take 4 = u32Bytes 0

theorem Denotes.emptyArray_iff (h : e.Denotes entry) : e.EmptyArray ↔ entry.2 = .array [] := by
  obtain ⟨key, value⟩ := entry
  obtain ⟨bytes, tag, payload⟩ := e
  obtain ⟨-, -, hstands⟩ := h
  dsimp only [EmptyArray] at hstands ⊢
  cases hstands with
  | scalar hscalar =>
    apply iff_of_false
    · intro hempty
      cases value with
      | array elements => exact hscalar
      | _ => exact absurd hempty.1 (by dsimp only [kvWireTag]; decide)
    · intro hvalue
      rw [hvalue] at hscalar
      exact hscalar
  | @array elemTag elements hall hlen =>
    rw [List.drop_one, List.tail_cons, List.take_left' (length_u32Bytes _), KvValue.array.injEq]
    constructor
    · intro hempty
      have hcount := congrArg u32OfBytes hempty.2
      rw [u32OfBytes_u32Bytes, u32OfBytes_u32Bytes] at hcount
      have hnat := toNat_ofNat_u32 hlen
      rw [hcount] at hnat
      exact List.length_eq_zero_iff.mp hnat.symm
    · intro hnil
      rw [hnil]
      exact ⟨rfl, rfl⟩

theorem Denotes.encodeKvValue (h : e.Denotes entry) (hadmitted : e.Admitted)
    (hempty : ¬ e.EmptyArray) : encodeKvValue entry.2 = .ok (e.tag :: e.payload) := by
  have hpayload := h.payload.encode hadmitted.elementTag fun hvalue =>
    hempty (h.emptyArray_iff.mpr hvalue)
  rw [File.encodeKvValue, hpayload, h.payload.tag_eq]
  rfl

end KvWire

section Kv
variable {kv : List (String × KvValue)} {bytes enc : Bytes} {es : List KvWire}

/-- Entries are written as they stand if none of them is an empty array, and else refused. -/
theorem encodeKvEntries_eq_ok (hdenotes : List.Forall₂ KvWire.Denotes es kv)
    (hadmitted : ∀ e ∈ es, e.Admitted) : encodeKvEntries kv = .ok enc ↔
      (∀ e ∈ es, ¬ e.EmptyArray) ∧ enc = es.flatMap KvWire.bytes := by
  induction hdenotes generalizing enc with
  | nil =>
    constructor
    · intro h
      cases h
      exact ⟨List.forall_mem_nil _, rfl⟩
    · intro h
      rw [h.2]
      rfl
  | @cons e entry es kv hdenotes _ ih =>
    rw [List.forall_mem_cons] at hadmitted ⊢
    obtain ⟨key, value⟩ := entry
    rw [encodeKvEntries]
    by_cases hempty : e.EmptyArray
    · have hvalue : value = .array [] := hdenotes.emptyArray_iff.mp hempty
      apply iff_of_false
      · intro h
        obtain ⟨first, hfirst, -⟩ := Exec.bind_eq_ok.mp h
        obtain ⟨payload, hpayload, -⟩ := Exec.bind_eq_ok.mp hfirst
        rw [hvalue] at hpayload
        exact encodeKvPayload_empty_ne_ok hpayload
      · exact fun h => h.1.1 hempty
    · rw [hdenotes.encodeKvValue hadmitted.1 hempty, Exec.ok_bind, Exec.bind_eq_ok]
      have hkey : utf8Bytes key = e.key := hdenotes.key
      have hbytes : ∀ rest, u16Bytes (UInt16.ofNat (utf8Bytes key).length) ++ utf8Bytes key ++
          (e.tag :: e.payload) ++ rest = e.bytes ++ rest := by
        intro rest
        rw [hkey, KvWire.bytes, List.append_assoc (u16Bytes _)]
      constructor
      · intro h
        obtain ⟨rest, hrest, hpure⟩ := h
        cases hpure
        obtain ⟨hall, rfl⟩ := (ih hadmitted.2).mp hrest
        exact ⟨⟨hempty, hall⟩, hbytes _⟩
      · intro h
        obtain ⟨⟨-, hall⟩, rfl⟩ := h
        exact ⟨_, (ih hadmitted.2).mpr ⟨hall, rfl⟩, congrArg Except.ok (hbytes _)⟩

theorem denotes_named (hdenotes : List.Forall₂ KvWire.Denotes es kv)
    (hadmitted : ∀ e ∈ es, e.Admitted) : ∀ entry ∈ kv, Named entry.1 := by
  induction hdenotes with
  | nil => exact List.forall_mem_nil _
  | @cons e entry es kv hdenotes _ ih =>
    rw [List.forall_mem_cons] at hadmitted ⊢
    refine ⟨?_, ih hadmitted.2⟩
    rw [Named, hdenotes.key]
    exact ⟨fun hzero => hadmitted.1.key (List.length_eq_zero_iff.mp hzero),
      Nat.le_of_lt_succ hdenotes.length⟩

/-- A writer takes the metadata, and a reader reads back what it writes. -/
structure Rewrites (kv : List (String × KvValue)) : Prop where
  keys : validateKvKeys kv = .ok ()
  encodes : ∃ enc, encodeKvSection kv = .ok enc ∧ parseKv enc = .ok kv

theorem rewrites_iff (h : parseKv bytes = .ok kv) :
    Rewrites kv ↔ ∀ es, KvSection bytes es → ∀ e ∈ es, ¬ e.EmptyArray := by
  obtain ⟨es, hsection, hdenotes, hadmitted, hnodup⟩ := parseKv_eq_ok.mp h
  have hlen := hdenotes.length_eq
  constructor
  · intro hrewrites fs hfs
    obtain rfl := hsection.unique hfs
    obtain ⟨enc, henc, -⟩ := hrewrites.encodes
    obtain ⟨entries, hentries, -⟩ := Exec.bind_eq_ok.mp henc
    exact ((encodeKvEntries_eq_ok hdenotes hadmitted).mp hentries).1
  · intro hempty
    have hentries := (encodeKvEntries_eq_ok hdenotes hadmitted).mpr ⟨hempty es hsection, rfl⟩
    have henc : encodeKvSection kv =
        .ok (u32Bytes (UInt32.ofNat kv.length) ++ es.flatMap KvWire.bytes) := by
      rw [encodeKvSection, hentries]
      rfl
    refine ⟨validateKvKeys_eq_ok.mpr ⟨denotes_named hdenotes hadmitted, hnodup⟩, _, henc, ?_⟩
    refine parseKv_eq_ok.mpr ⟨es, ⟨hsection.count, hsection.framed, [], ?_⟩, hdenotes, hadmitted,
      hnodup⟩
    rw [hlen, List.append_nil]

/-- What is written is read back. What is read is written and read back just when none of its
arrays is empty. -/
theorem kv_codec (kv : List (String × KvValue)) (bytes : Bytes) :
    ((∀ entry ∈ kv, Named entry.1) → (kv.map Prod.fst).Nodup → kv.length < UInt32.size →
      (∀ entry ∈ kv, entry.2.Measured) → encodeKvSection kv = .ok bytes →
        parseKv bytes = .ok kv) ∧
    (parseKv bytes = .ok kv →
      (Rewrites kv ↔ ∀ es, KvSection bytes es → ∀ e ∈ es, ¬ e.EmptyArray)) := by
  constructor
  · intro hnamed hnodup hcount hmeasured h
    exact parseKv_of_encodeKvSection h hcount hmeasured hnamed hnodup
  · intro h
    exact rewrites_iff h

end Kv

def workedKvPair : List (String × KvValue) := [("k", .array [.bool true]), ("s", .string "x")]

theorem kv_codec_worked : ∃ bytes, encodeKvSection workedKvPair = .ok bytes ∧
    parseKv bytes = .ok workedKvPair ∧
      (Rewrites workedKvPair ↔ ∀ es, KvSection bytes es → ∀ e ∈ es, ¬ e.EmptyArray) := by
  have hmeasured : ∀ entry ∈ workedKvPair, entry.2.Measured := by
    intro entry hentry
    rcases List.mem_pair.mp hentry with rfl | rfl
    · rw [KvValue.Measured, List.forall_mem_singleton]
      exact ⟨by decide, KvValue.Scalar.measured trivial⟩
    · rw [KvValue.Measured]
      decide
  have hnamed : ∀ entry ∈ workedKvPair, Named entry.1 := by
    intro entry hentry
    rcases List.mem_pair.mp hentry with rfl | rfl
    · exact ⟨by decide, by decide⟩
    · exact ⟨by decide, by decide⟩
  have hparse := (kv_codec workedKvPair _).1 hnamed (by decide) (by decide) hmeasured rfl
  exact ⟨_, rfl, hparse, (kv_codec workedKvPair _).2 hparse⟩

/-- A section of one key, whose array of strings is empty. -/
def emptyArraySection : Bytes :=
  u32Bytes 1 ++ KvWire.bytes ⟨utf8Bytes "k", 0x07, 0x01 :: u32Bytes 0⟩

theorem empty_array_refused : parseKv emptyArraySection = .ok [("k", .array [])] ∧
    encodeKvSection [("k", .array [])] =
      Exec.fail (.invalidHeader "KV array must not be empty") ∧
    ¬ Rewrites [("k", .array [])] := by
  refine ⟨rfl, rfl, ?_⟩
  intro h
  obtain ⟨enc, henc, -⟩ := h.encodes
  cases henc

end Hurray.File
