import Hurray.File.SectionFormat

/-!
The sections that a writer encodes are those that a reader parses: the index
always, and the metadata if its lengths are within their fields.
-/
namespace Hurray.File
open Hurray.Base Hurray.Core Hurray.Descriptor Hurray.Stream

/-! ### The index -/

/-- The entry as it is written, without flags. -/
def IndexEntry.wire (e : IndexEntry) : IndexWire :=
  ⟨utf8Bytes e.name, e.descriptorOffset, e.descriptorLength, e.dataOffset, e.dataLength, 0⟩

/-- A name that the length field of an entry can count. -/
def Named (name : String) : Prop := (utf8Bytes name).length ≠ 0 ∧ (utf8Bytes name).length ≤ 65535

section Index
variable {entries : List IndexEntry}

theorem encodeIndexEntry_eq (e : IndexEntry) : encodeIndexEntry e = e.wire.bytes := by
  simp only [encodeIndexEntry, IndexWire.bytes, IndexEntry.wire, List.append_assoc]

theorem parseIndex_encodeIndexSection (hcount : entries.length < UInt64.size)
    (hnames : ∀ e ∈ entries, Named e.name) (hnodup : (entries.map IndexEntry.name).Nodup) :
    parseIndex (encodeIndexSection entries) = .ok entries := by
  have hwide (e : IndexEntry) (he : e ∈ entries) : e.wire.name.length < UInt16.size :=
    Nat.lt_of_le_of_lt (hnames e he).2 (by decide)
  refine parseIndex_eq_ok.mpr ⟨entries.map IndexEntry.wire, ⟨?_, ?_, [], ?_⟩, ?_, ?_, hnodup⟩
  · rw [List.length_map]
    exact hcount
  · intro w hw
    obtain ⟨e, he, rfl⟩ := List.mem_map.mp hw
    exact hwide e he
  · rw [List.length_map, List.append_nil, List.flatMap_map]
    have hentries : encodeIndexEntry = fun e => e.wire.bytes := funext encodeIndexEntry_eq
    rw [encodeIndexSection, hentries]
  · rw [List.forall₂_map_left_iff, List.forall₂_same]
    intro e he
    exact ⟨rfl, hwide e he, rfl, rfl, rfl, rfl⟩
  · intro w hw
    obtain ⟨e, he, rfl⟩ := List.mem_map.mp hw
    exact fun hnil => (hnames e he).1 (List.length_eq_zero_iff.mpr hnil)

end Index

/-! ### The metadata -/

namespace KvValue
variable {v : KvValue}

/-- The length fields of the value can count what they stand for. -/
def Measured : KvValue → Prop
  | string s => (utf8Bytes s).length < UInt32.size
  | bytes v => v.length < UInt32.size
  | array elements => elements.length < UInt32.size ∧ ∀ v ∈ elements, v.Measured
  | _ => True

theorem Measured.scalar (h : v.Measured) (htag : kvWireTag v ≠ 0x07) : v.Scalar := by
  cases v with
  | array elements => exact absurd rfl htag
  | string s =>
    rw [Measured] at h
    exact h
  | bytes v =>
    rw [Measured] at h
    exact h
  | _ => exact trivial

theorem Scalar.measured (h : v.Scalar) : v.Measured := by
  cases v with
  | array elements => exact h.elim
  | string s =>
    rw [Measured]
    exact h
  | bytes v =>
    rw [Measured]
    exact h
  | _ => simp only [Measured]

theorem payload_pos (htag : kvWireTag v ≠ 0x07) : 0 < v.payload.length := by
  cases v with
  | array elements => exact absurd rfl htag
  | _ => simp [payload, i64Bytes, f64Bytes]

/-- The length field of a payload counts it, if the payload is no longer than that. -/
theorem scalar_of_length (htag : kvWireTag v ≠ 0x07) (hlen : v.payload.length < UInt32.size) :
    v.Scalar := by
  cases v with
  | array elements => exact absurd rfl htag
  | string s =>
    rw [payload, List.length_append] at hlen
    exact Nat.lt_of_le_of_lt (Nat.le_add_left _ _) hlen
  | bytes v =>
    rw [payload, List.length_append] at hlen
    exact Nat.lt_of_le_of_lt (Nat.le_add_left _ _) hlen
  | _ => exact trivial

theorem tag_le_of_scalar (htag : kvWireTag v ≠ 0x07) : kvWireTag v ≤ 0x06 := by
  cases v with
  | array elements => exact absurd rfl htag
  | _ =>
    dsimp only [kvWireTag]
    decide

theorem encode_scalar (htag : kvWireTag v ≠ 0x07) : encodeKvPayload v = .ok v.payload := by
  cases v with
  | array elements => exact absurd rfl htag
  | _ => rfl

end KvValue

section Values
variable {v : KvValue} {elements : List KvValue} {p : Bytes}

theorem encode_scalars (htags : ∀ v ∈ elements, kvWireTag v ≠ 0x07) :
    encodeKvPayloads elements = .ok (elements.flatMap KvValue.payload) := by
  induction elements with
  | nil => rfl
  | cons v elements ih =>
    rw [List.forall_mem_cons] at htags
    rw [encodeKvPayloads, KvValue.encode_scalar htags.1, ih htags.2]
    rfl

theorem length_le_payloads (htags : ∀ v ∈ elements, kvWireTag v ≠ 0x07) :
    elements.length ≤ (elements.flatMap KvValue.payload).length := by
  induction elements with
  | nil => exact Nat.zero_le _
  | cons v elements ih =>
    rw [List.forall_mem_cons] at htags
    have hpos := KvValue.payload_pos htags.1
    have hrest := ih htags.2
    rw [List.length_cons, List.flatMap_cons, List.length_append]
    omega

theorem checkElements_eq_ok {tag : UInt8} : checkElements elements = .ok tag ↔
    elements ≠ [] ∧ tag ≠ 0x07 ∧ ∀ v ∈ elements, kvWireTag v = tag := by
  cases elements with
  | nil => simp [checkElements]
  | cons first rest =>
    simp only [checkElements, Exec.bind_eq_ok, Exec.reject_eq_ok, Exec.forM_eq_ok, exists_const,
      not_not]
    constructor
    · intro h
      obtain ⟨hne, hsame, hpure⟩ := h
      cases hpure
      exact ⟨List.cons_ne_nil _ _, hne, hsame⟩
    · intro h
      obtain ⟨-, hne, hsame⟩ := h
      obtain rfl := hsame first List.mem_cons_self
      exact ⟨hne, hsame, rfl⟩

/-- What an array is encoded as: its elements are scalars of one tag. -/
theorem encodeKvPayload_array_eq_ok : encodeKvPayload (.array elements) = .ok p ↔
    ∃ tag, (elements ≠ [] ∧ tag ≠ 0x07 ∧ ∀ v ∈ elements, kvWireTag v = tag) ∧
      p = tag :: (u32Bytes (UInt32.ofNat elements.length) ++
        elements.flatMap KvValue.payload) := by
  simp only [encodeKvPayload, Exec.bind_eq_ok, checkElements_eq_ok]
  constructor
  · intro h
    obtain ⟨tag, hcheck, payload, hpayload, hpure⟩ := h
    have htags : ∀ v ∈ elements, kvWireTag v ≠ 0x07 := by
      intro v hv
      rw [hcheck.2.2 v hv]
      exact hcheck.2.1
    rw [encode_scalars htags] at hpayload
    cases hpayload
    cases hpure
    exact ⟨tag, hcheck, rfl⟩
  · intro h
    obtain ⟨tag, hcheck, rfl⟩ := h
    have htags : ∀ v ∈ elements, kvWireTag v ≠ 0x07 := by
      intro v hv
      rw [hcheck.2.2 v hv]
      exact hcheck.2.1
    exact ⟨tag, hcheck, _, encode_scalars htags, rfl⟩

/-- The length fields of a value count it, if its payload is no longer than that. -/
theorem measured_of_length (h : encodeKvPayload v = .ok p) (hlen : p.length < UInt32.size) :
    v.Measured := by
  by_cases htag : kvWireTag v = 0x07
  · cases v with
    | array elements =>
      obtain ⟨tag, ⟨-, hne, hsame⟩, rfl⟩ := encodeKvPayload_array_eq_ok.mp h
      have htags : ∀ v ∈ elements, kvWireTag v ≠ 0x07 := by
        intro v hv
        rw [hsame v hv]
        exact hne
      have hcount := length_le_payloads htags
      simp only [List.length_cons, List.length_append] at hlen
      rw [KvValue.Measured]
      refine ⟨by omega, ?_⟩
      intro v hv
      have hmem : v.payload.length ≤ (elements.flatMap KvValue.payload).length :=
        (List.sublist_flatten_of_mem (List.mem_map_of_mem hv)).length_le
      exact (KvValue.scalar_of_length (htags v hv) (by omega)).measured
    | _ => cases htag
  · rw [KvValue.encode_scalar htag] at h
    cases h
    exact (KvValue.scalar_of_length htag hlen).measured

/-- What a value is encoded as stands for the value. -/
theorem encodeKvPayload_stands (h : encodeKvPayload v = .ok p) (hmeasured : v.Measured) :
    Stands (kvWireTag v) p v ∧ ∀ x, elementTag (kvWireTag v) p = some x → x ≤ 0x06 := by
  by_cases htag : kvWireTag v = 0x07
  · cases v with
    | array elements =>
      obtain ⟨tag, ⟨hnonempty, hne, hsame⟩, rfl⟩ := encodeKvPayload_array_eq_ok.mp h
      have htags : ∀ v ∈ elements, kvWireTag v ≠ 0x07 := by
        intro v hv
        rw [hsame v hv]
        exact hne
      rw [KvValue.Measured] at hmeasured
      refine ⟨.array ?_ hmeasured.1, ?_⟩
      · intro v hv
        exact ⟨hsame v hv, (hmeasured.2 v hv).scalar (htags v hv)⟩
      · intro x hx
        obtain rfl : tag = x := Option.some.inj hx
        obtain ⟨first, hfirst⟩ := List.exists_mem_of_ne_nil elements hnonempty
        rw [← hsame first hfirst]
        exact KvValue.tag_le_of_scalar (htags first hfirst)
    | _ => cases htag
  · rw [KvValue.encode_scalar htag] at h
    cases h
    refine ⟨.scalar (hmeasured.scalar htag), ?_⟩
    intro x hx
    rw [elementTag, if_neg htag] at hx
    cases hx

end Values

section Kv
variable {kv : List (String × KvValue)} {bytes : Bytes}

/-- The keys of a list that is accepted. -/
theorem foldlM_validateKvKey_eq_ok {keys seen : List String} :
    (∃ seen', keys.foldlM validateKvKey seen = .ok seen') ↔
      (∀ key ∈ keys, Named key) ∧ FreshNames keys seen := by
  induction keys generalizing seen with
  | nil => exact iff_of_true ⟨seen, rfl⟩ ⟨List.forall_mem_nil _, List.nodup_nil, List.forall_mem_nil _⟩
  | cons key keys ih =>
    simp only [List.foldlM_cons, Exec.bind_eq_ok, validateKvKey, Exec.reject_eq_ok, exists_const]
    rw [List.forall_mem_cons, freshNames_cons]
    constructor
    · intro h
      obtain ⟨seen', next, ⟨hempty, hlong, hseen, hnext⟩, hrest⟩ := h
      cases hnext
      obtain ⟨hnamed, hfresh⟩ := ih.mp ⟨seen', hrest⟩
      exact ⟨⟨⟨hempty, Nat.le_of_not_lt hlong⟩, hnamed⟩, hseen, hfresh⟩
    · intro h
      obtain ⟨⟨hkey, hnamed⟩, hseen, hfresh⟩ := h
      obtain ⟨seen', hrest⟩ := ih.mpr ⟨hnamed, hfresh⟩
      exact ⟨seen', _, ⟨hkey.1, Nat.not_lt_of_le hkey.2, hseen, rfl⟩, hrest⟩

theorem validateKvKeys_eq_ok {u : Unit} : validateKvKeys kv = .ok u ↔
    (∀ entry ∈ kv, Named entry.1) ∧ (kv.map Prod.fst).Nodup := by
  have hkeys : (∀ key ∈ kv.map Prod.fst, Named key) ↔ ∀ entry ∈ kv, Named entry.1 :=
    List.forall_mem_map
  rw [validateKvKeys, Exec.bind_eq_ok, ← hkeys, ← freshNames_nil, ← foldlM_validateKvKey_eq_ok]
  constructor
  · intro h
    obtain ⟨seen, hseen, -⟩ := h
    exact ⟨seen, hseen⟩
  · intro h
    obtain ⟨seen, hseen⟩ := h
    exact ⟨seen, hseen, rfl⟩

/-- The entries of an encoded section. -/
theorem encodeKvEntries_wire (h : encodeKvEntries kv = .ok bytes)
    (hmeasured : ∀ entry ∈ kv, entry.2.Measured) (hnamed : ∀ entry ∈ kv, Named entry.1) :
    ∃ es : List KvWire, List.Forall₂ KvWire.Denotes es kv ∧ (∀ e ∈ es, e.Admitted) ∧
      bytes = es.flatMap KvWire.bytes := by
  induction kv generalizing bytes with
  | nil =>
    cases h
    exact ⟨[], .nil, List.forall_mem_nil _, rfl⟩
  | cons entry kv ih =>
    obtain ⟨key, value⟩ := entry
    rw [List.forall_mem_cons] at hnamed hmeasured
    obtain ⟨first, hfirst, h⟩ := Exec.bind_eq_ok.mp h
    obtain ⟨rest, hrest, hpure⟩ := Exec.bind_eq_ok.mp h
    obtain ⟨payload, hpayload, htag⟩ := Exec.bind_eq_ok.mp hfirst
    cases hpure
    cases htag
    obtain ⟨es, hdenotes, hadmitted, rfl⟩ := ih hrest hmeasured.2 hnamed.2
    obtain ⟨hstands, helem⟩ := encodeKvPayload_stands hpayload hmeasured.1
    refine ⟨⟨utf8Bytes key, kvWireTag value, payload⟩ :: es, .cons ⟨rfl, ?_, hstands⟩ hdenotes,
      List.forall_mem_cons.mpr ⟨⟨?_, helem⟩, hadmitted⟩, ?_⟩
    · exact Nat.lt_of_le_of_lt hnamed.1.2 (by decide)
    · exact fun hnil => hnamed.1.1 (List.length_eq_zero_iff.mpr hnil)
    · simp only [List.flatMap_cons, KvWire.bytes, List.append_assoc]

/-- An entry is at least its tag, and its length fields count no more than the section has. -/
theorem encodeKvEntries_measured (h : encodeKvEntries kv = .ok bytes)
    (hlen : bytes.length < UInt32.size) :
    kv.length ≤ bytes.length ∧ ∀ entry ∈ kv, entry.2.Measured := by
  induction kv generalizing bytes with
  | nil => exact ⟨Nat.zero_le _, List.forall_mem_nil _⟩
  | cons entry kv ih =>
    obtain ⟨first, hfirst, h⟩ := Exec.bind_eq_ok.mp h
    obtain ⟨rest, hrest, hpure⟩ := Exec.bind_eq_ok.mp h
    obtain ⟨payload, hpayload, htag⟩ := Exec.bind_eq_ok.mp hfirst
    cases hpure
    cases htag
    simp only [List.length_append, List.length_cons] at hlen ⊢
    obtain ⟨hcount, hmeasured⟩ := ih hrest (by omega)
    exact ⟨by omega, List.forall_mem_cons.mpr
      ⟨measured_of_length hpayload (by omega), hmeasured⟩⟩

theorem parseKv_of_encodeKvSection (h : encodeKvSection kv = .ok bytes)
    (hcount : kv.length < UInt32.size) (hmeasured : ∀ entry ∈ kv, entry.2.Measured)
    (hnamed : ∀ entry ∈ kv, Named entry.1) (hnodup : (kv.map Prod.fst).Nodup) :
    parseKv bytes = .ok kv := by
  obtain ⟨entries, hentries, hpure⟩ := Exec.bind_eq_ok.mp h
  cases hpure
  obtain ⟨es, hdenotes, hadmitted, rfl⟩ := encodeKvEntries_wire hentries hmeasured hnamed
  have hsame := hdenotes.length_eq
  refine parseKv_eq_ok.mpr ⟨es, ⟨by omega, framed_of_denotes hdenotes, [], ?_⟩, hdenotes, hadmitted,
    hnodup⟩
  rw [hsame, List.append_nil]

theorem parseKv_encodeKvSection (h : encodeKvSection kv = .ok bytes)
    (hlen : bytes.length < UInt32.size) (hkeys : validateKvKeys kv = .ok ()) :
    parseKv bytes = .ok kv := by
  obtain ⟨hnamed, hnodup⟩ := validateKvKeys_eq_ok.mp hkeys
  obtain ⟨entries, hentries, hpure⟩ := Exec.bind_eq_ok.mp h
  cases hpure
  rw [List.length_append] at hlen
  obtain ⟨hcount, hmeasured⟩ := encodeKvEntries_measured hentries (by omega)
  exact parseKv_of_encodeKvSection h (by omega) hmeasured hnamed hnodup

end Kv
end Hurray.File
