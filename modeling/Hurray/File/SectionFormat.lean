import Hurray.File.Sections

/-!
The wire format of the sections at the end of a file: what stands in a section
that is accepted, and what it is read as. An entry is given here by its own
bytes, since a reader drops some of them.
-/
namespace Hurray.File
open Hurray.Base Hurray.Core Hurray.Descriptor Hurray.Stream

/-- A section is read from its front. -/
instance : ByteSource Bytes where
  Consumes s w t := s = w ++ t
  consumes_nil := by
    intro s t
    rw [List.nil_append]
    exact eq_comm
  consumes_append := by
    intro s t u v
    constructor
    · intro h
      exact ⟨v ++ t, by rw [h, List.append_assoc], rfl⟩
    · intro h
      obtain ⟨m, rfl, rfl⟩ := h
      exact (List.append_assoc u v t).symm

theorem consumes_iff {s w t : Bytes} : ByteSource.Consumes s w t ↔ s = w ++ t := Iff.rfl

/-! ### Fields -/

section Fields
variable {s t : Bytes}

theorem readBytesSlice_eq_ok {n : ℕ} {w : Bytes} :
    readBytesSlice n s = .ok (w, t) ↔ w.length = n ∧ s = w ++ t := by
  unfold readBytesSlice
  constructor
  · intro h
    split at h
    · cases h
    · next hlen =>
      cases h
      refine ⟨?_, (List.take_append_drop n s).symm⟩
      rw [List.length_take]
      omega
  · intro h
    obtain ⟨rfl, rfl⟩ := h
    rw [if_neg (by rw [List.length_append]; omega), List.take_left, List.drop_left]

/-- A field of a fixed width. -/
theorem field_eq_ok {α : Type} {n : ℕ} {ofBytes : Bytes → α} {toBytes : α → Bytes} {e : Error}
    (hlen : ∀ x, (toBytes x).length = n)
    (hiff : ∀ {w : Bytes}, w.length = n → ∀ {x : α}, ofBytes w = x ↔ w = toBytes x) {x : α} :
    (if s.length < n then Exec.fail e else .ok (ofBytes (s.take n), s.drop n)) =
      (.ok (x, t) : Result (α × Bytes)) ↔ s = toBytes x ++ t := by
  constructor
  · intro h
    split at h
    · cases h
    · next hshort =>
      have htake : (s.take n).length = n := by
        rw [List.length_take]
        omega
      cases h
      rw [← (hiff htake).mp rfl]
      exact (List.take_append_drop n s).symm
  · intro h
    subst h
    have hx := hlen x
    rw [if_neg (by rw [List.length_append]; omega), List.take_left' hx, List.drop_left' hx,
      (hiff hx).mpr rfl]

theorem readU16_eq_ok {x : UInt16} : readU16 s = .ok (x, t) ↔ s = u16Bytes x ++ t :=
  field_eq_ok length_u16Bytes u16OfBytes_eq_iff

theorem readU32_eq_ok {x : UInt32} : readU32 s = .ok (x, t) ↔ s = u32Bytes x ++ t :=
  field_eq_ok length_u32Bytes u32OfBytes_eq_iff

theorem readU64_eq_ok {x : UInt64} : readU64 s = .ok (x, t) ↔ s = u64Bytes x ++ t :=
  field_eq_ok length_u64Bytes u64OfBytes_eq_iff

theorem readByte_eq_ok {b : UInt8} : readByte s = .ok (b, t) ↔ s = b :: t := by
  simp only [readByte, Reader.bind_eq_ok, readBytesSlice_eq_ok, Reader.lift_eq_ok,
    Exec.index_eq_ok]
  constructor
  · intro h
    obtain ⟨w, m, ⟨hlen, rfl⟩, hget, rfl⟩ := h
    obtain ⟨x, rfl⟩ := List.length_eq_one_iff.mp hlen
    cases hget
    rfl
  · intro h
    subst h
    exact ⟨[b], t, ⟨rfl, rfl⟩, rfl, rfl⟩

theorem readText_eq_ok {len : ℕ} {e : Error} {x : String} :
    readText len e s = .ok (x, t) ↔ (utf8Bytes x).length = len ∧ s = utf8Bytes x ++ t := by
  simp only [readText, Reader.bind_eq_ok, readBytesSlice_eq_ok, Reader.lift_eq_ok,
    Exec.orFail_eq_ok, fromUtf8_eq_some]
  constructor
  · intro h
    obtain ⟨w, m, ⟨hlen, rfl⟩, rfl, rfl⟩ := h
    exact ⟨hlen, rfl⟩
  · intro h
    obtain ⟨hlen, rfl⟩ := h
    exact ⟨_, t, ⟨hlen, rfl⟩, rfl, rfl⟩

end Fields

theorem toNat_ofNat_u16 {n : ℕ} (h : n < UInt16.size) : (UInt16.ofNat n).toNat = n :=
  UInt16.toNat_ofNat_of_lt' h

theorem toNat_ofNat_u32 {n : ℕ} (h : n < UInt32.size) : (UInt32.ofNat n).toNat = n :=
  UInt32.toNat_ofNat_of_lt' h

/-! ### Values -/

namespace KvValue

/-- What an array may hold, and what the length field can count. -/
def Scalar : KvValue → Prop
  | string s => (utf8Bytes s).length < UInt32.size
  | bytes v => v.length < UInt32.size
  | array _ => False
  | _ => True

/-- What stands behind the tag of a scalar. -/
def payload : KvValue → Bytes
  | string s => u32Bytes (UInt32.ofNat (utf8Bytes s).length) ++ utf8Bytes s
  | int64 v => i64Bytes v
  | uint64 v => u64Bytes v
  | float64 v => f64Bytes v
  | bool v => [if v then 1 else 0]
  | bytes v => u32Bytes (UInt32.ofNat v.length) ++ v
  | array _ => []

theorem tag_range (v : KvValue) : 0x01 ≤ kvWireTag v ∧ kvWireTag v ≤ 0x07 := by
  cases v with
  | _ =>
    dsimp only [kvWireTag]
    decide

end KvValue

section Values
variable {s t : Bytes}

theorem parseKvScalar_eq_ok {tag : UInt8} {v : KvValue} : parseKvScalar tag s = .ok (v, t) ↔
    (kvWireTag v = tag ∧ v.Scalar) ∧ s = v.payload ++ t := by
  constructor
  · intro h
    unfold parseKvScalar at h
    split at h
    · next htag =>
      simp only [Reader.bind_eq_ok, readU32_eq_ok, readText_eq_ok, Reader.pure_eq_ok] at h
      obtain ⟨len, _, rfl, x, _, ⟨hlen, rfl⟩, rfl, rfl⟩ := h
      have hlt := len.toNat_lt_size
      refine ⟨⟨htag.symm, by rw [KvValue.Scalar, hlen]; exact hlt⟩, ?_⟩
      rw [KvValue.payload, hlen, UInt32.ofNat_toNat, List.append_assoc]
    split at h
    · next htag =>
      simp only [Reader.bind_eq_ok, readU64_eq_ok, Reader.pure_eq_ok] at h
      obtain ⟨x, _, rfl, rfl, rfl⟩ := h
      exact ⟨⟨htag.symm, trivial⟩, rfl⟩
    split at h
    · next htag =>
      simp only [Reader.bind_eq_ok, readU64_eq_ok, Reader.pure_eq_ok] at h
      obtain ⟨x, _, rfl, rfl, rfl⟩ := h
      exact ⟨⟨htag.symm, trivial⟩, rfl⟩
    split at h
    · next htag =>
      simp only [Reader.bind_eq_ok, readU64_eq_ok, Reader.pure_eq_ok] at h
      obtain ⟨x, _, rfl, rfl, rfl⟩ := h
      exact ⟨⟨htag.symm, trivial⟩, rfl⟩
    split at h
    · next htag =>
      simp only [Reader.bind_eq_ok, readByte_eq_ok, Reader.reject_eq_ok, Reader.pure_eq_ok] at h
      obtain ⟨b, _, rfl, _, _, ⟨hbool, rfl⟩, rfl, rfl⟩ := h
      refine ⟨⟨htag.symm, trivial⟩, ?_⟩
      by_cases hb : b = 0x01
      · rw [hb]
        rfl
      · obtain rfl : b = 0x00 := by
          by_contra hzero
          exact hbool ⟨hzero, hb⟩
        rfl
    split at h
    · next htag =>
      simp only [Reader.bind_eq_ok, readU32_eq_ok, readBytesSlice_eq_ok, Reader.pure_eq_ok] at h
      obtain ⟨len, _, rfl, x, _, ⟨hlen, rfl⟩, rfl, rfl⟩ := h
      have hlt := len.toNat_lt_size
      refine ⟨⟨htag.symm, by rw [KvValue.Scalar, hlen]; exact hlt⟩, ?_⟩
      rw [KvValue.payload, hlen, UInt32.ofNat_toNat, List.append_assoc]
    · rw [Reader.lift_eq_ok] at h
      exact absurd h.1 Exec.fail_ne_ok
  · intro h
    obtain ⟨⟨rfl, hscalar⟩, rfl⟩ := h
    cases v with
    | string x =>
      rw [kvWireTag, parseKvScalar, if_pos rfl]
      simp only [Reader.bind_eq_ok, readU32_eq_ok, readText_eq_ok, Reader.pure_eq_ok]
      refine ⟨_, _, List.append_assoc .., x, t, ⟨?_, rfl⟩, rfl, rfl⟩
      exact (toNat_ofNat_u32 hscalar).symm
    | int64 x =>
      rw [kvWireTag, parseKvScalar, if_neg (by decide), if_pos rfl]
      simp only [Reader.bind_eq_ok, readU64_eq_ok, Reader.pure_eq_ok]
      exact ⟨x.toUInt64, t, rfl, rfl, rfl⟩
    | uint64 x =>
      rw [kvWireTag, parseKvScalar, if_neg (by decide), if_neg (by decide), if_pos rfl]
      simp only [Reader.bind_eq_ok, readU64_eq_ok, Reader.pure_eq_ok]
      exact ⟨x, t, rfl, rfl, rfl⟩
    | float64 x =>
      rw [kvWireTag, parseKvScalar, if_neg (by decide), if_neg (by decide), if_neg (by decide),
        if_pos rfl]
      simp only [Reader.bind_eq_ok, readU64_eq_ok, Reader.pure_eq_ok]
      exact ⟨x.bits, t, rfl, rfl, rfl⟩
    | bool x =>
      rw [kvWireTag, parseKvScalar, if_neg (by decide), if_neg (by decide), if_neg (by decide),
        if_neg (by decide), if_pos rfl]
      simp only [Reader.bind_eq_ok, readByte_eq_ok, Reader.reject_eq_ok, Reader.pure_eq_ok]
      refine ⟨_, t, rfl, (), t, ⟨?_, rfl⟩, ?_, rfl⟩
      · cases x <;> decide
      · cases x <;> rfl
    | bytes x =>
      rw [kvWireTag, parseKvScalar, if_neg (by decide), if_neg (by decide), if_neg (by decide),
        if_neg (by decide), if_neg (by decide), if_pos rfl]
      simp only [Reader.bind_eq_ok, readU32_eq_ok, readBytesSlice_eq_ok, Reader.pure_eq_ok]
      refine ⟨_, _, List.append_assoc .., x, t, ⟨?_, rfl⟩, rfl, rfl⟩
      exact (toNat_ofNat_u32 hscalar).symm
    | array elements => exact hscalar.elim

theorem parseKvScalar_recognises (tag : UInt8) : Recognises (parseKvScalar tag)
    (fun v => kvWireTag v = tag ∧ v.Scalar) (fun v => fixed v.payload) := by
  intro s v t
  rw [parseKvScalar_eq_ok, reads_fixed, consumes_iff]

/-- The payload of a value of a tag. Nothing follows the count of an array without elements, so
that its element tag is free. -/
inductive Stands : UInt8 → Bytes → KvValue → Prop
  | scalar {v : KvValue} (h : v.Scalar) : Stands (kvWireTag v) v.payload v
  | array {elemTag : UInt8} {elements : List KvValue}
      (h : ∀ v ∈ elements, kvWireTag v = elemTag ∧ v.Scalar)
      (hlen : elements.length < UInt32.size) :
      Stands 0x07 (elemTag :: (u32Bytes (UInt32.ofNat elements.length) ++
        elements.flatMap KvValue.payload)) (.array elements)

/-- The element tag of an array. -/
def elementTag (tag : UInt8) (payload : Bytes) : Option UInt8 :=
  if tag = 0x07 then payload.head? else none

theorem parseElements_eq_ok {elemTag : UInt8} {n : ℕ} {elements : List KvValue} :
    Reader.many (parseKvScalar elemTag) n s = .ok (elements, t) ↔
      (elements.length = n ∧ ∀ v ∈ elements, kvWireTag v = elemTag ∧ v.Scalar) ∧
        s = elements.flatMap KvValue.payload ++ t := by
  rw [Recognises.many (parseKvScalar_recognises elemTag) n]
  dsimp only
  rw [← fixed_flatMap, reads_fixed, consumes_iff]

theorem parseKvValue_eq_ok {tag : UInt8} {v : KvValue} : parseKvValue tag s = .ok (v, t) ↔
    ∃ payload, Stands tag payload v ∧ (∀ x, elementTag tag payload = some x → x ≤ 0x06) ∧
      s = payload ++ t := by
  unfold parseKvValue
  constructor
  · intro h
    split at h
    · next htag =>
      simp only [Reader.bind_eq_ok, readByte_eq_ok, readU32_eq_ok, Reader.reject_eq_ok,
        parseElements_eq_ok, Reader.pure_eq_ok] at h
      obtain ⟨elemTag, _, rfl, _, _, ⟨helem, rfl⟩, count, _, rfl, elements, _, ⟨⟨hlen, hall⟩, rfl⟩,
        rfl, rfl⟩ := h
      have hlt : elements.length < UInt32.size := by
        rw [hlen]
        exact count.toNat_lt_size
      have hcount : UInt32.ofNat elements.length = count := by rw [hlen, UInt32.ofNat_toNat]
      subst htag
      refine ⟨_, .array hall hlt, ?_, ?_⟩
      · intro x hx
        cases hx
        exact UInt8.not_lt.mp fun hgt => helem (.inr hgt)
      · rw [hcount, List.cons_append, List.append_assoc]
    · next htag =>
      obtain ⟨⟨rfl, hscalar⟩, rfl⟩ := parseKvScalar_eq_ok.mp h
      refine ⟨v.payload, .scalar hscalar, ?_, rfl⟩
      intro x hx
      rw [elementTag, if_neg htag] at hx
      cases hx
  · intro h
    obtain ⟨payload, hstands, helem, rfl⟩ := h
    cases hstands with
    | scalar hscalar =>
      have htag : kvWireTag v ≠ 0x07 := by
        cases v with
        | array elements => exact hscalar.elim
        | _ =>
          dsimp only [kvWireTag]
          decide
      rw [if_neg htag, parseKvScalar_eq_ok]
      exact ⟨⟨rfl, hscalar⟩, rfl⟩
    | @array elemTag elements hall hlen =>
      have hle : elemTag ≤ 0x06 := helem elemTag rfl
      rw [if_pos rfl]
      simp only [Reader.bind_eq_ok, readByte_eq_ok, readU32_eq_ok, Reader.reject_eq_ok,
        parseElements_eq_ok, Reader.pure_eq_ok]
      refine ⟨elemTag, _, rfl, (), _, ⟨?_, rfl⟩, _, _, List.append_assoc .., elements, t,
        ⟨⟨(toNat_ofNat_u32 hlen).symm, hall⟩, rfl⟩, rfl, rfl⟩
      intro h
      rcases h with rfl | hgt
      · exact absurd hle (by decide)
      · exact absurd hgt (UInt8.not_lt.mpr hle)

/-- A payload is told from what follows it, and so is the value it stands for. -/
theorem Stands.unambiguous {tag : UInt8} {p q t u : Bytes} {v w : KvValue} (hp : Stands tag p v)
    (hq : Stands tag q w) (h : p ++ t = q ++ u) : p = q ∧ v = w := by
  have hscalars : ∀ {v w : KvValue}, v.Scalar → w.Scalar → kvWireTag v = kvWireTag w →
      v.payload ++ t = w.payload ++ u → v.payload = w.payload ∧ v = w := by
    intro v w hv hw htag h
    have heq := parseKvScalar_eq_ok.mpr ⟨⟨htag, hv⟩, h.symm⟩
    rw [parseKvScalar_eq_ok.mpr ⟨⟨rfl, hw⟩, rfl⟩] at heq
    cases heq
    exact ⟨rfl, rfl⟩
  have hne : ∀ {v : KvValue}, v.Scalar → kvWireTag v ≠ 0x07 := by
    intro v hv
    cases v with
    | array elements => exact hv.elim
    | _ =>
      dsimp only [kvWireTag]
      decide
  generalize htag : tag = tag' at hq
  cases hp with
  | scalar hv =>
    cases hq with
    | scalar hw => exact hscalars hv hw htag h
    | array hw hlen => exact absurd htag (hne hv)
  | @array elemTag elements hall hlen =>
    cases hq with
    | scalar hw => exact absurd htag.symm (hne hw)
    | @array elemTag' elements' hall' hlen' =>
      simp only [List.append_assoc, List.cons_append] at h
      obtain ⟨rfl, hrest⟩ := List.cons.inj h
      obtain ⟨hcount, hrest⟩ := List.append_inj hrest rfl
      have hlength : elements.length = elements'.length := by
        have hnat := congrArg u32OfBytes hcount
        rw [u32OfBytes_u32Bytes, u32OfBytes_u32Bytes] at hnat
        rw [← toNat_ofNat_u32 hlen, hnat, toNat_ofNat_u32 hlen']
      have heq := parseElements_eq_ok.mpr ⟨⟨hlength, hall⟩, hrest.symm⟩
      rw [parseElements_eq_ok.mpr ⟨⟨rfl, hall'⟩, rfl⟩] at heq
      cases heq
      exact ⟨rfl, rfl⟩

end Values

/-! ### Entries -/

/-- The names that a section has used and those it is still to use do not meet. -/
def FreshNames (names seen : List String) : Prop := names.Nodup ∧ ∀ name ∈ names, name ∉ seen

theorem freshNames_cons {name : String} {names seen : List String} :
    FreshNames (name :: names) seen ↔ name ∉ seen ∧ FreshNames names (name :: seen) := by
  simp only [FreshNames, List.nodup_cons, List.mem_cons, forall_eq_or_imp, not_or]
  constructor
  · intro h
    obtain ⟨⟨hmem, hnodup⟩, hseen, hall⟩ := h
    refine ⟨hseen, hnodup, ?_⟩
    intro x hx
    exact ⟨fun heq => hmem (heq ▸ hx), hall x hx⟩
  · intro h
    obtain ⟨hseen, hnodup, hall⟩ := h
    refine ⟨⟨fun hmem => (hall name hmem).1 rfl, hnodup⟩, hseen, ?_⟩
    intro x hx
    exact (hall x hx).2

theorem freshNames_nil {names : List String} : FreshNames names [] ↔ names.Nodup := by
  simp [FreshNames]

/-- An entry of the key-value section as it stands in a file. -/
structure KvWire where
  key : Bytes
  tag : UInt8
  payload : Bytes

namespace KvWire

def bytes (e : KvWire) : Bytes :=
  u16Bytes (UInt16.ofNat e.key.length) ++ (e.key ++ e.tag :: e.payload)

/-- The entry is framed by its own length fields. -/
structure Framed (e : KvWire) : Prop where
  key : e.key.length < UInt16.size
  payload : ∃ v, Stands e.tag e.payload v

/-- What the entry is read as. -/
structure Denotes (e : KvWire) (entry : String × KvValue) : Prop where
  key : utf8Bytes entry.1 = e.key
  length : e.key.length < UInt16.size
  payload : Stands e.tag e.payload entry.2

/-- The checks of one entry. -/
structure Admitted (e : KvWire) : Prop where
  key : e.key ≠ []
  elementTag : ∀ x, elementTag e.tag e.payload = some x → x ≤ 0x06

theorem Denotes.framed {e : KvWire} {entry : String × KvValue} (h : e.Denotes entry) : e.Framed where
  key := h.length
  payload := ⟨entry.2, h.payload⟩

/-- An entry is told from what follows it. -/
theorem bytes_unambiguous {e f : KvWire} {t u : Bytes} (he : e.Framed) (hf : f.Framed)
    (h : e.bytes ++ t = f.bytes ++ u) : e = f := by
  simp only [bytes, List.append_assoc, List.cons_append] at h
  obtain ⟨hcount, h⟩ := List.append_inj h rfl
  have hlength : e.key.length = f.key.length := by
    have hnat := congrArg u16OfBytes hcount
    rw [u16OfBytes_u16Bytes, u16OfBytes_u16Bytes] at hnat
    rw [← toNat_ofNat_u16 he.key, hnat, toNat_ofNat_u16 hf.key]
  obtain ⟨hkey, h⟩ := List.append_inj h hlength
  obtain ⟨htag, h⟩ := List.cons.inj h
  obtain ⟨v, hv⟩ := he.payload
  obtain ⟨w, hw⟩ := hf.payload
  rw [← htag] at hw
  obtain ⟨hpayload, -⟩ := hv.unambiguous hw h
  obtain ⟨key, tag, payload⟩ := e
  obtain ⟨key', tag', payload'⟩ := f
  cases hkey
  cases htag
  cases hpayload
  rfl

end KvWire

/-- An entry of the index as it stands in a file. -/
structure IndexWire where
  name : Bytes
  descriptorOffset : UInt64
  descriptorLength : UInt32
  dataOffset : UInt64
  dataLength : UInt64
  flags : UInt32

namespace IndexWire

def bytes (e : IndexWire) : Bytes :=
  u16Bytes (UInt16.ofNat e.name.length) ++ (e.name ++ (u64Bytes e.descriptorOffset ++
    (u32Bytes e.descriptorLength ++ (u64Bytes e.dataOffset ++ (u64Bytes e.dataLength ++
      u32Bytes e.flags)))))

/-- What the entry is read as; the flags are dropped. -/
structure Denotes (e : IndexWire) (entry : IndexEntry) : Prop where
  name : utf8Bytes entry.name = e.name
  length : e.name.length < UInt16.size
  descriptorOffset : entry.descriptorOffset = e.descriptorOffset
  descriptorLength : entry.descriptorLength = e.descriptorLength
  dataOffset : entry.dataOffset = e.dataOffset
  dataLength : entry.dataLength = e.dataLength

end IndexWire

section Entries
variable {s t : Bytes} {n : ℕ} {seen : List String}

theorem parseKvEntries_eq_ok {kv : List (String × KvValue)} :
    parseKvEntries n seen s = .ok (kv, t) ↔ ∃ es : List KvWire, es.length = n ∧
      List.Forall₂ KvWire.Denotes es kv ∧ (∀ e ∈ es, e.Admitted) ∧
        FreshNames (kv.map Prod.fst) seen ∧ s = es.flatMap KvWire.bytes ++ t := by
  induction n generalizing seen s t kv with
  | zero =>
    rw [parseKvEntries, Reader.pure_eq_ok]
    constructor
    · intro h
      obtain ⟨rfl, rfl⟩ := h
      exact ⟨[], rfl, .nil, nofun, ⟨List.nodup_nil, nofun⟩, rfl⟩
    · intro h
      obtain ⟨es, hlen, hdenotes, -, -, rfl⟩ := h
      obtain rfl := List.length_eq_zero_iff.mp hlen
      cases hdenotes
      exact ⟨rfl, rfl⟩
  | succ n ih =>
    simp only [parseKvEntries, Reader.bind_eq_ok, readU16_eq_ok, Reader.reject_eq_ok,
      readText_eq_ok, readByte_eq_ok, parseKvValue_eq_ok, ih, Reader.pure_eq_ok]
    constructor
    · intro h
      obtain ⟨keyLen, _, rfl, _, _, ⟨hzero, rfl⟩, key, _, ⟨hlen, rfl⟩, _, _, ⟨hseen, rfl⟩, tag, _,
        rfl, value, _, ⟨payload, hstands, helem, rfl⟩, entries, _,
        ⟨es, rfl, hdenotes, hadmitted, hfresh, rfl⟩, rfl, rfl⟩ := h
      have hlt : (utf8Bytes key).length < UInt16.size := by
        rw [hlen]
        exact keyLen.toNat_lt_size
      refine ⟨⟨utf8Bytes key, tag, payload⟩ :: es, rfl, .cons ⟨rfl, hlt, hstands⟩ hdenotes, ?_, ?_,
        ?_⟩
      · rw [List.forall_mem_cons]
        refine ⟨⟨?_, helem⟩, hadmitted⟩
        intro hnil
        rw [show utf8Bytes key = [] from hnil] at hlen
        exact hzero (UInt16.toNat_inj.mp hlen.symm)
      · exact freshNames_cons.mpr ⟨hseen, hfresh⟩
      · rw [List.flatMap_cons, KvWire.bytes, hlen, UInt16.ofNat_toNat]
        simp only [List.append_assoc, List.cons_append]
    · intro h
      obtain ⟨es, hlen, hdenotes, hadmitted, hfresh, rfl⟩ := h
      cases hdenotes with
      | nil => cases hlen
      | @cons e entry es entries hdenotes hrest =>
        obtain ⟨key, value⟩ := entry
        obtain ⟨hseen, hfresh⟩ := freshNames_cons.mp hfresh
        obtain ⟨hadmitted, hadmittedRest⟩ := List.forall_mem_cons.mp hadmitted
        obtain ⟨hkey, hlt, hstands⟩ := hdenotes
        refine ⟨UInt16.ofNat e.key.length, _, ?_, (), _, ⟨?_, rfl⟩, key, _, ⟨?_, rfl⟩, (), _,
          ⟨hseen, rfl⟩, e.tag, _, rfl, value, _, ⟨e.payload, hstands, hadmitted.elementTag, rfl⟩,
          entries, t, ⟨es, Nat.succ.inj hlen, hrest, hadmittedRest, hfresh, rfl⟩, rfl, rfl⟩
        · rw [List.flatMap_cons, KvWire.bytes, ← hkey]
          simp only [List.append_assoc, List.cons_append]
        · intro hzero
          have hnat := congrArg UInt16.toNat hzero
          rw [toNat_ofNat_u16 hlt] at hnat
          exact hadmitted.key (List.length_eq_zero_iff.mp hnat)
        · rw [show utf8Bytes key = e.key from hkey, toNat_ofNat_u16 hlt]

theorem parseEntries_eq_ok {entries : List IndexEntry} :
    parseEntries n seen s = .ok (entries, t) ↔ ∃ es : List IndexWire, es.length = n ∧
      List.Forall₂ IndexWire.Denotes es entries ∧ (∀ e ∈ es, e.name ≠ []) ∧
        FreshNames (entries.map IndexEntry.name) seen ∧ s = es.flatMap IndexWire.bytes ++ t := by
  induction n generalizing seen s t entries with
  | zero =>
    rw [parseEntries, Reader.pure_eq_ok]
    constructor
    · intro h
      obtain ⟨rfl, rfl⟩ := h
      exact ⟨[], rfl, .nil, nofun, ⟨List.nodup_nil, nofun⟩, rfl⟩
    · intro h
      obtain ⟨es, hlen, hdenotes, -, -, rfl⟩ := h
      obtain rfl := List.length_eq_zero_iff.mp hlen
      cases hdenotes
      exact ⟨rfl, rfl⟩
  | succ n ih =>
    simp only [parseEntries, Reader.bind_eq_ok, readU16_eq_ok, readU32_eq_ok, readU64_eq_ok,
      Reader.reject_eq_ok, readText_eq_ok, ih, Reader.pure_eq_ok]
    constructor
    · intro h
      obtain ⟨nameLen, _, rfl, _, _, ⟨hzero, rfl⟩, name, _, ⟨hlen, rfl⟩, _, _, ⟨hseen, rfl⟩,
        descriptorOffset, _, rfl, descriptorLength, _, rfl, dataOffset, _, rfl, dataLength, _, rfl,
        flags, _, rfl, entries, _, ⟨es, rfl, hdenotes, hnames, hfresh, rfl⟩, rfl, rfl⟩ := h
      have hlt : (utf8Bytes name).length < UInt16.size := by
        rw [hlen]
        exact nameLen.toNat_lt_size
      refine ⟨⟨utf8Bytes name, descriptorOffset, descriptorLength, dataOffset, dataLength, flags⟩ ::
        es, rfl, .cons ⟨rfl, hlt, rfl, rfl, rfl, rfl⟩ hdenotes, ?_, ?_, ?_⟩
      · rw [List.forall_mem_cons]
        refine ⟨?_, hnames⟩
        intro hnil
        rw [show utf8Bytes name = [] from hnil] at hlen
        exact hzero (UInt16.toNat_inj.mp hlen.symm)
      · exact freshNames_cons.mpr ⟨hseen, hfresh⟩
      · rw [List.flatMap_cons, IndexWire.bytes, hlen, UInt16.ofNat_toNat]
        simp only [List.append_assoc]
    · intro h
      obtain ⟨es, hlen, hdenotes, hnames, hfresh, rfl⟩ := h
      cases hdenotes with
      | nil => cases hlen
      | @cons e entry es entries hdenotes hrest =>
        obtain ⟨name, descriptorOffset, descriptorLength, dataOffset, dataLength⟩ := entry
        obtain ⟨hseen, hfresh⟩ := freshNames_cons.mp hfresh
        obtain ⟨hname, hnamesRest⟩ := List.forall_mem_cons.mp hnames
        obtain ⟨hkey, hlt, rfl, rfl, rfl, rfl⟩ := hdenotes
        refine ⟨UInt16.ofNat e.name.length, _, ?_, (), _, ⟨?_, rfl⟩, name, _, ⟨?_, rfl⟩, (), _,
          ⟨hseen, rfl⟩, _, _, rfl, _, _, rfl, _, _, rfl, _, _, rfl, e.flags, _, rfl, entries, t,
          ⟨es, Nat.succ.inj hlen, hrest, hnamesRest, hfresh, rfl⟩, rfl, rfl⟩
        · rw [List.flatMap_cons, IndexWire.bytes, ← hkey]
          simp only [List.append_assoc]
        · intro hzero
          have hnat := congrArg UInt16.toNat hzero
          rw [toNat_ofNat_u16 hlt] at hnat
          exact hname (List.length_eq_zero_iff.mp hnat)
        · rw [show utf8Bytes name = e.name from hkey, toNat_ofNat_u16 hlt]

end Entries

/-! ### Sections -/

/-- The section holds these entries; what follows them is not read. -/
structure KvSection (w : Bytes) (es : List KvWire) : Prop where
  count : es.length < UInt32.size
  framed : ∀ e ∈ es, e.Framed
  bytes : ∃ rest, w = u32Bytes (UInt32.ofNat es.length) ++ (es.flatMap KvWire.bytes ++ rest)

structure IndexSection (w : Bytes) (es : List IndexWire) : Prop where
  count : es.length < UInt64.size
  framed : ∀ e ∈ es, e.name.length < UInt16.size
  bytes : ∃ rest, w = u64Bytes (UInt64.ofNat es.length) ++ (es.flatMap IndexWire.bytes ++ rest)

section Sections
variable {w : Bytes}

theorem kvEntries_unambiguous {es fs : List KvWire} {t u : Bytes} (hlen : es.length = fs.length)
    (hes : ∀ e ∈ es, e.Framed) (hfs : ∀ f ∈ fs, f.Framed)
    (h : es.flatMap KvWire.bytes ++ t = fs.flatMap KvWire.bytes ++ u) : es = fs := by
  induction es generalizing fs with
  | nil => exact (List.length_eq_zero_iff.mp hlen.symm).symm
  | cons e es ih =>
    cases fs with
    | nil => cases hlen
    | cons f fs =>
      rw [List.flatMap_cons, List.flatMap_cons, List.append_assoc, List.append_assoc] at h
      obtain ⟨he, hesRest⟩ := List.forall_mem_cons.mp hes
      obtain ⟨hf, hfsRest⟩ := List.forall_mem_cons.mp hfs
      obtain rfl := KvWire.bytes_unambiguous he hf h
      rw [ih (Nat.succ.inj hlen) hesRest hfsRest (List.append_cancel_left h)]

/-- The bytes of a section determine its entries. -/
theorem KvSection.unique {es fs : List KvWire} (hes : KvSection w es) (hfs : KvSection w fs) :
    es = fs := by
  obtain ⟨t, rfl⟩ := hes.bytes
  obtain ⟨u, h⟩ := hfs.bytes
  obtain ⟨hcount, h⟩ := List.append_inj h rfl
  have hnat := congrArg u32OfBytes hcount
  rw [u32OfBytes_u32Bytes, u32OfBytes_u32Bytes] at hnat
  apply kvEntries_unambiguous _ hes.framed hfs.framed h
  rw [← toNat_ofNat_u32 hes.count, hnat, toNat_ofNat_u32 hfs.count]

theorem framed_of_denotes {es : List KvWire} {kv : List (String × KvValue)}
    (h : List.Forall₂ KvWire.Denotes es kv) : ∀ e ∈ es, e.Framed := by
  induction h with
  | nil => nofun
  | cons h _ ih => exact List.forall_mem_cons.mpr ⟨h.framed, ih⟩

theorem named_of_denotes {es : List IndexWire} {entries : List IndexEntry}
    (h : List.Forall₂ IndexWire.Denotes es entries) : ∀ e ∈ es, e.name.length < UInt16.size := by
  induction h with
  | nil => nofun
  | cons h _ ih => exact List.forall_mem_cons.mpr ⟨h.length, ih⟩

/-- What the key-value section of an accepted file is. -/
theorem parseKv_eq_ok {kv : List (String × KvValue)} : parseKv w = .ok kv ↔
    ∃ es, KvSection w es ∧ List.Forall₂ KvWire.Denotes es kv ∧ (∀ e ∈ es, e.Admitted) ∧
      (kv.map Prod.fst).Nodup := by
  simp only [parseKv, Exec.bind_eq_ok, Prod.exists, readU32_eq_ok, parseKvEntries_eq_ok,
    freshNames_nil]
  constructor
  · intro h
    obtain ⟨count, _, rfl, _, rest, ⟨es, hlen, hdenotes, hadmitted, hnodup, rfl⟩, hkv⟩ := h
    cases hkv
    have hlt : es.length < UInt32.size := by
      rw [hlen]
      exact count.toNat_lt_size
    refine ⟨es, ⟨hlt, framed_of_denotes hdenotes, rest, ?_⟩, hdenotes, hadmitted, hnodup⟩
    rw [hlen, UInt32.ofNat_toNat]
  · intro h
    obtain ⟨es, ⟨hlt, _, rest, rfl⟩, hdenotes, hadmitted, hnodup⟩ := h
    exact ⟨_, _, rfl, kv, rest, ⟨es, (toNat_ofNat_u32 hlt).symm, hdenotes, hadmitted, hnodup, rfl⟩,
      rfl⟩

/-- What the index of an accepted file is. -/
theorem parseIndex_eq_ok {entries : List IndexEntry} : parseIndex w = .ok entries ↔
    ∃ es, IndexSection w es ∧ List.Forall₂ IndexWire.Denotes es entries ∧ (∀ e ∈ es, e.name ≠ []) ∧
      (entries.map IndexEntry.name).Nodup := by
  simp only [parseIndex, Exec.bind_eq_ok, Prod.exists, readU64_eq_ok, parseEntries_eq_ok,
    freshNames_nil]
  constructor
  · intro h
    obtain ⟨count, _, rfl, _, rest, ⟨es, hlen, hdenotes, hnames, hnodup, rfl⟩, hentries⟩ := h
    cases hentries
    have hlt : es.length < UInt64.size := by
      rw [hlen]
      exact count.toNat_lt_size
    refine ⟨es, ⟨hlt, named_of_denotes hdenotes, rest, ?_⟩, hdenotes, hnames, hnodup⟩
    rw [hlen, UInt64.ofNat_toNat]
  · intro h
    obtain ⟨es, ⟨hlt, _, rest, rfl⟩, hdenotes, hnames, hnodup⟩ := h
    exact ⟨_, _, rfl, entries, rest,
      ⟨es, (UInt64.toNat_ofNat_of_lt' hlt).symm, hdenotes, hnames, hnodup, rfl⟩, rfl⟩

end Sections
end Hurray.File
