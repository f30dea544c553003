import Hurray.Base.Wire
import Hurray.Core.Error

/-! The bounded cursor every decoder reads through. -/
namespace Hurray.Descriptor
open Hurray.Base Hurray.Core

/-- A position in a byte slice, and the limit past which nothing is read. -/
structure ByteCursor where
  data : Bytes
  pos : ℕ
  limit : ℕ
  pos_le : pos ≤ limit
  limit_le : limit ≤ data.length

namespace ByteCursor

def new (data : Bytes) (limit : ℕ) : ByteCursor :=
  ⟨data, 0, min limit data.length, Nat.zero_le _, Nat.min_le_right _ _⟩

def remaining (c : ByteCursor) : ℕ := c.limit - c.pos

theorem ext' {c d : ByteCursor} (hdata : c.data = d.data) (hpos : c.pos = d.pos)
    (hlimit : c.limit = d.limit) : c = d := by
  cases c
  cases d
  simp_all

instance : ByteSource ByteCursor where
  Consumes c w d := d.data = c.data ∧ d.limit = c.limit ∧ d.pos = c.pos + w.length ∧
    w <+: c.data.drop c.pos
  consumes_nil := by
    intro c d
    constructor
    · intro h
      obtain ⟨hdata, hlimit, hpos, -⟩ := h
      exact ext' hdata (by simpa using hpos) hlimit
    · rintro rfl
      simp
  consumes_append := by
    intro c e u v
    constructor
    · intro h
      obtain ⟨hdata, hlimit, hpos, hpre⟩ := h
      rw [List.length_append, ← Nat.add_assoc] at hpos
      have hle := e.pos_le
      let m : ByteCursor := ⟨c.data, c.pos + u.length, c.limit, by omega, c.limit_le⟩
      refine ⟨m, ⟨rfl, rfl, rfl, (List.prefix_append u v).trans hpre⟩, hdata, hlimit, hpos, ?_⟩
      rw [← List.drop_drop]
      obtain ⟨rest, hrest⟩ := hpre
      exact ⟨rest, by rw [← hrest]; simp⟩
    · intro h
      obtain ⟨m, ⟨hdata, hlimit, hpos, hu⟩, hdata', hlimit', hpos', hv⟩ := h
      refine ⟨hdata'.trans hdata, hlimit'.trans hlimit, ?_, ?_⟩
      · rw [hpos', hpos, List.length_append, Nat.add_assoc]
      · rw [hdata, hpos, ← List.drop_drop] at hv
        obtain ⟨rest, hrest⟩ := hu
        rw [← hrest, List.drop_left] at hv
        rw [← hrest]
        exact (List.prefix_append_right_inj u).mpr hv

theorem consumes_iff {c d : ByteCursor} {w : Bytes} : ByteSource.Consumes c w d ↔
    d.data = c.data ∧ d.limit = c.limit ∧ d.pos = c.pos + w.length ∧ w <+: c.data.drop c.pos :=
  Iff.rfl

end ByteCursor

abbrev Decoder (α : Type) := Reader Error ByteCursor α

def readBytes (n : ℕ) : Decoder Bytes := fun c =>
  if h : c.pos + n > c.limit then Exec.fail (.descriptorTruncated c.pos n c.remaining)
  else .ok ((c.data.drop c.pos).take n, { c with pos := c.pos + n, pos_le := Nat.le_of_not_gt h })

theorem readBytes_eq_ok {n : ℕ} {c d : ByteCursor} {w : Bytes} :
    readBytes n c = .ok (w, d) ↔ w.length = n ∧ Reads c (fixed w) d := by
  rw [reads_fixed, ByteCursor.consumes_iff]
  unfold readBytes
  constructor
  · intro h
    split at h
    · cases h
    · next hle =>
      cases h
      have hbound := c.limit_le
      have hlen : ((c.data.drop c.pos).take n).length = n := by
        rw [List.length_take, List.length_drop]
        omega
      exact ⟨hlen, rfl, rfl, by rw [hlen], List.take_prefix _ _⟩
  · intro h
    obtain ⟨rfl, hdata, hlimit, hpos, hpre⟩ := h
    have hle := d.pos_le
    rw [dif_neg (by omega)]
    have htake : (c.data.drop c.pos).take w.length = w := by
      obtain ⟨rest, hrest⟩ := hpre
      rw [← hrest, List.take_left]
    rw [htake]
    congr 2
    exact ByteCursor.ext' hdata.symm hpos.symm hlimit.symm

def readU8 : Decoder UInt8 := do
  let b ← readBytes 1
  Reader.lift (Exec.index b 0)

def readU32 : Decoder UInt32 := do
  let b ← readBytes 4
  pure (u32OfBytes b)

def readU64 : Decoder UInt64 := do
  let b ← readBytes 8
  pure (u64OfBytes b)

def readI64 : Decoder Int64 := do
  let b ← readBytes 8
  pure (i64OfBytes b)

/-- The reading of a byte as a boolean, `read_u8()? != 0`. -/
def readBool : Decoder Bool := do
  let b ← readU8
  pure (decide (b ≠ 0))

section
variable {c d : ByteCursor}

theorem readU8_eq_ok {x : UInt8} : readU8 c = .ok (x, d) ↔ Reads c (fixed [x]) d := by
  simp only [readU8, Reader.bind_eq_ok, readBytes_eq_ok, Reader.lift_eq_ok, Exec.index_eq_ok]
  constructor
  · intro h
    obtain ⟨w, m, ⟨hlen, hr⟩, hx, rfl⟩ := h
    obtain ⟨y, rfl⟩ := List.length_eq_one_iff.mp hlen
    cases hx
    exact hr
  · intro hr
    exact ⟨[x], d, ⟨rfl, hr⟩, rfl, rfl⟩

theorem readU32_eq_ok {x : UInt32} : readU32 c = .ok (x, d) ↔ Reads c (fixed (u32Bytes x)) d := by
  simp only [readU32, Reader.bind_eq_ok, readBytes_eq_ok, Reader.pure_eq_ok]
  constructor
  · intro h
    obtain ⟨w, m, ⟨hlen, hr⟩, hx, rfl⟩ := h
    rwa [(u32OfBytes_eq_iff hlen).mp hx.symm] at hr
  · intro hr
    exact ⟨u32Bytes x, d, ⟨length_u32Bytes x, hr⟩, (u32OfBytes_u32Bytes x).symm, rfl⟩

theorem readU64_eq_ok {x : UInt64} : readU64 c = .ok (x, d) ↔ Reads c (fixed (u64Bytes x)) d := by
  simp only [readU64, Reader.bind_eq_ok, readBytes_eq_ok, Reader.pure_eq_ok]
  constructor
  · intro h
    obtain ⟨w, m, ⟨hlen, hr⟩, hx, rfl⟩ := h
    rwa [(u64OfBytes_eq_iff hlen).mp hx.symm] at hr
  · intro hr
    exact ⟨u64Bytes x, d, ⟨length_u64Bytes x, hr⟩, (u64OfBytes_u64Bytes x).symm, rfl⟩

theorem readI64_eq_ok {x : Int64} : readI64 c = .ok (x, d) ↔ Reads c (fixed (i64Bytes x)) d := by
  simp only [readI64, Reader.bind_eq_ok, readBytes_eq_ok, Reader.pure_eq_ok]
  constructor
  · intro h
    obtain ⟨w, m, ⟨hlen, hr⟩, hx, rfl⟩ := h
    rwa [(i64OfBytes_eq_iff hlen).mp hx.symm] at hr
  · intro hr
    exact ⟨i64Bytes x, d, ⟨length_i64Bytes x, hr⟩,
      ((i64OfBytes_eq_iff (length_i64Bytes x)).mpr rfl).symm, rfl⟩

theorem readBool_eq_ok {b : Bool} : readBool c = .ok (b, d) ↔ Reads c [.truth b] d := by
  simp only [readBool, Reader.bind_eq_ok, readU8_eq_ok, Reader.pure_eq_ok, reads_truth,
    reads_fixed]
  constructor
  · intro h
    obtain ⟨x, m, hr, hb, rfl⟩ := h
    exact ⟨x, hb, hr⟩
  · intro h
    obtain ⟨x, hb, hr⟩ := h
    exact ⟨x, d, hr, hb, rfl⟩

end

theorem readBytes_recognises (n : ℕ) :
    Recognises (readBytes n) (fun w => w.length = n) fixed := by
  intro s w t
  exact readBytes_eq_ok

theorem readU8_recognises : Recognises readU8 (fun _ => True) (fun x => fixed [x]) := by
  intro s a t
  rw [readU8_eq_ok, true_and]

theorem readU32_recognises :
    Recognises readU32 (fun _ => True) (fun x => fixed (u32Bytes x)) := by
  intro s a t
  rw [readU32_eq_ok, true_and]

theorem readU64_recognises :
    Recognises readU64 (fun _ => True) (fun x => fixed (u64Bytes x)) := by
  intro s a t
  rw [readU64_eq_ok, true_and]

theorem readI64_recognises :
    Recognises readI64 (fun _ => True) (fun x => fixed (i64Bytes x)) := by
  intro s a t
  rw [readI64_eq_ok, true_and]

/-- A format that stands at the front of a byte string is read from its start. -/
theorem reads_of_prefix {cs : List Cell} {data w : Bytes} (hw : Matches cs w)
    (hpre : w <+: data) : ∃ t, Reads (ByteCursor.new data data.length) cs t := by
  have hle := hpre.length_le
  exact ⟨⟨data, w.length, min data.length data.length, by omega, by omega⟩, w, hw, rfl, rfl,
    (Nat.zero_add _).symm, hpre⟩

/-- A reserved field reads as zeros exactly when it is the zero string of its width. -/
theorem reserved_iff {n : ℕ} {w : Bytes} :
    (w.length = n ∧ ¬ ∃ b ∈ w, b ≠ 0) ↔ w = List.replicate n 0 := by
  rw [List.eq_replicate_iff]
  simp

end Hurray.Descriptor
