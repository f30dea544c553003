import Hurray.Base.Rounding
import Hurray.File.Emission

/-!
What is submitted to the writer of a file, and the operation that it becomes. The
sizes and offsets of the code are words; here they are numbers, and a submission
is accepted when they fit.
-/
namespace Hurray.File
open Hurray.Base Hurray.Core Hurray.Descriptor Hurray.Stream

/-! ### Offsets as numbers -/

section Offsets
variable {a b r : UInt64} {n : ℕ}

theorem exists_word (h : n < UInt64.size) : ∃ w : UInt64, w.toNat = n :=
  ⟨_, UInt64.toNat_ofNat_of_lt' h⟩

theorem addU64_eq_ok : (Exec.addU64 a b : Result UInt64) = .ok r ↔ r.toNat = a.toNat + b.toNat := by
  unfold Exec.addU64
  split
  · next hfits =>
    have hsum : (a + b).toNat = a.toNat + b.toNat := by
      rw [UInt64.toNat_add]
      exact Nat.mod_eq_of_lt hfits
    rw [Except.ok.injEq, ← UInt64.toNat_inj, hsum, eq_comm]
  · next hfits =>
    have hr := r.toNat_lt_size
    simp only [Exec.panic_ne_ok, false_iff]
    omega

theorem addSize_eq_ok : addSize a n = .ok r ↔ r.toNat = a.toNat + n := by
  unfold addSize
  split
  · next hfits =>
    have hsum : (a + UInt64.ofNat n).toNat = a.toNat + n := by
      rw [UInt64.toNat_add, UInt64.toNat_ofNat_of_lt' (by omega)]
      exact Nat.mod_eq_of_lt hfits
    rw [Except.ok.injEq, ← UInt64.toNat_inj, hsum, eq_comm]
  · next hfits =>
    have hr := r.toNat_lt_size
    simp only [Exec.panic_ne_ok, false_iff]
    omega

theorem alignUp_eq_ok (hb : b ≠ 0) :
    alignUp a b = .ok r ↔ r.toNat = roundUp a.toNat b.toNat := by
  have hpos : 0 < b.toNat := Nat.pos_of_ne_zero fun h => hb (UInt64.toNat_inj.mp h)
  have hrem : a % b = 0 ↔ a.toNat % b.toNat = 0 := by
    rw [← UInt64.toNat_inj, UInt64.toNat_mod, UInt64.toNat_zero]
  have hlt := Nat.mod_lt a.toNat hpos
  unfold alignUp Exec.rem roundUp
  rw [if_neg hb, Exec.ok_bind]
  by_cases hzero : a % b = 0
  · rw [if_pos hzero, if_pos (hrem.mp hzero)]
    show Except.ok a = Except.ok r ↔ _
    rw [Except.ok.injEq, ← UInt64.toNat_inj, eq_comm]
  · have hsub : (b - a % b).toNat = b.toNat - a.toNat % b.toNat := by
      rw [UInt64.toNat_sub_of_le, UInt64.toNat_mod]
      rw [UInt64.le_iff_toNat_le, UInt64.toNat_mod]
      omega
    rw [if_neg hzero, if_neg (hrem.not.mp hzero), addU64_eq_ok, hsub]

theorem padTo_eq_ok (hb : b ≠ 0) : padTo a b = .ok r ↔
    roundUp a.toNat b.toNat < UInt64.size ∧ r.toNat = roundUp a.toNat b.toNat - a.toNat := by
  have hle := le_roundUp a.toNat b.toNat
  unfold padTo
  rw [Exec.bind_eq_ok]
  constructor
  · intro h
    obtain ⟨aligned, haligned, hr⟩ := h
    have hnat := (alignUp_eq_ok hb).mp haligned
    have hlt := aligned.toNat_lt_size
    cases hr
    refine ⟨by omega, ?_⟩
    rw [UInt64.toNat_sub_of_le, hnat]
    rw [UInt64.le_iff_toNat_le]
    omega
  · intro h
    obtain ⟨hfits, hr⟩ := h
    have haligned : (UInt64.ofNat (roundUp a.toNat b.toNat)).toNat = roundUp a.toNat b.toNat :=
      UInt64.toNat_ofNat_of_lt' hfits
    refine ⟨_, (alignUp_eq_ok hb).mpr haligned, ?_⟩
    show Except.ok _ = Except.ok r
    rw [Except.ok.injEq, ← UInt64.toNat_inj, hr, UInt64.toNat_sub_of_le, haligned]
    rw [UInt64.le_iff_toNat_le]
    omega

end Offsets

/-! ### The buffers of a tensor -/

section Region
variable (alignment : ℕ)

/-- The padding after a payload, when others follow. -/
def gap (rest : List Bytes) (cursor : ℕ) : ℕ :=
  if rest.isEmpty then 0 else roundUp cursor alignment - cursor

/-- Where the payloads end that start at an offset. -/
def regionEnd : List Bytes → ℕ → ℕ
  | [], cursor => cursor
  | payload :: rest, cursor =>
      regionEnd rest (cursor + payload.length + gap alignment rest (cursor + payload.length))

/-- The payloads from an offset on, with their padding. -/
def region : List Bytes → ℕ → Bytes
  | [], _ => []
  | payload :: rest, cursor =>
      let next := gap alignment rest (cursor + payload.length)
      payload ++ List.replicate next 0 ++ region rest (cursor + payload.length + next)

def regionSegs : List Bytes → ℕ → ℕ → List Seg
  | [], _, _ => []
  | payload :: rest, index, cursor =>
      let next := gap alignment rest (cursor + payload.length)
      .payload index :: FileWriterCore.zeros next ++
        regionSegs rest (index + 1) (cursor + payload.length + next)

variable {alignment} {payloads : List Bytes}

theorem add_gap_cons {next : Bytes} {rest : List Bytes} (cursor : ℕ) :
    cursor + gap alignment (next :: rest) cursor = roundUp cursor alignment := by
  have hle := le_roundUp cursor alignment
  show cursor + (roundUp cursor alignment - cursor) = _
  omega

theorem length_region (alignment : ℕ) (payloads : List Bytes) (cursor : ℕ) :
    cursor + (region alignment payloads cursor).length = regionEnd alignment payloads cursor := by
  induction payloads generalizing cursor with
  | nil => rfl
  | cons payload rest ih =>
    rw [regionEnd, ← ih, region]
    simp only [List.length_append, List.length_replicate]
    omega

theorem le_regionEnd (alignment : ℕ) (payloads : List Bytes) (cursor : ℕ) :
    cursor ≤ regionEnd alignment payloads cursor := by
  rw [← length_region]
  omega

theorem planPayloads_eq_ok {core : FileWriterCore} (halign : core.alignment ≠ 0) {index : ℕ}
    {cursor last : UInt64} {segs : List Seg} :
    core.planPayloads payloads index cursor = .ok (segs, last) ↔
      segs = regionSegs core.alignment.toNat payloads index cursor.toNat ∧
        last.toNat = regionEnd core.alignment.toNat payloads cursor.toNat := by
  induction payloads generalizing index cursor segs with
  | nil =>
    show Except.ok ([], cursor) = Except.ok (segs, last) ↔ _
    rw [Except.ok.injEq, Prod.mk.injEq, regionSegs, regionEnd, ← UInt64.toNat_inj]
    exact and_congr eq_comm eq_comm
  | cons payload rest ih =>
    have hpadding {after padding : UInt64} (hafter : after.toNat = cursor.toNat + payload.length) :
        (if rest.isEmpty then pure 0 else padTo after core.alignment) = .ok padding ↔
          (rest.isEmpty = false → roundUp after.toNat core.alignment.toNat < UInt64.size) ∧
            padding.toNat =
              gap core.alignment.toNat rest (cursor.toNat + payload.length) := by
      rw [gap, ← hafter]
      by_cases hrest : rest.isEmpty
      · rw [if_pos hrest, if_pos hrest]
        show Except.ok 0 = Except.ok padding ↔ _
        rw [Except.ok.injEq, ← UInt64.toNat_inj, UInt64.toNat_zero, eq_comm]
        simp [hrest]
      · rw [if_neg hrest, if_neg hrest, padTo_eq_ok halign]
        simp [hrest]
    rw [FileWriterCore.planPayloads]
    simp only [Exec.bind_eq_ok, addSize_eq_ok, addU64_eq_ok]
    constructor
    · intro h
      obtain ⟨after, hafter, padding, hpad, next, hnext, ⟨tail, last'⟩, htail, hlast⟩ := h
      cases hlast
      obtain ⟨-, hpad⟩ := (hpadding hafter).mp hpad
      obtain ⟨rfl, hend⟩ := ih.mp htail
      rw [regionSegs, regionEnd]
      rw [hnext, hafter, hpad] at hend ⊢
      exact ⟨rfl, hend⟩
    · intro h
      obtain ⟨rfl, hlast⟩ := h
      rw [regionEnd] at hlast
      have hle := le_regionEnd core.alignment.toNat rest
        (cursor.toNat + payload.length +
          gap core.alignment.toNat rest (cursor.toNat + payload.length))
      have hlt := last.toNat_lt_size
      obtain ⟨after, hafter⟩ := exists_word (n := cursor.toNat + payload.length) (by omega)
      obtain ⟨padding, hpad⟩ := exists_word
        (n := gap core.alignment.toNat rest (cursor.toNat + payload.length)) (by omega)
      obtain ⟨next, hnext⟩ := exists_word (n := cursor.toNat + payload.length +
        gap core.alignment.toNat rest (cursor.toNat + payload.length)) (by omega)
      refine ⟨after, hafter, padding, (hpadding hafter).mpr ⟨?_, hpad⟩, next, ?_, _,
        ih.mpr ⟨rfl, ?_⟩, ?_⟩
      · intro hrest
        have hround := le_roundUp (cursor.toNat + payload.length) core.alignment.toNat
        have hgap : gap core.alignment.toNat rest (cursor.toNat + payload.length) =
            roundUp (cursor.toNat + payload.length) core.alignment.toNat -
              (cursor.toNat + payload.length) := by
          rw [gap, hrest]
          rfl
        rw [hafter]
        omega
      · rw [hnext, hafter, hpad]
      · rw [hnext]
        exact hlast
      · rw [regionSegs, hpad, hnext]
        rfl

end Region

/-- The payloads are in the file one after another, each but the first at a multiple of the
alignment. -/
def Placed (file : Bytes) (alignment : ℕ) : List Bytes → ℕ → Prop
  | [], _ => True
  | payload :: rest, cursor =>
      payload <+: file.drop cursor ∧
        Placed file alignment rest (roundUp (cursor + payload.length) alignment)

section Placed
variable {file more : Bytes} {alignment cursor : ℕ} {payloads : List Bytes}

theorem prefix_drop_append {a b : Bytes} (h : a ++ b <+: file.drop cursor) :
    a <+: file.drop cursor ∧ b <+: file.drop (cursor + a.length) := by
  obtain ⟨rest, hrest⟩ := h
  refine ⟨⟨b ++ rest, by rw [← hrest, List.append_assoc]⟩, ⟨rest, ?_⟩⟩
  rw [← List.drop_drop, ← hrest, List.append_assoc, List.drop_left]

theorem prefix_drop_of_append {a : Bytes} (h : a <+: file.drop cursor)
    (hcursor : cursor ≤ file.length) : a <+: (file ++ more).drop cursor := by
  rw [List.drop_append_of_le_length hcursor]
  exact h.trans (List.prefix_append _ _)

theorem placed_of_region (h : region alignment payloads cursor <+: file.drop cursor) :
    Placed file alignment payloads cursor := by
  induction payloads generalizing cursor with
  | nil => trivial
  | cons payload rest ih =>
    rw [region] at h
    obtain ⟨hhead, hrest⟩ := prefix_drop_append h
    obtain ⟨hpayload, -⟩ := prefix_drop_append hhead
    refine ⟨hpayload, ?_⟩
    cases rest with
    | nil => trivial
    | cons next rest =>
      apply ih
      rw [List.length_append, List.length_replicate, ← Nat.add_assoc, add_gap_cons] at hrest
      exact hrest

end Placed

/-- One tensor of a file: its encoded descriptor and its buffers, from an offset on. -/
structure Placement where
  alignment : ℕ
  offset : ℕ
  encoded : Bytes
  buffers : List Bytes

namespace Placement
variable (p : Placement)

def descriptorEnd : ℕ := p.offset + p.encoded.length

/-- A tensor without buffers has nothing to align. -/
def dataStart : ℕ :=
  if p.buffers.isEmpty then p.descriptorEnd else roundUp p.descriptorEnd p.alignment

def dataEnd : ℕ := regionEnd p.alignment p.buffers p.dataStart

def itemEnd : ℕ := roundUp p.dataEnd 8

def plan : List Seg :=
  .owned :: FileWriterCore.zeros (p.dataStart - p.descriptorEnd) ++
    regionSegs p.alignment p.buffers 0 p.dataStart ++
    FileWriterCore.zeros (p.itemEnd - p.dataEnd)

def image : Bytes :=
  p.encoded ++ List.replicate (p.dataStart - p.descriptorEnd) 0 ++
    region p.alignment p.buffers p.dataStart ++ List.replicate (p.itemEnd - p.dataEnd) 0

def entry (name : String) : IndexEntry where
  name := name
  descriptorOffset := UInt64.ofNat p.offset
  descriptorLength := UInt32.ofNat p.encoded.length
  dataOffset := UInt64.ofNat p.dataStart
  dataLength := UInt64.ofNat (p.dataEnd - p.dataStart)

variable {p}

theorem descriptorEnd_le_dataStart : p.descriptorEnd ≤ p.dataStart := by
  unfold dataStart
  split
  · exact le_rfl
  · exact le_roundUp _ _

theorem dataStart_le_dataEnd : p.dataStart ≤ p.dataEnd := le_regionEnd _ _ _

theorem dataEnd_le_itemEnd : p.dataEnd ≤ p.itemEnd := le_roundUp _ _

theorem length_image : p.offset + p.image.length = p.itemEnd := by
  have hregion := length_region p.alignment p.buffers p.dataStart
  have hstart := p.descriptorEnd_le_dataStart
  have hend := p.dataEnd_le_itemEnd
  simp only [image, List.length_append, List.length_replicate]
  rw [dataEnd] at hend ⊢
  rw [descriptorEnd] at hstart ⊢
  omega

end Placement

/-- The entry says where the tensor is in the file. -/
structure EntryAt (file : Bytes) (alignment : ℕ) (t : FileTensor) (e : IndexEntry) : Prop where
  name : e.name = t.name
  descriptor : ∃ encoded, encode t.descriptor = .ok encoded ∧
    e.descriptorLength.toNat = encoded.length ∧ encoded <+: file.drop e.descriptorOffset.toNat
  data : Placed file alignment t.buffers e.dataOffset.toNat
  dataLength : e.dataOffset.toNat + e.dataLength.toNat =
    regionEnd alignment t.buffers e.dataOffset.toNat
  within : e.dataOffset.toNat + e.dataLength.toNat ≤ file.length

theorem entryAt_of_image {file : Bytes} {p : Placement} {name : String} {d : TensorDescriptor}
    (henc : encode d = .ok p.encoded) (hfits : p.itemEnd < UInt64.size)
    (h : p.image <+: file.drop p.offset) (hoffset : p.offset ≤ file.length) :
    EntryAt file p.alignment ⟨name, d, p.buffers⟩ (p.entry name) := by
  have hstart := p.descriptorEnd_le_dataStart
  have hregion := p.dataStart_le_dataEnd
  have hend := p.dataEnd_le_itemEnd
  have hlen : p.descriptorEnd = p.offset + p.encoded.length := rfl
  have hdata : (p.entry name).dataOffset.toNat = p.dataStart :=
    UInt64.toNat_ofNat_of_lt' (by omega)
  have hlength : (p.entry name).dataLength.toNat = p.dataEnd - p.dataStart :=
    UInt64.toNat_ofNat_of_lt' (by omega)
  have hdescriptor : (p.entry name).descriptorOffset.toNat = p.offset :=
    UInt64.toNat_ofNat_of_lt' (by omega)
  have himage := h.length_le
  have hitem := p.length_image
  rw [List.length_drop] at himage
  rw [Placement.image] at h
  obtain ⟨h, -⟩ := prefix_drop_append h
  obtain ⟨h, hbuffers⟩ := prefix_drop_append h
  obtain ⟨hencoded, -⟩ := prefix_drop_append h
  refine ⟨rfl, ⟨p.encoded, henc, ?_, ?_⟩, ?_, ?_, ?_⟩
  · exact UInt32.toNat_ofNat_of_lt' (encode_length_lt henc)
  · rw [hdescriptor]
    exact hencoded
  · rw [hdata]
    apply placed_of_region
    have hsum : p.offset + (p.encoded ++ List.replicate (p.dataStart - p.descriptorEnd) 0).length =
        p.dataStart := by
      rw [List.length_append, List.length_replicate]
      omega
    rw [hsum] at hbuffers
    exact hbuffers
  · rw [hdata, hlength]
    show _ = p.dataEnd
    omega
  · rw [hdata, hlength]
    omega

/-- What is in a file is still there when the file has grown. -/
theorem Placed.append {file more : Bytes} {alignment cursor : ℕ} {payloads : List Bytes}
    (h : Placed file alignment payloads cursor)
    (hend : regionEnd alignment payloads cursor ≤ file.length) :
    Placed (file ++ more) alignment payloads cursor := by
  induction payloads generalizing cursor with
  | nil => trivial
  | cons payload rest ih =>
    have hle := le_regionEnd alignment (payload :: rest) cursor
    refine ⟨prefix_drop_of_append h.1 (hle.trans hend), ?_⟩
    cases rest with
    | nil => trivial
    | cons next rest =>
      apply ih h.2
      rw [regionEnd, add_gap_cons] at hend
      exact hend

theorem EntryAt.append {file more : Bytes} {alignment : ℕ} {t : FileTensor} {e : IndexEntry}
    (h : EntryAt file alignment t e) : EntryAt (file ++ more) alignment t e := by
  obtain ⟨encoded, henc, hlen, hpre⟩ := h.descriptor
  have hwithin := h.within
  refine ⟨h.name, ⟨encoded, henc, hlen, ?_⟩, h.data.append (h.dataLength ▸ hwithin),
    h.dataLength, ?_⟩
  · refine prefix_drop_of_append hpre ?_
    by_contra hbeyond
    rw [List.drop_eq_nil_of_le (by omega)] at hpre
    exact encode_ne_nil henc (List.prefix_nil.mp hpre)
  · rw [List.length_append]
    omega

/-! ### Submissions -/

inductive FileSubmission where
  | header
  | tensor (name : String) (descriptor : TensorDescriptor) (buffers : List Bytes)
  | finish (kv : List (String × KvValue))

namespace FileWriterCore

/-- The three ways to submit an item, as one. -/
def submit (crc32c : Bytes → UInt32) (core : FileWriterCore) :
    FileSubmission → Result FileWriteOp
  | .header => core.header
  | .tensor name descriptor buffers => core.tensor name descriptor buffers
  | .finish kv => core.finish crc32c kv

/-- An operation of which nothing is out. -/
def start (core : FileWriterCore) (plan : List Seg) (bytes : Bytes) (payloads : List Bytes)
    (commit : Commit) : FileWriteOp where
  core := core
  plan := plan
  bytes := bytes
  payloads := payloads
  cursor := 0
  written := 0
  emittedBytes := 0
  commit := some commit
  failed := false

/-- The core takes tensors and the footer. -/
structure Open (core : FileWriterCore) : Prop where
  retired : core.retired = none
  finished : core.finished = false
  headerWritten : core.headerWritten = true

structure NameFree (core : FileWriterCore) (name : String) : Prop where
  nonempty : (utf8Bytes name).length ≠ 0
  length : (utf8Bytes name).length ≤ 65535
  fresh : name ∉ core.seenNames

/-- Where the core puts a tensor. -/
def place (core : FileWriterCore) (encoded : Bytes) (buffers : List Bytes) : Placement :=
  ⟨core.alignment.toNat, core.offset.toNat, encoded, buffers⟩

variable {core : FileWriterCore} {op : FileWriteOp} {name : String} {d : TensorDescriptor}
  {buffers : List Bytes} {u : Unit}

theorem retired_eq_none : core.retired = none ↔ core.unusable = none ∧ core.torn = false := by
  unfold retired
  cases core.unusable <;> cases core.torn <;> simp

theorem checkRetired_eq_ok : core.checkRetired = .ok u ↔ core.retired = none := by
  unfold checkRetired
  cases core.retired with
  | none => simp [pure, Except.pure]
  | some reason => simp

theorem checkName_eq_ok : core.checkName name = .ok u ↔ core.NameFree name := by
  simp only [checkName, Exec.bind_eq_ok, Exec.reject_eq_ok, exists_const, Nat.not_lt]
  constructor
  · intro h
    obtain ⟨hempty, hlong, hseen⟩ := h
    exact ⟨hempty, hlong, hseen⟩
  · intro h
    exact ⟨h.nonempty, h.length, h.fresh⟩

theorem checkBuffers_eq_ok : checkBuffers d buffers = .ok u ↔
    d.buffers.map (fun h => h.byteSize.toNat) = buffers.map List.length := by
  have hlist (handles : List BufferHandle) (k : ℕ) (hlen : buffers.length = handles.length) :
      (∀ p ∈ (handles.zip buffers).zipIdx k, p.1.1.byteSize.toNat = p.1.2.length) ↔
        handles.map (fun h => h.byteSize.toNat) = buffers.map List.length := by
    induction handles generalizing buffers k with
    | nil =>
      obtain rfl := List.length_eq_zero_iff.mp hlen
      simp
    | cons h handles ih =>
      cases buffers with
      | nil => cases hlen
      | cons b buffers =>
        rw [List.zip_cons_cons, List.zipIdx_cons, List.forall_mem_cons,
          ih (k := k + 1) (by simpa using hlen), List.map_cons, List.map_cons, List.cons.injEq]
  unfold checkBuffers
  simp only [Exec.bind_eq_ok, Exec.forM_eq_ok, Exec.reject_eq_ok, exists_const, not_not]
  constructor
  · intro h
    obtain ⟨hlen, h⟩ := h
    exact (hlist d.buffers 0 hlen).mp h
  · intro hsizes
    have hlen : buffers.length = d.buffers.length := by simpa using (congrArg List.length hsizes).symm
    exact ⟨hlen, (hlist d.buffers 0 hlen).mpr hsizes⟩

theorem header_eq_ok : core.header = .ok op ↔ core.retired = none ∧ core.finished = false ∧
    core.headerWritten = false ∧ op = core.start [.owned] core.encodeHeader [] .header := by
  simp only [header, Exec.bind_eq_ok, checkRetired_eq_ok, Exec.reject_eq_ok, exists_const, pure,
    Except.pure, Except.ok.injEq, not_or, Bool.not_eq_true, and_assoc, start, @eq_comm _ _ op]

theorem checkOpen_eq_ok : (core.checkRetired = .ok () ∧ ¬ core.finished = true ∧
    ¬ core.headerWritten = false) ↔ core.Open := by
  rw [checkRetired_eq_ok, Bool.not_eq_true, Bool.not_eq_false]
  constructor
  · intro h
    obtain ⟨hretired, hfinished, hheader⟩ := h
    exact ⟨hretired, hfinished, hheader⟩
  · intro h
    exact ⟨h.retired, h.finished, h.headerWritten⟩

theorem planTensor_eq_ok (halign : core.alignment ≠ 0) {encoded : Bytes}
    (hlen : encoded.length < UInt32.size) : core.planTensor name encoded buffers = .ok op ↔
      (core.place encoded buffers).itemEnd < UInt64.size ∧
        op = core.start (core.place encoded buffers).plan encoded buffers
          (.tensor ((core.place encoded buffers).entry name)) := by
  have hstart := (core.place encoded buffers).descriptorEnd_le_dataStart
  have hregion := (core.place encoded buffers).dataStart_le_dataEnd
  have hend := (core.place encoded buffers).dataEnd_le_itemEnd
  have hlen' : (UInt32.ofNat encoded.length).toUInt64.toNat = encoded.length := by
    rw [UInt32.toNat_toUInt64, UInt32.toNat_ofNat_of_lt' hlen]
  have hdata {descriptorEnd dataOffset : UInt64}
      (h : descriptorEnd.toNat = (core.place encoded buffers).descriptorEnd) :
      (if buffers.isEmpty then pure descriptorEnd else alignUp descriptorEnd core.alignment) =
        .ok dataOffset ↔ dataOffset.toNat = (core.place encoded buffers).dataStart := by
    rw [Placement.dataStart, ← h]
    show _ ↔ _ = if buffers.isEmpty then _ else _
    by_cases hempty : buffers.isEmpty
    · rw [if_pos hempty, if_pos hempty]
      show Except.ok descriptorEnd = Except.ok dataOffset ↔ _
      rw [Except.ok.injEq, ← UInt64.toNat_inj, eq_comm]
    · rw [if_neg hempty, if_neg hempty]
      exact alignUp_eq_ok halign
  have hop {descriptorEnd dataOffset cursor padding : UInt64}
      (h₁ : descriptorEnd.toNat = (core.place encoded buffers).descriptorEnd)
      (h₂ : dataOffset.toNat = (core.place encoded buffers).dataStart)
      (h₃ : cursor.toNat = (core.place encoded buffers).dataEnd)
      (h₄ : padding.toNat = (core.place encoded buffers).itemEnd -
        (core.place encoded buffers).dataEnd) :
      ({ core, bytes := encoded, payloads := buffers, cursor := 0, written := 0, emittedBytes := 0,
         plan := .owned :: zeros (dataOffset - descriptorEnd).toNat ++
           regionSegs core.alignment.toNat buffers 0 dataOffset.toNat ++ zeros padding.toNat,
         commit := some (.tensor ⟨name, core.offset, UInt32.ofNat encoded.length, dataOffset,
           cursor - dataOffset⟩),
         failed := false } : FileWriteOp) =
        core.start (core.place encoded buffers).plan encoded buffers
          (.tensor ((core.place encoded buffers).entry name)) := by
    have hsub : (dataOffset - descriptorEnd).toNat = (core.place encoded buffers).dataStart -
        (core.place encoded buffers).descriptorEnd := by
      rw [UInt64.toNat_sub_of_le _ _ (by rw [UInt64.le_iff_toNat_le]; omega), h₁, h₂]
    have hdataOffset : dataOffset = UInt64.ofNat (core.place encoded buffers).dataStart := by
      rw [← h₂, UInt64.ofNat_toNat]
    have hdataLength : cursor - dataOffset = UInt64.ofNat ((core.place encoded buffers).dataEnd -
        (core.place encoded buffers).dataStart) := by
      rw [← UInt64.ofNat_toNat (x := cursor - dataOffset),
        UInt64.toNat_sub_of_le _ _ (by rw [UInt64.le_iff_toNat_le]; omega), h₂, h₃]
    have hoffset : core.offset = UInt64.ofNat core.offset.toNat := UInt64.ofNat_toNat.symm
    rw [hsub, h₂, h₄, hdataLength, hdataOffset]
    unfold start Placement.entry Placement.plan
    rw [place, ← hoffset]
  unfold planTensor
  simp only [Exec.bind_eq_ok, addU64_eq_ok, hlen', padTo_eq_ok (show (8 : UInt64) ≠ 0 by decide)]
  constructor
  · intro h
    obtain ⟨descriptorEnd, h₁, dataOffset, h₂, ⟨segs, cursor⟩, h₃, padding, ⟨hfits, h₄⟩, hpure⟩ := h
    replace h₂ := (hdata h₁).mp h₂
    obtain ⟨rfl, hcursor⟩ := (planPayloads_eq_ok halign).mp h₃
    replace h₃ : cursor.toNat = (core.place encoded buffers).dataEnd := by
      rw [hcursor, h₂]
      rfl
    cases hpure
    rw [h₃] at hfits h₄
    exact ⟨hfits, hop h₁ h₂ h₃ h₄⟩
  · intro h
    obtain ⟨hfits, rfl⟩ := h
    obtain ⟨descriptorEnd, h₁⟩ := exists_word
      (n := (core.place encoded buffers).descriptorEnd) (by omega)
    obtain ⟨dataOffset, h₂⟩ := exists_word (n := (core.place encoded buffers).dataStart) (by omega)
    obtain ⟨cursor, h₃⟩ := exists_word (n := (core.place encoded buffers).dataEnd) (by omega)
    obtain ⟨padding, h₄⟩ := exists_word (n := (core.place encoded buffers).itemEnd -
      (core.place encoded buffers).dataEnd) (by omega)
    refine ⟨descriptorEnd, h₁, dataOffset, (hdata h₁).mpr h₂, (_, cursor),
      (planPayloads_eq_ok halign).mpr ⟨rfl, ?_⟩, padding, ⟨?_, ?_⟩, ?_⟩
    · rw [h₂]
      exact h₃
    · rw [h₃]
      exact hfits
    · rw [h₃]
      exact h₄
    · exact congrArg Except.ok (hop h₁ h₂ h₃ h₄)

/-- A tensor is accepted under a free name, with payloads of the declared sizes, as long as its
end is an offset. -/
theorem tensor_eq_ok (halign : core.alignment ≠ 0) : core.tensor name d buffers = .ok op ↔
    core.Open ∧ core.NameFree name ∧
    d.buffers.map (fun h => h.byteSize.toNat) = buffers.map List.length ∧
    ∃ encoded, encode d = .ok encoded ∧ (core.place encoded buffers).itemEnd < UInt64.size ∧
      op = core.start (core.place encoded buffers).plan encoded buffers
        (.tensor ((core.place encoded buffers).entry name)) := by
  simp only [tensor, Exec.bind_eq_ok, Exec.mapError_eq_ok, Exec.reject_eq_ok, exists_const,
    checkName_eq_ok, checkBuffers_eq_ok, ← checkOpen_eq_ok, checkRetired_eq_ok, and_assoc]
  refine and_congr_right fun _ => and_congr_right fun _ => and_congr_right fun _ =>
    and_congr_right fun _ => and_congr_right fun _ => exists_congr fun encoded =>
    and_congr_right fun henc => ?_
  exact planTensor_eq_ok halign (encode_length_lt henc)

theorem planKv_eq_ok {kv : List (String × KvValue)} {footer : Bytes} {kvOffset : UInt64}
    {kvLength : UInt32} : core.planKv kv = .ok (footer, kvOffset, kvLength) ↔
      (kv = [] ∧ footer = [] ∧ kvOffset = 0 ∧ kvLength = 0) ∨
      (kv ≠ [] ∧ ∃ kvBytes, encodeKvSection kv = .ok kvBytes ∧
        roundUp (core.offset.toNat + kvBytes.length) 8 < UInt64.size ∧
        footer = kvBytes ++ List.replicate (roundUp (core.offset.toNat + kvBytes.length) 8 -
          (core.offset.toNat + kvBytes.length)) 0 ∧
        kvOffset = core.offset ∧ kvLength = UInt32.ofNat kvBytes.length) := by
  unfold planKv
  by_cases hkv : kv = []
  · subst hkv
    show Except.ok ([], 0, 0) = Except.ok (footer, kvOffset, kvLength) ↔ _
    simp [@eq_comm _ _ footer, @eq_comm _ _ kvOffset, @eq_comm _ _ kvLength]
  · rw [if_neg (by simpa using hkv)]
    simp only [Exec.bind_eq_ok, addSize_eq_ok, padTo_eq_ok (show (8 : UInt64) ≠ 0 by decide), hkv,
      false_and, false_or, ne_eq, not_false_eq_true, true_and]
    refine exists_congr fun kvBytes => and_congr_right fun _ => ?_
    constructor
    · intro h
      obtain ⟨kvEnd, hend, padding, ⟨hfits, hpad⟩, hpure⟩ := h
      rw [hend] at hfits hpad
      cases hpure
      rw [hpad]
      exact ⟨hfits, rfl, rfl, rfl⟩
    · intro h
      obtain ⟨hfits, rfl, rfl, rfl⟩ := h
      have hle := le_roundUp (core.offset.toNat + kvBytes.length) 8
      obtain ⟨kvEnd, hend⟩ := exists_word (n := core.offset.toNat + kvBytes.length) (by omega)
      obtain ⟨padding, hpad⟩ := exists_word (n := roundUp (core.offset.toNat + kvBytes.length) 8 -
        (core.offset.toNat + kvBytes.length)) (by omega)
      refine ⟨kvEnd, hend, padding, ?_, ?_⟩
      · rw [hend]
        exact ⟨hfits, hpad⟩
      · rw [hpad]
        rfl

theorem finish_eq_ok {crc32c : Bytes → UInt32} {kv : List (String × KvValue)} :
    core.finish crc32c kv = .ok op ↔ core.Open ∧ validateKvKeys kv = .ok () ∧
      ∃ footer kvOffset kvLength indexOffset, core.planKv kv = .ok (footer, kvOffset, kvLength) ∧
        indexOffset.toNat = core.offset.toNat + footer.length ∧
        op = core.start [.owned] (footer ++ encodeIndexSection core.indexOrder ++
          encodeTrailer indexOffset
            (UInt64.ofNat (encodeIndexSection core.indexOrder).length) kvOffset kvLength
            (crc32c (encodeIndexSection core.indexOrder))) [] .footer := by
  simp only [finish, Exec.bind_eq_ok, Exec.reject_eq_ok, exists_const, ← checkOpen_eq_ok,
    checkRetired_eq_ok, and_assoc, addSize_eq_ok]
  refine and_congr_right fun _ => and_congr_right fun _ => and_congr_right fun _ => ?_
  constructor
  · intro h
    obtain ⟨_, hkeys, ⟨footer, kvOffset, kvLength⟩, hkv, indexOffset, hoffset, hpure⟩ := h
    cases hpure
    exact ⟨hkeys, footer, kvOffset, kvLength, indexOffset, hkv, hoffset, rfl⟩
  · intro h
    obtain ⟨hkeys, footer, kvOffset, kvLength, indexOffset, hkv, hoffset, rfl⟩ := h
    exact ⟨(), hkeys, (footer, kvOffset, kvLength), hkv, indexOffset, hoffset, rfl⟩

/-! ### The bytes of an operation -/

theorem image_start_owned {bytes : Bytes} {commit : Commit} :
    (core.start [.owned] bytes [] commit).image = bytes := by
  simp [FileWriteOp.image, FileWriteOp.segBytes, start]

theorem flatMap_zeros (op : FileWriteOp) (n : ℕ) :
    (zeros n).flatMap op.segBytes = List.replicate n 0 := by
  unfold zeros
  split
  · rw [List.flatMap_singleton]
    rfl
  · next h =>
    rw [Nat.eq_zero_of_not_pos h]
    rfl

theorem flatMap_regionSegs (op : FileWriteOp) {alignment index cursor : ℕ}
    (h : op.payloads.drop index = buffers) :
    (regionSegs alignment buffers index cursor).flatMap op.segBytes =
      region alignment buffers cursor := by
  induction buffers generalizing index cursor with
  | nil => rfl
  | cons payload rest ih =>
    have hget : op.payloads[index]? = some payload := by
      rw [← List.head?_drop, h, List.head?_cons]
    have hrest : op.payloads.drop (index + 1) = rest := by
      rw [← List.tail_drop, h, List.tail_cons]
    rw [regionSegs, List.cons_append, List.flatMap_cons, List.flatMap_append, flatMap_zeros,
      ih hrest, region, FileWriteOp.segBytes, hget, Option.getD_some, List.append_assoc]

theorem image_start_plan (p : Placement) (commit : Commit) :
    (core.start p.plan p.encoded p.buffers commit).image = p.image := by
  generalize hop : core.start p.plan p.encoded p.buffers commit = op
  have hplan : op.plan = p.plan := by rw [← hop]; rfl
  have hbytes : op.segBytes .owned = p.encoded := by rw [← hop]; rfl
  have hpayloads : op.payloads.drop 0 = p.buffers := by rw [← hop]; rfl
  rw [FileWriteOp.image, hplan, Placement.plan, List.flatMap_append, List.cons_append,
    List.flatMap_cons, List.flatMap_append, flatMap_zeros, flatMap_zeros,
    flatMap_regionSegs op hpayloads, hbytes, Placement.image, ← List.append_assoc]

/-- The first step offers the bytes of the item's own. -/
theorem step_start {plan : List Seg} {bytes : Bytes} {payloads : List Bytes} {commit : Commit}
    (hu : core.unusable = none) (hbytes : bytes ≠ []) :
    (core.start (.owned :: plan) bytes payloads commit).step =
      (.ok (.output bytes.length), core.start (.owned :: plan) bytes payloads commit) := by
  have hoffered : (core.start (.owned :: plan) bytes payloads commit).offered = bytes.length := rfl
  rw [FileWriteOp.step_eq_stepLoop hu rfl, FileWriteOp.stepLoop_of_some rfl, hoffered,
    if_neg fun h => hbytes (List.length_eq_zero_iff.mp h)]

/-- An accepted item starts with bytes of its own, over a core that is not retired. -/
theorem submit_eq_start (halign : core.alignment ≠ 0) {crc32c : Bytes → UInt32}
    {item : FileSubmission} (h : core.submit crc32c item = .ok op) : core.retired = none ∧
      ∃ plan bytes payloads commit, bytes ≠ [] ∧
        op = core.start (.owned :: plan) bytes payloads commit := by
  cases item with
  | header =>
    obtain ⟨hretired, -, -, rfl⟩ := header_eq_ok.mp h
    exact ⟨hretired, _, _, _, _, by simp [encodeHeader, FILE_MAGIC], rfl⟩
  | tensor name d buffers =>
    obtain ⟨hopen, -, -, encoded, henc, -, rfl⟩ := (tensor_eq_ok halign).mp h
    exact ⟨hopen.retired, _, _, _, _, encode_ne_nil henc, rfl⟩
  | finish kv =>
    obtain ⟨hopen, -, footer, kvOffset, kvLength, indexOffset, -, -, rfl⟩ := finish_eq_ok.mp h
    exact ⟨hopen.retired, _, _, _, _, by simp [encodeTrailer, TRAILER_MAGIC], rfl⟩

end FileWriterCore
end Hurray.File
