import Hurray.Descriptor.LayoutFormat
import Hurray.Descriptor.Tensor

/-!
The wire format of a whole descriptor. `decode_eq_ok_iff` says what the decoder
accepts: the descriptors that satisfy every check, each where its format stands
at the front of the input. The codec theorems are all read off it.
-/
namespace Hurray.Descriptor
open Hurray.Base Hurray.Core

def bufferTableCells (buffers : List BufferHandle) : List Cell :=
  fixed [UInt8.ofNat buffers.length] ++ buffers.flatMap fun h => fixed (encodeBufferHandle h)

/-- The format of the fields after the length. -/
def fieldCells (d : TensorDescriptor) : List Cell :=
  fixed (u32Bytes d.flags) ++ fixed [d.elementType.tag] ++ fixed [d.layout.tag] ++
    fixed (u32Bytes (UInt32.ofNat d.shape.rank)) ++ fixed (d.shape.dims.flatMap u64Bytes) ++
    fixed (u64Bytes d.byteOffset) ++ layoutCells d.layout ++ bufferTableCells d.buffers ++
    d.quantization.elim [] (fun q => fixed (encodeQuantization q)) ++
    d.shard.elim [] ShardDescriptor.cells ++ d.statistics.elim [] Statistics.cells ++
    d.extensionType.elim [] ExtensionTypeDescriptor.cells ++
    d.compositeMember.elim [] CompositeMemberDescriptor.cells

def prefixBytes (versionMajor versionMinor : UInt8) (length : UInt32) : Bytes :=
  MAGIC ++ [versionMajor, versionMinor] ++ u32Bytes length

/-- The format of a descriptor whose length field holds `length`. -/
def descriptorCells (d : TensorDescriptor) (length : UInt32) : List Cell :=
  fixed (prefixBytes d.versionMajor d.versionMinor length) ++ fieldCells d

@[simp] theorem length_prefixBytes (major minor : UInt8) (length : UInt32) :
    (prefixBytes major minor length).length = 10 := by simp [prefixBytes, MAGIC]

theorem length_descriptorCells (d : TensorDescriptor) (length : UInt32) :
    (descriptorCells d length).length = 10 + (fieldCells d).length := by
  simp [descriptorCells]

theorem ten_le_fieldCells (d : TensorDescriptor) : 10 ≤ (fieldCells d).length := by
  simp only [fieldCells, List.length_append, length_fixed, length_u32Bytes, List.length_singleton]
  omega

/-- The checks of the section readers. -/
structure FieldsValid (d : TensorDescriptor) : Prop where
  wellTagged : d.elementType.WellTagged
  layout : LayoutFits d.shape.rank d.layout
  extension : isExtension d.elementType = d.extensionType.isSome
  bufferCount : d.buffers.length ≤ 255
  buffers : d.buffers = [] → d.layout.isVirtual = true
  quantization : ∀ q, d.quantization = some q → q.length < UInt32.size
  shard : ∀ s, d.shard = some s → s.FitsShape d.shape
  statistics : ∀ s, d.statistics = some s → s.MaskValid
  extensionType : ∀ e, d.extensionType = some e → e.WellPacked

/-- Everything the decoder checks. -/
structure Decodable (d : TensorDescriptor) : Prop where
  version : d.versionMajor ≤ DESCRIPTOR_VERSION_MAJOR
  fields : FieldsValid d
  crossSection : d.CrossSection
  member : d.compositeMember.isSome → d.layout.isVirtual = false

section Sections
variable {s t : ByteCursor}

theorem decodeHeader_eq_ok {h : FixedHeader} : decodeHeader s = .ok (h, t) ↔
    (h.flags &&& DescriptorFlags.RESERVED_FLAGS_MASK = 0 ∧ h.elementType.WellTagged ∧
      h.rank.toNat ≤ MAX_RANK) ∧ Reads s (fixed (u32Bytes h.flags) ++ (fixed [h.elementType.tag] ++
        (fixed [h.layoutTag] ++ fixed (u32Bytes h.rank)))) t := by
  simp only [decodeHeader, Reader.bind_eq_ok, readU32_eq_ok, readU8_eq_ok, Reader.reject_eq_ok,
    Reader.lift_eq_ok, ElementType.fromTag_eq_ok, Reader.pure_eq_ok, not_not, not_lt, gt_iff_lt,
    reads_append]
  constructor
  · rintro ⟨flags, _, r₁, _, m₁, ⟨hflags, rfl⟩, tag, _, r₂, ty, m₂, ⟨⟨hty, rfl⟩, rfl⟩, layoutTag,
      m₃, r₃, rank, _, r₄, _, m₄, ⟨hrank, rfl⟩, rfl, rfl⟩
    exact ⟨⟨hflags, hty, hrank⟩, m₁, r₁, m₂, r₂, m₃, r₃, r₄⟩
  · intro h
    obtain ⟨⟨hflags, hty, hrank⟩, m₁, r₁, m₂, r₂, m₃, r₃, r₄⟩ := h
    exact ⟨_, m₁, r₁, (), m₁, ⟨hflags, rfl⟩, _, m₂, r₂, _, m₂, ⟨⟨hty, rfl⟩, rfl⟩, _, m₃, r₃, _, t,
      r₄, (), t, ⟨hrank, rfl⟩, rfl, rfl⟩

theorem decodeShape_eq_ok {rank : UInt32} {shape : Shape} : decodeShape rank s = .ok (shape, t) ↔
    shape.rank = rank.toNat ∧ Reads s (fixed (shape.dims.flatMap u64Bytes)) t := by
  simp only [decodeShape, Reader.bind_eq_ok, readDims_recognises _ _, Reader.lift_eq_ok,
    Shape.new_eq_ok]
  constructor
  · intro h
    obtain ⟨_, _, ⟨hlen, hr⟩, rfl, rfl⟩ := h
    exact ⟨hlen, hr⟩
  · intro h
    obtain ⟨hlen, hr⟩ := h
    exact ⟨_, t, ⟨hlen, hr⟩, rfl, rfl⟩

theorem decodeBufferHandle_recognises :
    Recognises decodeBufferHandle (fun _ => True) (fun h => fixed (encodeBufferHandle h)) := by
  intro s h t
  have hbytes (h : BufferHandle) : encodeBufferHandle h = u64Bytes h.byteSize ++
      (u32Bytes h.alignment ++ ([h.deviceTag.toByte] ++ ([h.syncMode.toByte] ++
        ([h.memoryClass.toByte] ++ [0])))) := by
    simp [encodeBufferHandle]
  simp only [decodeBufferHandle, Reader.bind_eq_ok, readU64_eq_ok, readU32_eq_ok, readU8_eq_ok,
    Reader.reject_eq_ok, Reader.lift_eq_ok, DeviceTag.fromByte_eq_ok, SyncMode.fromByte_eq_ok,
    MemoryClass.fromByte_eq_ok, BufferHandle.withMemoryClass_eq_ok, not_not, hbytes,
    fixed_append, reads_append, true_and]
  constructor
  · rintro ⟨_, m₁, r₁, _, m₂, r₂, _, m₃, r₃, _, m₄, r₄, _, m₅, r₅, _, _, r₆, _, _, ⟨rfl, rfl⟩,
      _, _, ⟨rfl, rfl⟩, _, _, ⟨rfl, rfl⟩, _, _, ⟨rfl, rfl⟩, ⟨rfl, rfl, rfl, rfl, rfl⟩, rfl⟩
    exact ⟨m₁, r₁, m₂, r₂, m₃, r₃, m₄, r₄, m₅, r₅, r₆⟩
  · intro h
    obtain ⟨m₁, r₁, m₂, r₂, m₃, r₃, m₄, r₄, m₅, r₅, r₆⟩ := h
    exact ⟨_, m₁, r₁, _, m₂, r₂, _, m₃, r₃, _, m₄, r₄, _, m₅, r₅, _, t, r₆, (), t, ⟨rfl, rfl⟩,
      _, t, ⟨rfl, rfl⟩, _, t, ⟨rfl, rfl⟩, _, t, ⟨rfl, rfl⟩, ⟨rfl, rfl, rfl, rfl, rfl⟩, rfl⟩

private theorem toNat_ofNat_byte {n : ℕ} (h : n ≤ 255) : (UInt8.ofNat n).toNat = n :=
  UInt8.toNat_ofNat_of_lt' (show n < 256 by omega)

theorem decodeBufferTable_eq_ok {virtual : Bool} {buffers : List BufferHandle} :
    decodeBufferTable virtual s = .ok (buffers, t) ↔
      (buffers.length ≤ 255 ∧ (buffers = [] → virtual = true)) ∧
        Reads s (bufferTableCells buffers) t := by
  simp only [decodeBufferTable, Reader.bind_eq_ok, readU8_eq_ok, Reader.reject_eq_ok,
    Recognises.many decodeBufferHandle_recognises _ _, bufferTableCells, reads_append,
    implies_true, and_true]
  constructor
  · intro h
    obtain ⟨count, _, r₁, _, m₁, ⟨hcount, rfl⟩, hlen, r₂⟩ := h
    have hlt := count.toNat_lt
    have hofNat : UInt8.ofNat buffers.length = count := by rw [hlen, UInt8.ofNat_toNat]
    refine ⟨⟨by omega, ?_⟩, m₁, by rwa [hofNat], r₂⟩
    rintro rfl
    have hzero : count = 0 := UInt8.toNat_inj.mp hlen.symm
    simpa [hzero] using hcount
  · intro h
    obtain ⟨⟨hlen, hnil⟩, m₁, r₁, r₂⟩ := h
    refine ⟨_, m₁, r₁, (), m₁, ⟨?_, rfl⟩, (toNat_ofNat_byte hlen).symm, r₂⟩
    intro h
    obtain ⟨hzero, hvirtual⟩ := h
    have hlen0 : buffers.length = 0 := by rw [← toNat_ofNat_byte hlen, hzero]; rfl
    rw [hnil (List.length_eq_zero_iff.mp hlen0)] at hvirtual
    cases hvirtual

theorem decodeBufferTable_recognises {virtual : Bool} : Recognises (decodeBufferTable virtual)
    (fun buffers => buffers.length ≤ 255 ∧ (buffers = [] → virtual = true)) bufferTableCells :=
  fun _ _ _ => decodeBufferTable_eq_ok

theorem decodeQuantization_recognises : Recognises decodeQuantization
    (fun q => q.length < UInt32.size) (fun q => fixed (encodeQuantization q)) := by
  intro s q t
  simp only [decodeQuantization, Reader.bind_eq_ok, readU32_eq_ok, readBytes_eq_ok,
    encodeQuantization, fixed_append, reads_append]
  constructor
  · intro h
    obtain ⟨len, m, r₁, hlen, r₂⟩ := h
    refine ⟨by rw [hlen]; exact len.toNat_lt, m, ?_, r₂⟩
    rwa [hlen, UInt32.ofNat_toNat]
  · intro h
    obtain ⟨hlt, m, r₁, r₂⟩ := h
    exact ⟨_, m, r₁, (UInt32.toNat_ofNat_of_lt' hlt).symm, r₂⟩

theorem decodeShard_recognises {rank : UInt32} {shape : Shape} (hrank : shape.rank = rank.toNat) :
    Recognises (decodeShard rank shape) (fun x => x.FitsShape shape) ShardDescriptor.cells := by
  intro s x t
  simp only [decodeShard, Reader.bind_eq_ok, ShardDescriptor.decode_recognises _ _,
    Reader.lift_eq_ok, Reader.pure_eq_ok, ← hrank]
  constructor
  · intro h
    obtain ⟨_, _, ⟨⟨hp, ho⟩, hr⟩, _, _, ⟨hv, rfl⟩, rfl, rfl⟩ := h
    exact ⟨⟨hp, ho, hv⟩, hr⟩
  · intro h
    obtain ⟨⟨hp, ho, hv⟩, hr⟩ := h
    exact ⟨x, t, ⟨⟨hp, ho⟩, hr⟩, (), t, ⟨hv, rfl⟩, rfl, rfl⟩

end Sections

/-- Reading the fields and writing them are inverse on the descriptors that pass the checks. -/
theorem decodeFields_recognises (major minor : UInt8) : Recognises (decodeFields major minor)
    (fun d => d.versionMajor = major ∧ d.versionMinor = minor ∧ FieldsValid d) fieldCells := by
  intro s d t
  constructor
  · intro h
    simp only [decodeFields, Reader.bind_eq_ok, decodeHeader_eq_ok, decodeShape_eq_ok,
      readU64_eq_ok, decodeLayoutPayload_recognises _, Reader.reject_eq_ok, not_not,
      decodeBufferTable_eq_ok, Recognises.optional decodeQuantization_recognises _ _,
      Recognises.optional Statistics.decode_recognises _ _,
      Recognises.optional ExtensionTypeDescriptor.decode_recognises _ _,
      Recognises.optional CompositeMemberDescriptor.decode_recognises _ _,
      Reader.pure_eq_ok] at h
    obtain ⟨⟨flags, ty, tag, rank⟩, m₁, ⟨⟨hflags, hty, -⟩, r₁⟩, shape, m₂, ⟨hrank, r₂⟩, off, m₃, r₃,
      layout, _, ⟨⟨rfl, hlayout⟩, r₄⟩, _, m₄, ⟨hext, rfl⟩, buffers, m₅, ⟨⟨hcount, hnil⟩, r₅⟩, h⟩ := h
    obtain ⟨q, m₆, ⟨⟨hq, hqlen⟩, r₆⟩, shard, m₇, hshard, st, m₈, ⟨⟨hst, hmask⟩, r₈⟩, ext, m₉,
      ⟨⟨hes, hpacked⟩, r₉⟩, cm, m₁₀, ⟨⟨hcm, -⟩, r₁₀⟩, rfl, rfl⟩ := h
    obtain ⟨⟨hsh, hfits⟩, r₇⟩ :=
      (Recognises.optional (decodeShard_recognises hrank) _ _ _ _).mp hshard
    have hrankWord : UInt32.ofNat shape.rank = rank := by rw [hrank, UInt32.ofNat_toNat]
    have hflagsWord : DescriptorFlags.ofPresence q.isSome shard.isSome ext.isSome st.isSome
        cm.isSome = flags := by
      rw [hq, hsh, hes, hst, hcm]
      exact (DescriptorFlags.eq_ofPresence hflags).symm
    refine ⟨⟨rfl, rfl, hty, by rwa [hrank], hext.trans hes.symm, hcount, hnil, hqlen, hfits, hmask,
      hpacked⟩, ?_⟩
    simp only [reads_append] at r₁
    obtain ⟨a₁, p₁, a₂, p₂, a₃, p₃, p₄⟩ := r₁
    simp only [fieldCells, TensorDescriptor.flags, hflagsWord, hrankWord, List.append_assoc,
      reads_append]
    exact ⟨a₁, p₁, a₂, p₂, a₃, p₃, m₁, p₄, m₂, r₂, m₃, r₃, m₄, r₄, m₅, r₅, m₆, r₆, m₇, r₇, m₈, r₈,
      m₉, r₉, r₁₀⟩
  · intro h
    obtain ⟨⟨rfl, rfl, hd⟩, hr⟩ := h
    have hrank : (UInt32.ofNat d.shape.rank).toNat = d.shape.rank :=
      UInt32.toNat_ofNat_of_lt' d.shape.rank_lt_size
    obtain ⟨hq, hsh, hes, hst, hcm⟩ := DescriptorFlags.has_ofPresence d.quantization.isSome
      d.shard.isSome d.extensionType.isSome d.statistics.isSome d.compositeMember.isSome
    simp only [fieldCells, List.append_assoc, reads_append] at hr
    obtain ⟨a₁, p₁, a₂, p₂, a₃, p₃, m₁, p₄, m₂, r₂, m₃, r₃, m₄, r₄, m₅, r₅, m₆, r₆, m₇, r₇, m₈, r₈,
      m₉, r₉, r₁₀⟩ := hr
    simp only [decodeFields, Reader.bind_eq_ok, decodeHeader_eq_ok, decodeShape_eq_ok,
      readU64_eq_ok, decodeLayoutPayload_recognises _, Reader.reject_eq_ok, not_not,
      decodeBufferTable_eq_ok, Recognises.optional decodeQuantization_recognises _ _,
      Recognises.optional Statistics.decode_recognises _ _,
      Recognises.optional ExtensionTypeDescriptor.decode_recognises _ _,
      Recognises.optional CompositeMemberDescriptor.decode_recognises _ _,
      Reader.pure_eq_ok, reads_append]
    refine ⟨⟨d.flags, d.elementType, d.layout.tag, UInt32.ofNat d.shape.rank⟩, m₁,
      ⟨⟨DescriptorFlags.ofPresence_reserved .., hd.wellTagged, by rw [hrank]; exact d.shape.rank_le⟩,
        a₁, p₁, a₂, p₂, a₃, p₃, p₄⟩, d.shape, m₂, ⟨hrank.symm, r₂⟩, d.byteOffset, m₃, r₃,
      d.layout, m₄, ⟨⟨rfl, by rw [hrank]; exact hd.layout⟩, r₄⟩, (), m₄,
      ⟨hd.extension.trans hes.symm, rfl⟩, d.buffers, m₅, ⟨⟨hd.bufferCount, hd.buffers⟩, r₅⟩,
      d.quantization, m₆, ⟨⟨hq.symm, hd.quantization⟩, r₆⟩, d.shard, m₇, ?_,
      d.statistics, m₈, ⟨⟨hst.symm, hd.statistics⟩, r₈⟩,
      d.extensionType, m₉, ⟨⟨hes.symm, hd.extensionType⟩, r₉⟩,
      d.compositeMember, t, ⟨⟨hcm.symm, fun _ _ => trivial⟩, r₁₀⟩, rfl, rfl⟩
    exact (Recognises.optional (decodeShard_recognises hrank.symm) _ _ _ _).mpr
      ⟨⟨hsh.symm, hd.shard⟩, r₇⟩

/-- The ten bytes the decoder reads before it makes a cursor. -/
theorem prefix_iff {b : Bytes} {major minor : UInt8} {length : UInt32} :
    prefixBytes major minor length <+: b ↔ 10 ≤ b.length ∧ (b.drop 0).take 4 = MAGIC ∧
      b[4]? = some major ∧ b[5]? = some minor ∧ (b.drop 6).take 4 = u32Bytes length := by
  obtain ⟨l₀, l₁, l₂, l₃, hlen⟩ : ∃ l₀ l₁ l₂ l₃, u32Bytes length = [l₀, l₁, l₂, l₃] :=
    List.length_eq_four.mp (length_u32Bytes length)
  rw [prefixBytes, hlen, MAGIC]
  constructor
  · intro h
    obtain ⟨rest, rfl⟩ := h
    simp
  · rcases b with _ | ⟨b₀, _ | ⟨b₁, _ | ⟨b₂, _ | ⟨b₃, _ | ⟨b₄, _ | ⟨b₅, _ | ⟨b₆, _ | ⟨b₇, _ | ⟨b₈,
      _ | ⟨b₉, rest⟩⟩⟩⟩⟩⟩⟩⟩⟩⟩
    all_goals simp
    rintro rfl rfl rfl rfl rfl rfl rfl rfl rfl rfl
    simp

theorem finishDecode_eq_ok {f d : TensorDescriptor} : finishDecode f = .ok d ↔
    d = f ∧ f.CrossSection ∧ (f.compositeMember.isSome → f.layout.isVirtual = false) := by
  obtain ⟨major, minor, ty, shape, off, layout, buffers, q, shard, st, ext, cm⟩ := f
  have hcross (m : Option CompositeMemberDescriptor) : TensorDescriptor.CrossSection
      ⟨major, minor, ty, shape, off, layout, buffers, q, shard, st, ext, m⟩ ↔
      TensorDescriptor.CrossSection
        ⟨major, minor, ty, shape, off, layout, buffers, q, shard, st, ext, none⟩ :=
    ⟨fun h => ⟨h.1, h.2, h.3, h.4, h.5⟩, fun h => ⟨h.1, h.2, h.3, h.4, h.5⟩⟩
  cases cm with
  | none =>
    simp only [finishDecode, Exec.bind_eq_ok, TensorDescriptor.new_eq_ok]
    constructor
    · intro h
      obtain ⟨_, ⟨rfl, h⟩, hd⟩ := h
      cases hd
      exact ⟨rfl, h, by simp⟩
    · intro h
      obtain ⟨rfl, h, -⟩ := h
      exact ⟨_, ⟨rfl, h⟩, rfl⟩
  | some m =>
    simp only [finishDecode, Exec.bind_eq_ok, TensorDescriptor.new_eq_ok, Exec.reject_eq_ok,
      exists_const, hcross (some m)]
    constructor
    · intro h
      obtain ⟨_, ⟨rfl, h⟩, hvirtual, hd⟩ := h
      cases hd
      exact ⟨rfl, h, fun _ => by simpa using hvirtual⟩
    · intro h
      obtain ⟨rfl, h, hvirtual⟩ := h
      exact ⟨_, ⟨rfl, h⟩, by simpa using hvirtual rfl, rfl⟩

/-- What the decoder accepts. The last clause is the length check, which only the known
minor version makes. -/
theorem decode_eq_ok_iff {b : Bytes} {d : TensorDescriptor} : decode b = .ok d ↔
    Decodable d ∧ ∃ (length : UInt32) (w : Bytes), Matches (descriptorCells d length) w ∧
      w <+: b ∧ w.length ≤ length.toNat ∧
      (d.versionMinor = DESCRIPTOR_VERSION_MINOR → w.length = length.toNat) := by
  constructor
  · intro h
    simp only [decode, Exec.bind_eq_ok, Exec.reject_eq_ok, exists_const, Exec.slice_eq_ok,
      Exec.index_eq_ok, not_not, finishDecode_eq_ok] at h
    obtain ⟨hlen, _, ⟨-, rfl⟩, hmagic, major, hmajor, minor, hminor, hversion, _, ⟨hlen10, rfl⟩,
      hshort, ⟨_, c⟩, hskip, ⟨f, e⟩, hfields, hpos, rfl, hcross, hmember⟩ := h
    obtain ⟨hcdata, hclimit, hcpos, -⟩ := reads_fixed.mp (readBytes_eq_ok.mp hskip).2
    have hten := (readBytes_eq_ok.mp hskip).1
    obtain ⟨⟨rfl, rfl, hvalid⟩, w, hw, hedata, helimit, hepos, hpre⟩ :=
      (decodeFields_recognises _ _ _ _ _).mp hfields
    have hprefix : prefixBytes d.versionMajor d.versionMinor (u32OfBytes ((b.drop 6).take 4)) <+: b :=
      prefix_iff.mpr ⟨Nat.le_of_not_lt hlen, hmagic, hmajor, hminor,
        (u32OfBytes_eq_iff (by simp; omega)).mp rfl⟩
    have hepos10 : e.pos = 10 + w.length := by
      rw [hepos, hcpos, hten]
      simp [ByteCursor.new]
    have hlimit : e.pos ≤ (u32OfBytes ((b.drop 6).take 4)).toNat := by
      have := e.pos_le
      rw [helimit, hclimit] at this
      simp only [ByteCursor.new] at this
      omega
    refine ⟨⟨UInt8.not_lt.mp hversion, hvalid, hcross, hmember⟩,
      u32OfBytes ((b.drop 6).take 4), _,
      matches_append.mpr ⟨_, w, matches_fixed.mpr rfl, hw, rfl⟩, ?_, ?_, ?_⟩
    · rw [hcdata, hcpos, hten] at hpre
      obtain ⟨rest, hrest⟩ := hprefix
      have hdrop : b.drop 10 = rest := by
        rw [← hrest, List.drop_left' (length_prefixBytes _ _ _)]
      simp only [ByteCursor.new, Nat.zero_add, hdrop] at hpre
      conv_rhs => rw [← hrest]
      exact (List.prefix_append_right_inj _).mpr hpre
    · simpa [hepos10] using hlimit
    · intro hknown
      rw [List.length_append, length_prefixBytes, ← hepos10]
      by_contra hne
      exact hpos ⟨hknown, hne⟩
  · intro h
    obtain ⟨hd, length, w, hw, hpre, hle, heq⟩ := h
    obtain ⟨p, v, hp, hv, rfl⟩ := matches_append.mp hw
    obtain rfl := matches_fixed.mp hp
    have hvlen : 10 ≤ v.length := by rw [hv.length_eq]; exact ten_le_fieldCells d
    rw [List.length_append, length_prefixBytes] at hle heq
    have hprefix := (List.prefix_append _ v).trans hpre
    obtain ⟨hlen, hmagic, hmajor, hminor, hlength⟩ := prefix_iff.mp hprefix
    have htotal := hpre.length_le
    rw [List.length_append, length_prefixBytes] at htotal
    have hword : u32OfBytes ((b.drop 6).take 4) = length := by rw [hlength, u32OfBytes_u32Bytes]
    let limit := min (min length.toNat b.length) b.length
    let c : ByteCursor := ⟨b, 10, limit, by omega, by omega⟩
    let e : ByteCursor := ⟨b, 10 + v.length, limit, by omega, by omega⟩
    have hskip : readBytes 10 (ByteCursor.new b (min length.toNat b.length)) =
        .ok (b.take 10, c) := by
      refine readBytes_eq_ok.mpr ⟨by simp [hlen], reads_fixed.mpr ⟨rfl, rfl, ?_, ?_⟩⟩
      · simp [c, ByteCursor.new, hlen]
      · exact List.take_prefix 10 b
    have hrest : v <+: b.drop 10 := by
      obtain ⟨rest, rfl⟩ := hpre
      rw [List.append_assoc, List.drop_left' (length_prefixBytes _ _ _)]
      exact List.prefix_append v rest
    have hfields : decodeFields d.versionMajor d.versionMinor c = .ok (d, e) :=
      (decodeFields_recognises _ _ _ _ _).mpr ⟨⟨rfl, rfl, hd.fields⟩, v, hv, rfl, rfl, rfl, hrest⟩
    simp only [decode, Exec.bind_eq_ok, Exec.reject_eq_ok, exists_const, Exec.slice_eq_ok,
      Exec.index_eq_ok, not_not, finishDecode_eq_ok]
    have hshort : ¬ length < MIN_DESCRIPTOR_LEN := by
      have hmin : MIN_DESCRIPTOR_LEN.toNat = 20 := rfl
      rw [UInt32.lt_iff_toNat_lt]
      omega
    refine ⟨not_lt.mpr hlen, _, ⟨by omega, rfl⟩, hmagic, _, hmajor, _, hminor,
      UInt8.not_lt.mpr hd.version, _, ⟨by omega, rfl⟩, by rwa [hword], (b.take 10, c), ?_, (d, e), hfields, ?_,
      rfl,
      hd.crossSection, hd.member⟩
    · rw [hword]
      exact hskip
    · intro h
      obtain ⟨hknown, hne⟩ := h
      rw [hword] at hne
      exact hne (heq hknown)

end Hurray.Descriptor
