import Hurray.Descriptor.Contract

/-!
When bytes that were written for one descriptor can be read as another. The
writer takes each per-rank vector by its own length and the reader by the rank,
so the two agree on where every field stands only for descriptors whose vectors
have the rank's length.
-/
namespace Hurray.Descriptor
open Hurray.Base Hurray.Core

/-- Built only through public constructors. Any element type variant may be used, and
statistics have no constructor of their own. -/
structure BuiltByConstructors (d : TensorDescriptor) : Prop where
  constructed : Constructed d
  layout : d.layout.WellFormed
  shard : ∀ s, d.shard = some s → ShardDescriptor.new s.parentShape s.shardOffset = .ok s
  extensionType : ∀ e, d.extensionType = some e → e.WellPacked

/-- The descriptor is read back as itself or not at all. -/
def NoMisframe (d : TensorDescriptor) : Prop :=
  ∀ b d', encode d = .ok b → decode b = .ok d' → d' = d

/-- The wire form of the descriptor stands for no other: its vectors have the length the reader
takes, its layer index is not the sentinel for none, and its type does not carry another's tag. -/
structure Framed (d : TensorDescriptor) : Prop where
  rankFramed : RankFramed d.shape.rank d.layout
  layerIndex : ∀ l, d.layout = .blockPaged l → l.layerIndex ≠ some LAYER_INDEX_NONE
  typeTag : ∀ ty, ElementType.fromTag d.elementType.tag = .ok ty → ty = d.elementType

/-- What the framing of a layout rests on: all that fits a reader but the order of modes. -/
structure LayoutFramed (rank : ℕ) (l : LayoutDescriptor) : Prop where
  wellFormed : l.WellFormed
  rankFramed : RankFramed rank l
  layerIndex : ∀ x, l = .blockPaged x → x.layerIndex ≠ some LAYER_INDEX_NONE
  extensionData : ∀ x, l = .privateExtension x → x.extensionData.length < UInt32.size
  known : ∀ x, l ≠ .unknown x

section Layout
variable {rank : ℕ} {l l' : LayoutDescriptor}

theorem LayoutFits.framed (h : LayoutFits rank l) : LayoutFramed rank l where
  wellFormed := h.wellFormed
  rankFramed := h.rankFramed
  layerIndex := by
    rintro x rfl
    exact h.representable
  extensionData := by
    rintro x rfl
    exact h.representable
  known := by
    rintro x rfl
    exact h.representable

theorem LayoutFramed.fits (h : LayoutFramed rank l) (hcsf : ∀ x, l ≠ .csf x) :
    LayoutFits rank l := by
  refine ⟨h.wellFormed, h.rankFramed, ?_⟩
  cases hl : l with
  | csf x => exact absurd hl (hcsf x)
  | blockPaged x => exact h.layerIndex x hl
  | privateExtension x => exact h.extensionData x hl
  | unknown x => exact absurd hl (h.known x)
  | _ => trivial

theorem csf_of_tag (h : LayoutFramed rank l) (htag : l.tag = TAG_CSF) : ∃ x, l = .csf x := by
  cases l with
  | csf x => exact ⟨x, rfl⟩
  | privateExtension x =>
    have hprivate : isPrivateTag x.tag := h.wellFormed
    rw [show x.tag = TAG_CSF from htag] at hprivate
    exact absurd hprivate (by decide)
  | unknown x => exact absurd rfl (h.known x)
  | _ =>
    dsimp only [LayoutDescriptor.tag] at htag
    exact absurd htag (by decide)

/-- Framed layouts of one tag and one rank are told apart by their bytes. -/
theorem layoutCells_unambiguous (hlt : rank < UInt32.size) {tag : UInt8} :
    Unambiguous ByteCursor (fun l => l.tag = tag ∧ LayoutFramed rank l) layoutCells := by
  obtain ⟨rank, rfl⟩ : ∃ r : UInt32, r.toNat = rank :=
    ⟨UInt32.ofNat rank, UInt32.toNat_ofNat_of_lt' hlt⟩
  rintro s l l' t t' ⟨htag, hl⟩ ⟨htag', hl'⟩ hr hr'
  by_cases hcsf : tag = TAG_CSF
  · obtain ⟨x, rfl⟩ := csf_of_tag hl (htag.trans hcsf)
    obtain ⟨x', rfl⟩ := csf_of_tag hl' (htag'.trans hcsf)
    simp only [layoutCells, fixed_append, List.append_assoc] at hr hr'
    obtain ⟨hnnz, m, hr, hr'⟩ := readU64_recognises.unambiguous.peel trivial trivial hr hr'
    obtain ⟨hmodes, m, hr, hr'⟩ := (readWords_recognises _).unambiguous.peel hl.rankFramed
      hl'.rankFramed hr hr'
    obtain ⟨-, rfl⟩ := (readBytes_recognises 8).unambiguous _ _ _ _ _ List.length_replicate
      List.length_replicate hr hr'
    obtain ⟨nnz, modes⟩ := x
    obtain ⟨nnz', modes'⟩ := x'
    cases hnnz
    cases hmodes
    exact ⟨rfl, rfl⟩
  · have hfits {l : LayoutDescriptor} (h : LayoutFramed rank.toNat l) (ht : l.tag = tag) :
        LayoutFits rank.toNat l := by
      apply h.fits
      rintro x rfl
      exact hcsf ht.symm
    exact decodeLayoutPayload_recognises.unambiguous s l l' t t' ⟨htag, hfits hl htag⟩
      ⟨htag', hfits hl' htag'⟩ hr hr'

end Layout

/-- What the framing of a descriptor rests on. -/
structure FieldsFramed (d : TensorDescriptor) : Prop where
  layout : LayoutFramed d.shape.rank d.layout
  bufferCount : d.buffers.length ≤ 255
  buffers : d.buffers = [] → d.layout.isVirtual = true
  quantization : ∀ q, d.quantization = some q → q.length < UInt32.size
  shard : ∀ s, d.shard = some s →
    s.parentShape.length = d.shape.rank ∧ s.shardOffset.length = d.shape.rank
  extensionType : ∀ e, d.extensionType = some e → e.WellPacked

section Fields
variable {d d' : TensorDescriptor}

theorem FieldsValid.framed (h : FieldsValid d) : FieldsFramed d where
  layout := h.layout.framed
  bufferCount := h.bufferCount
  buffers := h.buffers
  quantization := h.quantization
  shard := fun s hs => ⟨(h.shard s hs).parent_length, (h.shard s hs).offset_length⟩
  extensionType := h.extensionType

/-- The mask is the first field of the section, so a reading under a valid mask settles it. -/
theorem statistics_eq {o o' : Option Statistics} (hpresent : o.isSome = o'.isSome)
    (hvalid : ∀ x, o' = some x → x.MaskValid) {s t t' : ByteCursor} {cs ds : List Cell}
    (hr : Reads s (o.elim [] Statistics.cells ++ cs) t)
    (hr' : Reads s (o'.elim [] Statistics.cells ++ ds) t') :
    o = o' ∧ ∃ m, Reads m cs t ∧ Reads m ds t' := by
  have hmask : ∀ x, o = some x → x.MaskValid := by
    rintro x rfl
    obtain ⟨y, rfl⟩ := Option.isSome_iff_exists.mp hpresent.symm
    simp only [Option.elim_some, Statistics.cells, List.append_assoc] at hr hr'
    obtain ⟨hxy, -⟩ := readU32_recognises.unambiguous.peel trivial trivial hr hr'
    rw [Statistics.MaskValid, hxy]
    exact hvalid y rfl
  exact (Statistics.decode_recognises.optional _).unambiguous.peel ⟨hpresent, hmask⟩
    ⟨rfl, hvalid⟩ hr hr'

/-- The fields that a framed descriptor writes are read back as they were, or not at all. -/
theorem fieldCells_unambiguous (h : FieldsFramed d) (h' : FieldsValid d')
    (htype : ∀ ty, ElementType.fromTag d.elementType.tag = .ok ty → ty = d.elementType)
    (hmajor : d.versionMajor = d'.versionMajor) (hminor : d.versionMinor = d'.versionMinor)
    {s t t' : ByteCursor} (hr : Reads s (fieldCells d) t) (hr' : Reads s (fieldCells d') t') :
    d = d' := by
  have hrank (x : TensorDescriptor) : (UInt32.ofNat x.shape.rank).toNat = x.shape.rank :=
    UInt32.toNat_ofNat_of_lt' x.shape.rank_lt_size
  obtain ⟨hlayout, hcount, hnil, hquant, hshard, hext⟩ := h
  obtain ⟨hlayout', hcount', hnil', hquant', hshard', hext'⟩ := h'.framed
  simp only [fieldCells, List.append_assoc] at hr hr'
  obtain ⟨eflags, m, hr, hr'⟩ := readU32_recognises.unambiguous.peel trivial trivial hr hr'
  obtain ⟨pq, ps, pe, pst, pm⟩ := DescriptorFlags.ofPresence_inj eflags
  obtain ⟨etag, m, hr, hr'⟩ := readU8_recognises.unambiguous.peel trivial trivial hr hr'
  have etype : d.elementType = d'.elementType := by
    refine (htype _ ?_).symm
    rw [etag]
    exact h'.wellTagged
  obtain ⟨elayoutTag, m, hr, hr'⟩ := readU8_recognises.unambiguous.peel trivial trivial hr hr'
  obtain ⟨erankWord, m, hr, hr'⟩ := readU32_recognises.unambiguous.peel trivial trivial hr hr'
  have erank : d.shape.rank = d'.shape.rank := by rw [← hrank d, erankWord, hrank d']
  obtain ⟨edims, m, hr, hr'⟩ := (readDims_recognises _).unambiguous.peel erank rfl hr hr'
  rw [erank] at hlayout hshard
  obtain ⟨eoffset, m, hr, hr'⟩ := readU64_recognises.unambiguous.peel trivial trivial hr hr'
  obtain ⟨elayout, m, hr, hr'⟩ := (layoutCells_unambiguous d'.shape.rank_lt_size).peel
    ⟨elayoutTag, hlayout⟩ ⟨rfl, hlayout'⟩ hr hr'
  rw [elayout] at hnil
  obtain ⟨ebuffers, m, hr, hr'⟩ := decodeBufferTable_recognises.unambiguous.peel
    ⟨hcount, hnil⟩ ⟨hcount', hnil'⟩ hr hr'
  obtain ⟨equant, m, hr, hr'⟩ := (decodeQuantization_recognises.optional _).unambiguous.peel
    ⟨pq, hquant⟩ ⟨rfl, hquant'⟩ hr hr'
  have hdecode := ShardDescriptor.decode_recognises (UInt32.ofNat d'.shape.rank)
  rw [hrank d'] at hdecode
  obtain ⟨eshard, m, hr, hr'⟩ := (hdecode.optional _).unambiguous.peel
    ⟨ps, hshard⟩ ⟨rfl, hshard'⟩ hr hr'
  obtain ⟨est, m, hr, hr'⟩ := statistics_eq pst h'.statistics hr hr'
  obtain ⟨eext, m, hr, hr'⟩ :=
    (ExtensionTypeDescriptor.decode_recognises.optional _).unambiguous.peel
      ⟨pe, hext⟩ ⟨rfl, hext'⟩ hr hr'
  obtain ⟨emember, -⟩ :=
    (CompositeMemberDescriptor.decode_recognises.optional _).unambiguous _ _ _ _ _
      ⟨pm, fun _ _ => trivial⟩ ⟨rfl, fun _ _ => trivial⟩ hr hr'
  obtain ⟨major, minor, ty, shape, off, layout, buffers, q, shard, st, ext, cm⟩ := d
  obtain ⟨major', minor', ty', shape', off', layout', buffers', q', shard', st', ext', cm'⟩ := d'
  obtain rfl : shape = shape' := Shape.ext edims
  simp_all

end Fields

section NoMisframe
variable {d d' : TensorDescriptor}

theorem BuiltByConstructors.framed (h : BuiltByConstructors d) (hf : Framed d)
    (henc : Encodable d) : FieldsFramed d := by
  have hcross := constructed_iff.mp h.constructed
  refine ⟨⟨h.layout, hf.rankFramed, hf.layerIndex, fun _ => extensionData_lt henc.length, ?_⟩,
    hcross.bufferCount, isVirtual_of_buffers_nil hcross, fun _ => quantization_lt henc.length, ?_,
    h.extensionType⟩
  · intro x hx
    have hlayout := henc.layout
    rw [hx] at hlayout
    exact hlayout
  · intro s hs
    have hcheck := hcross.shard
    rw [hs] at hcheck
    simp only [TensorDescriptor.checkShard, Exec.bind_eq_ok, Exec.reject_eq_ok, exists_const,
      not_not] at hcheck
    have hnew := h.shard s hs
    simp only [ShardDescriptor.new, Exec.bind_eq_ok, Exec.reject_eq_ok, exists_const,
      not_not] at hnew
    exact ⟨hcheck.1, hnew.1 ▸ hcheck.1⟩

/-- A framed descriptor is read back as itself, or rejected. -/
theorem noMisframe_of_framed (h : BuiltByConstructors d) (hf : Framed d) : NoMisframe d := by
  intro b d' henc hdec
  obtain ⟨hencodable, rfl⟩ := encode_eq_ok_iff.mp henc
  obtain ⟨hd', len, w, hw, hpre, -, -⟩ := decode_eq_ok_iff.mp hdec
  obtain ⟨p, v, hp, hv, rfl⟩ := matches_append.mp hw
  obtain rfl := matches_fixed.mp hp
  rw [descriptorCells, wireBytes_append, wireBytes_fixed] at hpre
  have hfront := List.prefix_of_prefix_length_le ((List.prefix_append _ v).trans hpre)
    (List.prefix_append _ _) (by simp)
  have hten := hfront.eq_of_length (by simp)
  obtain ⟨-, -, hmajor', hminor', -⟩ := prefix_iff.mp hfront
  obtain ⟨-, -, hmajor, hminor, -⟩ := prefix_iff.mp (List.prefix_refl
    (prefixBytes d.versionMajor d.versionMinor (encodedLength d)))
  rw [hten] at hpre
  obtain ⟨t, hr⟩ := reads_of_prefix (matches_wireBytes (fieldCells d)) (List.prefix_refl _)
  obtain ⟨t', hr'⟩ := reads_of_prefix hv ((List.prefix_append_right_inj _).mp hpre)
  rw [hmajor] at hmajor'
  rw [hminor] at hminor'
  exact (fieldCells_unambiguous (h.framed hf hencodable) hd'.fields hf.typeTag
    (Option.some.inj hmajor') (Option.some.inj hminor') hr hr').symm

/-- The layout whose bytes say what the bytes of `l` say: no layer, where `l` names the sentinel. -/
def clearSentinel : LayoutDescriptor → LayoutDescriptor
  | .blockPaged l =>
      .blockPaged { l with layerIndex := l.layerIndex.filter (· ≠ LAYER_INDEX_NONE) }
  | l => l

/-- The descriptor the decoder takes the bytes of `d` for, once their tag reads as `ty`. -/
def readAs (d : TensorDescriptor) (ty : ElementType) : TensorDescriptor :=
  { d with elementType := ty, layout := clearSentinel d.layout }

theorem layoutCells_clearSentinel (l : LayoutDescriptor) :
    layoutCells (clearSentinel l) = layoutCells l := by
  cases l with
  | blockPaged x =>
    have hword : (x.layerIndex.filter (· ≠ LAYER_INDEX_NONE)).getD LAYER_INDEX_NONE =
        x.layerIndex.getD LAYER_INDEX_NONE := by
      cases hlayer : x.layerIndex with
      | none => rfl
      | some n =>
        by_cases hn : n = LAYER_INDEX_NONE
        · rw [hn]
          rfl
        · simp [Option.filter, hn]
    simp only [clearSentinel, layoutCells, encodeBlockPaged, hword]
  | _ => rfl

theorem layoutEncodable_clearSentinel {rank : UInt32} {l : LayoutDescriptor}
    (h : LayoutEncodable rank l) : LayoutEncodable rank (clearSentinel l) := by
  cases l <;> exact h

theorem isVirtual_clearSentinel (l : LayoutDescriptor) :
    (clearSentinel l).isVirtual = l.isVirtual := by cases l <;> rfl

theorem tag_clearSentinel (l : LayoutDescriptor) : (clearSentinel l).tag = l.tag := by
  cases l <;> rfl

theorem descriptorCells_readAs {ty : ElementType} (hty : ty.tag = d.elementType.tag)
    (len : UInt32) : descriptorCells (readAs d ty) len = descriptorCells d len := by
  simp only [descriptorCells, fieldCells, readAs, hty, tag_clearSentinel,
    layoutCells_clearSentinel, TensorDescriptor.flags]

/-- A descriptor whose bytes the decoder takes for another is not framed. -/
theorem framed_of_noMisframe (hrank : RankFramed d.shape.rank d.layout) (henc : Encodable d)
    (hread : ∃ ty, ElementType.fromTag d.elementType.tag = .ok ty ∧ Decodable (readAs d ty))
    (h : NoMisframe d) : Framed d := by
  obtain ⟨ty, hty, hdec⟩ := hread
  have hcells := descriptorCells_readAs (ElementType.fromTag_eq_ok.mp hty).2
  have henc' : Encodable (readAs d ty) := by
    refine ⟨layoutEncodable_clearSentinel henc.layout, henc.bufferCount, ?_, ?_⟩
    · intro hmember
      rw [readAs, isVirtual_clearSentinel]
      exact henc.member hmember
    · rw [hcells]
      exact henc.length
  have hback := decode_wireBytes henc' hdec
  rw [encodedLength, hcells, hcells, ← encodedLength] at hback
  have heq := h _ _ (encode_eq_ok_iff.mpr ⟨henc, rfl⟩) hback
  refine ⟨hrank, ?_, ?_⟩
  · intro l hl hlayer
    have hclear : clearSentinel d.layout = d.layout := congrArg TensorDescriptor.layout heq
    rw [hl, clearSentinel] at hclear
    have hindex := congrArg BlockPagedLayout.layerIndex (LayoutDescriptor.blockPaged.inj hclear)
    rw [hlayer] at hindex
    cases hindex
  · intro ty' hty'
    rw [hty] at hty'
    cases hty'
    exact congrArg TensorDescriptor.elementType heq

end NoMisframe

/-- A vector of four elements whose layout has two strides, with 56 bytes of quantization. -/
def overStrided : TensorDescriptor :=
  { workedExample with
    shape := ⟨[4], by decide⟩
    layout := .strided ⟨[1, 1]⟩
    buffers := [⟨64, 64, .cpu, .producerSynced, .standard, BufferHandle.pow_least,
      BufferHandle.least_le _, BufferHandle.producer_synced⟩]
    quantization := some (List.replicate 56 0) }

/-- The second stride is read as the buffer count and the buffer's size, the old count and size
as the rest of its handle, and the old handle as the head of a longer quantization section. -/
def overStridedReadBack : TensorDescriptor :=
  { overStrided with
    layout := .strided ⟨[1]⟩
    buffers := [⟨0x0100000000000000, 64, .cpu, .producerSynced, .standard,
      BufferHandle.pow_least, BufferHandle.least_le _, BufferHandle.producer_synced⟩]
    quantization := some ([0, 0, 0, 0, 56, 0, 0, 0] ++ List.replicate 56 0) }

end Hurray.Descriptor
