import Hurray.Descriptor.LayoutCodec

/-!
What the layout payload codec agrees on. `layoutCells` is the format of a
payload, `LayoutFits` says which layouts a reader of that rank can return, and
the reader recognises exactly these.
-/
namespace Hurray.Descriptor
open Hurray.Base Hurray.Core

/-- The per-rank vectors of a level have length `rank`. -/
structure LevelRank (rank : ℕ) (lv : TiledLevel) : Prop where
  tileShape : lv.tileShape.length = rank
  outerStrides : ∀ s, lv.outerStrides = some s → s.strides.length = rank
  innerStrides : ∀ s, lv.innerStrides = some s → s.strides.length = rank

/-- Every per-rank vector of the layout has length `rank`. -/
def RankFramed (rank : ℕ) : LayoutDescriptor → Prop
  | .strided l => l.strides.length = rank
  | .tiled l => l.AllLevels (LevelRank rank)
  | .morton l => l.mortonBits.length = rank
  | .csf l => l.modeOrder.length = rank
  | _ => True

/-- The mode order of a CSF layout is a permutation of the dimensions. -/
def ModeOrderValid (rank : ℕ) (l : CsfLayout) : Prop :=
  (∀ dim ∈ l.modeOrder, dim.toNat < rank) ∧ l.modeOrder.Nodup

/-- The values of a layout that have a wire form of their own. -/
def Representable (rank : ℕ) : LayoutDescriptor → Prop
  | .csf l => ModeOrderValid rank l
  | .blockPaged l => l.layerIndex ≠ some LAYER_INDEX_NONE
  | .privateExtension l => l.extensionData.length < UInt32.size
  | .unknown _ => False
  | _ => True

/-- The layouts a reader can return under a header of rank `rank`. -/
structure LayoutFits (rank : ℕ) (l : LayoutDescriptor) : Prop where
  wellFormed : l.WellFormed
  rankFramed : RankFramed rank l
  representable : Representable rank l

/-- A nested layout is written only under the tag that announces it. -/
def tiledBytes : TiledLayout → Bytes
  | .flat lv => tiledLevelBytes lv
  | .nested lv inner =>
      tiledLevelBytes lv ++ if lv.innerLayout = TAG_TILED then tiledBytes inner else []

/-- The levels the writer visits. -/
def writtenLevels : TiledLayout → ℕ
  | .flat _ => 1
  | .nested lv inner => if lv.innerLayout = TAG_TILED then writtenLevels inner + 1 else 1

def cooCells (l : CooLayout) : List Cell :=
  fixed (u64Bytes l.nnz) ++ [.truth l.isSorted] ++ fixed (List.replicate 7 0)

def layoutCells : LayoutDescriptor → List Cell
  | .rowMajor | .colMajor | .unknown _ => []
  | .strided l => fixed (encodeStrided l)
  | .tiled l => fixed (tiledBytes l)
  | .morton l => fixed (encodeMorton l)
  | .coo l => cooCells l
  | .csr l => fixed (encodeCsr l)
  | .csc l => fixed (encodeCsc l)
  | .csf l => fixed (u64Bytes l.nnz ++ l.modeOrder.flatMap u32Bytes ++ List.replicate 8 0)
  | .blockPaged l => fixed (encodeBlockPaged l)
  | .composite l => fixed (encodeComposite l)
  | .hilbert l => fixed (encodeHilbert l)
  | .privateExtension l => fixed (encodePrivateExtension l)

section Writer

/-- What the payload writer checks. -/
def LayoutEncodable (rank : UInt32) : LayoutDescriptor → Prop
  | .tiled l => writtenLevels l ≤ MAX_TILED_DEPTH
  | .csf l => UInt32.ofNat l.modeOrder.length = rank
  | .unknown _ => False
  | _ => True

theorem encodeTiled_eq_ok {k : ℕ} {l : TiledLayout} {w : Bytes} :
    encodeTiled k l = .ok w ↔ k + writtenLevels l ≤ MAX_TILED_DEPTH ∧ w = tiledBytes l := by
  induction l generalizing k w with
  | flat lv =>
    simp only [encodeTiled, Exec.bind_eq_ok, Exec.reject_eq_ok, exists_const, writtenLevels,
      tiledBytes, pure, Except.pure, Except.ok.injEq, not_le, ge_iff_le]
    exact and_congr Nat.lt_iff_add_one_le eq_comm
  | nested lv inner ih =>
    simp only [encodeTiled, Exec.bind_eq_ok, Exec.reject_eq_ok, exists_const, writtenLevels,
      tiledBytes]
    split
    · simp only [Exec.bind_eq_ok, ih, pure, Except.pure, Except.ok.injEq]
      constructor
      · rintro ⟨hk, v, ⟨hd, rfl⟩, rfl⟩
        exact ⟨by omega, rfl⟩
      · rintro ⟨hd, rfl⟩
        exact ⟨by omega, tiledBytes inner, ⟨by omega, rfl⟩, rfl⟩
    · simp only [pure, Except.pure, Except.ok.injEq, List.append_nil]
      constructor
      · rintro ⟨hk, rfl⟩
        exact ⟨by omega, rfl⟩
      · rintro ⟨hd, rfl⟩
        exact ⟨by omega, rfl⟩

theorem wireBytes_cooCells (l : CooLayout) : wireBytes (cooCells l) = encodeCoo l := by
  simp [cooCells, encodeCoo, wireBytes, fixed, Cell.toByte, Function.comp_def]

theorem encodeLayoutPayload_eq_ok {rank : UInt32} {l : LayoutDescriptor} {w : Bytes} :
    encodeLayoutPayload l rank = .ok w ↔ LayoutEncodable rank l ∧ w = wireBytes (layoutCells l) := by
  cases l with
  | tiled x =>
    simp only [encodeLayoutPayload, encodeTiled_eq_ok, LayoutEncodable, layoutCells,
      wireBytes_fixed, Nat.zero_add]
  | csf x =>
    simp only [encodeLayoutPayload, encodeCsf, Exec.bind_eq_ok, Exec.reject_eq_ok, exists_const,
      LayoutEncodable, layoutCells, wireBytes_fixed, not_not, pure, Except.pure, Except.ok.injEq]
    exact and_congr_right fun _ => eq_comm
  | unknown x => simp [encodeLayoutPayload, LayoutEncodable]
  | coo x =>
    simp only [encodeLayoutPayload, LayoutEncodable, layoutCells, wireBytes_cooCells, true_and,
      pure, Except.pure, Except.ok.injEq]
    exact eq_comm
  | _ =>
    simp only [encodeLayoutPayload, LayoutEncodable, layoutCells, wireBytes_fixed, wireBytes_nil,
      true_and, pure, Except.pure, Except.ok.injEq]
    exact eq_comm

theorem writtenLevels_of_wellFormed {l : TiledLayout} (h : l.WellFormed) :
    writtenLevels l = l.depth := by
  induction l with
  | flat lv => rfl
  | nested lv inner ih =>
    have htag : lv.innerLayout = TAG_TILED := by
      by_contra hne
      exact absurd (h.1.innerTiled_iff.mpr hne) (by decide)
    rw [writtenLevels, if_pos htag, ih h.2, TiledLayout.depth]

theorem LayoutFits.encodable {rank : UInt32} {l : LayoutDescriptor}
    (h : LayoutFits rank.toNat l) : LayoutEncodable rank l := by
  cases l with
  | tiled x =>
    obtain ⟨hwf, hdepth⟩ := h.wellFormed
    exact (writtenLevels_of_wellFormed hwf).trans_le hdepth
  | csf x =>
    have hlen : x.modeOrder.length = rank.toNat := h.rankFramed
    rw [LayoutEncodable, hlen, UInt32.ofNat_toNat]
  | unknown x => exact h.representable
  | _ => trivial

end Writer

section Reader
variable {rank : UInt32} {s t : ByteCursor} {l : LayoutDescriptor}

theorem readStrides_recognises (n : ℕ) : Recognises (Reader.many readI64 n)
    (fun l => l.length = n) (fun l => fixed (l.flatMap i64Bytes)) :=
  (Recognises.many readI64_recognises n).congr (by simp) fun l _ => fixed_flatMap l _

theorem readDims_recognises (n : ℕ) : Recognises (Reader.many readU64 n)
    (fun l => l.length = n) (fun l => fixed (l.flatMap u64Bytes)) :=
  (Recognises.many readU64_recognises n).congr (by simp) fun l _ => fixed_flatMap l _

theorem readWords_recognises (n : ℕ) : Recognises (Reader.many readU32 n)
    (fun l => l.length = n) (fun l => fixed (l.flatMap u32Bytes)) :=
  (Recognises.many readU32_recognises n).congr (by simp) fun l _ => fixed_flatMap l _

/-- A run of reserved bytes that is read and then checked. -/
theorem readReserved_eq_ok {n : ℕ} {w : Bytes} {m : ByteCursor} :
    ((w.length = n ∧ Reads s (fixed w) m) ∧ ¬ ∃ b ∈ w, b ≠ 0) ↔
      w = List.replicate n 0 ∧ Reads s (fixed (List.replicate n 0)) m := by
  rw [and_right_comm, reserved_iff]
  constructor
  · rintro ⟨rfl, hr⟩
    exact ⟨rfl, hr⟩
  · rintro ⟨rfl, hr⟩
    exact ⟨rfl, hr⟩

theorem decodeStrided_eq_ok : decodeStrided rank s = .ok (l, t) ↔
    ∃ x, l = .strided x ∧ x.strides.length = rank.toNat ∧ Reads s (fixed (encodeStrided x)) t := by
  simp only [decodeStrided, Reader.bind_eq_ok, readStrides_recognises _ s, Reader.pure_eq_ok]
  constructor
  · rintro ⟨strides, m, ⟨hlen, hr⟩, rfl, rfl⟩
    exact ⟨⟨strides⟩, rfl, hlen, hr⟩
  · rintro ⟨⟨strides⟩, rfl, hlen, hr⟩
    exact ⟨strides, t, ⟨hlen, hr⟩, rfl, rfl⟩

theorem decodeMorton_eq_ok : decodeMorton rank s = .ok (l, t) ↔
    ∃ x, l = .morton x ∧ x.WellFormed ∧ x.mortonBits.length = rank.toNat ∧
      Reads s (fixed (encodeMorton x)) t := by
  simp only [decodeMorton, Reader.bind_eq_ok, readWords_recognises _ s, Reader.lift_eq_ok,
    MortonLayout.new_eq_ok, Reader.pure_eq_ok]
  constructor
  · rintro ⟨_, _, ⟨hlen, hr⟩, x, _, ⟨⟨rfl, hx⟩, rfl⟩, rfl, rfl⟩
    exact ⟨x, rfl, hx, hlen, hr⟩
  · rintro ⟨x, rfl, hx, hlen, hr⟩
    exact ⟨_, t, ⟨hlen, hr⟩, x, t, ⟨⟨rfl, hx⟩, rfl⟩, rfl, rfl⟩

theorem decodeCoo_eq_ok : decodeCoo s = .ok (l, t) ↔
    ∃ x, l = .coo x ∧ Reads s (cooCells x) t := by
  simp only [decodeCoo, Reader.bind_eq_ok, readU64_eq_ok, readBool_eq_ok, readBytes_eq_ok,
    Reader.reject_eq_ok, Reader.pure_eq_ok, cooCells, List.append_assoc, reads_append]
  constructor
  · rintro ⟨nnz, m₁, r₁, sorted, m₂, r₂, w, _, hw, _, _, ⟨hzero, rfl⟩, rfl, rfl⟩
    exact ⟨⟨nnz, sorted⟩, rfl, m₁, r₁, m₂, r₂, (readReserved_eq_ok.mp ⟨hw, hzero⟩).2⟩
  · rintro ⟨⟨nnz, sorted⟩, rfl, m₁, r₁, m₂, r₂, r₃⟩
    obtain ⟨hw, hzero⟩ := readReserved_eq_ok.mpr ⟨rfl, r₃⟩
    exact ⟨nnz, m₁, r₁, sorted, m₂, r₂, _, t, hw, (), t, ⟨hzero, rfl⟩, rfl, rfl⟩

theorem decodeNnz_eq_ok {field : String} {nnz : UInt64} : decodeNnz field s = .ok (nnz, t) ↔
    Reads s (fixed (encodeNnz nnz)) t := by
  simp only [decodeNnz, Reader.bind_eq_ok, readU64_eq_ok, readBytes_eq_ok, Reader.reject_eq_ok,
    Reader.pure_eq_ok, encodeNnz, fixed_append, reads_append]
  constructor
  · rintro ⟨nnz, m₁, r₁, w, _, hw, _, _, ⟨hzero, rfl⟩, rfl, rfl⟩
    exact ⟨m₁, r₁, (readReserved_eq_ok.mp ⟨hw, hzero⟩).2⟩
  · rintro ⟨m₁, r₁, r₂⟩
    obtain ⟨hw, hzero⟩ := readReserved_eq_ok.mpr ⟨rfl, r₂⟩
    exact ⟨nnz, m₁, r₁, _, t, hw, (), t, ⟨hzero, rfl⟩, rfl, rfl⟩

theorem decodeCsr_eq_ok : decodeCsr s = .ok (l, t) ↔
    ∃ x, l = .csr x ∧ Reads s (fixed (encodeCsr x)) t := by
  simp only [decodeCsr, Reader.bind_eq_ok, decodeNnz_eq_ok, Reader.pure_eq_ok, encodeCsr]
  constructor
  · rintro ⟨nnz, _, hr, rfl, rfl⟩
    exact ⟨⟨nnz⟩, rfl, hr⟩
  · rintro ⟨⟨nnz⟩, rfl, hr⟩
    exact ⟨nnz, t, hr, rfl, rfl⟩

theorem decodeCsc_eq_ok : decodeCsc s = .ok (l, t) ↔
    ∃ x, l = .csc x ∧ Reads s (fixed (encodeCsc x)) t := by
  simp only [decodeCsc, Reader.bind_eq_ok, decodeNnz_eq_ok, Reader.pure_eq_ok, encodeCsc]
  constructor
  · rintro ⟨nnz, _, hr, rfl, rfl⟩
    exact ⟨⟨nnz⟩, rfl, hr⟩
  · rintro ⟨⟨nnz⟩, rfl, hr⟩
    exact ⟨nnz, t, hr, rfl, rfl⟩

theorem checkModeOrder_eq_ok {level : ℕ} {seen modes : List UInt32} {u : Unit} :
    checkModeOrder rank level seen modes = .ok u ↔
      (∀ dim ∈ modes, dim.toNat < rank.toNat) ∧ modes.Nodup ∧ ∀ dim ∈ modes, dim ∉ seen := by
  induction modes generalizing level seen with
  | nil => simp [checkModeOrder, pure, Except.pure]
  | cons dim rest ih =>
    simp only [checkModeOrder, Exec.bind_eq_ok, Exec.reject_eq_ok, exists_const, ih, not_le, ge_iff_le,
      forall_eq_or_imp, List.nodup_cons, List.mem_cons, not_or]
    constructor
    · rintro ⟨hlt, hseen, hall, hnodup, hrest⟩
      exact ⟨⟨hlt, hall⟩, ⟨fun hmem => (hrest dim hmem).1 rfl, hnodup⟩, hseen,
        fun d hd => (hrest d hd).2⟩
    · rintro ⟨⟨hlt, hall⟩, ⟨hmem, hnodup⟩, hseen, hrest⟩
      refine ⟨hlt, hseen, hall, hnodup, fun d hd => ⟨?_, hrest d hd⟩⟩
      rintro rfl
      exact hmem hd

theorem decodeCsf_eq_ok : decodeCsf rank s = .ok (l, t) ↔
    ∃ x, l = .csf x ∧ x.modeOrder.length = rank.toNat ∧ ModeOrderValid rank.toNat x ∧
      Reads s (layoutCells (.csf x)) t := by
  simp only [decodeCsf, Reader.bind_eq_ok, readU64_eq_ok, readWords_recognises _ _, readBytes_eq_ok,
    Reader.reject_eq_ok, Reader.lift_eq_ok, checkModeOrder_eq_ok, Reader.pure_eq_ok, layoutCells,
    fixed_append, List.append_assoc, reads_append]
  constructor
  · rintro ⟨nnz, m₁, r₁, modes, m₂, ⟨hlen, r₂⟩, w, _, hw, _, _, ⟨hzero, rfl⟩, _, _,
      ⟨⟨hlt, hnodup, -⟩, rfl⟩, rfl, rfl⟩
    exact ⟨⟨nnz, modes⟩, rfl, hlen, ⟨hlt, hnodup⟩, m₁, r₁, m₂, r₂,
      (readReserved_eq_ok.mp ⟨hw, hzero⟩).2⟩
  · rintro ⟨⟨nnz, modes⟩, rfl, hlen, ⟨hlt, hnodup⟩, m₁, r₁, m₂, r₂, r₃⟩
    obtain ⟨hw, hzero⟩ := readReserved_eq_ok.mpr ⟨rfl, r₃⟩
    exact ⟨nnz, m₁, r₁, modes, m₂, ⟨hlen, r₂⟩, _, t, hw, (), t, ⟨hzero, rfl⟩, (), t,
      ⟨⟨hlt, hnodup, by simp⟩, rfl⟩, rfl, rfl⟩

theorem decodeBlockPaged_eq_ok : decodeBlockPaged s = .ok (l, t) ↔
    ∃ x, l = .blockPaged x ∧ x.layerIndex ≠ some LAYER_INDEX_NONE ∧
      Reads s (fixed (encodeBlockPaged x)) t := by
  simp only [decodeBlockPaged, Reader.bind_eq_ok, readU32_eq_ok, readU64_eq_ok, readU8_eq_ok,
    readBytes_eq_ok, Reader.lift_eq_ok, Exec.orFail_eq_ok, KvRole.fromWire_eq_some,
    BlockTableIndexType.fromWire_eq_some, Reader.reject_eq_ok, Reader.pure_eq_ok,
    encodeBlockPaged, fixed_append, List.append_assoc, reads_append]
  constructor
  · rintro ⟨pageSize, m₁, r₁, numPages, m₂, r₂, axis, m₃, r₃, seqs, m₄, r₄, _, _, r₅, role, m₅,
      ⟨rfl, rfl⟩, wire, m₆, r₆, _, _, r₇, index, m₇, ⟨rfl, rfl⟩, w, _, hw, _, _, ⟨hzero, rfl⟩,
      rfl, rfl⟩
    refine ⟨⟨pageSize, numPages, axis, seqs, role,
      if wire = LAYER_INDEX_NONE then none else some wire, index⟩, rfl, ?_, m₁, r₁, m₂, r₂, m₃, r₃,
      m₄, r₄, m₅, r₅, m₆, ?_, m₇, r₇, (readReserved_eq_ok.mp ⟨hw, hzero⟩).2⟩
    · split <;> simp_all
    · split <;> simp_all
  · rintro ⟨⟨pageSize, numPages, axis, seqs, role, layer, index⟩, rfl, hlayer, m₁, r₁, m₂, r₂, m₃,
      r₃, m₄, r₄, m₅, r₅, m₆, r₆, m₇, r₇, r₈⟩
    obtain ⟨hw, hzero⟩ := readReserved_eq_ok.mpr ⟨rfl, r₈⟩
    refine ⟨_, m₁, r₁, _, m₂, r₂, _, m₃, r₃, _, m₄, r₄, _, m₅, r₅, role, m₅, ⟨rfl, rfl⟩, _, m₆, r₆,
      _, m₇, r₇, index, m₇, ⟨rfl, rfl⟩, _, t, hw, (), t, ⟨hzero, rfl⟩, ?_, rfl⟩
    congr 2
    cases layer with
    | none => rfl
    | some n =>
      have hn : n ≠ LAYER_INDEX_NONE := fun h => hlayer (by rw [h])
      exact (if_neg hn).symm

theorem decodeComposite_eq_ok : decodeComposite s = .ok (l, t) ↔
    ∃ x, l = .composite x ∧ x.WellFormed ∧ Reads s (fixed (encodeComposite x)) t := by
  have hbytes (x : CompositeLayout) : encodeComposite x = [x.rule.ruleByte] ++
      ([x.rule.combineOpByte] ++ (List.replicate 2 0 ++ u32Bytes x.memberCount)) := rfl
  simp only [decodeComposite, Reader.bind_eq_ok, readU32_eq_ok, readU8_eq_ok, readBytes_eq_ok,
    Reader.lift_eq_ok, Reader.reject_eq_ok, Reader.pure_eq_ok, CompositionRule.fromWire_eq_ok,
    CompositeLayout.new_eq_ok, hbytes, fixed_append, reads_append]
  constructor
  · rintro ⟨_, m₁, r₁, _, m₂, r₂, w, _, hw, _, m₃, ⟨hzero, rfl⟩, _, _, r₄, _, _,
      ⟨⟨rfl, rfl⟩, rfl⟩, x, _, ⟨⟨rfl, rfl, hx⟩, rfl⟩, rfl, rfl⟩
    exact ⟨x, rfl, hx, m₁, r₁, m₂, r₂, _, (readReserved_eq_ok.mp ⟨hw, hzero⟩).2, r₄⟩
  · rintro ⟨x, rfl, hx, m₁, r₁, m₂, r₂, m₃, r₃, r₄⟩
    obtain ⟨hw, hzero⟩ := readReserved_eq_ok.mpr ⟨rfl, r₃⟩
    exact ⟨_, m₁, r₁, _, m₂, r₂, _, m₃, hw, (), m₃, ⟨hzero, rfl⟩, _, t, r₄, _, t,
      ⟨⟨rfl, rfl⟩, rfl⟩, x, t, ⟨⟨rfl, rfl, hx⟩, rfl⟩, rfl, rfl⟩

theorem decodeHilbert_eq_ok : decodeHilbert s = .ok (l, t) ↔
    ∃ x, l = .hilbert x ∧ x.WellFormed ∧ Reads s (fixed (encodeHilbert x)) t := by
  simp only [decodeHilbert, Reader.bind_eq_ok, readU32_eq_ok, Reader.lift_eq_ok,
    HilbertLayout.new_eq_ok, Reader.pure_eq_ok, encodeHilbert, fixed_append, reads_append]
  constructor
  · rintro ⟨_, m₁, r₁, _, _, r₂, x, _, ⟨⟨rfl, rfl, hx⟩, rfl⟩, rfl, rfl⟩
    exact ⟨x, rfl, hx, m₁, r₁, r₂⟩
  · rintro ⟨x, rfl, hx, m₁, r₁, r₂⟩
    exact ⟨_, m₁, r₁, _, t, r₂, x, t, ⟨⟨rfl, rfl, hx⟩, rfl⟩, rfl, rfl⟩

theorem decodePrivateExtension_eq_ok {tag : UInt8} :
    decodePrivateExtension tag s = .ok (l, t) ↔
      ∃ x, l = .privateExtension x ∧ x.tag = tag ∧ x.WellFormed ∧
        x.extensionData.length < UInt32.size ∧ Reads s (fixed (encodePrivateExtension x)) t := by
  simp only [decodePrivateExtension, Reader.bind_eq_ok, readU32_eq_ok, readU64_eq_ok,
    readBytes_eq_ok, Reader.lift_eq_ok, PrivateExtensionLayout.new_eq_ok, Reader.pure_eq_ok,
    encodePrivateExtension, fixed_append, List.append_assoc, reads_append]
  constructor
  · rintro ⟨_, m₁, r₁, len, m₂, r₂, _, _, ⟨hlen, r₃⟩, x, _, ⟨⟨rfl, rfl, rfl, hx⟩, rfl⟩, rfl, rfl⟩
    refine ⟨x, rfl, rfl, hx, by rw [hlen]; exact len.toNat_lt, m₁, r₁, m₂, ?_, r₃⟩
    rwa [hlen, UInt32.ofNat_toNat]
  · rintro ⟨x, rfl, rfl, hx, hlt, m₁, r₁, m₂, r₂, r₃⟩
    have hlen : (UInt32.ofNat x.extensionData.length).toNat = x.extensionData.length :=
      UInt32.toNat_ofNat_of_lt' hlt
    exact ⟨_, m₁, r₁, _, m₂, r₂, _, t, ⟨hlen.symm, r₃⟩, x, t, ⟨⟨rfl, rfl, rfl, hx⟩, rfl⟩, rfl, rfl⟩

/-- A level the reader can return: its strides are present exactly where its tags announce
them, and its vectors have length `rank`. -/
structure LevelFits (rank : ℕ) (lv : TiledLevel) : Prop where
  outerStrides_iff : lv.outerStrides = none ↔ lv.outerLayout ≠ TAG_STRIDED
  innerStrides_iff : lv.innerStrides = none ↔ lv.innerLayout ≠ TAG_STRIDED
  levelRank : LevelRank rank lv

theorem decodeStrides_recognises {tag : UInt8} : Recognises (decodeStrides rank tag)
    (fun o => (o = none ↔ tag ≠ TAG_STRIDED) ∧ ∀ l, o = some l → l.length = rank.toNat)
    (fun o => fixed (stridesBytes tag o)) := by
  intro s o t
  unfold decodeStrides stridesBytes
  split
  · next htag =>
    simp only [Reader.bind_eq_ok, readStrides_recognises _ s, Reader.pure_eq_ok]
    constructor
    · rintro ⟨l, m, ⟨hlen, hr⟩, rfl, rfl⟩
      exact ⟨⟨by simp [htag], by simpa using hlen⟩, hr⟩
    · rintro ⟨⟨hnone, hlen⟩, hr⟩
      cases o with
      | none => exact absurd htag (hnone.mp rfl)
      | some l => exact ⟨l, t, ⟨hlen l rfl, hr⟩, rfl, rfl⟩
  · next htag =>
    simp only [Reader.pure_eq_ok, fixed_nil, reads_nil]
    constructor
    · rintro ⟨rfl, rfl⟩
      exact ⟨⟨by simpa using htag, by simp⟩, rfl⟩
    · rintro ⟨⟨hnone, -⟩, rfl⟩
      exact ⟨hnone.mpr htag, rfl⟩

theorem decodeTiledLevel_recognises : Recognises (decodeTiledLevel rank)
    (LevelFits rank.toNat) (fun lv => fixed (tiledLevelBytes lv)) := by
  intro s lv t
  have hbytes (lv : TiledLevel) : tiledLevelBytes lv =
      lv.tileShape.flatMap u64Bytes ++ ([lv.outerLayout] ++ ([lv.innerLayout] ++ ([0, 0] ++
        (stridesBytes lv.outerLayout (lv.outerStrides.map OuterStrides.strides) ++
          stridesBytes lv.innerLayout (lv.innerStrides.map InnerStrides.strides))))) := by
    simp [tiledLevelBytes]
  simp only [decodeTiledLevel, Reader.bind_eq_ok, readDims_recognises _ _, readU8_eq_ok,
    readBytes_eq_ok, Reader.reject_eq_ok, not_not, decodeStrides_recognises _, Reader.pure_eq_ok,
    hbytes, fixed_append, reads_append]
  constructor
  · rintro ⟨tileShape, m₁, ⟨hshape, r₁⟩, outer, m₂, r₂, inner, m₃, r₃, _, _, ⟨-, r₄⟩, _, m₄,
      ⟨rfl, rfl⟩, outerStrides, m₅, ⟨⟨houter, houterLen⟩, r₅⟩, innerStrides, m₆,
      ⟨⟨hinner, hinnerLen⟩, r₆⟩, rfl, rfl⟩
    refine ⟨⟨by simpa using houter, by simpa using hinner, hshape, ?_, ?_⟩,
      m₁, r₁, m₂, r₂, m₃, r₃, m₄, r₄, m₅, ?_, ?_⟩
    · cases outerStrides <;> simp_all
    · cases innerStrides <;> simp_all
    · simpa [Option.map_map, Function.comp_def] using r₅
    · simpa [Option.map_map, Function.comp_def] using r₆
  · rintro ⟨⟨houter, hinner, hshape, houterLen, hinnerLen⟩, m₁, r₁, m₂, r₂, m₃, r₃, m₄, r₄, m₅, r₅,
      r₆⟩
    refine ⟨_, m₁, ⟨hshape, r₁⟩, _, m₂, r₂, _, m₃, r₃, _, m₄, ⟨rfl, r₄⟩, (), m₄, ⟨rfl, rfl⟩,
      _, m₅, ⟨⟨by simpa using houter, ?_⟩, r₅⟩, _, t, ⟨⟨by simpa using hinner, ?_⟩, r₆⟩, ?_, rfl⟩
    · intro l hl
      obtain ⟨os, hos, rfl⟩ := Option.map_eq_some_iff.mp hl
      exact houterLen os hos
    · intro l hl
      obtain ⟨is, his, rfl⟩ := Option.map_eq_some_iff.mp hl
      exact hinnerLen is his
    · simp [Option.map_map, Function.comp_def]

theorem decodeInnerTiled_eq_ok {tag : UInt8} {inner : Decoder TiledLayout}
    {o : Option TiledLayout} : decodeInnerTiled tag inner s = .ok (o, t) ↔
      (tag = TAG_TILED ∧ ∃ x, o = some x ∧ inner s = .ok (x, t)) ∨
        (tag ≠ TAG_TILED ∧ o = none ∧ t = s) := by
  unfold decodeInnerTiled
  split
  · next htag =>
    simp only [Reader.bind_eq_ok, Reader.pure_eq_ok, htag, true_and, ne_eq, not_true_eq_false,
      false_and, or_false]
    constructor
    · rintro ⟨x, m, hx, rfl, rfl⟩
      exact ⟨x, rfl, hx⟩
    · rintro ⟨x, rfl, hx⟩
      exact ⟨x, t, hx, rfl, rfl⟩
  · next htag => simp [htag]

theorem decodeTiled_recognises {room : ℕ} (hroom : room ≤ MAX_TILED_DEPTH) :
    Recognises (decodeTiled rank room)
      (fun x => x.WellFormed ∧ x.AllLevels (LevelRank rank.toNat) ∧ x.depth ≤ room)
      (fun x => fixed (tiledBytes x)) := by
  induction room with
  | zero =>
    intro s x t
    have hpos : 0 < x.depth := by cases x <;> simp [TiledLayout.depth]
    simp only [decodeTiled, Reader.lift_eq_ok, Exec.fail_ne_ok, false_and, false_iff]
    rintro ⟨⟨-, -, hdepth⟩, -⟩
    omega
  | succ room ih =>
    have ih := ih (by omega)
    intro s x t
    simp only [decodeTiled, Reader.bind_eq_ok, decodeTiledLevel_recognises _,
      decodeInnerTiled_eq_ok, ih _, Reader.lift_eq_ok, TiledLayout.new_eq_ok]
    constructor
    · rintro ⟨lv, m₁, ⟨hlv, r₁⟩, innerTiled, m₂, hinner, ⟨rfl, hwf, hdepth⟩, rfl⟩
      rcases hinner with ⟨htag, inner, rfl, ⟨-, hrank, hd⟩, r₂⟩ | ⟨-, rfl, rfl⟩
      · refine ⟨⟨hwf, ⟨hlv.levelRank, hrank⟩, Nat.succ_le_succ hd⟩, ?_⟩
        simp only [TiledLayout.ofParts, tiledBytes, if_pos htag, fixed_append, reads_append]
        exact ⟨m₁, r₁, r₂⟩
      · exact ⟨⟨hwf, hlv.levelRank, Nat.succ_le_succ (Nat.zero_le _)⟩, r₁⟩
    · rintro ⟨⟨hwf, hrank, hdepth⟩, hr⟩
      cases x with
      | flat lv =>
        have htag : ¬ lv.innerLayout = TAG_TILED := hwf.innerTiled_iff.mp rfl
        exact ⟨lv, t, ⟨⟨hwf.outerStrides_iff, hwf.innerStrides_iff, hrank⟩, hr⟩, none, t,
          .inr ⟨htag, rfl, rfl⟩, ⟨rfl, hwf, by omega⟩, rfl⟩
      | nested lv inner =>
        obtain ⟨hlv, hinner⟩ := hwf
        have htag : lv.innerLayout = TAG_TILED := by
          by_contra hne
          exact absurd (hlv.innerTiled_iff.mpr hne) (by decide)
        simp only [tiledBytes, if_pos htag, fixed_append, reads_append] at hr
        obtain ⟨m₁, r₁, r₂⟩ := hr
        have hd : inner.depth ≤ room := Nat.le_of_succ_le_succ hdepth
        exact ⟨lv, m₁, ⟨⟨hlv.outerStrides_iff, hlv.innerStrides_iff, hrank.1⟩, r₁⟩, some inner, t,
          .inl ⟨htag, inner, rfl, ⟨hinner, hrank.2, hd⟩, r₂⟩, ⟨rfl, ⟨hlv, hinner⟩, by omega⟩, rfl⟩

theorem decodeLayoutPayload_private {tag : UInt8} (htag : isPrivateTag tag) :
    decodeLayoutPayload tag rank = decodePrivateExtension tag := by
  unfold decodeLayoutPayload
  split <;> first | exact absurd htag (by decide) | exact if_pos htag

/-- The payload reader returns exactly the layouts that fit the header, each where its
format stands next. -/
theorem decodeLayoutPayload_recognises {tag : UInt8} : Recognises (decodeLayoutPayload tag rank)
    (fun l => l.tag = tag ∧ LayoutFits rank.toNat l) layoutCells := by
  intro s l t
  constructor
  · intro h
    unfold decodeLayoutPayload at h
    split at h
    · obtain ⟨rfl, rfl⟩ := Reader.pure_eq_ok.mp h
      exact ⟨⟨rfl, trivial, trivial, trivial⟩, reads_nil.mpr rfl⟩
    · obtain ⟨rfl, rfl⟩ := Reader.pure_eq_ok.mp h
      exact ⟨⟨rfl, trivial, trivial, trivial⟩, reads_nil.mpr rfl⟩
    · obtain ⟨x, rfl, hlen, hr⟩ := decodeStrided_eq_ok.mp h
      exact ⟨⟨rfl, trivial, hlen, trivial⟩, hr⟩
    · obtain ⟨x, m, hx, ht⟩ := Reader.bind_eq_ok.mp h
      obtain ⟨rfl, rfl⟩ := Reader.pure_eq_ok.mp ht
      obtain ⟨⟨hwf, hrank, hdepth⟩, hr⟩ := (decodeTiled_recognises le_rfl _ _ _).mp hx
      exact ⟨⟨rfl, ⟨hwf, hdepth⟩, hrank, trivial⟩, hr⟩
    · obtain ⟨x, rfl, hwf, hlen, hr⟩ := decodeMorton_eq_ok.mp h
      exact ⟨⟨rfl, hwf, hlen, trivial⟩, hr⟩
    · obtain ⟨x, rfl, hr⟩ := decodeCoo_eq_ok.mp h
      exact ⟨⟨rfl, trivial, trivial, trivial⟩, hr⟩
    · obtain ⟨x, rfl, hr⟩ := decodeCsr_eq_ok.mp h
      exact ⟨⟨rfl, trivial, trivial, trivial⟩, hr⟩
    · obtain ⟨x, rfl, hr⟩ := decodeCsc_eq_ok.mp h
      exact ⟨⟨rfl, trivial, trivial, trivial⟩, hr⟩
    · obtain ⟨x, rfl, hlen, hmodes, hr⟩ := decodeCsf_eq_ok.mp h
      exact ⟨⟨rfl, trivial, hlen, hmodes⟩, hr⟩
    · obtain ⟨x, rfl, hlayer, hr⟩ := decodeBlockPaged_eq_ok.mp h
      exact ⟨⟨rfl, trivial, trivial, hlayer⟩, hr⟩
    · obtain ⟨x, rfl, hwf, hr⟩ := decodeComposite_eq_ok.mp h
      exact ⟨⟨rfl, hwf, trivial, trivial⟩, hr⟩
    · obtain ⟨x, rfl, hwf, hr⟩ := decodeHilbert_eq_ok.mp h
      exact ⟨⟨rfl, hwf, trivial, trivial⟩, hr⟩
    · split at h
      · obtain ⟨x, rfl, htag, hwf, hlen, hr⟩ := decodePrivateExtension_eq_ok.mp h
        exact ⟨⟨htag, hwf, trivial, hlen⟩, hr⟩
      · have hfail (e : Error) : Reader.lift (Exec.fail e : Result LayoutDescriptor) s ≠
            .ok (l, t) := by simp
        split_ifs at h <;> exact absurd h (hfail _)
  · rintro ⟨⟨rfl, hwf, hrank, hrep⟩, hr⟩
    cases l with
    | rowMajor => exact Reader.pure_eq_ok.mpr ⟨rfl, reads_nil.mp hr⟩
    | colMajor => exact Reader.pure_eq_ok.mpr ⟨rfl, reads_nil.mp hr⟩
    | strided x => exact decodeStrided_eq_ok.mpr ⟨x, rfl, hrank, hr⟩
    | tiled x =>
      refine Reader.bind_eq_ok.mpr ⟨x, t, ?_, Reader.pure_eq_ok.mpr ⟨rfl, rfl⟩⟩
      exact (decodeTiled_recognises le_rfl s x t).mpr ⟨⟨hwf.1, hrank, hwf.2⟩, hr⟩
    | morton x => exact decodeMorton_eq_ok.mpr ⟨x, rfl, hwf, hrank, hr⟩
    | coo x => exact decodeCoo_eq_ok.mpr ⟨x, rfl, hr⟩
    | csr x => exact decodeCsr_eq_ok.mpr ⟨x, rfl, hr⟩
    | csc x => exact decodeCsc_eq_ok.mpr ⟨x, rfl, hr⟩
    | csf x => exact decodeCsf_eq_ok.mpr ⟨x, rfl, hrank, hrep, hr⟩
    | blockPaged x => exact decodeBlockPaged_eq_ok.mpr ⟨x, rfl, hrep, hr⟩
    | composite x => exact decodeComposite_eq_ok.mpr ⟨x, rfl, hwf, hr⟩
    | hilbert x => exact decodeHilbert_eq_ok.mpr ⟨x, rfl, hwf, hr⟩
    | privateExtension x =>
      change decodeLayoutPayload x.tag rank s = _
      rw [decodeLayoutPayload_private hwf]
      exact decodePrivateExtension_eq_ok.mpr ⟨x, rfl, rfl, hwf, hrep, hr⟩
    | unknown x => exact absurd hrep id

end Reader
end Hurray.Descriptor
