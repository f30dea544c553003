import Hurray.Descriptor.Contract

/-!
The rules across the sections of a descriptor, against what the constructor and the decoder admit.
Of the quantizations of a block-paged layout they take a per-channel one on any axis but the paged
one, although the layout has no axis past the second.
-/
namespace Hurray.Descriptor
open Hurray.Base Hurray.Core

/-! ### The rules -/

/-- The composition rules of a block-paged layout. -/
def Composes (l : BlockPagedLayout) : QuantizationDescriptor → Prop
  | .perChannelAffine x => x.axis = 1 ∨ x.axis = 2
  | .perBlockAffine x => x.axis = 0 ∧ x.blockSize = l.pageSize
  | _ => True

structure CrossRules (d : TensorDescriptor) : Prop where
  head : ∀ l, d.layout = .composite l →
    d.buffers = [] ∧ d.byteOffset = 0 ∧ d.quantization = none ∧ d.compositeMember = none
  buffers : (∀ l, d.layout ≠ .composite l) → 1 ≤ d.buffers.length ∧ d.buffers.length ≤ 255
  extension : d.extensionType.isSome ↔ ElementType.IsExtensionTag d.elementType.tag
  shard : ∀ s, d.shard = some s → s.parentShape.length = d.shape.rank ∧
    (∀ l, d.layout ≠ .csf l) ∧ ∀ l, d.layout ≠ .blockPaged l
  quantization : ∀ l q, d.layout = .blockPaged l → d.quantization = some q →
    ∃ qd n, QuantizationDescriptor.decode q = .ok (qd, n) ∧ Composes l qd

/-- A block-paged layout with bytes of a per-channel quantization past the second axis. -/
def Astray (layout : LayoutDescriptor) (quantization : Option Bytes) : Prop :=
  ∃ l q x n, layout = .blockPaged l ∧ quantization = some q ∧
    QuantizationDescriptor.decode q = .ok (.perChannelAffine x, n) ∧ 2 < x.axis

/-! ### What is admitted -/

/-- What the constructor asks of a quantization. -/
def Compatible (l : BlockPagedLayout) : QuantizationDescriptor → Prop
  | .perChannelAffine x => x.axis ≠ 0
  | .perBlockAffine x => x.axis = 0 ∧ x.blockSize = l.pageSize
  | _ => True

section Rules
variable {l : BlockPagedLayout} {qd : QuantizationDescriptor} {d : TensorDescriptor}

theorem compatible_iff {u : Unit} : l.validateQuantizationCompatibility qd.schemeTag.tag
    (TensorDescriptor.quantAxisAndBlockSize qd).1 (TensorDescriptor.quantAxisAndBlockSize qd).2 =
      .ok u ↔ Compatible l qd := by
  cases qd with
  | perChannelAffine x => exact Exec.reject_eq_ok
  | perBlockAffine x =>
    show (Exec.reject (x.axis ≠ 0) _ >>= fun _ => Exec.reject (x.blockSize ≠ l.pageSize) _) =
      .ok u ↔ _
    simp only [Exec.bind_eq_ok, Exec.reject_eq_ok, exists_const, not_not, Compatible]
  | _ => exact iff_of_true rfl trivial

theorem composes_iff : Composes l qd ↔
    Compatible l qd ∧ ∀ x, qd = .perChannelAffine x → ¬ 2 < x.axis := by
  cases qd with
  | perChannelAffine x =>
    simp only [Composes, Compatible, QuantizationDescriptor.perChannelAffine.injEq, forall_eq',
      UInt32.lt_iff_toNat_lt, ← UInt32.toNat_inj, ne_eq]
    have h0 : (0 : UInt32).toNat = 0 := rfl
    have h1 : (1 : UInt32).toNat = 1 := rfl
    have h2 : (2 : UInt32).toNat = 2 := rfl
    rw [h0, h1, h2]
    omega
  | _ => simp [Composes, Compatible]

theorem checkPagedQuantization_eq_ok {layout : LayoutDescriptor} {quantization : Option Bytes}
    {u : Unit} : TensorDescriptor.checkPagedQuantization layout quantization = .ok u ↔
      ∀ l q, layout = .blockPaged l → quantization = some q →
        ∃ qd n, QuantizationDescriptor.decode q = .ok (qd, n) ∧ Compatible l qd := by
  unfold TensorDescriptor.checkPagedQuantization
  split
  · next l q =>
    constructor
    · intro h l' q' hl hq
      cases hl
      cases hq
      obtain ⟨⟨qd, n⟩, hdecode, hcheck⟩ := Exec.bind_eq_ok.mp h
      exact ⟨qd, n, hdecode, compatible_iff.mp hcheck⟩
    · intro h
      obtain ⟨qd, n, hdecode, hcompatible⟩ := h l q rfl rfl
      exact Exec.bind_eq_ok.mpr ⟨(qd, n), hdecode, compatible_iff.mpr hcompatible⟩
  · next hother => exact iff_of_true rfl fun l q hl hq => (hother l q hl hq).elim

theorem quantization_iff (h : d.CrossSection) :
    (∀ l q, d.layout = .blockPaged l → d.quantization = some q →
      ∃ qd n, QuantizationDescriptor.decode q = .ok (qd, n) ∧ Composes l qd) ↔
        ¬ Astray d.layout d.quantization := by
  have hpaged := checkPagedQuantization_eq_ok.mp h.pagedQuantization
  constructor
  · intro hrules hastray
    obtain ⟨l, q, x, n, hl, hq, hdecode, haxis⟩ := hastray
    obtain ⟨qd, m, hdecode', hcomposes⟩ := hrules l q hl hq
    rw [hdecode] at hdecode'
    cases hdecode'
    exact (composes_iff.mp hcomposes).2 x rfl haxis
  · intro hastray l q hl hq
    obtain ⟨qd, n, hdecode, hcompatible⟩ := hpaged l q hl hq
    refine ⟨qd, n, hdecode, composes_iff.mpr ⟨hcompatible, ?_⟩⟩
    intro x hx haxis
    rw [hx] at hdecode
    exact hastray ⟨l, q, x, n, hl, hq, hdecode, haxis⟩

theorem crossRules_iff (h : d.CrossSection)
    (hmember : d.compositeMember.isSome → d.layout.isVirtual = false) :
    CrossRules d ↔ ¬ Astray d.layout d.quantization := by
  rw [← quantization_iff h]
  constructor
  · intro hrules
    exact hrules.quantization
  · intro hquantization
    have hbuffers := h.buffers
    have hshard := h.shard
    constructor
    · intro l hl
      rw [hl] at hbuffers hmember
      simp only [TensorDescriptor.checkBuffers, TensorDescriptor.isComposite,
        LayoutDescriptor.isVirtual, if_true, Exec.bind_eq_ok, Exec.reject_eq_ok, exists_const,
        not_not] at hbuffers
      obtain ⟨hempty, hoffset, hnone⟩ := hbuffers
      refine ⟨hempty, hoffset, Option.not_isSome_iff_eq_none.mp hnone, ?_⟩
      apply Option.not_isSome_iff_eq_none.mp
      intro hsome
      cases hmember hsome
    · intro hnot
      refine ⟨?_, h.bufferCount⟩
      have hvirtual : d.layout.isVirtual = false := by
        cases hl : d.layout with
        | composite l => exact absurd hl (hnot l)
        | _ => rfl
      rw [TensorDescriptor.checkBuffers, TensorDescriptor.isComposite, hvirtual] at hbuffers
      exact List.length_pos_of_ne_nil (Exec.reject_eq_ok.mp hbuffers)
    · rw [h.extension]
      exact decide_eq_true_iff
    · intro s hs
      rw [hs] at hshard
      simp only [TensorDescriptor.checkShard, Exec.bind_eq_ok, Exec.reject_eq_ok, exists_const,
        not_not] at hshard
      obtain ⟨hrank, hpaged, hcsf⟩ := hshard
      refine ⟨hrank, ?_, ?_⟩
      · intro l hl
        rw [hl] at hcsf
        exact hcsf rfl
      · intro l hl
        rw [hl] at hpaged
        exact hpaged rfl
    · exact hquantization

/-! ### What bytes say -/

/-- The fields of a descriptor stand at the front of the bytes, whether or not it is admitted. -/
def Holds (b : Bytes) (f : TensorDescriptor) : Prop :=
  FieldsValid f ∧ ∃ length w, Matches (descriptorCells f length) w ∧ w <+: b

theorem holds_of_decode {b : Bytes} (h : decode b = .ok d) : Holds b d := by
  obtain ⟨hd, length, w, hw, hpre, -⟩ := decode_eq_ok_iff.mp h
  exact ⟨hd.fields, length, w, hw, hpre⟩

/-- The fields as a reader finds them past the length. -/
theorem Holds.reads {b : Bytes} {f : TensorDescriptor} (h : Holds b f) (hlen : 10 ≤ b.length) :
    b[4]? = some f.versionMajor ∧ b[5]? = some f.versionMinor ∧
      ∃ t, Reads (⟨b, 10, b.length, hlen, Nat.le_refl _⟩ : ByteCursor) (fieldCells f) t := by
  obtain ⟨-, length, w, hw, hpre⟩ := h
  obtain ⟨p, v, hp, hv, rfl⟩ := matches_append.mp hw
  obtain rfl := matches_fixed.mp hp
  obtain ⟨-, -, hmajor, hminor, -⟩ := prefix_iff.mp ((List.prefix_append _ v).trans hpre)
  have htotal := hpre.length_le
  rw [List.length_append, length_prefixBytes] at htotal
  refine ⟨hmajor, hminor, ⟨b, 10 + v.length, b.length, htotal, Nat.le_refl _⟩, v, hv, rfl, rfl, rfl,
    ?_⟩
  obtain ⟨rest, rfl⟩ := hpre
  dsimp only
  rw [List.append_assoc, List.drop_left' (length_prefixBytes _ _ _)]
  exact List.prefix_append v rest

theorem Holds.unique {b : Bytes} {f g : TensorDescriptor} (hf : Holds b f) (hg : Holds b g) :
    f = g := by
  have hlen : 10 ≤ b.length := by
    obtain ⟨-, length, w, hw, hpre⟩ := hf
    have hword := hpre.length_le
    rw [hw.length_eq, length_descriptorCells] at hword
    omega
  obtain ⟨hmajor, hminor, t, ht⟩ := hf.reads hlen
  obtain ⟨hmajor', hminor', u, hu⟩ := hg.reads hlen
  rw [hmajor, Option.some.injEq] at hmajor'
  rw [hminor, Option.some.injEq] at hminor'
  exact ((decodeFields_recognises f.versionMajor f.versionMinor).unambiguous _ f g t u
    ⟨rfl, rfl, hf.1⟩ ⟨hmajor'.symm, hminor'.symm, hg.1⟩ ht hu).1

/-- Every admitted descriptor obeys the rules, but for a block-paged one whose quantization goes
astray. -/
theorem admitted_obeys_rules_iff (d : TensorDescriptor) :
    (∀ major minor ty shape off layout buffers q shard st ext,
      TensorDescriptor.new major minor ty shape off layout buffers q shard st ext = .ok d →
        (CrossRules d ↔ ¬ Astray layout q)) ∧
    ∀ b, decode b = .ok d →
      (CrossRules d ↔ ∀ f, Holds b f → ¬ Astray f.layout f.quantization) := by
  constructor
  · intro major minor ty shape off layout buffers q shard st ext h
    obtain ⟨rfl, hcross⟩ := TensorDescriptor.new_eq_ok.mp h
    exact crossRules_iff hcross nofun
  · intro b h
    obtain ⟨hd, -⟩ := decode_eq_ok_iff.mp h
    rw [crossRules_iff hd.crossSection hd.member]
    constructor
    · intro hastray f hf
      rw [hf.unique (holds_of_decode h)]
      exact hastray
    · intro hall
      exact hall d (holds_of_decode h)

end Rules

/-- A symmetric per-channel quantization along an axis. -/
def perChannelBytes (axis : UInt32) : Bytes :=
  [0x02, 0x01, 0x01, 0x00] ++ u32Bytes axis ++ u32Bytes 3 ++ u32Bytes 0xFFFFFFFF ++
    [0x03, 0x00, 0x00, 0x00]

/-- A block-paged tensor of 3 tokens, 4 heads and 8 features, quantized along an axis. -/
def pagedExample (axis : UInt32) : TensorDescriptor :=
  { workedExample with
    shape := ⟨[3, 4, 8], by decide⟩
    layout := .blockPaged ⟨16, 2, 0, 1, .key, some 0, .u32⟩
    buffers := (List.replicate 4 workedExample.buffers).flatten
    quantization := some (perChannelBytes axis) }

/-- The constructor on the fields of a descriptor. -/
def rebuild (d : TensorDescriptor) : Result TensorDescriptor :=
  TensorDescriptor.new d.versionMajor d.versionMinor d.elementType d.shape d.byteOffset d.layout
    d.buffers d.quantization d.shard d.statistics d.extensionType

theorem decode_perChannelBytes_one : QuantizationDescriptor.decode (perChannelBytes 1) =
    .ok (.perChannelAffine ⟨1, 3, none, .float32⟩, 20) := by decide

theorem decode_perChannelBytes_three : QuantizationDescriptor.decode (perChannelBytes 3) =
    .ok (.perChannelAffine ⟨3, 3, none, .float32⟩, 20) := by decide

theorem admitted_obeys_rules_iff_worked : CrossRules (pagedExample 1) ∧
    ∃ b, decode b = .ok (pagedExample 1) ∧
      (CrossRules (pagedExample 1) ↔ ∀ f, Holds b f → ¬ Astray f.layout f.quantization) := by
  have hnew : rebuild (pagedExample 1) = .ok (pagedExample 1) := by decide
  have hdecode : (encode (pagedExample 1) >>= decode) = .ok (pagedExample 1) := by decide +kernel
  obtain ⟨b, -, hb⟩ := Exec.bind_eq_ok.mp hdecode
  refine ⟨?_, b, hb, (admitted_obeys_rules_iff _).2 b hb⟩
  rw [(admitted_obeys_rules_iff _).1 _ _ _ _ _ _ _ _ _ _ _ hnew]
  intro hastray
  obtain ⟨l, q, x, n, -, hq, hx, haxis⟩ := hastray
  cases hq
  rw [decode_perChannelBytes_one] at hx
  cases hx
  exact absurd haxis (by decide)

/-- A per-channel quantization on an axis that the layout does not have is admitted. -/
theorem third_axis_admitted : rebuild (pagedExample 3) = .ok (pagedExample 3) ∧
    (encode (pagedExample 3) >>= decode) = .ok (pagedExample 3) ∧
    ¬ CrossRules (pagedExample 3) := by
  refine ⟨by decide, by decide +kernel, ?_⟩
  intro h
  obtain ⟨qd, n, hdecode, hcomposes⟩ := h.quantization _ _ rfl rfl
  rw [decode_perChannelBytes_three] at hdecode
  cases hdecode
  exact absurd hcomposes (by unfold Composes; decide)

end Hurray.Descriptor
