import Hurray.Descriptor.Format

/-!
The decoder of descriptors on bytes that nobody vouches for: whatever they are, it
returns a descriptor or an error.
-/
namespace Hurray.Descriptor
open Hurray.Base Hurray.Core

/-! ### The fields -/

theorem safe_readBytes (n : ℕ) : Reader.Safe (readBytes n) := by
  intro c
  unfold readBytes
  split
  · exact Exec.fail_ne_panic
  · exact Exec.ok_ne_panic

theorem safe_readU8 : Reader.Safe readU8 := by
  apply Reader.safe_bind (safe_readBytes 1)
  intro b hb
  apply Reader.safe_lift
  obtain ⟨c, d, hread⟩ := hb
  have hlen : b.length = 1 := (readBytes_eq_ok.mp hread).1
  intro hpanic
  rw [Exec.index_eq_panic] at hpanic
  omega

theorem safe_readU32 : Reader.Safe readU32 :=
  Reader.safe_bind (safe_readBytes 4) fun _ _ => Reader.safe_pure

theorem safe_readU64 : Reader.Safe readU64 :=
  Reader.safe_bind (safe_readBytes 8) fun _ _ => Reader.safe_pure

theorem safe_readI64 : Reader.Safe readI64 :=
  Reader.safe_bind (safe_readBytes 8) fun _ _ => Reader.safe_pure

theorem safe_readBool : Reader.Safe readBool :=
  Reader.safe_bind safe_readU8 fun _ _ => Reader.safe_pure

theorem safe_readF64 : Reader.Safe readF64 :=
  Reader.safe_bind safe_readU64 fun _ _ => Reader.safe_pure

/-! ### The layouts -/

section Layout
variable (rank : UInt32)

theorem TiledLevel.check_safe (lv : TiledLevel) (hasInner : Bool) : (lv.check hasInner).Safe := by
  unfold TiledLevel.check
  repeat
    first
      | exact Exec.reject_ne_panic
      | exact Exec.safe_bind Exec.reject_ne_panic fun _ _ => Exec.reject_ne_panic
      | apply Exec.safe_bind Exec.reject_ne_panic; intro _ _

theorem TiledLayout.newAtDepth_safe (depth : ℕ) (l : TiledLayout) :
    (TiledLayout.newAtDepth depth l).Safe := by
  induction l generalizing depth with
  | flat lv =>
    apply Exec.safe_bind Exec.reject_ne_panic
    intro _ _
    exact Exec.safe_bind (TiledLevel.check_safe lv false) fun _ _ => Exec.ok_ne_panic
  | nested lv inner ih =>
    apply Exec.safe_bind Exec.reject_ne_panic
    intro _ _
    apply Exec.safe_bind (TiledLevel.check_safe lv true)
    intro _ _
    exact Exec.safe_bind (ih (depth + 1)) fun _ _ => Exec.ok_ne_panic

theorem safe_decodeStrides (tag : UInt8) : Reader.Safe (decodeStrides rank tag) := by
  unfold decodeStrides
  split
  · exact Reader.safe_bind (Reader.safe_many safe_readI64 _) fun _ _ => Reader.safe_pure
  · exact Reader.safe_pure

theorem safe_decodeTiledLevel : Reader.Safe (decodeTiledLevel rank) :=
  Reader.safe_bind (Reader.safe_many safe_readU64 _) fun _ _ =>
  Reader.safe_bind safe_readU8 fun outer _ =>
  Reader.safe_bind safe_readU8 fun inner _ =>
  Reader.safe_bind (safe_readBytes 2) fun _ _ =>
  Reader.safe_bind Reader.safe_reject fun _ _ =>
  Reader.safe_bind (safe_decodeStrides rank outer) fun _ _ =>
  Reader.safe_bind (safe_decodeStrides rank inner) fun _ _ => Reader.safe_pure

theorem safe_decodeTiled (room : ℕ) : Reader.Safe (decodeTiled rank room) := by
  induction room with
  | zero => exact Reader.safe_lift Exec.fail_ne_panic
  | succ room ih =>
    have hinner (tag : UInt8) : Reader.Safe (decodeInnerTiled tag (decodeTiled rank room)) := by
      unfold decodeInnerTiled
      split
      · exact Reader.safe_bind ih fun _ _ => Reader.safe_pure
      · exact Reader.safe_pure
    apply Reader.safe_bind (safe_decodeTiledLevel rank)
    intro lv _
    apply Reader.safe_bind (hinner lv.innerLayout)
    intro inner _
    exact Reader.safe_lift (TiledLayout.newAtDepth_safe 0 _)

theorem safe_decodeMorton : Reader.Safe (decodeMorton rank) := by
  have hnew (bits : List UInt32) : (MortonLayout.new bits).Safe :=
    Exec.safe_bind Exec.reject_ne_panic fun _ _ =>
    Exec.safe_bind Exec.reject_ne_panic fun _ _ => Exec.ok_ne_panic
  exact Reader.safe_bind (Reader.safe_many safe_readU32 _) fun bits _ =>
    Reader.safe_bind (Reader.safe_lift (hnew bits)) fun _ _ => Reader.safe_pure

theorem safe_decodeCoo : Reader.Safe decodeCoo :=
  Reader.safe_bind safe_readU64 fun _ _ =>
  Reader.safe_bind safe_readBool fun _ _ =>
  Reader.safe_bind (safe_readBytes 7) fun _ _ =>
  Reader.safe_bind Reader.safe_reject fun _ _ => Reader.safe_pure

theorem safe_decodeNnz (field : String) : Reader.Safe (decodeNnz field) :=
  Reader.safe_bind safe_readU64 fun _ _ =>
  Reader.safe_bind (safe_readBytes 8) fun _ _ =>
  Reader.safe_bind Reader.safe_reject fun _ _ => Reader.safe_pure

theorem checkModeOrder_safe (level : ℕ) (seen modes : List UInt32) :
    (checkModeOrder rank level seen modes).Safe := by
  induction modes generalizing level seen with
  | nil => exact Exec.ok_ne_panic
  | cons dim rest ih =>
    exact Exec.safe_bind Exec.reject_ne_panic fun _ _ =>
      Exec.safe_bind Exec.reject_ne_panic fun _ _ => ih (level + 1) (dim :: seen)

theorem safe_decodeCsf : Reader.Safe (decodeCsf rank) :=
  Reader.safe_bind safe_readU64 fun _ _ =>
  Reader.safe_bind (Reader.safe_many safe_readU32 _) fun modes _ =>
  Reader.safe_bind (safe_readBytes 8) fun _ _ =>
  Reader.safe_bind Reader.safe_reject fun _ _ =>
  Reader.safe_bind (Reader.safe_lift (checkModeOrder_safe rank 0 [] modes)) fun _ _ =>
  Reader.safe_pure

theorem safe_decodeBlockPaged : Reader.Safe decodeBlockPaged :=
  Reader.safe_bind safe_readU32 fun _ _ =>
  Reader.safe_bind safe_readU64 fun _ _ =>
  Reader.safe_bind safe_readU32 fun _ _ =>
  Reader.safe_bind safe_readU32 fun _ _ =>
  Reader.safe_bind safe_readU8 fun _ _ =>
  Reader.safe_bind (Reader.safe_lift Exec.orFail_ne_panic) fun _ _ =>
  Reader.safe_bind safe_readU32 fun _ _ =>
  Reader.safe_bind safe_readU8 fun _ _ =>
  Reader.safe_bind (Reader.safe_lift Exec.orFail_ne_panic) fun _ _ =>
  Reader.safe_bind (safe_readBytes 6) fun _ _ =>
  Reader.safe_bind Reader.safe_reject fun _ _ => Reader.safe_pure

theorem CompositionRule.fromWire_safe (rule combineOp : UInt8) :
    (CompositionRule.fromWire rule combineOp).Safe := by
  unfold CompositionRule.fromWire
  split_ifs <;> first | exact Exec.fail_ne_panic | exact Exec.ok_ne_panic

theorem safe_decodeComposite : Reader.Safe decodeComposite := by
  have hnew (rule : CompositionRule) (count : UInt32) : (CompositeLayout.new rule count).Safe :=
    Exec.safe_bind Exec.reject_ne_panic fun _ _ => Exec.ok_ne_panic
  exact Reader.safe_bind safe_readU8 fun ruleByte _ =>
    Reader.safe_bind safe_readU8 fun combineOpByte _ =>
    Reader.safe_bind (safe_readBytes 2) fun _ _ =>
    Reader.safe_bind Reader.safe_reject fun _ _ =>
    Reader.safe_bind safe_readU32 fun count _ =>
    Reader.safe_bind (Reader.safe_lift (CompositionRule.fromWire_safe ruleByte combineOpByte))
      fun rule _ =>
    Reader.safe_bind (Reader.safe_lift (hnew rule count)) fun _ _ => Reader.safe_pure

theorem safe_decodeHilbert : Reader.Safe decodeHilbert := by
  have hnew (order rank : UInt32) : (HilbertLayout.new order rank).Safe :=
    Exec.safe_bind Exec.reject_ne_panic fun _ _ =>
    Exec.safe_bind Exec.reject_ne_panic fun _ _ => Exec.ok_ne_panic
  exact Reader.safe_bind safe_readU32 fun order _ =>
    Reader.safe_bind safe_readU32 fun rank _ =>
    Reader.safe_bind (Reader.safe_lift (hnew order rank)) fun _ _ => Reader.safe_pure

theorem safe_decodePrivateExtension (tag : UInt8) : Reader.Safe (decodePrivateExtension tag) := by
  have hnew (id : UInt64) (data : Bytes) : (PrivateExtensionLayout.new tag id data).Safe :=
    Exec.safe_bind Exec.reject_ne_panic fun _ _ => Exec.ok_ne_panic
  exact Reader.safe_bind safe_readU64 fun id _ =>
    Reader.safe_bind safe_readU32 fun len _ =>
    Reader.safe_bind (safe_readBytes len.toNat) fun data _ =>
    Reader.safe_bind (Reader.safe_lift (hnew id data)) fun _ _ => Reader.safe_pure

theorem safe_decodeLayoutPayload (tag : UInt8) : Reader.Safe (decodeLayoutPayload tag rank) := by
  unfold decodeLayoutPayload
  split
  · exact Reader.safe_pure
  · exact Reader.safe_pure
  · exact Reader.safe_bind (Reader.safe_many safe_readI64 _) fun _ _ => Reader.safe_pure
  · exact Reader.safe_bind (safe_decodeTiled rank _) fun _ _ => Reader.safe_pure
  · exact safe_decodeMorton rank
  · exact safe_decodeCoo
  · exact Reader.safe_bind (safe_decodeNnz _) fun _ _ => Reader.safe_pure
  · exact Reader.safe_bind (safe_decodeNnz _) fun _ _ => Reader.safe_pure
  · exact safe_decodeCsf rank
  · exact safe_decodeBlockPaged
  · exact safe_decodeComposite
  · exact safe_decodeHilbert
  · split_ifs
    · exact safe_decodePrivateExtension tag
    · exact Reader.safe_lift Exec.fail_ne_panic
    · exact Reader.safe_lift Exec.fail_ne_panic
    · exact Reader.safe_lift Exec.fail_ne_panic

end Layout

/-! ### The sections -/

theorem safe_decodeBufferHandle : Reader.Safe decodeBufferHandle := by
  have hdevice (b : UInt8) : (DeviceTag.fromByte b).Safe := by
    unfold DeviceTag.fromByte
    split <;> try split
    all_goals first | exact Exec.ok_ne_panic | exact Exec.fail_ne_panic
  have hsync (b : UInt8) : (SyncMode.fromByte b).Safe := by
    unfold SyncMode.fromByte
    split_ifs <;> first | exact Exec.ok_ne_panic | exact Exec.fail_ne_panic
  have hclass (b : UInt8) : (MemoryClass.fromByte b).Safe := by
    unfold MemoryClass.fromByte
    split <;> try split
    all_goals first | exact Exec.ok_ne_panic | exact Exec.fail_ne_panic
  have hhandle (byteSize : UInt64) (alignment : UInt32) (device : DeviceTag) (sync : SyncMode)
      (cls : MemoryClass) :
      (BufferHandle.withMemoryClass byteSize alignment device sync cls).Safe := by
    unfold BufferHandle.withMemoryClass
    split_ifs <;> first | exact Exec.ok_ne_panic | exact Exec.fail_ne_panic
  exact Reader.safe_bind safe_readU64 fun byteSize _ =>
    Reader.safe_bind safe_readU32 fun alignment _ =>
    Reader.safe_bind safe_readU8 fun deviceByte _ =>
    Reader.safe_bind safe_readU8 fun syncByte _ =>
    Reader.safe_bind safe_readU8 fun classByte _ =>
    Reader.safe_bind safe_readU8 fun _ _ =>
    Reader.safe_bind Reader.safe_reject fun _ _ =>
    Reader.safe_bind (Reader.safe_lift (hdevice deviceByte)) fun _ _ =>
    Reader.safe_bind (Reader.safe_lift (hsync syncByte)) fun _ _ =>
    Reader.safe_bind (Reader.safe_lift (hclass classByte)) fun _ _ =>
    Reader.safe_lift (hhandle _ _ _ _ _)

theorem safe_decodeBufferTable (isCompositeHead : Bool) :
    Reader.Safe (decodeBufferTable isCompositeHead) :=
  Reader.safe_bind safe_readU8 fun _ _ =>
  Reader.safe_bind Reader.safe_reject fun _ _ => Reader.safe_many safe_decodeBufferHandle _

theorem safe_decodeQuantization : Reader.Safe decodeQuantization :=
  Reader.safe_bind safe_readU32 fun len _ => safe_readBytes len.toNat

/-- A shard is compared with the shape dimension by dimension, as far as its own vectors go. -/
theorem ShardDescriptor.validateAgainstShape_safe {s : ShardDescriptor} {shape : Shape}
    (hparent : s.parentShape.length = shape.rank) (hoffset : s.shardOffset.length = shape.rank) :
    (s.validateAgainstShape shape).Safe := by
  apply Exec.safe_forM
  intro k hk
  have hlt := List.mem_range.mp hk
  apply Exec.safe_bind (Exec.safe_index (by simpa [hparent] using hlt))
  intro _ _
  apply Exec.safe_bind (Exec.safe_index (by omega))
  intro _ _
  exact Exec.safe_bind (Exec.safe_index hlt) fun _ _ => Exec.reject_ne_panic

theorem safe_decodeShard {rank : UInt32} {shape : Shape} (h : shape.rank = rank.toNat) :
    Reader.Safe (decodeShard rank shape) := by
  have hdecode : Reader.Safe (ShardDescriptor.decode rank) :=
    Reader.safe_bind (Reader.safe_many safe_readU64 _) fun _ _ =>
    Reader.safe_bind (Reader.safe_many safe_readU64 _) fun _ _ => Reader.safe_pure
  apply Reader.safe_bind hdecode
  intro s hs
  obtain ⟨c, d, hread⟩ := hs
  obtain ⟨⟨hparent, hoffset⟩, -⟩ := (ShardDescriptor.decode_recognises rank c s d).mp hread
  apply Reader.safe_bind
  · apply Reader.safe_lift
    exact ShardDescriptor.validateAgainstShape_safe (hparent.trans h.symm) (hoffset.trans h.symm)
  · exact fun _ _ => Reader.safe_pure

theorem Statistics.safe_decode : Reader.Safe Statistics.decode :=
  Reader.safe_bind safe_readU32 fun _ _ =>
  Reader.safe_bind safe_readU32 fun _ _ =>
  Reader.safe_bind safe_readU64 fun _ _ =>
  Reader.safe_bind safe_readF64 fun _ _ =>
  Reader.safe_bind safe_readF64 fun _ _ =>
  Reader.safe_bind safe_readF64 fun _ _ =>
  Reader.safe_bind safe_readF64 fun _ _ =>
  Reader.safe_bind safe_readF64 fun _ _ =>
  Reader.safe_bind safe_readF64 fun _ _ =>
  Reader.safe_bind safe_readU8 fun _ _ =>
  Reader.safe_bind safe_readU8 fun _ _ =>
  Reader.safe_bind safe_readBool fun _ _ =>
  Reader.safe_bind safe_readBool fun _ _ =>
  Reader.safe_bind (safe_readBytes 4) fun _ _ =>
  Reader.safe_bind Reader.safe_reject fun _ _ =>
  Reader.safe_bind Reader.safe_reject fun _ _ =>
  Reader.safe_bind Reader.safe_reject fun _ _ => Reader.safe_pure

theorem ExtensionTypeDescriptor.validatePacking_safe (bitWidth : UInt32) (packingFactor : UInt8) :
    (ExtensionTypeDescriptor.validatePacking bitWidth packingFactor).Safe := by
  apply Exec.safe_bind Exec.reject_ne_panic
  intro _ _
  split
  · exact Exec.reject_ne_panic
  · exact Exec.reject_ne_panic

theorem ExtensionTypeDescriptor.safe_decode : Reader.Safe ExtensionTypeDescriptor.decode :=
  Reader.safe_bind safe_readU32 fun bitWidth _ =>
  Reader.safe_bind safe_readU8 fun packingFactor _ =>
  Reader.safe_bind safe_readBool fun _ _ =>
  Reader.safe_bind safe_readBool fun _ _ =>
  Reader.safe_bind safe_readU8 fun _ _ =>
  Reader.safe_bind safe_readU8 fun _ _ =>
  Reader.safe_bind safe_readU8 fun _ _ =>
  Reader.safe_bind (safe_readBytes 2) fun _ _ =>
  Reader.safe_bind safe_readU32 fun _ _ =>
  Reader.safe_bind safe_readBool fun _ _ =>
  Reader.safe_bind safe_readBool fun _ _ =>
  Reader.safe_bind (safe_readBytes 2) fun _ _ =>
  Reader.safe_bind (Reader.safe_lift (validatePacking_safe bitWidth packingFactor)) fun _ _ =>
  Reader.safe_bind Reader.safe_reject fun _ _ =>
  Reader.safe_bind Reader.safe_reject fun _ _ => Reader.safe_pure

theorem CompositeMemberDescriptor.safe_decode : Reader.Safe CompositeMemberDescriptor.decode := by
  have hrole (b : UInt8) : (MemberRole.fromWire b).Safe := by
    unfold MemberRole.fromWire
    split_ifs
    · exact Exec.ok_ne_panic
    · exact Exec.ok_ne_panic
    · exact Exec.fail_ne_panic
  exact Reader.safe_bind safe_readU8 fun b _ =>
    Reader.safe_bind (Reader.safe_lift (hrole b)) fun _ _ =>
    Reader.safe_bind (safe_readBytes 15) fun _ _ =>
    Reader.safe_bind Reader.safe_reject fun _ _ => Reader.safe_pure

/-! ### The quantization that a constructor has to know -/

section Quantization
variable {bytes : Bytes} {flags : UInt16}

theorem u32At_safe {offset : ℕ} (h : offset + 4 ≤ bytes.length) : (u32At bytes offset).Safe :=
  Exec.safe_bind (Exec.safe_slice h) fun _ _ => Exec.ok_ne_panic

/-- What a payload decoder reads after its checks is there. -/
theorem checkPayload_safe {α : Type} {encodedLen : ℕ} {mask : UInt16} {next : Result α}
    (h : encodedLen ≤ bytes.length → next.Safe) :
    (checkPayload flags bytes encodedLen mask >>= fun _ => next).Safe := by
  have hcheck : (checkPayload flags bytes encodedLen mask).Safe :=
    Exec.safe_bind Exec.reject_ne_panic fun _ _ => Exec.reject_ne_panic
  apply Exec.safe_bind hcheck
  intro _ hok
  obtain ⟨_, hlen, -⟩ := Exec.bind_eq_ok.mp hok
  exact h (Nat.not_lt.mp (Exec.reject_eq_ok.mp hlen))

theorem PerTensorAffine.decodePayload_safe : (PerTensorAffine.decodePayload flags bytes).Safe := by
  apply checkPayload_safe
  intro hlen
  have hroom : 16 ≤ bytes.length := hlen
  exact Exec.safe_bind (u32At_safe (by omega)) fun _ _ =>
    Exec.safe_bind (u32At_safe (by omega)) fun _ _ =>
    Exec.safe_bind (Exec.safe_slice (by omega)) fun _ _ =>
    Exec.safe_bind Exec.reject_ne_panic fun _ _ =>
    Exec.safe_bind Exec.reject_ne_panic fun _ _ => Exec.ok_ne_panic

theorem PerChannelAffine.decodePayload_safe :
    (PerChannelAffine.decodePayload flags bytes).Safe := by
  apply checkPayload_safe
  intro hlen
  have hroom : 20 ≤ bytes.length := hlen
  apply Exec.safe_bind (u32At_safe (by omega))
  intro axis _
  apply Exec.safe_bind (u32At_safe (by omega))
  intro scaleBuf _
  apply Exec.safe_bind (u32At_safe (by omega))
  intro zpBuf _
  apply Exec.safe_bind (Exec.safe_index (by omega))
  intro scaleType _
  apply Exec.safe_bind Exec.reject_ne_panic
  intro _ _
  apply Exec.safe_bind Exec.reject_ne_panic
  intro _ _
  apply Exec.safe_bind (Exec.safe_slice (by omega))
  intro reserved _
  apply Exec.safe_bind Exec.reject_ne_panic
  intro _ _
  split
  · exact Exec.safe_bind Exec.reject_ne_panic fun _ _ => Exec.ok_ne_panic
  · exact Exec.safe_bind Exec.reject_ne_panic fun _ _ => Exec.ok_ne_panic

theorem ElementType.fromTag_safe (tag : UInt8) : (ElementType.fromTag tag).Safe := by
  unfold ElementType.fromTag
  split <;> try split_ifs
  all_goals first | exact Exec.ok_ne_panic | exact Exec.fail_ne_panic

theorem PerBlockAffine.decodePayload_safe : (PerBlockAffine.decodePayload flags bytes).Safe := by
  apply checkPayload_safe
  intro hlen
  have hroom : 24 ≤ bytes.length := hlen
  apply Exec.safe_bind (u32At_safe (by omega))
  intro axis _
  apply Exec.safe_bind (u32At_safe (by omega))
  intro blockSize _
  apply Exec.safe_bind (u32At_safe (by omega))
  intro scaleBuf _
  apply Exec.safe_bind (u32At_safe (by omega))
  intro zpBuf _
  apply Exec.safe_bind (Exec.safe_index (by omega))
  intro scaleTypeByte _
  apply Exec.safe_bind Exec.reject_ne_panic
  intro _ _
  apply Exec.safe_bind Exec.reject_ne_panic
  intro _ _
  apply Exec.safe_bind (ElementType.fromTag_safe scaleTypeByte)
  intro scaleType _
  apply Exec.safe_bind (Exec.safe_slice (by omega))
  intro reserved _
  apply Exec.safe_bind Exec.reject_ne_panic
  intro _ _
  split
  · exact Exec.safe_bind Exec.reject_ne_panic fun _ _ => Exec.ok_ne_panic
  · exact Exec.ok_ne_panic

theorem Nf4.decodePayload_safe : (Nf4.decodePayload flags bytes).Safe := by
  apply checkPayload_safe
  intro hlen
  have hroom : 16 ≤ bytes.length := hlen
  exact Exec.safe_bind (u32At_safe (by omega)) fun _ _ =>
    Exec.safe_bind (u32At_safe (by omega)) fun _ _ =>
    Exec.safe_bind (u32At_safe (by omega)) fun _ _ =>
    Exec.safe_bind Exec.reject_ne_panic fun _ _ =>
    Exec.safe_bind Exec.reject_ne_panic fun _ _ => Exec.ok_ne_panic

theorem Mxfp.decodePayload_safe : (Mxfp.decodePayload flags bytes).Safe := by
  apply checkPayload_safe
  intro hlen
  have hroom : 16 ≤ bytes.length := hlen
  exact Exec.safe_bind (u32At_safe (by omega)) fun _ _ =>
    Exec.safe_bind (u32At_safe (by omega)) fun _ _ =>
    Exec.safe_bind (u32At_safe (by omega)) fun _ _ =>
    Exec.safe_bind Exec.reject_ne_panic fun _ _ =>
    Exec.safe_bind Exec.reject_ne_panic fun _ _ => Exec.ok_ne_panic

theorem QuantizationSchemeTag.fromByte_safe (b : UInt8) :
    (QuantizationSchemeTag.fromByte b).Safe := by
  unfold QuantizationSchemeTag.fromByte
  split <;> try split_ifs
  all_goals first | exact Exec.ok_ne_panic | exact Exec.fail_ne_panic

theorem QuantizationDescriptor.decode_safe : (QuantizationDescriptor.decode bytes).Safe := by
  have hheader : (QuantizationDescriptor.parseHeader bytes 0x01).Safe := by
    apply Exec.safe_bind Exec.reject_ne_panic
    intro _ hok
    have hlen := Nat.not_lt.mp (Exec.reject_eq_ok.mp hok)
    exact Exec.safe_bind (Exec.safe_index (by omega)) fun b _ =>
      Exec.safe_bind (Exec.safe_index (by omega)) fun _ _ =>
      Exec.safe_bind (Exec.safe_slice (by omega)) fun _ _ =>
      Exec.safe_bind (QuantizationSchemeTag.fromByte_safe b) fun _ _ =>
      Exec.safe_bind Exec.reject_ne_panic fun _ _ => Exec.ok_ne_panic
  apply Exec.safe_bind Exec.reject_ne_panic
  intro _ hok
  have hpos := List.length_pos_iff.mpr (Exec.reject_eq_ok.mp hok)
  apply Exec.safe_bind (Exec.safe_index hpos)
  intro b _
  apply Exec.safe_bind (QuantizationSchemeTag.fromByte_safe b)
  intro tag _
  apply Exec.safe_bind hheader
  intro flags _
  cases tag with
  | perTensorAffine =>
    exact Exec.safe_bind PerTensorAffine.decodePayload_safe fun _ _ => Exec.ok_ne_panic
  | perChannelAffine =>
    exact Exec.safe_bind PerChannelAffine.decodePayload_safe fun _ _ => Exec.ok_ne_panic
  | perBlockAffine =>
    exact Exec.safe_bind PerBlockAffine.decodePayload_safe fun _ _ => Exec.ok_ne_panic
  | nf4 => exact Exec.safe_bind Nf4.decodePayload_safe fun _ _ => Exec.ok_ne_panic
  | mxfp => exact Exec.safe_bind Mxfp.decodePayload_safe fun _ _ => Exec.ok_ne_panic

end Quantization

/-! ### The descriptor -/

theorem safe_decodeHeader : Reader.Safe decodeHeader :=
  Reader.safe_bind safe_readU32 fun _ _ =>
  Reader.safe_bind Reader.safe_reject fun _ _ =>
  Reader.safe_bind safe_readU8 fun tag _ =>
  Reader.safe_bind (Reader.safe_lift (ElementType.fromTag_safe tag)) fun _ _ =>
  Reader.safe_bind safe_readU8 fun _ _ =>
  Reader.safe_bind safe_readU32 fun _ _ =>
  Reader.safe_bind Reader.safe_reject fun _ _ => Reader.safe_pure

theorem safe_decodeShape (rank : UInt32) : Reader.Safe (decodeShape rank) := by
  have hnew (dims : List UInt64) : (Shape.new dims).Safe := by
    unfold Shape.new
    split
    · exact Exec.fail_ne_panic
    · exact Exec.ok_ne_panic
  exact Reader.safe_bind (Reader.safe_many safe_readU64 _) fun dims _ =>
    Reader.safe_lift (hnew dims)

theorem safe_decodeFields (major minor : UInt8) : Reader.Safe (decodeFields major minor) := by
  apply Reader.safe_bind safe_decodeHeader
  intro header _
  apply Reader.safe_bind (safe_decodeShape header.rank)
  intro shape hshape
  obtain ⟨c, d, hread⟩ := hshape
  have hrank : shape.rank = header.rank.toNat := (decodeShape_eq_ok.mp hread).1
  exact Reader.safe_bind safe_readU64 fun _ _ =>
    Reader.safe_bind (safe_decodeLayoutPayload header.rank header.layoutTag) fun layout _ =>
    Reader.safe_bind Reader.safe_reject fun _ _ =>
    Reader.safe_bind (safe_decodeBufferTable layout.isVirtual) fun _ _ =>
    Reader.safe_bind (Reader.safe_optional safe_decodeQuantization _) fun _ _ =>
    Reader.safe_bind (Reader.safe_optional (safe_decodeShard hrank) _) fun _ _ =>
    Reader.safe_bind (Reader.safe_optional Statistics.safe_decode _) fun _ _ =>
    Reader.safe_bind (Reader.safe_optional ExtensionTypeDescriptor.safe_decode _) fun _ _ =>
    Reader.safe_bind (Reader.safe_optional CompositeMemberDescriptor.safe_decode _) fun _ _ =>
    Reader.safe_pure

theorem checkPagedQuantization_safe (layout : LayoutDescriptor) (q : Option Bytes) :
    (TensorDescriptor.checkPagedQuantization layout q).Safe := by
  unfold TensorDescriptor.checkPagedQuantization
  split
  · apply Exec.safe_bind QuantizationDescriptor.decode_safe
    intro qd _
    dsimp only
    unfold BlockPagedLayout.validateQuantizationCompatibility
    split_ifs
    · exact Exec.reject_ne_panic
    · exact Exec.safe_bind Exec.reject_ne_panic fun _ _ => Exec.reject_ne_panic
    · exact Exec.ok_ne_panic
  · exact Exec.ok_ne_panic

theorem finishDecode_safe (f : TensorDescriptor) : (finishDecode f).Safe := by
  have hbuffers : (TensorDescriptor.checkBuffers f.byteOffset f.layout f.buffers
      f.quantization).Safe := by
    unfold TensorDescriptor.checkBuffers
    split
    · exact Exec.safe_bind Exec.reject_ne_panic fun _ _ =>
        Exec.safe_bind Exec.reject_ne_panic fun _ _ => Exec.reject_ne_panic
    · exact Exec.reject_ne_panic
  have hshard : (TensorDescriptor.checkShard f.shape f.layout f.shard).Safe := by
    unfold TensorDescriptor.checkShard
    split
    · exact Exec.ok_ne_panic
    · exact Exec.safe_bind Exec.reject_ne_panic fun _ _ =>
        Exec.safe_bind Exec.reject_ne_panic fun _ _ => Exec.reject_ne_panic
  have hnew : (TensorDescriptor.new f.versionMajor f.versionMinor f.elementType f.shape
      f.byteOffset f.layout f.buffers f.quantization f.shard f.statistics
      f.extensionType).Safe :=
    Exec.safe_bind hbuffers fun _ _ =>
    Exec.safe_bind Exec.reject_ne_panic fun _ _ =>
    Exec.safe_bind Exec.reject_ne_panic fun _ _ =>
    Exec.safe_bind hshard fun _ _ =>
    Exec.safe_bind (checkPagedQuantization_safe f.layout f.quantization) fun _ _ =>
    Exec.ok_ne_panic
  apply Exec.safe_bind hnew
  intro d _
  split
  · exact Exec.safe_bind Exec.reject_ne_panic fun _ _ => Exec.ok_ne_panic
  · exact Exec.ok_ne_panic

/-- The decoder returns on whatever bytes. -/
theorem decode_safe (bytes : Bytes) : (decode bytes).Safe := by
  apply Exec.safe_bind Exec.reject_ne_panic
  intro _ hok
  have hlen := Nat.not_lt.mp (Exec.reject_eq_ok.mp hok)
  apply Exec.safe_bind (Exec.safe_slice (by omega))
  intro magic _
  apply Exec.safe_bind Exec.reject_ne_panic
  intro _ _
  apply Exec.safe_bind (Exec.safe_index (by omega))
  intro major _
  apply Exec.safe_bind (Exec.safe_index (by omega))
  intro minor _
  apply Exec.safe_bind Exec.reject_ne_panic
  intro _ _
  apply Exec.safe_bind (Exec.safe_slice (by omega))
  intro length _
  apply Exec.safe_bind Exec.reject_ne_panic
  intro _ _
  apply Exec.safe_bind (safe_readBytes 10 _)
  intro skipped _
  apply Exec.safe_bind (safe_decodeFields major minor skipped.2)
  intro fields _
  exact Exec.safe_bind Exec.reject_ne_panic fun _ _ => finishDecode_safe fields.1

end Hurray.Descriptor
