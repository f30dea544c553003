import Hurray.Core.Error
import Mathlib.Algebra.Group.Nat.Defs

/-!
Buffer handles. A private tag holds a byte of the private range, and a handle
satisfies the checks of its constructor, so neither can be built otherwise.
-/
namespace Hurray.Core
open Hurray.Base

/-- A byte of the implementation-private range. -/
def IsPrivateByte (b : UInt8) : Prop := 0xF0 ≤ b ∧ b ≤ 0xFE

instance : DecidablePred IsPrivateByte := fun b =>
  inferInstanceAs (Decidable (0xF0 ≤ b ∧ b ≤ 0xFE))

structure PrivateTag where
  byte : UInt8
  isPrivate : IsPrivateByte byte
  deriving DecidableEq

structure PrivateMemoryClass where
  byte : UInt8
  isPrivate : IsPrivateByte byte
  deriving DecidableEq

def MIN_BUFFER_ALIGNMENT : UInt32 := 64

inductive SyncMode where
  | producerSynced | event | consumerStream
  deriving DecidableEq, Repr

namespace SyncMode

def fromByte (b : UInt8) : Result SyncMode :=
  if b = 0x00 then .ok producerSynced
  else if b = 0x01 then .ok event
  else if b = 0x02 then .ok consumerStream
  else Exec.fail (.invalidSyncMode b)

def toByte : SyncMode → UInt8
  | producerSynced => 0x00
  | event => 0x01
  | consumerStream => 0x02

theorem fromByte_eq_ok {b : UInt8} {m : SyncMode} : fromByte b = .ok m ↔ m.toByte = b := by
  constructor
  · intro h
    unfold fromByte at h
    split_ifs at h with h0 h1 h2 <;> cases h
    · exact h0.symm
    · exact h1.symm
    · exact h2.symm
  · rintro rfl
    cases m <;> rfl

end SyncMode

inductive DeviceTag where
  | cpu | cuda | rocm | metal | vulkan | webGpu | hexagon | levelZero | openCl
  | «private» (tag : PrivateTag)
  deriving DecidableEq

namespace DeviceTag

def fromByte (b : UInt8) : Result DeviceTag :=
  match b with
  | 0x00 => .ok cpu
  | 0x01 => .ok cuda
  | 0x02 => .ok rocm
  | 0x03 => .ok metal
  | 0x04 => .ok vulkan
  | 0x05 => .ok webGpu
  | 0x06 => .ok hexagon
  | 0x07 => .ok levelZero
  | 0x08 => .ok openCl
  | 0xFF => Exec.fail (.invalidDeviceTag b)
  | _ => if h : IsPrivateByte b then .ok («private» ⟨b, h⟩) else Exec.fail (.reservedDeviceTag b)

def toByte : DeviceTag → UInt8
  | cpu => 0x00
  | cuda => 0x01
  | rocm => 0x02
  | metal => 0x03
  | vulkan => 0x04
  | webGpu => 0x05
  | hexagon => 0x06
  | levelZero => 0x07
  | openCl => 0x08
  | «private» t => t.byte

end DeviceTag

inductive MemoryClass where
  | standard | hostPinned | unified | peer
  | «private» (cls : PrivateMemoryClass)
  deriving DecidableEq

namespace MemoryClass

def fromByte (b : UInt8) : Result MemoryClass :=
  match b with
  | 0x00 => .ok standard
  | 0x01 => .ok hostPinned
  | 0x02 => .ok unified
  | 0x03 => .ok peer
  | 0xFF => Exec.fail (.invalidMemoryClass b)
  | _ => if h : IsPrivateByte b then .ok («private» ⟨b, h⟩) else Exec.fail (.reservedMemoryClass b)

def toByte : MemoryClass → UInt8
  | standard => 0x00
  | hostPinned => 0x01
  | unified => 0x02
  | peer => 0x03
  | «private» p => p.byte

end MemoryClass

theorem DeviceTag.fromByte_private {b : UInt8} (hb : IsPrivateByte b) :
    fromByte b = .ok («private» ⟨b, hb⟩) := by
  unfold fromByte
  split <;> first | exact absurd hb (by decide) | exact dif_pos hb

theorem MemoryClass.fromByte_private {b : UInt8} (hb : IsPrivateByte b) :
    fromByte b = .ok («private» ⟨b, hb⟩) := by
  unfold fromByte
  split <;> first | exact absurd hb (by decide) | exact dif_pos hb

theorem DeviceTag.fromByte_eq_ok {b : UInt8} {t : DeviceTag} :
    fromByte b = .ok t ↔ t.toByte = b := by
  constructor
  · intro h
    unfold fromByte at h
    split at h <;> try cases h
    all_goals first | rfl | skip
    split_ifs at h <;> cases h
    rfl
  · rintro rfl
    cases t with
    | «private» t => exact fromByte_private t.isPrivate
    | _ => rfl

theorem MemoryClass.fromByte_eq_ok {b : UInt8} {m : MemoryClass} :
    fromByte b = .ok m ↔ m.toByte = b := by
  constructor
  · intro h
    unfold fromByte at h
    split at h <;> try cases h
    all_goals first | rfl | skip
    split_ifs at h <;> cases h
    rfl
  · rintro rfl
    cases m with
    | «private» p => exact fromByte_private p.isPrivate
    | _ => rfl

def isPowerOfTwo (n : UInt32) : Prop := ∃ k < 32, n.toNat = 2 ^ k

instance : DecidablePred isPowerOfTwo := fun n =>
  inferInstanceAs (Decidable (∃ k < 32, n.toNat = 2 ^ k))

structure BufferHandle where
  byteSize : UInt64
  alignment : UInt32
  deviceTag : DeviceTag
  syncMode : SyncMode
  memoryClass : MemoryClass
  alignment_pow : isPowerOfTwo alignment
  alignment_le : 0 < byteSize → MIN_BUFFER_ALIGNMENT ≤ alignment
  cpu_synced : deviceTag = .cpu → syncMode = .producerSynced
  deriving DecidableEq

namespace BufferHandle

theorem pow_least : isPowerOfTwo 64 := by decide

theorem least_le (byteSize : UInt64) : 0 < byteSize → MIN_BUFFER_ALIGNMENT ≤ 64 :=
  fun _ => by decide

theorem producer_synced {deviceTag : DeviceTag} :
    deviceTag = .cpu → SyncMode.producerSynced = .producerSynced := fun _ => rfl

def withMemoryClass (byteSize : UInt64) (alignment : UInt32) (deviceTag : DeviceTag)
    (syncMode : SyncMode) (memoryClass : MemoryClass) : Result BufferHandle :=
  if hpow : ¬ isPowerOfTwo alignment then Exec.fail (.alignmentNotPowerOfTwo alignment)
  else if hmin : byteSize > 0 ∧ alignment < MIN_BUFFER_ALIGNMENT then
    Exec.fail (.alignmentBelowMinimum alignment MIN_BUFFER_ALIGNMENT)
  else if hcpu : deviceTag = .cpu ∧ syncMode ≠ .producerSynced then
    Exec.fail (.invalidSyncMode syncMode.toByte)
  else .ok
    { byteSize, alignment, deviceTag, syncMode, memoryClass
      alignment_pow := not_not.mp hpow
      alignment_le := fun h => UInt32.not_lt.mp fun hlt => hmin ⟨h, hlt⟩
      cpu_synced := fun h => not_not.mp fun hne => hcpu ⟨h, hne⟩ }

def new (byteSize : UInt64) (alignment : UInt32) (deviceTag : DeviceTag) (syncMode : SyncMode) :
    Result BufferHandle :=
  withMemoryClass byteSize alignment deviceTag syncMode .standard

theorem withMemoryClass_eq_ok {n : UInt64} {a : UInt32} {d : DeviceTag} {s : SyncMode}
    {m : MemoryClass} {h : BufferHandle} : withMemoryClass n a d s m = .ok h ↔
      h.byteSize = n ∧ h.alignment = a ∧ h.deviceTag = d ∧ h.syncMode = s ∧ h.memoryClass = m := by
  constructor
  · intro hok
    unfold withMemoryClass at hok
    split_ifs at hok <;> cases hok
    exact ⟨rfl, rfl, rfl, rfl, rfl⟩
  · intro h
    obtain ⟨rfl, rfl, rfl, rfl, rfl⟩ := h
    have hmin : ¬ (h.byteSize > 0 ∧ h.alignment < MIN_BUFFER_ALIGNMENT) := by
      intro h
      obtain ⟨hpos, hlt⟩ := h
      exact UInt32.not_lt.mpr (h.alignment_le hpos) hlt
    have hcpu : ¬ (h.deviceTag = .cpu ∧ h.syncMode ≠ .producerSynced) := by
      intro h
      obtain ⟨hdev, hsync⟩ := h
      exact hsync (h.cpu_synced hdev)
    unfold withMemoryClass
    rw [dif_neg (not_not.mpr h.alignment_pow), dif_neg hmin, dif_neg hcpu]

end BufferHandle
end Hurray.Core
