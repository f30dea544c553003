import Hurray.Core.Error

/-! Tensor shapes. -/
namespace Hurray.Core
open Hurray.Base

/-- The dimension size that stands for a size not known when the descriptor is written. -/
def DYNAMIC : UInt64 := 0xFFFFFFFFFFFFFFFF

def MAX_RANK : ℕ := 64

theorem two_le_maxRank : 2 ≤ MAX_RANK := by decide

structure Shape where
  dims : List UInt64
  rank_le : dims.length ≤ MAX_RANK
  deriving DecidableEq

namespace Shape

def new (dims : List UInt64) : Result Shape :=
  if h : dims.length > MAX_RANK then
    Exec.fail (.rankExceedsMaximum (UInt32.ofNat dims.length) (UInt32.ofNat MAX_RANK))
  else .ok ⟨dims, Nat.le_of_not_gt h⟩

def scalar : Shape := ⟨[], Nat.zero_le _⟩

def rank (s : Shape) : ℕ := s.dims.length

@[ext] theorem ext {s t : Shape} (h : s.dims = t.dims) : s = t := by
  cases s
  cases t
  cases h
  rfl

@[simp] theorem length_dims (s : Shape) : s.dims.length = s.rank := rfl

theorem rank_lt_size (s : Shape) : s.rank < UInt32.size :=
  Nat.lt_of_le_of_lt s.rank_le (by decide)

theorem new_eq_ok {dims : List UInt64} {s : Shape} : new dims = .ok s ↔ s.dims = dims := by
  unfold new
  constructor
  · intro h
    split at h
    · exact absurd h Exec.fail_ne_ok
    · cases h
      rfl
  · rintro rfl
    rw [dif_neg (Nat.not_lt.mpr s.rank_le)]

/-- Some index is in range in every dimension. -/
def Addressable (s : Shape) : Prop := ∀ d ∈ s.dims, d ≠ 0 ∧ d ≠ DYNAMIC

instance : DecidablePred Addressable := fun s =>
  inferInstanceAs (Decidable (∀ d ∈ s.dims, d ≠ 0 ∧ d ≠ DYNAMIC))

end Shape
end Hurray.Core
