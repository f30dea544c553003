import Hurray.Base.Utf8
import Hurray.Base.Exec

/-!
What crosses the C interface. A pointer is null or leads to memory; a length beside it tells how much
of that memory is read.
-/
namespace Hurray.Ffi
open Hurray.Base

abbrev HurrayStatus := Int32

def HURRAY_ERR_NULL_POINTER : HurrayStatus := -6
def HURRAY_ERR_INTERNAL : HurrayStatus := -10
def HURRAY_ERR_INDEX_OUT_OF_BOUNDS : HurrayStatus := -11
def HURRAY_ERR_INVALID_FILE : HurrayStatus := -21
def HURRAY_ERR_NOT_COMPOSITE : HurrayStatus := -22

abbrev Result := Exec HurrayStatus

/-- What a pointer leads to, from there on. -/
abbrev Pointer (α : Type) := Option (List α)

def bytesFromC (ptr : Pointer UInt8) (len : ℕ) : Result Bytes :=
  if len = 0 then .ok []
  else do
    let memory ← Exec.orFail ptr HURRAY_ERR_NULL_POINTER
    .ok (memory.take len)

def strFromC (ptr : Pointer UInt8) (len : ℕ) : Result String := do
  let bytes ← bytesFromC ptr len
  Exec.orFail (fromUtf8 bytes) HURRAY_ERR_INVALID_FILE

structure HurrayIoSlice where
  ptr : Pointer UInt8
  len : ℕ

@[simp] theorem ok_ne_fail {α : Type} {a : α} {status : HurrayStatus} :
    (.ok a : Result α) ≠ Exec.fail status := by simp [Exec.fail]

theorem bind_eq_fail {α β : Type} {x : Result α} {f : α → Result β} {status : HurrayStatus} :
    (x >>= f) = Exec.fail status ↔
      x = Exec.fail status ∨ ∃ a, x = .ok a ∧ f a = Exec.fail status := by
  cases x <;> simp [bind, Except.bind, Exec.fail]

theorem bytesFromC_of {bytes : Bytes} {len : ℕ} (h : len = bytes.length) :
    bytesFromC (some bytes) len = .ok bytes := by
  subst h
  unfold bytesFromC
  split
  · next hzero => rw [List.eq_nil_of_length_eq_zero hzero]
  · simp

@[simp] theorem strFromC_utf8Bytes {s : String} :
    strFromC (some (utf8Bytes s)) (utf8Bytes s).length = .ok s := by
  simp [strFromC, bytesFromC_of]

theorem bytesFromC_ne_panic {ptr : Pointer UInt8} {len : ℕ} :
    bytesFromC ptr len ≠ Exec.panic := by
  unfold bytesFromC
  split
  · simp
  · cases ptr <;> simp [Exec.orFail]

theorem mapM_ne_panic {α β : Type} {f : α → Result β} (hf : ∀ a, f a ≠ Exec.panic) {xs : List α} :
    xs.mapM f ≠ Exec.panic := by
  induction xs with
  | nil => simp [pure, Except.pure]
  | cons x xs ih => simp [Exec.bind_eq_panic, hf, ih, pure, Except.pure]

theorem strFromC_ne_panic {ptr : Pointer UInt8} {len : ℕ} : strFromC ptr len ≠ Exec.panic := by
  simp [strFromC, Exec.bind_eq_panic, bytesFromC_ne_panic]

end Hurray.Ffi
