import Hurray.Base.LittleEndian

/-! Strings as the bytes of their UTF-8 encoding. -/
namespace Hurray.Base

def utf8Bytes (s : String) : Bytes := s.toByteArray.data.toList

def fromUtf8 (w : Bytes) : Option String := String.fromUTF8? ⟨w.toArray⟩

/-- A byte string is read as the one string that is encoded by it. -/
theorem fromUtf8_eq_some {w : Bytes} {s : String} : fromUtf8 w = some s ↔ utf8Bytes s = w := by
  unfold fromUtf8 String.fromUTF8? utf8Bytes
  split
  · constructor
    · intro hs
      cases hs
      rfl
    · intro hs
      subst hs
      rfl
  · next hinvalid =>
    constructor
    · intro hs
      cases hs
    · intro hs
      subst hs
      exact absurd s.isValidUTF8 hinvalid

@[simp] theorem fromUtf8_utf8Bytes (s : String) : fromUtf8 (utf8Bytes s) = some s :=
  fromUtf8_eq_some.mpr rfl

theorem utf8Bytes_inj {s t : String} : utf8Bytes s = utf8Bytes t ↔ s = t := by
  constructor
  · intro h
    have hs := fromUtf8_utf8Bytes s
    rw [h, fromUtf8_utf8Bytes] at hs
    exact (Option.some.inj hs).symm
  · intro h
    rw [h]

/-- Some string is encoded by the bytes. -/
def ValidUtf8 (w : Bytes) : Prop := ∃ s, utf8Bytes s = w

end Hurray.Base
