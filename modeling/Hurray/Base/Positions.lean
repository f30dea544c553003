import Hurray.Base.Wire

/-!
Two walks over one slice: by a position in it, which a read moves, and by what is left of it. A
walk by positions panics where it leaves the slice; one that tracks a reader does not leave it.
-/
namespace Hurray.Base
section
variable {ε α β γ : Type} {xs : List γ}

/-- The next `n` elements at the position, if the slice has them. -/
def takeAt (xs : List γ) (n : ℕ) (e : ε) : Reader ε ℕ (List γ) := fun pos => do
  Exec.reject (xs.length < pos + n) e
  let slice ← Exec.slice xs pos n
  .ok (slice, pos + n)

/-- From every position in the slice, the walk does what the reader does with the rest of it. -/
structure Tracks (xs : List γ) (c : Reader ε ℕ α) (p : Reader ε (List γ) α) : Prop where
  rest : ∀ s a t, p s = .ok (a, t) → t <:+ s
  same : ∀ pos ≤ xs.length, c pos = (p (xs.drop pos)).map fun r => (r.1, xs.length - r.2.length)

theorem tracks_lift {x : Exec ε α} : Tracks xs (Reader.lift x) (Reader.lift x) := by
  constructor
  · intro s a t h
    obtain ⟨-, rfl⟩ := Reader.lift_eq_ok.mp h
    exact List.suffix_refl _
  · intro pos hpos
    have hback : xs.length - (xs.drop pos).length = pos := by
      rw [List.length_drop]
      omega
    cases x with
    | error e => rfl
    | ok a =>
      show Except.ok (a, pos) = .ok (a, xs.length - (xs.drop pos).length)
      rw [hback]

theorem tracks_pure {a : α} : Tracks xs (pure a : Reader ε ℕ α) (pure a) :=
  tracks_lift (x := .ok a)

theorem Tracks.bind {c : Reader ε ℕ α} {p : Reader ε (List γ) α} {f : α → Reader ε ℕ β}
    {g : α → Reader ε (List γ) β} (h : Tracks xs c p) (hf : ∀ a, Tracks xs (f a) (g a)) :
    Tracks xs (c >>= f) (p >>= g) := by
  constructor
  · intro s b u hu
    obtain ⟨a, t, ha, hb⟩ := Reader.bind_eq_ok.mp hu
    exact ((hf a).rest t b u hb).trans (h.rest s a t ha)
  · intro pos hpos
    show (c pos >>= fun r => f r.1 r.2) = (p (xs.drop pos) >>= fun r => g r.1 r.2).map _
    rw [h.same pos hpos]
    rcases hp : p (xs.drop pos) with e | r
    · rfl
    · obtain ⟨a, t⟩ := r
      -- What is left after the first read is the slice from the new position on.
      have ht : t <:+ xs := (h.rest _ a t hp).trans (List.drop_suffix pos xs)
      have hdrop : xs.drop (xs.length - t.length) = t := (List.suffix_iff_eq_drop.mp ht).symm
      have hrest := (hf a).same (xs.length - t.length) (Nat.sub_le _ _)
      rw [hdrop] at hrest
      exact hrest

theorem tracks_take {n : ℕ} {e : ε} : Tracks xs (takeAt xs n e)
    (fun s => if s.length < n then Exec.fail e else .ok (s.take n, s.drop n)) := by
  constructor
  · intro s a t h
    split at h
    · cases h
    · cases h
      exact List.drop_suffix n s
  · intro pos hpos
    unfold takeAt
    by_cases hshort : xs.length < pos + n
    · have hleft : (xs.drop pos).length < n := by
        rw [List.length_drop]
        omega
      rw [Exec.reject, if_pos hshort, if_pos hleft]
      rfl
    · have hleft : ¬ (xs.drop pos).length < n := by
        rw [List.length_drop]
        omega
      have hback : xs.length - ((xs.drop pos).drop n).length = pos + n := by
        rw [List.length_drop, List.length_drop]
        omega
      rw [Exec.reject_of_not hshort, if_neg hleft, Exec.ok_bind, Exec.slice,
        if_pos (Nat.le_of_not_lt hshort)]
      show Except.ok ((xs.drop pos).take n, pos + n) = .ok (_, xs.length - _)
      rw [hback]

end
end Hurray.Base
