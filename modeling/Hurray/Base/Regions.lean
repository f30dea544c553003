import Mathlib.Data.List.Basic
import Mathlib.Data.Nat.Notation
import Mathlib.Tactic.Common

/-!
Regions of a sequence, one after another, with filler between them. What is said
of a sequence piece by piece composes; from it follows that the regions are
disjoint, that each holds what it is said to hold, and that the rest is filler.
-/
namespace Hurray.Base
variable {α : Type}

structure Region (α : Type) where
  start : ℕ
  contents : List α

namespace Region

def stop (r : Region α) : ℕ := r.start + r.contents.length

def Covers (r : Region α) (i : ℕ) : Prop := r.start ≤ i ∧ i < r.stop

/-- The items from one position to another are these regions and filler. -/
def Fills (z : α) : List α → ℕ → List (Region α) → ℕ → Prop
  | items, pos, [], stop => pos ≤ stop ∧ items = List.replicate (stop - pos) z
  | items, pos, r :: rs, stop => pos ≤ r.start ∧ ∃ rest,
      items = List.replicate (r.start - pos) z ++ (r.contents ++ rest) ∧ Fills z rest r.stop rs stop

variable {z : α} {items more : List α} {rs ss : List (Region α)} {r : Region α} {pos mid stop i : ℕ}

theorem fills_nil : Fills z [] pos [] pos := by
  refine ⟨Nat.le_refl _, ?_⟩
  rw [Nat.sub_self]
  rfl

theorem fills_filler (h : pos ≤ stop) : Fills z (List.replicate (stop - pos) z) pos [] stop := ⟨h, rfl⟩

theorem fills_singleton (z : α) (r : Region α) : Fills z r.contents r.start [r] r.stop := by
  refine ⟨Nat.le_refl _, [], ?_, fills_nil⟩
  rw [Nat.sub_self, List.append_nil]
  rfl

theorem Fills.length (h : Fills z items pos rs stop) : pos + items.length = stop := by
  induction rs generalizing items pos with
  | nil =>
    obtain ⟨hle, rfl⟩ := h
    rw [List.length_replicate]
    omega
  | cons r rs ih =>
    obtain ⟨hle, rest, rfl, hrest⟩ := h
    have hlen := ih hrest
    rw [Region.stop] at hlen
    simp only [List.length_append, List.length_replicate]
    omega

theorem Fills.le (h : Fills z items pos rs stop) : pos ≤ stop := by
  have hlen := h.length
  omega

/-- Filler before a piece belongs to the piece. -/
theorem Fills.after_filler (h : Fills z items mid rs stop) (hle : pos ≤ mid) :
    Fills z (List.replicate (mid - pos) z ++ items) pos rs stop := by
  cases rs with
  | nil =>
    obtain ⟨hle', rfl⟩ := h
    refine ⟨Nat.le_trans hle hle', ?_⟩
    rw [← List.replicate_add]
    congr 1
    omega
  | cons r rs =>
    obtain ⟨hle', rest, rfl, hrest⟩ := h
    refine ⟨Nat.le_trans hle hle', rest, ?_, hrest⟩
    rw [← List.append_assoc, ← List.replicate_add]
    congr 2
    omega

/-- Pieces compose. -/
theorem Fills.append (h : Fills z items pos rs mid) (hmore : Fills z more mid ss stop) :
    Fills z (items ++ more) pos (rs ++ ss) stop := by
  induction rs generalizing items pos with
  | nil =>
    obtain ⟨hle, rfl⟩ := h
    exact hmore.after_filler hle
  | cons r rs ih =>
    obtain ⟨hle, rest, rfl, hrest⟩ := h
    refine ⟨hle, rest ++ more, ?_, ih hrest⟩
    simp only [List.append_assoc]

theorem Fills.within (h : Fills z items pos rs stop) (hr : r ∈ rs) :
    pos ≤ r.start ∧ r.stop ≤ stop := by
  induction rs generalizing items pos with
  | nil => cases hr
  | cons r' rs ih =>
    obtain ⟨hle, rest, rfl, hrest⟩ := h
    have hstop := hrest.le
    rcases List.mem_cons.mp hr with rfl | hr
    · exact ⟨hle, hstop⟩
    · obtain ⟨hstart, hend⟩ := ih hrest hr
      have hself : r'.start ≤ r'.stop := Nat.le_add_right _ _
      exact ⟨by omega, hend⟩

/-- Each region ends before the next ones start. -/
theorem Fills.pairwise (h : Fills z items pos rs stop) :
    rs.Pairwise fun r s => r.stop ≤ s.start := by
  induction rs generalizing items pos with
  | nil => exact List.Pairwise.nil
  | cons r rs ih =>
    obtain ⟨-, rest, -, hrest⟩ := h
    refine List.pairwise_cons.mpr ⟨?_, ih hrest⟩
    intro s hs
    exact (hrest.within hs).1

/-- The region is where it is said to be. -/
theorem Fills.holds (h : Fills z items pos rs stop) (hr : r ∈ rs) :
    r.contents <+: items.drop (r.start - pos) := by
  induction rs generalizing items pos with
  | nil => cases hr
  | cons r' rs ih =>
    obtain ⟨hle, rest, rfl, hrest⟩ := h
    rcases List.mem_cons.mp hr with rfl | hr
    · rw [List.drop_left' List.length_replicate]
      exact List.prefix_append _ _
    · have hstart := (hrest.within hr).1
      have hskip : r.start - pos = (r'.start - pos) + (r'.contents.length + (r.start - r'.stop)) := by
        rw [Region.stop] at hstart ⊢
        omega
      rw [hskip, ← List.drop_drop, List.drop_left' List.length_replicate, ← List.drop_drop,
        List.drop_left]
      exact ih hrest hr

/-- What no region covers is filler. -/
theorem Fills.filler (h : Fills z items pos rs stop) (hpos : pos ≤ i) (hstop : i < stop)
    (hfree : ∀ r ∈ rs, ¬ r.Covers i) : items[i - pos]? = some z := by
  induction rs generalizing items pos with
  | nil =>
    obtain ⟨-, rfl⟩ := h
    rw [List.getElem?_replicate, if_pos (by omega)]
  | cons r rs ih =>
    obtain ⟨hle, rest, rfl, hrest⟩ := h
    obtain ⟨hr, hfree⟩ := List.forall_mem_cons.mp hfree
    by_cases hbefore : i < r.start
    · rw [List.getElem?_append_left (by rw [List.length_replicate]; omega), List.getElem?_replicate,
        if_pos (by omega)]
    · have hafter : r.stop ≤ i := by
        by_contra hinside
        exact hr ⟨Nat.le_of_not_lt hbefore, Nat.lt_of_not_le hinside⟩
      have hlen : r.stop = r.start + r.contents.length := rfl
      rw [List.getElem?_append_right (by rw [List.length_replicate]; omega),
        List.getElem?_append_right (by rw [List.length_replicate]; omega), List.length_replicate]
      have hindex : i - pos - (r.start - pos) - r.contents.length = i - r.stop := by omega
      rw [hindex]
      exact ih hrest hafter hfree

end Region
end Hurray.Base
