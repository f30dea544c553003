import Mathlib.Data.List.Basic
import Mathlib.Data.List.Flatten
import Mathlib.Tactic.Basic
import Mathlib.Tactic.Common

/-!
Trees with any number of children. The nodes are addressed by the paths from the root; the preorder
lists the label of every path once, in the lexicographic order of the paths.
-/
namespace Hurray.Base

inductive RoseTree (α : Type) where
  | node (label : α) (children : List (RoseTree α))

namespace RoseTree
variable {α β : Type}

/-- The label at the end of a path. -/
def labelAt : RoseTree α → List ℕ → Option α
  | node a _, [] => some a
  | node _ cs, i :: path => cs[i]?.bind fun c => c.labelAt path

def preorder : RoseTree α → List α
  | node a cs => a :: cs.flatMap preorder

/-- The labels are those of the tree, every path taken once and in lexicographic order. -/
def InPreorder (t : RoseTree α) (labels : List α) : Prop :=
  ∃ paths : List (List ℕ), paths.Pairwise (· < ·) ∧
    (∀ path, path ∈ paths ↔ (t.labelAt path).isSome) ∧
    labels.map some = paths.map t.labelAt

mutual

def paths : RoseTree α → List (List ℕ)
  | node _ cs => [] :: pathsFrom 0 cs

/-- The paths into children of which the first is at the place `i`. -/
def pathsFrom : ℕ → List (RoseTree α) → List (List ℕ)
  | _, [] => []
  | i, c :: cs => c.paths.map (i :: ·) ++ pathsFrom (i + 1) cs

end

/-- A property of every tree, from the leaves to the root. -/
theorem induct {P : RoseTree α → Prop}
    (node : ∀ a cs, (∀ c ∈ cs, P c) → P (.node a cs)) : ∀ t, P t
  | .node a cs => node a cs fun c _ => induct node c

section Children
variable {cs : List (RoseTree α)} {a : α}

theorem mem_pathsFrom {i : ℕ} {path : List ℕ} : path ∈ pathsFrom i cs ↔
    ∃ k c, cs[k]? = some c ∧ ∃ rest ∈ c.paths, path = (i + k) :: rest := by
  induction cs generalizing i with
  | nil => simp [pathsFrom]
  | cons c cs ih =>
    rw [pathsFrom, List.mem_append, List.mem_map, ih]
    constructor
    · intro h
      rcases h with ⟨rest, hrest, rfl⟩ | ⟨k, d, hd, rest, hrest, rfl⟩
      · exact ⟨0, c, rfl, rest, hrest, rfl⟩
      · exact ⟨k + 1, d, hd, rest, hrest, by rw [Nat.add_right_comm, Nat.add_assoc]⟩
    · intro h
      obtain ⟨k, d, hd, rest, hrest, rfl⟩ := h
      cases k with
      | zero =>
        cases hd
        exact .inl ⟨rest, hrest, rfl⟩
      | succ k => exact .inr ⟨k, d, hd, rest, hrest, by rw [Nat.add_right_comm, Nat.add_assoc]⟩

/-- Every path is listed. -/
theorem mem_paths (t : RoseTree α) : ∀ path, path ∈ t.paths ↔ (t.labelAt path).isSome := by
  induction t using induct with
  | node a cs ih =>
    intro path
    rw [paths, List.mem_cons, mem_pathsFrom]
    cases path with
    | nil => exact iff_of_true (.inl rfl) rfl
    | cons i path =>
      rw [labelAt]
      constructor
      · intro h
        rcases h with hnil | ⟨k, c, hc, rest, hrest, hpath⟩
        · cases hnil
        · rw [Nat.zero_add] at hpath
          cases hpath
          rw [hc, Option.bind_some]
          exact (ih c (List.mem_of_getElem? hc) path).mp hrest
      · intro h
        obtain ⟨c, hc⟩ : ∃ c, cs[i]? = some c := by
          rw [← Option.isSome_iff_exists]
          exact Option.isSome_of_isSome_bind h
        rw [hc, Option.bind_some] at h
        exact .inr ⟨i, c, hc, path, (ih c (List.mem_of_getElem? hc) path).mpr h,
          by rw [Nat.zero_add]⟩

theorem pathsFrom_sorted {i : ℕ} (h : ∀ c ∈ cs, c.paths.Pairwise (· < ·)) :
    (pathsFrom i cs).Pairwise (· < ·) := by
  induction cs generalizing i with
  | nil => exact List.Pairwise.nil
  | cons c cs ih =>
    rw [List.forall_mem_cons] at h
    rw [pathsFrom, List.pairwise_append]
    refine ⟨?_, ih h.2, ?_⟩
    · apply h.1.map
      intro p q hpq
      exact List.cons_lt_cons_iff.mpr (.inr ⟨rfl, hpq⟩)
    · intro p hp q hq
      obtain ⟨rest, -, rfl⟩ := List.mem_map.mp hp
      obtain ⟨k, d, -, rest', -, rfl⟩ := mem_pathsFrom.mp hq
      exact List.cons_lt_cons_iff.mpr (.inl (by omega))

theorem paths_sorted (t : RoseTree α) : t.paths.Pairwise (· < ·) := by
  induction t using induct with
  | node a cs ih =>
    rw [paths, List.pairwise_cons]
    refine ⟨?_, pathsFrom_sorted ih⟩
    intro path hpath
    obtain ⟨k, c, -, rest, -, rfl⟩ := mem_pathsFrom.mp hpath
    exact List.nil_lt_cons _ _

theorem map_pathsFrom {i : ℕ} {f : List ℕ → Option α}
    (hf : ∀ k c path, cs[k]? = some c → f ((i + k) :: path) = c.labelAt path)
    (h : ∀ c ∈ cs, c.preorder.map some = c.paths.map c.labelAt) :
    (cs.flatMap preorder).map some = (pathsFrom i cs).map f := by
  induction cs generalizing i with
  | nil => rfl
  | cons c cs ih =>
    rw [List.forall_mem_cons] at h
    rw [List.flatMap_cons, List.map_append, pathsFrom, List.map_append, h.1, List.map_map]
    congr 1
    · apply List.map_congr_left
      intro path _
      exact (hf 0 c path rfl).symm
    · apply ih _ h.2
      intro k d path hd
      rw [Nat.add_right_comm]
      exact hf (k + 1) d path hd

theorem preorder_labels (t : RoseTree α) : t.preorder.map some = t.paths.map t.labelAt := by
  induction t using induct with
  | node a cs ih =>
    rw [preorder, paths, List.map_cons, List.map_cons, labelAt]
    congr 1
    apply map_pathsFrom _ ih
    intro k c path hc
    rw [labelAt, Nat.zero_add, hc, Option.bind_some]

theorem inPreorder (t : RoseTree α) : t.InPreorder t.preorder :=
  ⟨t.paths, t.paths_sorted, t.mem_paths, t.preorder_labels⟩

end Children

/-- The labels of a preorder are those at the ends of paths. -/
theorem InPreorder.mem_iff {t : RoseTree α} {labels : List α} (h : t.InPreorder labels) {a : α} :
    a ∈ labels ↔ ∃ path, t.labelAt path = some a := by
  obtain ⟨paths, -, hall, hmap⟩ := h
  have hmem : a ∈ labels ↔ some a ∈ labels.map some := by simp
  rw [hmem, hmap, List.mem_map]
  constructor
  · intro hpath
    obtain ⟨path, -, ha⟩ := hpath
    exact ⟨path, ha⟩
  · intro hpath
    obtain ⟨path, ha⟩ := hpath
    refine ⟨path, (hall path).mpr ?_, ha⟩
    rw [ha]
    rfl

end RoseTree
end Hurray.Base
