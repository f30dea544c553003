import Hurray.Base.RoseTree
import Mathlib.Algebra.Order.Ring.Nat
import Mathlib.Data.List.Forall2

/-!
Trees written as their preorder, where every label tells how many trees follow it as its children.
Such a word is read back from its end: the trees grown from what follows a label give it its
children. The places of the children are then known before any tree is built.
-/
namespace Hurray.Base
variable {α : Type} (arity : α → ℕ)

/-- The word is used up just when no tree is owed any more. -/
def Codes : ℕ → List α → Bool
  | owed, [] => owed == 0
  | 0, _ :: _ => false
  | owed + 1, a :: word => Codes (owed + arity a) word

namespace RoseTree

/-- Every label has as many children as it tells. -/
inductive Counted : RoseTree α → Prop where
  | node {a : α} {cs : List (RoseTree α)} (count : arity a = cs.length)
      (children : ∀ c ∈ cs, Counted c) : Counted (node a cs)

/-- The trees of a word, the last label first. -/
def grow : List α → List (RoseTree α)
  | [] => []
  | a :: word => node a ((grow word).take (arity a)) :: (grow word).drop (arity a)

def size (t : RoseTree α) : ℕ := t.preorder.length

/-- The places of the roots in the word of a forest that begins at the place `i`. -/
def roots : ℕ → List (RoseTree α) → List ℕ
  | _, [] => []
  | i, t :: ts => i :: roots (i + t.size) ts

/-- For every label of a word from the place `i` on, the places of its children. -/
def links : ℕ → List α → List (List ℕ)
  | _, [] => []
  | i, a :: word => roots (i + 1) ((grow arity word).take (arity a)) :: links (i + 1) word

variable {arity}
variable {a : α} {word : List α} {owed : ℕ} {t : RoseTree α} {ts us : List (RoseTree α)}

theorem size_node {cs : List (RoseTree α)} :
    (node a cs).size = (cs.map size).sum + 1 := by
  rw [size, preorder, List.length_cons, List.length_flatMap]
  rfl

theorem size_pos (t : RoseTree α) : 0 < t.size := by
  cases t with
  | node a cs => simp [size_node]

@[simp] theorem preorder_grow : (grow arity word).flatMap preorder = word := by
  induction word with
  | nil => rfl
  | cons a word ih =>
    rw [grow, List.flatMap_cons, preorder, List.cons_append, ← List.flatMap_append,
      List.take_append_drop, ih]

theorem length_grow (h : Codes arity owed word) : (grow arity word).length = owed := by
  induction word generalizing owed with
  | nil =>
    have howed : owed = 0 := by simpa [Codes] using h
    simp [grow, howed]
  | cons a word ih =>
    cases owed with
    | zero => simp [Codes] at h
    | succ owed =>
      have hlen := ih h
      simp [grow, hlen]

theorem counted_grow (h : Codes arity owed word) : ∀ t ∈ grow arity word, t.Counted arity := by
  induction word generalizing owed with
  | nil => simp [grow]
  | cons a word ih =>
    cases owed with
    | zero => simp [Codes] at h
    | succ owed =>
      rw [grow, List.forall_mem_cons]
      constructor
      · have hlen : (grow arity word).length = owed + arity a := length_grow h
        apply Counted.node
        · simp [hlen]
        · intro c hc
          exact ih h c (List.mem_of_mem_take hc)
      · intro c hc
        exact ih h c (List.mem_of_mem_drop hc)

section Forest

variable (owed word)

theorem grow_forest (ih : ∀ t ∈ ts, ∀ word, grow arity (t.preorder ++ word) = t :: grow arity word) :
    grow arity (ts.flatMap preorder ++ word) = ts ++ grow arity word := by
  induction ts with
  | nil => rfl
  | cons t ts hts =>
    rw [List.forall_mem_cons] at ih
    rw [List.flatMap_cons, List.append_assoc, ih.1, hts ih.2, List.cons_append]

theorem codes_forest (ih : ∀ t ∈ ts, ∀ owed word,
    Codes arity (owed + 1) (t.preorder ++ word) = Codes arity owed word) :
    Codes arity (owed + ts.length) (ts.flatMap preorder ++ word) = Codes arity owed word := by
  induction ts with
  | nil => rfl
  | cons t ts hts =>
    rw [List.forall_mem_cons] at ih
    rw [List.flatMap_cons, List.append_assoc, List.length_cons, ← Nat.add_assoc, ih.1, hts ih.2]

end Forest

/-- A tree whose labels count its children grows back from its word, whatever follows. -/
theorem Counted.grow_append (h : t.Counted arity) (word : List α) :
    grow arity (t.preorder ++ word) = t :: grow arity word := by
  induction t using induct generalizing word with
  | node a cs ih =>
    obtain ⟨hcount, hchildren⟩ := h
    have hgrow := grow_forest word fun c hc => ih c hc (hchildren c hc)
    rw [preorder, List.cons_append, grow, hgrow, hcount, List.take_left, List.drop_left]

theorem Counted.codes_append (h : t.Counted arity) (owed : ℕ) (word : List α) :
    Codes arity (owed + 1) (t.preorder ++ word) = Codes arity owed word := by
  induction t using induct generalizing owed word with
  | node a cs ih =>
    obtain ⟨hcount, hchildren⟩ := h
    have hcodes := codes_forest word owed fun c hc => ih c hc (hchildren c hc)
    rw [preorder, List.cons_append, Codes, hcount, hcodes]

theorem grow_preorder (h : t.Counted arity) : grow arity t.preorder = [t] := by
  simpa [grow] using h.grow_append []

theorem codes_congr {β : Type} {arity' : β → ℕ} {word' : List β}
    (h : List.Forall₂ (fun a b => arity a = arity' b) word word') :
    Codes arity owed word = Codes arity' owed word' := by
  induction h generalizing owed with
  | nil => rfl
  | cons hab _ ih =>
    cases owed with
    | zero => rfl
    | succ owed => rw [Codes, Codes, ih, hab]

/-- The words of one tree are those that count to one. -/
theorem codes_one : Codes arity 1 word ↔ ∃ t : RoseTree α, t.Counted arity ∧ t.preorder = word := by
  constructor
  · intro h
    obtain ⟨t, ht⟩ := List.length_eq_one_iff.mp (length_grow h)
    have hword : (grow arity word).flatMap preorder = word := preorder_grow
    have hcounted := counted_grow h
    simp only [ht, List.flatMap_cons, List.flatMap_nil, List.append_nil, List.mem_singleton,
      forall_eq] at hword hcounted
    exact ⟨t, hcounted, hword⟩
  · rintro ⟨t, ht, rfl⟩
    simpa [Codes] using ht.codes_append 0 []

/-- Where the children of the first label end, the next children of the label before it begin. -/
theorem roots_drop {i k : ℕ} (h : k ≤ ts.length) :
    (roots i ts).drop k = roots (i + ((ts.take k).map size).sum) (ts.drop k) := by
  induction k generalizing i ts with
  | zero => simp
  | succ k ih =>
    cases ts with
    | nil => simp at h
    | cons t ts => simp [roots, ih (Nat.le_of_succ_le_succ h), Nat.add_assoc]

theorem roots_take {i k : ℕ} : (roots i ts).take k = roots i (ts.take k) := by
  induction k generalizing i ts with
  | zero => simp [roots]
  | succ k ih =>
    cases ts with
    | nil => simp [roots]
    | cons t ts => simp [roots, ih]

theorem roots_grow_cons {i : ℕ} (h : arity a ≤ (grow arity word).length) :
    roots i (grow arity (a :: word)) = i :: (roots (i + 1) (grow arity word)).drop (arity a) := by
  rw [roots_drop h, grow, roots, size_node, Nat.add_comm _ 1, Nat.add_assoc]

section Congr
variable {β : Type} {arity' : β → ℕ} {word' : List β}

theorem roots_congr {us : List (RoseTree β)} {i : ℕ} (h : ts.map size = us.map size) :
    roots i ts = roots i us := by
  induction ts generalizing us i with
  | nil =>
    have hnil : us = [] := by simpa using h.symm
    simp [hnil, roots]
  | cons t ts ih =>
    cases us with
    | nil => simp at h
    | cons u us =>
      rw [List.map_cons, List.map_cons, List.cons.injEq] at h
      simp [roots, h.1, ih h.2]

/-- The places depend on the counts alone. -/
theorem size_grow_congr (h : List.Forall₂ (fun a b => arity a = arity' b) word word') :
    (grow arity word).map size = (grow arity' word').map size := by
  induction h with
  | nil => rfl
  | cons hab _ ih =>
    simp [grow, size_node, List.map_take, List.map_drop, ih, hab]

end Congr

@[simp] theorem length_links {i : ℕ} : (links arity i word).length = word.length := by
  induction word generalizing i with
  | nil => rfl
  | cons a word ih => simp [links, ih]

section Walk
variable {ι β : Type} {view : ι → α × List ι} {weight : ι → ℕ}

/-- A walk that takes the top of a stack and puts its children there, the first one on top. -/
def walk (view : ι → α × List ι) (weight : ι → ℕ)
    (hweight : ∀ x, ((view x).2.map weight).sum < weight x) : List ι → List α
  | [] => []
  | x :: stack => (view x).1 :: walk view weight hweight ((view x).2 ++ stack)
termination_by stack => (stack.map weight).sum
decreasing_by
  have hx := hweight x
  simp only [List.map_append, List.sum_append, List.map_cons, List.sum_cons]
  omega

/-- The walk lists the trees of the stack. -/
theorem walk_eq (hweight : ∀ x, ((view x).2.map weight).sum < weight x) {tree : ι → RoseTree α}
    (htree : ∀ x, tree x = node (view x).1 ((view x).2.map tree)) (stack : List ι) :
    walk view weight hweight stack = stack.flatMap fun x => (tree x).preorder := by
  induction stack using walk.induct view weight hweight with
  | case1 => simp [walk]
  | case2 x stack ih =>
    rw [walk, ih, List.flatMap_cons, htree x, preorder]
    simp [List.flatMap_map]

/-- Two trees of one shape, with related labels. -/
inductive Related (R : α → β → Prop) : RoseTree α → RoseTree β → Prop
  | node {a : α} {b : β} {cs : List (RoseTree α)} {ds : List (RoseTree β)} (label : R a b)
      (children : List.Forall₂ (Related R) cs ds) : Related R (node a cs) (node b ds)

theorem Related.preorder {R : α → β → Prop} {u : RoseTree β} (h : Related R t u) :
    List.Forall₂ R t.preorder u.preorder := by
  induction t using induct generalizing u with
  | node a cs ih =>
    obtain ⟨hlabel, hchildren⟩ := h
    rw [RoseTree.preorder, RoseTree.preorder]
    refine .cons hlabel ?_
    induction hchildren with
    | nil => exact .nil
    | cons hc _ hcs =>
      rw [List.forall_mem_cons] at ih
      exact List.rel_append (ih.1 hc) (hcs ih.2)

end Walk

end RoseTree
end Hurray.Base
