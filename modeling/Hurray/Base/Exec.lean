import Mathlib.Algebra.Group.Nat.Defs
import Mathlib.Control.Monad.Basic
import Mathlib.Data.List.Forall2
import Mathlib.Tactic.Basic
import Mathlib.Tactic.Common

/-!
Computations that return a value, return an error, or panic. The panic is kept
apart from the errors, so that a statement about a returned error and a
statement about safety are both about the same definition.
-/
namespace Hurray.Base

/-- How a computation ends without a value. -/
inductive Fault (ε : Type) where
  | error (e : ε)
  | panic
  deriving DecidableEq, Repr

abbrev Exec (ε α : Type) := Except (Fault ε) α

/-- What a slice borrows is in memory, so it has fewer elements than there are signed words. -/
structure Slice (α : Type) where
  elems : List α
  length_lt : elems.length < 2 ^ 63

namespace Exec
variable {ε ε' α β : Type}

def fail (e : ε) : Exec ε α := .error (.error e)

def panic : Exec ε α := .error .panic

/-- The early return `if c { return Err(e) }`. -/
def reject (c : Prop) [Decidable c] (e : ε) : Exec ε Unit := if c then fail e else .ok ()

/-- A read of a slice at an index, which panics past the end. -/
def index (xs : List α) (i : ℕ) : Exec ε α := xs[i]?.elim panic .ok

/-- The slice of length `n` from index `i`, which panics past the end. -/
def slice (xs : List α) (i n : ℕ) : Exec ε (List α) :=
  if i + n ≤ xs.length then .ok ((xs.drop i).take n) else panic

/-- The value of an optional result whose absence is the error `e`. -/
def orFail (x : Option α) (e : ε) : Exec ε α := x.elim (fail e) .ok

def mapError (f : ε → ε') : Exec ε α → Exec ε' α
  | .ok a => .ok a
  | .error (.error e) => .error (.error (f e))
  | .error .panic => .error .panic

/-- The computation does not panic. -/
def Safe (x : Exec ε α) : Prop := x ≠ panic

instance [DecidableEq ε] [DecidableEq α] (x : Exec ε α) : Decidable x.Safe :=
  inferInstanceAs (Decidable (x ≠ panic))

theorem bind_eq_ok {x : Exec ε α} {f : α → Exec ε β} {b : β} :
    (x >>= f) = .ok b ↔ ∃ a, x = .ok a ∧ f a = .ok b := by
  cases x <;> simp [bind, Except.bind]

theorem bind_eq_panic {x : Exec ε α} {f : α → Exec ε β} :
    (x >>= f) = panic ↔ x = panic ∨ ∃ a, x = .ok a ∧ f a = panic := by
  cases x <;> simp [bind, Except.bind, panic]

@[simp] theorem ok_bind {a : α} {f : α → Exec ε β} : ((.ok a : Exec ε α) >>= f) = f a := rfl

@[simp] theorem fail_bind {e : ε} {f : α → Exec ε β} : ((fail e : Exec ε α) >>= f) = fail e := rfl

@[simp] theorem panic_bind {f : α → Exec ε β} : ((panic : Exec ε α) >>= f) = panic := rfl

@[simp] theorem fail_ne_ok {e : ε} {a : α} : (fail e : Exec ε α) ≠ .ok a := by simp [fail]

@[simp] theorem panic_ne_ok {a : α} : (panic : Exec ε α) ≠ .ok a := by simp [panic]

@[simp] theorem fail_ne_panic {e : ε} : (fail e : Exec ε α) ≠ panic := by simp [fail, panic]

@[simp] theorem ok_ne_panic {a : α} : (.ok a : Exec ε α) ≠ panic := by simp [panic]

@[simp] theorem reject_eq_ok {c : Prop} [Decidable c] {e : ε} {u : Unit} :
    reject c e = .ok u ↔ ¬ c := by
  unfold reject
  split <;> simp_all

theorem reject_of_not {c : Prop} [Decidable c] {e : ε} (h : ¬ c) : reject c e = .ok () :=
  if_neg h

@[simp] theorem reject_ne_panic {c : Prop} [Decidable c] {e : ε} :
    reject c e ≠ (panic : Exec ε Unit) := by
  unfold reject
  split <;> simp

@[simp] theorem index_eq_ok {xs : List α} {i : ℕ} {a : α} :
    (index xs i : Exec ε α) = .ok a ↔ xs[i]? = some a := by
  unfold index
  cases xs[i]? <;> simp

@[simp] theorem index_eq_panic {xs : List α} {i : ℕ} :
    (index xs i : Exec ε α) = panic ↔ xs.length ≤ i := by
  unfold index
  rcases h : xs[i]? with _ | a
  · simpa using h
  · simpa using (List.getElem?_eq_some_iff.mp h).1

theorem slice_eq_ok {xs ys : List α} {i n : ℕ} : (slice xs i n : Exec ε (List α)) = .ok ys ↔
    i + n ≤ xs.length ∧ ys = (xs.drop i).take n := by
  unfold slice
  split
  · simp_all [eq_comm]
  · simp_all only [panic_ne_ok, false_and]

@[simp] theorem slice_eq_panic {xs : List α} {i n : ℕ} :
    (slice xs i n : Exec ε (List α)) = panic ↔ xs.length < i + n := by
  unfold slice
  split <;> simp <;> omega

@[simp] theorem orFail_some {a : α} {e : ε} : orFail (some a) e = .ok a := rfl

@[simp] theorem orFail_eq_ok {x : Option α} {e : ε} {a : α} :
    orFail x e = .ok a ↔ x = some a := by
  cases x <;> simp [orFail]

@[simp] theorem orFail_ne_panic {x : Option α} {e : ε} : orFail x e ≠ panic := by
  cases x <;> simp [orFail]

@[simp] theorem mapError_eq_ok {f : ε → ε'} {x : Exec ε α} {a : α} :
    x.mapError f = .ok a ↔ x = .ok a := by
  rcases x with (_ | _) | _ <;> simp [mapError]

@[simp] theorem mapError_eq_panic {f : ε → ε'} {x : Exec ε α} :
    x.mapError f = panic ↔ x = panic := by
  rcases x with (_ | _) | _ <;> simp [mapError, panic]

/-- A loop of checks passes when every check does. -/
theorem forM_eq_ok {l : List α} {f : α → Exec ε Unit} {u : Unit} :
    l.forM f = .ok u ↔ ∀ a ∈ l, f a = .ok () := by
  induction l with
  | nil => simp [pure, Except.pure]
  | cons a l ih =>
    rw [List.forall_mem_cons, ← ih]
    show (f a >>= fun _ => l.forM f) = .ok u ↔ _
    rw [bind_eq_ok]
    simp [Unique.exists_iff]

theorem mapM_eq_ok {f : α → Exec ε β} {l : List α} {ys : List β}
    (h : List.Forall₂ (fun a y => f a = .ok y) l ys) : l.mapM f = .ok ys := by
  induction h with
  | nil => rfl
  | cons hy _ ih =>
    rw [List.mapM_cons, hy, ok_bind, ih]
    rfl

/-- Two loops over related lists, with the same steps, are the same loop. -/
theorem foldlM_congr {γ : Type} {R : α → β → Prop} {f : γ → α → Exec ε γ} {g : γ → β → Exec ε γ}
    {xs : List α} {ys : List β} (h : List.Forall₂ R xs ys)
    (hstep : ∀ x y, R x y → ∀ c, f c x = g c y) (c : γ) : xs.foldlM f c = ys.foldlM g c := by
  induction h generalizing c with
  | nil => rfl
  | @cons x y xs ys hxy _ ih =>
    rw [List.foldlM_cons, List.foldlM_cons, hstep x y hxy]
    exact congrArg (g c y >>= ·) (funext ih)

/-- A loop that ends has made each of its steps. -/
theorem exists_step_of_foldlM {γ : Type} {f : γ → α → Exec ε γ} {xs : List α} {c r : γ}
    (h : xs.foldlM f c = .ok r) {x : α} (hx : x ∈ xs) : ∃ b b', f b x = .ok b' := by
  induction xs generalizing c with
  | nil => cases hx
  | cons y ys ih =>
    rw [List.foldlM_cons, bind_eq_ok] at h
    obtain ⟨d, hd, hrest⟩ := h
    rcases List.mem_cons.mp hx with rfl | hmem
    · exact ⟨c, d, hd⟩
    · exact ih hrest hmem

/-- A loop over an interval ends just when there is a state before each of its rounds. -/
theorem foldlM_range_eq_ok {f : α → ℕ → Exec ε α} {a b : α} {n : ℕ} :
    (List.range n).foldlM f a = .ok b ↔
      ∃ s : ℕ → α, s 0 = a ∧ s n = b ∧ ∀ k < n, f (s k) k = .ok (s (k + 1)) := by
  induction n generalizing b with
  | zero =>
    constructor
    · intro h
      cases h
      exact ⟨fun _ => a, rfl, rfl, fun k hk => absurd hk (Nat.not_lt_zero k)⟩
    · intro h
      obtain ⟨s, rfl, rfl, -⟩ := h
      rfl
  | succ n ih =>
    rw [List.range_succ, List.foldlM_append, bind_eq_ok]
    simp only [List.foldlM_cons, List.foldlM_nil, bind_pure, ih]
    constructor
    · intro h
      obtain ⟨c, ⟨s, hinit, hlast, hsteps⟩, hstep⟩ := h
      refine ⟨fun k => if k ≤ n then s k else b, ?_, ?_, ?_⟩
      · simp only [Nat.zero_le, if_true, hinit]
      · simp only [Nat.not_succ_le_self, if_false]
      · intro k hk
        rcases Nat.eq_or_lt_of_le (Nat.le_of_lt_succ hk) with rfl | hlt
        · simp only [Nat.le_refl, if_true, Nat.not_succ_le_self, if_false, hlast]
          exact hstep
        · simp only [Nat.le_of_lt hlt, Nat.succ_le_of_lt hlt, if_true]
          exact hsteps k hlt
    · intro h
      obtain ⟨s, hinit, rfl, hsteps⟩ := h
      exact ⟨s n, ⟨s, hinit, rfl, fun k hk => hsteps k (Nat.lt_succ_of_lt hk)⟩,
        hsteps n (Nat.lt_succ_self n)⟩

/-- The places of a list, with what two lists have there. -/
theorem forall₂_range_zip {xs : List α} {ys : List β} (h : xs.length ≤ ys.length) :
    List.Forall₂ (fun k p => xs[k]? = some p.1 ∧ ys[k]? = some p.2) (List.range xs.length)
      (xs.zip ys) := by
  have hlen : (xs.zip ys).length = xs.length := by
    rw [List.length_zip, Nat.min_eq_left h]
  rw [List.forall₂_iff_get]
  refine ⟨by rw [List.length_range, hlen], ?_⟩
  intro k hk hk'
  have hx : k < xs.length := hlen ▸ hk'
  have hy : k < ys.length := Nat.lt_of_lt_of_le hx h
  simp only [List.get_eq_getElem, List.getElem_range, List.getElem_zip,
    List.getElem?_eq_getElem hx, List.getElem?_eq_getElem hy, and_self]

theorem safe_bind {x : Exec ε α} {f : α → Exec ε β} (hx : x.Safe)
    (hf : ∀ a, x = .ok a → (f a).Safe) : (x >>= f).Safe := by
  intro h
  rcases bind_eq_panic.mp h with h | ⟨a, ha, h⟩
  · exact hx h
  · exact hf a ha h

theorem safe_index {xs : List α} {i : ℕ} (h : i < xs.length) : (index xs i : Exec ε α).Safe := by
  intro hpanic
  exact absurd (index_eq_panic.mp hpanic) (Nat.not_le.mpr h)

theorem safe_slice {xs : List α} {i n : ℕ} (h : i + n ≤ xs.length) :
    (slice xs i n : Exec ε (List α)).Safe := by
  rw [slice, if_pos h]
  exact ok_ne_panic

theorem safe_forM {l : List α} {f : α → Exec ε Unit} (h : ∀ a ∈ l, (f a).Safe) :
    (l.forM f).Safe := by
  induction l with
  | nil => exact ok_ne_panic
  | cons a l ih =>
    show (f a >>= fun _ => l.forM f).Safe
    apply safe_bind (h a List.mem_cons_self)
    intro _ _
    exact ih fun b hb => h b (List.mem_cons_of_mem a hb)

/-- A safe computation that never returns a value returns an error. -/
theorem exists_fail {x : Exec ε α} (hx : x.Safe) (h : ∀ a, x ≠ .ok a) : ∃ e, x = fail e := by
  rcases x with (e | _) | a
  · exact ⟨e, rfl⟩
  · exact absurd rfl hx
  · exact absurd rfl (h a)

end Exec
end Hurray.Base
