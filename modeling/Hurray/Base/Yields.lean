import Hurray.Base.Exec

/-!
Postconditions of computations that may panic. `Yields` says that a computation
is safe and what it returns; its rules follow the shape of the program.
`PanicsUnless` is its counterpart for showing that a panic is reached.
-/
namespace Hurray.Base.Exec

section Yields
variable {ε α β σ : Type}

/-- The computation does not panic, and what it returns satisfies `P`. -/
def Yields (x : Exec ε α) (P : α → Prop) : Prop := x.Safe ∧ ∀ a, x = .ok a → P a

theorem yields_ok {P : α → Prop} {a : α} (h : P a) : Yields (.ok a : Exec ε α) P := by
  refine ⟨ok_ne_panic, ?_⟩
  intro b hb
  cases hb
  exact h

theorem yields_pure {P : α → Prop} {a : α} (h : P a) : Yields (pure a : Exec ε α) P := yields_ok h

theorem Yields.bind {x : Exec ε α} {f : α → Exec ε β} {P : α → Prop} {Q : β → Prop}
    (hx : Yields x P) (hf : ∀ a, P a → Yields (f a) Q) : Yields (x >>= f) Q := by
  refine ⟨safe_bind hx.1 fun a ha => (hf a (hx.2 a ha)).1, ?_⟩
  intro b hb
  obtain ⟨a, ha, hb⟩ := bind_eq_ok.mp hb
  exact (hf a (hx.2 a ha)).2 b hb

theorem Yields.mono {x : Exec ε α} {P Q : α → Prop} (hx : Yields x P) (h : ∀ a, P a → Q a) :
    Yields x Q := ⟨hx.1, fun a ha => h a (hx.2 a ha)⟩

theorem yields_reject {c : Prop} [Decidable c] {e : ε} :
    Yields (reject c e) fun _ => ¬ c :=
  ⟨reject_ne_panic, fun _ h => reject_eq_ok.mp h⟩

theorem yields_orFail {x : Option α} {e : ε} : Yields (orFail x e) fun a => x = some a :=
  ⟨orFail_ne_panic, fun _ h => orFail_eq_ok.mp h⟩

theorem yields_index {xs : List α} {i : ℕ} (h : i < xs.length) :
    Yields (index xs i : Exec ε α) fun a => xs[i]? = some a := by
  refine ⟨?_, fun _ ha => index_eq_ok.mp ha⟩
  intro hpanic
  exact absurd (index_eq_panic.mp hpanic) (Nat.not_le.mpr h)

/-- A loop whose body keeps the invariant is safe and ends in the invariant. -/
theorem yields_foldlM {f : σ → α → Exec ε σ} {I : σ → Prop} {l : List α} {s : σ} (hinit : I s)
    (hbody : ∀ s, ∀ a ∈ l, I s → Yields (f s a) I) : Yields (l.foldlM f s) I := by
  induction l generalizing s with
  | nil => exact yields_pure hinit
  | cons a l ih =>
    rw [List.foldlM_cons]
    apply (hbody s a List.mem_cons_self hinit).bind
    intro t ht
    exact ih ht fun s b hb => hbody s b (List.mem_cons_of_mem a hb)

theorem yields_mapM {f : α → Exec ε β} {P : β → Prop} {l : List α}
    (hbody : ∀ a ∈ l, Yields (f a) P) :
    Yields (l.mapM f) fun ys => ys.length = l.length ∧ ∀ y ∈ ys, P y := by
  induction l with
  | nil =>
    rw [List.mapM_nil]
    exact yields_pure (by simp)
  | cons a l ih =>
    rw [List.mapM_cons]
    apply (hbody a List.mem_cons_self).bind
    intro y hy
    refine (ih fun b hb => hbody b (List.mem_cons_of_mem a hb)).bind ?_
    intro ys h
    obtain ⟨hlen, hys⟩ := h
    refine yields_pure ⟨by simp [hlen], ?_⟩
    simpa using ⟨hy, hys⟩

end Yields

section Panics
variable {ε α β σ : Type}

/-- The computation returns no error: it panics, or its value satisfies `P`. -/
def PanicsUnless (x : Exec ε α) (P : α → Prop) : Prop := x = panic ∨ ∃ a, x = .ok a ∧ P a

theorem panicsUnless_pure {P : α → Prop} {a : α} (h : P a) :
    PanicsUnless (pure a : Exec ε α) P := .inr ⟨a, rfl, h⟩

theorem panicsUnless_index {xs : List α} {i : ℕ} :
    PanicsUnless (index xs i : Exec ε α) fun _ => True := by
  unfold index
  cases xs[i]? with
  | none => exact .inl rfl
  | some a => exact .inr ⟨a, rfl, trivial⟩

theorem PanicsUnless.bind {x : Exec ε α} {f : α → Exec ε β} {P : α → Prop} {Q : β → Prop}
    (hx : PanicsUnless x P) (hf : ∀ a, P a → PanicsUnless (f a) Q) :
    PanicsUnless (x >>= f) Q := by
  rcases hx with rfl | ⟨a, rfl, ha⟩
  · exact .inl rfl
  · exact hf a ha

theorem PanicsUnless.bind_eq_panic {x : Exec ε α} {f : α → Exec ε β} {P : α → Prop}
    (hx : PanicsUnless x P) (hf : ∀ a, P a → f a = panic) : (x >>= f) = panic := by
  rcases hx with rfl | ⟨a, rfl, ha⟩
  · rfl
  · exact hf a ha

theorem panicsUnless_foldlM {f : σ → α → Exec ε σ} {I : σ → Prop} {l : List α} {s : σ}
    (hinit : I s) (hbody : ∀ s, ∀ a ∈ l, I s → PanicsUnless (f s a) I) :
    PanicsUnless (l.foldlM f s) I := by
  induction l generalizing s with
  | nil => exact panicsUnless_pure hinit
  | cons a l ih =>
    rw [List.foldlM_cons]
    apply (hbody s a List.mem_cons_self hinit).bind
    intro t ht
    exact ih ht fun s b hb => hbody s b (List.mem_cons_of_mem a hb)

/-- A loop that returns no error and panics in one of its rounds panics. -/
theorem foldlM_eq_panic {f : σ → α → Exec ε σ} {I : σ → Prop} {l : List α} {s : σ} {a : α}
    (hinit : I s) (hbody : ∀ s, ∀ b ∈ l, I s → PanicsUnless (f s b) I) (hmem : a ∈ l)
    (hpanic : ∀ s, I s → f s a = panic) : l.foldlM f s = panic := by
  induction l generalizing s with
  | nil => cases hmem
  | cons b l ih =>
    rw [List.foldlM_cons]
    rcases List.mem_cons.mp hmem with rfl | hmem
    · rw [hpanic s hinit]
      rfl
    · apply (hbody s b List.mem_cons_self hinit).bind_eq_panic
      intro t ht
      exact ih ht (fun s c hc => hbody s c (List.mem_cons_of_mem b hc)) hmem

end Panics
end Hurray.Base.Exec
