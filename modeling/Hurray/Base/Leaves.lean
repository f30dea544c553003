import Hurray.Base.Exec

/-!
Calls that return a result beside the state they leave. `Leaves` says what holds
of that state when the call returns a value, when it returns an error, and
whether it may panic; after a panic there is no state to speak of.
-/
namespace Hurray.Base
variable {ε α σ : Type} {P Q : α → σ → Prop} {E F : ε → σ → Prop} {p q : Prop}

def Leaves (P : α → σ → Prop) (E : ε → σ → Prop) (p : Prop) : Exec ε α × σ → Prop
  | (.ok a, s) => P a s
  | (.error (.error e), s) => E e s
  | (.error .panic, _) => p

@[simp] theorem leaves_ok {a : α} {s : σ} : Leaves P E p (.ok a, s) ↔ P a s := Iff.rfl

@[simp] theorem leaves_error {e : ε} {s : σ} : Leaves P E p (.error (.error e), s) ↔ E e s := Iff.rfl

@[simp] theorem leaves_fail {e : ε} {s : σ} : Leaves P E p (Exec.fail e, s) ↔ E e s := Iff.rfl

@[simp] theorem leaves_panic {s : σ} : Leaves P E p (Exec.panic, s) ↔ p := Iff.rfl

@[simp] theorem leaves_error_panic {s : σ} : Leaves P E p (.error .panic, s) ↔ p := Iff.rfl

theorem Leaves.mono {x : Exec ε α × σ} (h : Leaves P E p x) (hP : ∀ a s, P a s → Q a s)
    (hE : ∀ e s, E e s → F e s) (hp : p → q) : Leaves Q F q x := by
  rcases x with ⟨(e | _) | a, s⟩
  · exact hE e s h
  · exact hp h
  · exact hP a s h

theorem Leaves.and {x : Exec ε α × σ} (h : Leaves P E p x) (h' : Leaves Q F q x) :
    Leaves (fun a s => P a s ∧ Q a s) (fun e s => E e s ∧ F e s) (p ∧ q) x := by
  rcases x with ⟨(e | _) | a, s⟩
  · exact ⟨h, h'⟩
  · exact ⟨h, h'⟩
  · exact ⟨h, h'⟩

end Hurray.Base
