import Mathlib.Computability.StateTransition

/-!
Runs of a step relation. What one step keeps, every run keeps; the runs of a step
function are those of the relation between a state and the next.
-/
namespace Hurray.Base
open StateTransition Relation

variable {σ : Type} {r : σ → σ → Prop} {I : σ → Prop} {s t : σ}

theorem run_invariant (hstep : ∀ s t, r s t → I s → I t) (h : ReflTransGen r s t) (hs : I s) :
    I t := by
  induction h with
  | refl => exact hs
  | tail _ hst ih => exact hstep _ _ hst ih

theorem reaches_invariant {f : σ → Option σ} (hstep : ∀ s t, f s = some t → I s → I t)
    (h : Reaches f s t) (hs : I s) : I t := by
  apply run_invariant _ h hs
  exact fun s t hst => hstep s t hst

/-- Whatever calls follow, the property holds. -/
def Forever {α : Type} (call : σ → α → σ) (P : σ → Prop) (s : σ) : Prop :=
  ∀ calls : List α, P (calls.foldl call s)

theorem forever_of_invariant {α : Type} {call : σ → α → σ} {P : σ → Prop}
    (hcall : ∀ s a, I s → I (call s a)) (h : ∀ s, I s → P s) (hs : I s) : Forever call P s := by
  intro calls
  apply h
  exact List.foldlRecOn calls call hs fun s hs a _ => hcall s a hs

end Hurray.Base
