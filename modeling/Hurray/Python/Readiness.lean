import Mathlib.Data.List.Basic

/-!
The readiness of one descriptor, as an event loop has it. The loop holds one callback for the
descriptor: a task that waits puts its own there, and a task that stops waiting takes away
whichever is there.
-/
namespace Hurray.Python

/-- The tasks that wait, the one whose callback the loop holds, and the one it has called. -/
structure Readiness where
  waiting : List ℕ
  armed : Option ℕ
  woken : Option ℕ

namespace Readiness
variable (r : Readiness)

def new : Readiness := ⟨[], none, none⟩

/-- A task comes to wait. -/
def wait (task : ℕ) : Readiness := { r with waiting := task :: r.waiting, armed := some task }

/-- The descriptor is ready. A task that was called before runs before this one is called. -/
def ready : Readiness :=
  match r.woken with
  | none => { r with woken := r.armed }
  | some _ => r

/-- A task stops waiting, for it runs on or is cancelled. -/
def leave (task : ℕ) : Readiness where
  waiting := r.waiting.erase task
  armed := none
  woken := if r.woken = some task then none else r.woken

/-- Some task will run when the descriptor is ready. -/
def Live : Prop := r.armed ≠ none ∨ r.woken ≠ none

instance : Decidable r.Live := inferInstanceAs (Decidable (_ ∨ _))

/-- The task waits, and nothing of the loop leads to it. -/
def Stranded (task : ℕ) : Prop := task ∈ r.waiting ∧ r.armed ≠ some task ∧ r.woken ≠ some task

variable {r} {task other : ℕ}

theorem live_wait : (r.wait task).Live := .inl (by simp [wait])

theorem live_ready : r.ready.Live ↔ r.Live := by
  unfold ready Live
  cases hw : r.woken with
  | none => simp
  | some other => simp [hw]

theorem live_leave : (r.leave task).Live ↔ r.woken ≠ none ∧ r.woken ≠ some task := by
  unfold leave Live
  by_cases h : r.woken = some task <;> simp [h]

theorem not_live_leave (h : r.woken = some task) : ¬ (r.leave task).Live := by
  simp [live_leave, h]

theorem Stranded.wait (h : r.Stranded task) (hne : other ≠ task) : (r.wait other).Stranded task :=
  ⟨List.mem_cons_of_mem _ h.1, by simpa [Readiness.wait] using hne, h.2.2⟩

theorem Stranded.ready (h : r.Stranded task) : r.ready.Stranded task := by
  unfold Readiness.ready
  split
  · exact ⟨h.1, h.2.1, h.2.1⟩
  · exact h

theorem Stranded.leave (h : r.Stranded task) (hne : other ≠ task) :
    (r.leave other).Stranded task := by
  refine ⟨(List.mem_erase_of_ne hne.symm).mpr h.1, by simp [Readiness.leave], ?_⟩
  unfold Readiness.leave
  dsimp only
  split
  · simp
  · exact h.2.2

/-- A task that comes to wait displaces the one that waits already. -/
theorem stranded_wait (h : task ∈ r.waiting) (hw : r.woken ≠ some task) (hne : other ≠ task) :
    (r.wait other).Stranded task :=
  ⟨List.mem_cons_of_mem _ h, by simpa [Readiness.wait] using hne, hw⟩

end Readiness
end Hurray.Python
