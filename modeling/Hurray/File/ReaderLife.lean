import Hurray.Descriptor.Contract
import Hurray.File.ReaderRequests

/-!
The life of a file reader: any calls in any order, with any bytes put where it
asks for them. A panic ends the life.
-/
namespace Hurray.File
open Hurray.Base Hurray.Core Hurray.Descriptor Hurray.Stream

inductive ReaderAction where
  | step
  | fill (data : Bytes)
  | report (n : ℕ)
  | begin (job : Job) (name : String)
  | takeDescriptor
  | takeTensor
  | takeComposite

/-- The core that a call leaves, which is none after a panic. -/
def survivor {α σ : Type} : Result α × σ → Option σ
  | (.error .panic, _) => none
  | (_, s) => some s

theorem leaves_survivor {α σ : Type} {P : α → σ → Prop} {E : Error → σ → Prop} {p : Prop}
    {I : σ → Prop} {x : Result α × σ} {s : σ} (h : Leaves P E p x) (hP : ∀ a s, P a s → I s)
    (hE : ∀ e s, E e s → I s) (hs : survivor x = some s) : I s := by
  rcases x with ⟨(e | _) | a, t⟩
  · cases hs
    exact hE e s h
  · cases hs
  · cases hs
    exact hP a s h

namespace FileReaderCore
variable {A : Type} [DestinationAlloc A] {crc32c : Bytes → UInt32} {c : FileReaderCore A}

/-- What a call leaves of the core. -/
def act (crc32c : Bytes → UInt32) (c : FileReaderCore A) :
    ReaderAction → Option (FileReaderCore A)
  | .step => survivor (c.step crc32c)
  | .fill data => some (c.fillDst data)
  | .report n => survivor (c.reportFilled n)
  | .begin job name => survivor (c.begin job name)
  | .takeDescriptor => some c.takeDescriptor.2
  | .takeTensor => some c.takeTensor.2
  | .takeComposite => some c.takeComposite.2

/-- What a step returns is there: memory of the length of the range, or the result announced. -/
structure Honest (crc32c : Bytes → UInt32) (c : FileReaderCore A) : Prop where
  range : ∀ offset len c', c.step crc32c = (.ok (.range offset len), c') →
    ∃ dst, c'.inputDst = .ok dst ∧ dst.length = len
  descriptor : ∀ c', c.step crc32c = (.ok .descriptor, c') → c'.takeDescriptor.1.isSome = true
  tensor : ∀ c', c.step crc32c = (.ok .tensor, c') → c'.takeTensor.1.isSome = true
  composite : ∀ c', c.step crc32c = (.ok .composite, c') → c'.takeComposite.1.isSome = true

/-- A call that begins a job and fails leaves the core as it was, or ready. -/
def Kept (c : FileReaderCore A) : ReaderAction → Prop
  | .begin job name => c.BeginKept job name
  | _ => True

/-- A call that may be made in a state. -/
def Admits (c : FileReaderCore A) : ReaderAction → Prop
  | .begin job name => c.Admissible job name
  | _ => True

/-- The core is honest before and after each call of a run, and no failed call spoils it. -/
def Honoured (crc32c : Bytes → UInt32) : FileReaderCore A → List ReaderAction → Prop
  | c, [] => c.Honest crc32c
  | c, a :: actions => c.Honest crc32c ∧ c.Kept a ∧
      ∀ c', c.act crc32c a = some c' → Honoured crc32c c' actions

/-- Each call of a run is admitted where it is made. -/
def Admitted (crc32c : Bytes → UInt32) : FileReaderCore A → List ReaderAction → Prop
  | _, [] => True
  | c, a :: actions => c.Admits a ∧ ∀ c', c.act crc32c a = some c' → Admitted crc32c c' actions

omit [DestinationAlloc A] in
theorem inputDst_of_sound (h : c.Sound) (hfilling : c.state.filling = true) :
    ∃ dst, c.inputDst = .ok dst ∧ dst.length = c.target - c.filled := by
  have hslice : ∀ mem : Bytes, mem.length = c.target → c.filled ≤ c.target →
      ∃ dst, (Exec.slice mem c.filled (mem.length - c.filled) : Result Bytes) = .ok dst ∧
        dst.length = c.target - c.filled := by
    intro mem hmem hle
    refine ⟨_, Exec.slice_eq_ok.mpr ⟨by omega, rfl⟩, ?_⟩
    rw [List.length_take, List.length_drop, hmem]
    omega
  unfold Sound at h
  unfold inputDst
  cases hs : c.state with
  | header =>
    simp only [hs] at h
    exact hslice _ h.1 h.2
  | trailer =>
    simp only [hs] at h
    exact hslice _ h.1 h.2
  | index =>
    simp only [hs] at h
    exact hslice _ h.1 h.2
  | kv =>
    simp only [hs] at h
    exact hslice _ h.1 h.2
  | descriptor =>
    simp only [hs] at h
    exact hslice _ h.1.1 h.1.2
  | buffer index =>
    simp only [hs] at h
    obtain ⟨_, p, dest, hp, hdest, hlen, hle⟩ := h
    have hbind : c.pending.bind FilePending.dest = some dest := by
      rw [hp]
      exact hdest
    dsimp only
    rw [hbind]
    exact hslice dest hlen hle
  | _ =>
    rw [hs] at hfilling
    exact absurd hfilling Bool.false_ne_true

theorem honest_of_sound (hA : LawfulAlloc A) (h : c.Sound) : c.Honest crc32c := by
  have hstep : ∀ s c', c.step crc32c = (.ok s, c') → c'.Sound ∧ c'.Answers s := by
    intro s c' heq
    have hleaves := step_keeps hA crc32c h
    rw [heq] at hleaves
    exact hleaves
  constructor
  · intro offset len c' heq
    obtain ⟨hsound, hfilling, _, _, hlen⟩ := hstep _ _ heq
    rw [hlen]
    exact inputDst_of_sound hsound hfilling
  · intro c' heq
    obtain ⟨hsound, hstate⟩ := hstep _ _ heq
    rw [Sound, show c'.state = .done .descriptor from hstate] at hsound
    obtain ⟨d, hd⟩ := Option.isSome_iff_exists.mp hsound
    rw [takeDescriptor, hd]
    rfl
  · intro c' heq
    obtain ⟨hsound, hstate⟩ := hstep _ _ heq
    rw [Sound, show c'.state = .done .tensor from hstate] at hsound
    obtain ⟨t, ht⟩ := Option.isSome_iff_exists.mp hsound
    rw [takeTensor, ht]
    rfl
  · intro c' heq
    obtain ⟨hsound, hstate⟩ := hstep _ _ heq
    rw [Sound, show c'.state = .done .composite from hstate] at hsound
    obtain ⟨composite, hcomposite⟩ := Option.isSome_iff_exists.mp hsound
    rw [takeComposite, hcomposite]
    rfl

omit [DestinationAlloc A] in
theorem kept_iff (h : c.Sound) (a : ReaderAction) : c.Kept a ↔ c.Admits a := by
  cases a with
  | begin job name => exact beginKept_iff h
  | _ => exact Iff.rfl

theorem act_sound (hA : LawfulAlloc A) {c' : FileReaderCore A} {a : ReaderAction} (h : c.Sound)
    (hadmits : c.Admits a) (hact : c.act crc32c a = some c') : c'.Sound := by
  cases a with
  | step =>
    apply leaves_survivor (step_keeps hA crc32c h) _ _ hact
    · exact fun _ _ hs => hs.1
    · exact fun _ _ hs => hs
  | fill data =>
    cases hact
    exact fillDst_sound h data
  | report n =>
    apply leaves_survivor (reportFilled_keeps h n) _ _ hact
    · exact fun _ _ hs => hs
    · exact fun _ _ hs => hs
  | begin job name =>
    apply leaves_survivor (begin_keeps h hadmits) _ _ hact
    · exact fun _ _ hs => hs
    · exact fun _ _ hs => hs
  | takeDescriptor =>
    cases hact
    exact takeDescriptor_sound h
  | takeTensor =>
    cases hact
    exact takeTensor_sound h
  | takeComposite =>
    cases hact
    exact takeComposite_sound h

theorem honoured_iff_admitted (hA : LawfulAlloc A) (h : c.Sound) (actions : List ReaderAction) :
    c.Honoured crc32c actions ↔ c.Admitted crc32c actions := by
  induction actions generalizing c with
  | nil => exact iff_of_true (honest_of_sound hA h) trivial
  | cons a actions ih =>
    unfold Honoured Admitted
    rw [kept_iff h]
    constructor
    · intro hrun
      obtain ⟨_, hadmits, hrest⟩ := hrun
      refine ⟨hadmits, ?_⟩
      intro c' hact
      exact (ih (act_sound hA h hadmits hact)).mp (hrest c' hact)
    · intro hrun
      obtain ⟨hadmits, hrest⟩ := hrun
      refine ⟨honest_of_sound hA h, hadmits, ?_⟩
      intro c' hact
      exact (ih (act_sound hA h hadmits hact)).mpr (hrest c' hact)

omit [DestinationAlloc A] in
theorem sound_withDestinations (size : UInt64) (destinations : A) (depth : ℕ) :
    ((withDestinations size destinations).withMaxCompositeDepth depth).Sound :=
  staged_replicate rfl rfl rfl

/-- From its creation on, a reader is honest in every state that it comes to, and no failed call
spoils it, if and only if each job is begun where it may be. -/
theorem run_honoured_iff (hA : LawfulAlloc A) (crc32c : Bytes → UInt32) (size : UInt64)
    (destinations : A) (depth : ℕ) (actions : List ReaderAction) :
    ((withDestinations size destinations).withMaxCompositeDepth depth).Honoured crc32c actions ↔
      ((withDestinations size destinations).withMaxCompositeDepth depth).Admitted crc32c
        actions :=
  honoured_iff_admitted hA (sound_withDestinations size destinations depth) actions

end FileReaderCore

/-- A file with one tensor of name `a` and no key-value section. -/
def workedHeader : Bytes :=
  FILE_MAGIC ++ [1, 0, 0, 0] ++ u32Bytes 0 ++ u32Bytes 4096 ++ List.replicate 44 0

def workedTrailer (indexOffset : UInt64) (index : Bytes) (crc : UInt32) : Bytes :=
  u64Bytes indexOffset ++ u64Bytes (UInt64.ofNat index.length) ++ u64Bytes 0 ++ u32Bytes 0 ++
    u32Bytes crc ++ u32Bytes 0 ++ TRAILER_MAGIC

def workedIndex (dataOffset : UInt64) : Bytes := encodeIndexSection [⟨"a", 64, 61, dataOffset, 192⟩]

/-- The bytes that open the file and hold the descriptor of its tensor. -/
def workedOpening : List ReaderAction :=
  [.step, .fill workedHeader, .report 64,
    .step, .fill (workedTrailer 125 (workedIndex 4096) 0), .report 40,
    .step, .fill (workedIndex 4096), .report 43, .step]

/-- A descriptor that has arrived in part and is displaced by a job for the tensor. -/
def supersedingRun : List ReaderAction :=
  workedOpening ++ [.begin .descriptor "a", .step, .fill (workedExampleBytes 0 40), .report 40,
    .begin .tensor "a", .step, .fill (workedExampleBytes 0 61), .report 61, .step]

/-- A descriptor that has arrived and is displaced by a job for a name that is not there. -/
def displacingRun : List ReaderAction :=
  workedOpening ++ [.begin .descriptor "a", .step, .fill (workedExampleBytes 0 61), .report 61,
    .step, .begin .descriptor "b"]

namespace FileReaderCore
variable {A : Type} [DestinationAlloc A] {crc32c : Bytes → UInt32} {c c' : FileReaderCore A}

def run (crc32c : Bytes → UInt32) (c : FileReaderCore A) (actions : List ReaderAction) :
    Option (FileReaderCore A) := actions.foldlM (act crc32c) c

/-- A run whose steps take few turns, which evaluates. -/
def runWithin (crc32c : Bytes → UInt32) (n : ℕ) :
    FileReaderCore A → List ReaderAction → Option (FileReaderCore A)
  | c, [] => some c
  | c, .step :: actions =>
      (c.stepWithin crc32c n).bind fun x => (survivor x).bind fun c' =>
        runWithin crc32c n c' actions
  | c, a :: actions => (c.act crc32c a).bind fun c' => runWithin crc32c n c' actions

theorem run_of_runWithin {n : ℕ} {actions : List ReaderAction}
    (h : runWithin crc32c n c actions = some c') : run crc32c c actions = some c' := by
  induction actions generalizing c with
  | nil => exact h
  | cons a actions ih =>
    have hcons : ∃ d, c.act crc32c a = some d ∧ runWithin crc32c n d actions = some c' := by
      cases a with
      | step =>
        obtain ⟨x, hx, h⟩ := Option.bind_eq_some_iff.mp h
        obtain ⟨d, hd, h⟩ := Option.bind_eq_some_iff.mp h
        refine ⟨d, ?_, h⟩
        show survivor (c.step crc32c) = some d
        rw [step_of_stepWithin hx]
        exact hd
      | _ => exact Option.bind_eq_some_iff.mp h
    obtain ⟨d, hact, hrest⟩ := hcons
    rw [run, List.foldlM_cons]
    show (c.act crc32c a).bind _ = _
    rw [hact]
    exact ih hrest

instance (job : Job) (name : String) : Decidable (c.Admissible job name) :=
  inferInstanceAs (Decidable (c.isOpen = false ∨ name ∈ c.index.map IndexEntry.name ∨
    c.state = .ready ∨ c.state = .descriptor ∧ c.job = some job ∧ job ≠ .walk))

/-- A run of such steps whose jobs are begun where they may be. -/
def admittedWithin (crc32c : Bytes → UInt32) (n : ℕ) :
    FileReaderCore A → List ReaderAction → Bool
  | _, [] => true
  | c, .step :: actions =>
      (c.stepWithin crc32c n).elim false fun x => (survivor x).elim true fun c' =>
        admittedWithin crc32c n c' actions
  | c, .begin job name :: actions =>
      decide (c.Admissible job name) &&
        (c.act crc32c (.begin job name)).elim true fun c' => admittedWithin crc32c n c' actions
  | c, a :: actions => (c.act crc32c a).elim true fun c' => admittedWithin crc32c n c' actions

theorem admitted_of_admittedWithin {n : ℕ} {actions : List ReaderAction}
    (h : admittedWithin crc32c n c actions = true) : c.Admitted crc32c actions := by
  induction actions generalizing c with
  | nil => exact trivial
  | cons a actions ih =>
    have hcons : c.Admits a ∧ ∀ c', c.act crc32c a = some c' →
        admittedWithin crc32c n c' actions = true := by
      cases a with
      | step =>
        refine ⟨trivial, ?_⟩
        intro c' hact
        rw [admittedWithin] at h
        cases hwithin : c.stepWithin crc32c n with
        | none =>
          rw [hwithin] at h
          cases h
        | some x =>
          have hsurvivor : survivor x = some c' := by
            rw [← hact]
            show _ = survivor (c.step crc32c)
            rw [step_of_stepWithin hwithin]
          rwa [hwithin, Option.elim_some, hsurvivor, Option.elim_some] at h
      | begin job name =>
        rw [admittedWithin, Bool.and_eq_true, decide_eq_true_eq] at h
        refine ⟨h.1, ?_⟩
        intro c' hact
        rw [hact] at h
        exact h.2
      | _ =>
        refine ⟨trivial, ?_⟩
        intro c' hact
        have hrest : (c.act crc32c _).elim true
            (fun c' => admittedWithin crc32c n c' actions) = true := h
        rwa [hact] at hrest
    exact ⟨hcons.1, fun c' hact => ih (hcons.2 c' hact)⟩

/-- The second job gets its descriptor from the start. -/
theorem run_honoured_superseding :
    ((withDestinations 208 SystemDestinations.mk).withMaxCompositeDepth 64).Honoured (fun _ => 0)
        supersedingRun ∧
      ∃ c, run (fun _ => 0) ((withDestinations 208 SystemDestinations.mk).withMaxCompositeDepth 64)
        supersedingRun = some c ∧ c.state = .buffer 0 := by
  constructor
  · apply (run_honoured_iff lawfulAlloc_systemDestinations (fun _ => 0) 208 SystemDestinations.mk 64
      supersedingRun).mpr
    apply @admitted_of_admittedWithin _ _ _ _ 3
    decide +kernel
  · have hwithin : ((runWithin (fun _ => 0) 3
        ((withDestinations 208 SystemDestinations.mk).withMaxCompositeDepth 64) supersedingRun).map
          fun c => c.state) = some (.buffer 0) := by decide +kernel
    obtain ⟨c, hc, hstate⟩ := Option.map_eq_some_iff.mp hwithin
    exact ⟨c, run_of_runWithin hc, hstate⟩

theorem honest_of_run {actions : List ReaderAction} (h : c.Honoured crc32c actions)
    (hrun : run crc32c c actions = some c') : c'.Honest crc32c := by
  induction actions generalizing c with
  | nil =>
    cases hrun
    exact h
  | cons a actions ih =>
    rw [run, List.foldlM_cons] at hrun
    obtain ⟨d, hact, hrest⟩ := Option.bind_eq_some_iff.mp hrun
    exact ih (h.2.2 d hact) hrest

/-- The descriptor is announced and is not there. -/
theorem displaced_descriptor_is_missing :
    (∃ c, run (fun _ => 0) (new 208) displacingRun = some c ∧
      c.step (fun _ => 0) = (.ok .descriptor, c) ∧ c.takeDescriptor.1 = none) ∧
    ¬ (new 208).Honoured (fun _ => 0) displacingRun := by
  have hwithin : ((runWithin (fun _ => 0) 3 (new 208) displacingRun).map
      fun c => (c.state, c.takeDescriptor.1)) = some (.done .descriptor, none) := by
    decide +kernel
  obtain ⟨c, hc, hstate⟩ := Option.map_eq_some_iff.mp hwithin
  have hrun := run_of_runWithin hc
  have hdone : c.state = .done .descriptor := congrArg Prod.fst hstate
  have hnone : c.takeDescriptor.1 = none := congrArg Prod.snd hstate
  have hstep : c.step (fun _ => 0) = (.ok .descriptor, c) := step_of_answers (s := .descriptor) hdone
  refine ⟨⟨c, hrun, hstep, hnone⟩, ?_⟩
  intro h
  have hsome := (honest_of_run h hrun).descriptor c hstep
  rw [hnone] at hsome
  exact Bool.false_ne_true hsome

end FileReaderCore
end Hurray.File
