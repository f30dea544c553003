import Hurray.File.ReaderCalls
import Hurray.Stream.ReadDriver

/-!
What the file reader asks for and what it announces. A range that is requested
has memory of its length, and a result that is announced is there to be taken,
as long as no job for an unknown name displaces one that has come so far that it
cannot be displaced.
-/
namespace Hurray.File
open Hurray.Base Hurray.Core Hurray.Descriptor Hurray.Stream

namespace FileReaderCore
variable {A : Type} {c : FileReaderCore A}

/-! ### The invariant -/

/-- The staging memory is that of the range. -/
def Staged (c : FileReaderCore A) : Prop :=
  c.staging.length = c.target ∧ c.filled ≤ c.target

/-- A job is under way: nothing has come out of it, and it has a walk if it is one. -/
structure Working (c : FileReaderCore A) : Prop where
  descriptorOut : c.descriptorOut = none
  tensorOut : c.tensorOut = none
  compositeOut : c.compositeOut = none
  job : ∃ job, c.job = some job ∧ (job = .walk ↔ c.walk.isSome = true)
  names : ∀ walk, c.walk = some walk → ∀ name ∈ walk.names, name ∈ c.index.map IndexEntry.name

theorem Working.frame {d : FileReaderCore A} (h : c.Working)
    (heq : (d.descriptorOut, d.tensorOut, d.compositeOut, d.job, d.walk, d.index) =
      (c.descriptorOut, c.tensorOut, c.compositeOut, c.job, c.walk, c.index)) : d.Working := by
  obtain ⟨hdescriptor, htensor, hcomposite, hjob, hnames⟩ := h
  simp only [Prod.mk.injEq] at heq
  obtain ⟨heq1, heq2, heq3, heq4, heq5, heq6⟩ := heq
  constructor
  · rw [heq1, hdescriptor]
  · rw [heq2, htensor]
  · rw [heq3, hcomposite]
  · rw [heq4, heq5]
    exact hjob
  · rw [heq5, heq6]
    exact hnames

/-- The memory and the results that go with each state. -/
def Sound (c : FileReaderCore A) : Prop :=
  match c.state with
  | .header | .trailer | .index | .kv => c.Staged
  | .descriptor => c.Staged ∧ c.pending = none ∧ c.Working
  | .buffer _ => c.Working ∧ ∃ p dest, c.pending = some p ∧ p.dest = some dest ∧
      dest.length = c.target ∧ c.filled ≤ c.target
  | .done .descriptor => c.descriptorOut.isSome = true
  | .done .tensor => c.tensorOut.isSome = true
  | .done .composite => c.compositeOut.isSome = true
  | .ready | .failed => True

/-- The call keeps the invariant, whether it succeeds or not. -/
abbrev Keeps : Result Unit × FileReaderCore A → Prop :=
  Leaves (fun _ c => c.Sound) (fun _ c => c.Sound) True

/-- A failed job leaves the core ready, and a failed opening leaves it failed. -/
theorem keeps_fail (e : Error) : Keeps (c.fail e) := by
  unfold fail
  split <;> exact trivial

theorem keeps_orFail {α : Type} {r : Result α} {next : α → Result Unit × FileReaderCore A}
    (hok : ∀ a, r = .ok a → Keeps (next a)) : Keeps (c.orFail r next) := by
  apply leaves_orFail hok
  · intro e
    exact leaves_fail_iff.mp (keeps_fail e)
  · exact fun _ => trivial

theorem keeps_orFailOpen {α : Type} {r : Result α} {next : α → Result Unit × FileReaderCore A}
    (hok : ∀ a, r = .ok a → Keeps (next a)) : Keeps (c.orFailOpen r next) := by
  apply leaves_orFailOpen hok
  · exact fun _ => trivial
  · exact fun _ => trivial

theorem staged_replicate {target : ℕ} (htarget : c.target = target)
    (hstaging : c.staging = List.replicate target 0) (hfilled : c.filled = 0) : c.Staged := by
  rw [Staged, htarget, hstaging, hfilled]
  exact ⟨List.length_replicate, Nat.zero_le _⟩

theorem keeps_request {offset : UInt64} {len : ℕ} {state : FileState}
    (h : state = .trailer ∨ state = .index ∨ state = .kv) : Keeps (c.request offset len state) := by
  apply leaves_request _ fun _ => trivial
  rcases h with rfl | rfl | rfl
  · exact staged_replicate rfl rfl rfl
  · exact staged_replicate rfl rfl rfl
  · exact staged_replicate rfl rfl rfl

/-! ### The open sequence keeps it -/

theorem keeps_finishHeader : Keeps c.finishHeader := by
  unfold finishHeader
  split
  · exact trivial
  · apply keeps_orFailOpen
    intro flags _
    apply keeps_orFailOpen
    intro alignment _
    apply keeps_orFailOpen
    intro offset _
    exact keeps_request (.inl rfl)

theorem keeps_finishTrailer : Keeps c.finishTrailer := by
  unfold finishTrailer
  apply keeps_orFailOpen
  intro t _
  apply keeps_orFailOpen
  intro _ _
  exact keeps_request (.inr (.inl rfl))

theorem keeps_finishIndex (crc32c : Bytes → UInt32) : Keeps (c.finishIndex crc32c) := by
  unfold finishIndex
  apply keeps_orFailOpen
  intro _ _
  apply keeps_orFailOpen
  intro index _
  dsimp only
  split
  · exact keeps_request (.inr (.inr rfl))
  · exact trivial

theorem keeps_finishKv : Keeps c.finishKv := by
  unfold finishKv
  apply keeps_orFailOpen
  intro kv _
  exact trivial

/-! ### The jobs keep it -/

theorem sound_describing {e : IndexEntry} (h : c.Working) (hpending : c.pending = none) :
    (c.describing e).Sound :=
  ⟨staged_replicate rfl rfl rfl, hpending, h.frame rfl⟩

theorem Working.setWalk {walk walk' : Walk} (h : c.Working) (hwalk : c.walk = some walk)
    (hnames : walk'.names = walk.names) : { c with walk := some walk' }.Working := by
  refine ⟨h.descriptorOut, h.tensorOut, h.compositeOut, by simpa [hwalk] using h.job, ?_⟩
  intro w hw
  cases hw
  rw [hnames]
  exact h.names walk hwalk

/-- The names of a walk are those of the index, so that the walk never asks for an unknown one. -/
theorem keeps_walkNext (h : c.Working) (hpending : c.pending = none) : Keeps c.walkNext := by
  rcases hwalk : c.walk with _ | walk
  · unfold walkNext
    rw [hwalk]
    exact keeps_fail _
  · rcases hname : walk.names[walk.cursor]? with _ | name
    · unfold walkNext
      rw [hwalk]
      dsimp only
      rw [hname]
      dsimp only
      split
      · exact keeps_fail _
      · exact keeps_fail _
    · have hmem := h.names walk hwalk name (List.mem_of_getElem? hname)
      obtain ⟨e, hfind⟩ : ∃ e, find c.index name = some e := by
        rw [← Option.ne_none_iff_exists', Ne, find_eq_none, not_not]
        exact hmem
      rw [walkNext_of_find hwalk hname hfind]
      apply sound_describing
      · exact h.setWalk hwalk rfl
      · exact hpending

theorem keeps_deliverTo {walk : Walk} {stack : List Open} {item : FileItem} (h : c.Working)
    (hwalk : c.walk = some walk) (hpending : c.pending = none) : Keeps (c.deliverTo walk stack item) := by
  induction stack generalizing item with
  | nil =>
    cases item with
    | tensor t => exact keeps_fail _
    | composite name head members => exact rfl
  | cons top rest ih =>
    unfold deliverTo
    apply keeps_orFail
    intro validator _
    dsimp only
    split
    · apply keeps_walkNext
      · exact h.setWalk hwalk rfl
      · exact hpending
    · apply keeps_orFail
      intro _ _
      exact ih

theorem keeps_completeTensor (h : c.Working) : Keeps c.completeTensor := by
  unfold completeTensor
  split
  · exact keeps_fail _
  · dsimp only
    split
    · exact rfl
    · unfold deliver
      split
      · exact keeps_fail _
      · next walk hwalk =>
        apply keeps_deliverTo
        · exact h.frame rfl
        · exact hwalk
        · rfl
    · exact keeps_fail _

section Alloc
variable [DestinationAlloc A]

theorem keeps_beginBuffer (hA : LawfulAlloc A) {index : ℕ} (h : c.Working) :
    Keeps (c.beginBuffer index) := by
  unfold beginBuffer
  split
  · exact keeps_fail _
  · next p hp =>
    split
    · exact keeps_fail _
    · next handle hhandle =>
      split
      next dest destinations halloc =>
      apply keeps_orFail
      intro mem hmem
      have hzeroed := hA.zeroed ⟨index, handle.byteSize, handle.alignment⟩ c.destinations mem
        (by rw [halloc]; exact hmem)
      refine ⟨h.frame rfl, _, mem, rfl, rfl, ?_, Nat.zero_le _⟩
      rw [hzeroed]
      exact List.length_replicate

theorem keeps_beginBuffers (hA : LawfulAlloc A) {d : TensorDescriptor} (h : c.Working) :
    Keeps (c.beginBuffers d) := by
  unfold beginBuffers
  dsimp only
  split
  · apply keeps_completeTensor
    exact h.frame rfl
  · apply keeps_beginBuffer hA
    exact h.frame rfl

theorem keeps_finishBuffer (hA : LawfulAlloc A) {index : ℕ} (h : c.Working) :
    Keeps (c.finishBuffer index) := by
  unfold finishBuffer
  split
  · exact keeps_fail _
  · split
    · exact keeps_fail _
    · dsimp only
      split
      · apply keeps_orFail
        intro offset _
        apply keeps_beginBuffer hA
        exact h.frame rfl
      · apply keeps_completeTensor
        exact h.frame rfl

theorem keeps_walkDescriptor (hA : LawfulAlloc A) {d : TensorDescriptor} (h : c.Working)
    (hpending : c.pending = none) : Keeps (c.walkDescriptor d) := by
  unfold walkDescriptor
  split
  · split
    · exact keeps_fail _
    · next walk hwalk =>
      split
      · exact keeps_fail _
      · apply keeps_orFail
        intro validator _
        have hworking : { c with entryName := "" }.Working := h.frame rfl
        apply keeps_walkNext
        · exact hworking.setWalk hwalk rfl
        · exact hpending
  · split
    · exact keeps_fail _
    · exact keeps_beginBuffers hA h

theorem keeps_finishDescriptor (hA : LawfulAlloc A) (h : c.Working)
    (hpending : c.pending = none) : Keeps c.finishDescriptor := by
  unfold finishDescriptor
  apply keeps_orFail
  intro d _
  split
  · exact rfl
  · exact keeps_beginBuffers hA h
  · exact keeps_walkDescriptor hA h hpending
  · exact keeps_fail _

theorem keeps_advance (hA : LawfulAlloc A) (crc32c : Bytes → UInt32) (h : c.Sound)
    (hfilling : c.state.filling = true) : Keeps (c.advance crc32c) := by
  unfold Sound at h
  unfold advance
  cases hs : c.state with
  | header => exact keeps_finishHeader
  | trailer => exact keeps_finishTrailer
  | index => exact keeps_finishIndex crc32c
  | kv => exact keeps_finishKv
  | descriptor =>
    rw [hs] at h
    exact keeps_finishDescriptor hA h.2.2 h.2.1
  | buffer index =>
    rw [hs] at h
    exact keeps_finishBuffer hA h.1
  | _ =>
    rw [hs] at hfilling
    exact absurd hfilling Bool.false_ne_true

/-! ### The calls keep it -/

theorem step_keeps (hA : LawfulAlloc A) (crc32c : Bytes → UInt32) (h : c.Sound) :
    Leaves (fun s c' => c'.Sound ∧ c'.Answers s) (fun _ c' => c'.Sound) True (c.step crc32c) := by
  apply leaves_step h
  · exact fun c hc _ => hc
  · exact fun c hc hfilling _ => keeps_advance hA crc32c hc hfilling

end Alloc

theorem fillDst_sound (h : c.Sound) (data : Bytes) : (c.fillDst data).Sound := by
  have hlen : ∀ mem : Bytes, mem.length = c.target → c.filled ≤ c.target →
      (overwrite mem c.filled (data.take (mem.length - c.filled))).length = c.target := by
    intro mem hmem hle
    rw [length_overwrite, hmem]
    rw [List.length_take]
    omega
  unfold Sound at h
  cases hs : c.state with
  | header =>
    simp only [Sound, fillDst, hs, Staged] at h ⊢
    exact ⟨hlen _ h.1 h.2, h.2⟩
  | trailer =>
    simp only [Sound, fillDst, hs, Staged] at h ⊢
    exact ⟨hlen _ h.1 h.2, h.2⟩
  | index =>
    simp only [Sound, fillDst, hs, Staged] at h ⊢
    exact ⟨hlen _ h.1 h.2, h.2⟩
  | kv =>
    simp only [Sound, fillDst, hs, Staged] at h ⊢
    exact ⟨hlen _ h.1 h.2, h.2⟩
  | descriptor =>
    simp only [Sound, fillDst, hs, Staged] at h ⊢
    exact ⟨⟨hlen _ h.1.1 h.1.2, h.1.2⟩, h.2.1, h.2.2.frame rfl⟩
  | buffer index =>
    simp only [Sound, fillDst, hs] at h ⊢
    obtain ⟨hworking, p, dest, hp, hdest, hdestlen, hle⟩ := h
    rw [hp]
    refine ⟨hworking.frame rfl, _, _, rfl, ?_, hlen dest hdestlen hle, hle⟩
    rw [Option.map_eq_some_iff]
    exact ⟨dest, hdest, rfl⟩
  | done d => simpa only [Sound, fillDst, hs] using h
  | _ => simp only [Sound, fillDst, hs]

theorem arrived_sound {n : ℕ} (h : c.Sound) (hfilling : c.state.filling = true)
    (hle : c.filled + n ≤ c.target) : (c.arrived n).Sound := by
  unfold Sound at h
  cases hs : c.state with
  | descriptor =>
    simp only [Sound, arrived, hs] at h ⊢
    exact ⟨⟨h.1.1, hle⟩, h.2.1, h.2.2.frame rfl⟩
  | buffer index =>
    simp only [Sound, arrived, hs] at h ⊢
    obtain ⟨hworking, p, dest, hp, hdest, hlen, _⟩ := h
    exact ⟨hworking.frame rfl, p, dest, hp, hdest, hlen, hle⟩
  | header =>
    simp only [Sound, arrived, hs] at h ⊢
    exact ⟨h.1, hle⟩
  | trailer =>
    simp only [Sound, arrived, hs] at h ⊢
    exact ⟨h.1, hle⟩
  | index =>
    simp only [Sound, arrived, hs] at h ⊢
    exact ⟨h.1, hle⟩
  | kv =>
    simp only [Sound, arrived, hs] at h ⊢
    exact ⟨h.1, hle⟩
  | _ =>
    rw [hs] at hfilling
    exact absurd hfilling Bool.false_ne_true

theorem reportFilled_keeps (h : c.Sound) (n : ℕ) : Keeps (c.reportFilled n) := by
  rcases reportFilled_cases c n with ⟨e, heq⟩ | ⟨_, _, heq⟩ | ⟨hfilling, hle, _, heq⟩ | ⟨_, heq, _⟩
  · rw [heq]
    exact h
  · rw [heq]
    exact keeps_fail _
  · rw [heq]
    exact arrived_sound h hfilling hle
  · rw [heq]
    exact trivial

theorem takeDescriptor_sound (h : c.Sound) : c.takeDescriptor.2.Sound := by
  unfold takeDescriptor
  split
  · exact h
  · exact trivial

theorem takeTensor_sound (h : c.Sound) : c.takeTensor.2.Sound := by
  unfold takeTensor
  split
  · exact h
  · exact trivial

theorem takeComposite_sound (h : c.Sound) : c.takeComposite.2.Sound := by
  unfold takeComposite
  split
  · exact h
  · exact trivial

/-! ### The start of a job -/

section Begin
variable {job : Job} {name : String}

/-- The new job is for a known name, or there is no job that it could spoil: the file is not open,
no job is under way, or the one under way is the same and has only asked for its descriptor. -/
def Admissible (c : FileReaderCore A) (job : Job) (name : String) : Prop :=
  c.isOpen = false ∨ name ∈ c.index.map IndexEntry.name ∨ c.state = .ready ∨
    c.state = .descriptor ∧ c.job = some job ∧ job ≠ .walk

/-- A call that fails leaves the core as it was, or ready. -/
def BeginKept (c : FileReaderCore A) (job : Job) (name : String) : Prop :=
  ∀ e, (c.begin job name).1 = Exec.fail e →
    (c.begin job name).2 = c ∨ (c.begin job name).2.state = .ready

theorem find_of_mem (h : name ∈ c.index.map IndexEntry.name) :
    ∃ e, find c.index name = some e := by
  rw [← Option.ne_none_iff_exists', Ne, find_eq_none, not_not]
  exact h

/-- A job that has only asked for its descriptor is the same when it is begun again. -/
theorem supersede_eq (hpending : c.pending = none) (h : c.Working) (hjob : c.job = some job)
    (hwalk : job ≠ .walk) : c.supersede job = c := by
  obtain ⟨job', hjob', hiff⟩ := h.job
  obtain rfl : job = job' := Option.some.inj (hjob.symm.trans hjob')
  have hnone : c.walk = none := by
    cases hw : c.walk with
    | none => rfl
    | some walk => exact absurd (hiff.mpr (by rw [hw]; rfl)) hwalk
  have hdescriptor := h.descriptorOut
  have htensor := h.tensorOut
  have hcomposite := h.compositeOut
  clear h
  cases c
  simp_all [supersede]

/-- Nothing but a core that is ready, or that has only asked for a descriptor, outlives a job that
displaces it. -/
theorem admissible_of_supersede (h : c.Sound) (hopen : c.isOpen = true)
    (heq : c.supersede job = c) (hready : c.state ≠ .ready) :
    c.state = .descriptor ∧ c.job = some job ∧ job ≠ .walk := by
  have hjob : some job = c.job := congrArg FileReaderCore.job heq
  have hpending : none = c.pending := congrArg FileReaderCore.pending heq
  have hwalk : none = c.walk := congrArg FileReaderCore.walk heq
  have hdescriptor : none = c.descriptorOut := congrArg FileReaderCore.descriptorOut heq
  have htensor : none = c.tensorOut := congrArg FileReaderCore.tensorOut heq
  have hcomposite : none = c.compositeOut := congrArg FileReaderCore.compositeOut heq
  unfold Sound at h
  cases hs : c.state with
  | descriptor =>
    simp only [hs] at h
    obtain ⟨job', hjob', hiff⟩ := h.2.2.job
    refine ⟨rfl, hjob.symm, ?_⟩
    rintro rfl
    obtain rfl : Job.walk = job' := Option.some.inj (hjob.trans hjob')
    have hsome := hiff.mp rfl
    rw [← hwalk] at hsome
    exact Bool.false_ne_true hsome
  | buffer index =>
    simp only [hs] at h
    obtain ⟨_, p, _, hp, _⟩ := h
    rw [← hpending] at hp
    cases hp
  | done d =>
    cases d with
    | descriptor =>
      simp only [hs, ← hdescriptor] at h
      exact absurd h Bool.false_ne_true
    | tensor =>
      simp only [hs, ← htensor] at h
      exact absurd h Bool.false_ne_true
    | composite =>
      simp only [hs, ← hcomposite] at h
      exact absurd h Bool.false_ne_true
  | ready => exact absurd hs hready
  | _ =>
    rw [isOpen, hs] at hopen
    exact absurd hopen Bool.false_ne_true

theorem beginKept_iff (h : c.Sound) : c.BeginKept job name ↔ c.Admissible job name := by
  unfold BeginKept Admissible
  by_cases hopen : c.isOpen = true
  · by_cases hmem : name ∈ c.index.map IndexEntry.name
    · obtain ⟨e, hfind⟩ := find_of_mem hmem
      rw [begin_of_find hopen hfind]
      constructor
      · intro _
        exact .inr (.inl hmem)
      · intro _ e he
        cases he
    · rw [begin_of_find_none hopen (find_eq_none.mpr hmem)]
      constructor
      · intro hkept
        right
        right
        by_cases hready : c.state = .ready
        · exact .inl hready
        · right
          rcases hkept _ rfl with heq | hstate
          · exact admissible_of_supersede h hopen heq hready
          · exact absurd hstate hready
      · intro hadmissible e _
        rcases hadmissible with hclosed | hknown | hready | ⟨hs, hjob, hwalk⟩
        · rw [hopen] at hclosed
          cases hclosed
        · exact absurd hknown hmem
        · exact .inr hready
        · left
          unfold Sound at h
          simp only [hs] at h
          exact supersede_eq h.2.1 h.2.2 hjob hwalk
  · have hclosed : c.isOpen = false := Bool.not_eq_true _ ▸ hopen
    rw [begin_of_not_isOpen hclosed]
    constructor
    · intro _
      exact .inl hclosed
    · intro _ e _
      exact .inl rfl

theorem isSome_jobWalk {index : List IndexEntry} (h : name ∈ index.map IndexEntry.name) :
    (jobWalk index job name).isSome = true ↔ job = .walk := by
  unfold jobWalk
  by_cases hjob : job = .walk
  · rw [if_pos hjob, Option.isSome_map, List.isSome_idxOf?, mem_orderedNames]
    exact iff_of_true h hjob
  · rw [if_neg hjob]
    exact iff_of_false Bool.false_ne_true hjob

theorem names_jobWalk {index : List IndexEntry} {walk : Walk}
    (h : jobWalk index job name = some walk) : walk.names = orderedNames index := by
  unfold jobWalk at h
  split at h
  · obtain ⟨start, _, rfl⟩ := Option.map_eq_some_iff.mp h
    rfl
  · cases h

/-- A job that may be begun keeps the invariant, also when its name is unknown. -/
theorem begin_keeps (h : c.Sound) (hadmissible : c.Admissible job name) :
    Keeps (c.begin job name) := by
  by_cases hopen : c.isOpen = true
  · by_cases hmem : name ∈ c.index.map IndexEntry.name
    · obtain ⟨e, hfind⟩ := find_of_mem hmem
      obtain ⟨rfl, _⟩ := name_of_find hfind
      rw [begin_of_find hopen hfind]
      apply sound_describing
      · refine ⟨rfl, rfl, rfl, ⟨job, rfl, (isSome_jobWalk hmem).symm⟩, ?_⟩
        intro walk hwalk name hname
        rw [names_jobWalk hwalk, mem_orderedNames] at hname
        exact hname
      · rfl
    · have hkept : c.supersede job = c ∨ c.state = .ready := by
        have hbegin := (beginKept_iff h).mpr hadmissible
        rw [BeginKept, begin_of_find_none hopen (find_eq_none.mpr hmem)] at hbegin
        exact hbegin _ rfl
      rw [begin_of_find_none hopen (find_eq_none.mpr hmem)]
      show (c.supersede job).Sound
      rcases hkept with heq | hready
      · rw [heq]
        exact h
      · unfold Sound
        rw [show (c.supersede job).state = .ready from hready]
        exact trivial
  · rw [begin_of_not_isOpen (Bool.not_eq_true _ ▸ hopen)]
    exact h

end Begin

end FileReaderCore
end Hurray.File
