import Hurray.File.ReaderLife
import Hurray.File.Reading

/-!
What an open reader answers is a matter of the file and of the request. Jobs
leave the index and the two settings alone, and a new job overwrites everything
else that it reads.
-/
namespace Hurray.File
open Hurray.Base Hurray.Core Hurray.Descriptor Hurray.Stream

namespace FileReaderCore
variable {A : Type} {c : FileReaderCore A}

/-! ### What jobs leave alone -/

/-- What an open core keeps for good. -/
def settings (c : FileReaderCore A) : List IndexEntry × List (String × KvValue) × UInt64 × ℕ :=
  (c.index, c.kv, c.dataBufferAlignment, c.maxCompositeDepth)

variable {v : List IndexEntry × List (String × KvValue) × UInt64 × ℕ}

/-- The core is open with these settings. -/
def OpenWith (v : List IndexEntry × List (String × KvValue) × UInt64 × ℕ)
    (c : FileReaderCore A) : Prop := c.isOpen = true ∧ c.settings = v

/-- The call leaves the core open with these settings, whether it succeeds or not. -/
abbrev Stays (v : List IndexEntry × List (String × KvValue) × UInt64 × ℕ) :
    Result Unit × FileReaderCore A → Prop :=
  Leaves (fun _ c => OpenWith v c) (fun _ c => OpenWith v c) True

theorem stays_fail (h : OpenWith v c) (e : Error) : Stays v (c.fail e) := by
  obtain ⟨hopen, hv⟩ := h
  unfold isOpen at hopen
  unfold fail
  split
  all_goals first
    | next hs =>
      rw [hs] at hopen
      exact absurd hopen Bool.false_ne_true
    | exact ⟨rfl, hv⟩

theorem stays_orFail {α : Type} {r : Result α} {next : α → Result Unit × FileReaderCore A}
    (h : OpenWith v c) (hok : ∀ a, Stays v (next a)) : Stays v (c.orFail r next) := by
  apply leaves_orFail
  · exact fun a _ => hok a
  · intro e
    exact leaves_fail_iff.mp (stays_fail h e)
  · exact fun _ => trivial

theorem stays_startDescriptor (h : OpenWith v c) (name : String) :
    Stays v (c.startDescriptor name) := by
  unfold startDescriptor
  split
  · exact h
  · exact leaves_request ⟨rfl, h.2⟩ fun _ => trivial

theorem stays_walkNext (h : OpenWith v c) : Stays v c.walkNext := by
  unfold walkNext
  split
  · exact stays_fail h _
  · split
    · apply stays_startDescriptor
      exact h
    · split
      · exact stays_fail h _
      · exact stays_fail h _

theorem stays_deliverTo {walk : Walk} {stack : List Open} {item : FileItem} (h : OpenWith v c) :
    Stays v (c.deliverTo walk stack item) := by
  induction stack generalizing item with
  | nil =>
    cases item with
    | tensor t => exact stays_fail h _
    | composite name head members => exact ⟨rfl, h.2⟩
  | cons top rest ih =>
    unfold deliverTo
    apply stays_orFail h
    intro validator
    dsimp only
    split
    · apply stays_walkNext
      exact h
    · apply stays_orFail h
      intro _
      exact ih

theorem stays_completeTensor (h : OpenWith v c) : Stays v c.completeTensor := by
  unfold completeTensor
  split
  · exact stays_fail h _
  · dsimp only
    split
    · exact ⟨rfl, h.2⟩
    · unfold deliver
      split
      · apply stays_fail
        exact h
      · apply stays_deliverTo
        exact h
    · apply stays_fail
      exact h

section Alloc
variable [DestinationAlloc A]

theorem stays_beginBuffer {index : ℕ} (h : OpenWith v c) : Stays v (c.beginBuffer index) := by
  unfold beginBuffer
  split
  · exact stays_fail h _
  · split
    · exact stays_fail h _
    · split
      apply stays_orFail
      · exact h
      · intro dest
        exact ⟨rfl, h.2⟩

theorem stays_beginBuffers {d : TensorDescriptor} (h : OpenWith v c) :
    Stays v (c.beginBuffers d) := by
  unfold beginBuffers
  dsimp only
  split
  · apply stays_completeTensor
    exact h
  · apply stays_beginBuffer
    exact h

theorem stays_finishBuffer {index : ℕ} (h : OpenWith v c) : Stays v (c.finishBuffer index) := by
  unfold finishBuffer
  split
  · exact stays_fail h _
  · split
    · exact stays_fail h _
    · dsimp only
      split
      · apply stays_orFail
        · exact h
        · intro offset
          apply stays_beginBuffer
          exact h
      · apply stays_completeTensor
        exact h

theorem stays_walkDescriptor {d : TensorDescriptor} (h : OpenWith v c) :
    Stays v (c.walkDescriptor d) := by
  unfold walkDescriptor
  split
  · split
    · exact stays_fail h _
    · split
      · exact stays_fail h _
      · apply stays_orFail h
        intro validator
        apply stays_walkNext
        exact h
  · split
    · apply stays_fail
      exact h
    · exact stays_beginBuffers h

theorem stays_finishDescriptor (h : OpenWith v c) : Stays v c.finishDescriptor := by
  unfold finishDescriptor
  apply stays_orFail h
  intro d
  split
  · exact ⟨rfl, h.2⟩
  · exact stays_beginBuffers h
  · exact stays_walkDescriptor h
  · exact stays_fail h _

theorem stays_advance (crc32c : Bytes → UInt32) (h : OpenWith v c) :
    Stays v (c.advance crc32c) := by
  have hopen := h.1
  unfold isOpen at hopen
  unfold advance
  split
  all_goals first
    | exact stays_finishDescriptor h
    | exact stays_finishBuffer h
    | exact stays_fail h _
    | next hs =>
      rw [hs] at hopen
      exact absurd hopen Bool.false_ne_true

theorem step_stays (crc32c : Bytes → UInt32) (h : OpenWith v c) :
    Leaves (fun _ c => OpenWith v c) (fun _ c => OpenWith v c) True (c.step crc32c) := by
  apply (leaves_step h _ _).mono (fun _ _ hs => hs.1) (fun _ _ hs => hs) (fun hp => hp)
  · exact fun c hc _ => hc
  · exact fun c hc _ _ => stays_advance crc32c hc

theorem act_stays {crc32c : Bytes → UInt32} {a : ReaderAction} {c' : FileReaderCore A}
    (h : OpenWith v c) (hact : c.act crc32c a = some c') : OpenWith v c' := by
  have hkept : ∀ {α : Type} {x : Result α × FileReaderCore A},
      Leaves (fun _ c => OpenWith v c) (fun _ c => OpenWith v c) True x → survivor x = some c' →
        OpenWith v c' := by
    intro α x hx hs
    exact leaves_survivor hx (fun _ _ hc => hc) (fun _ _ hc => hc) hs
  cases a with
  | step => exact hkept (step_stays crc32c h) hact
  | fill data =>
    cases hact
    unfold fillDst
    split <;> exact h
  | report n =>
    apply hkept _ hact
    rcases reportFilled_cases c n with ⟨e, heq⟩ | ⟨_, _, heq⟩ | ⟨_, _, _, heq⟩ | ⟨_, heq, _⟩
    · rw [heq]
      exact h
    · rw [heq]
      exact stays_fail h _
    · rw [heq]
      exact h
    · rw [heq]
      exact trivial
  | begin job name =>
    apply hkept _ hact
    cases hfind : find c.index name with
    | none =>
      rw [begin_of_find_none h.1 hfind]
      exact h
    | some e =>
      rw [begin_of_find h.1 hfind]
      exact ⟨rfl, h.2⟩
  | takeDescriptor =>
    cases hact
    unfold takeDescriptor
    split
    · exact h
    · exact ⟨rfl, h.2⟩
  | takeTensor =>
    cases hact
    unfold takeTensor
    split
    · exact h
    · exact ⟨rfl, h.2⟩
  | takeComposite =>
    cases hact
    unfold takeComposite
    split
    · exact h
    · exact ⟨rfl, h.2⟩

theorem run_stays {crc32c : Bytes → UInt32} {actions : List ReaderAction} {c' : FileReaderCore A}
    (h : OpenWith v c) (hrun : run crc32c c actions = some c') : OpenWith v c' := by
  induction actions generalizing c with
  | nil =>
    cases hrun
    exact h
  | cons a actions ih =>
    rw [run, List.foldlM_cons] at hrun
    obtain ⟨d, hact, hrest⟩ := Option.bind_eq_some_iff.mp hrun
    exact ih (act_stays h hact) hrest

/-- What a driver that opens a file gets. -/
theorem openWith_of_drive {crc32c : Bytes → UInt32} {file : Bytes} {size : UInt64} {a : A}
    {depth calls : ℕ} {chunk : ℕ → ℕ}
    (h : drive crc32c file chunk calls ((withDestinations size a).withMaxCompositeDepth depth) =
      .ok (.ready, c)) : ∃ view, openFile crc32c file size = .ok view ∧
        OpenWith (view.index, view.kv, view.dataBufferAlignment, depth) c := by
  have hstate : c.state = .ready := answers_of_drive h
  have hdrives := drives_open crc32c file size a depth chunk calls
  rw [h] at hdrives
  obtain ⟨view, hview, heq⟩ := Exec.bind_eq_ok.mp hdrives.symm
  have hfields := Except.ok.inj heq
  simp only [openView, Prod.mk.injEq] at hfields
  obtain ⟨_, hview', hdepth, _⟩ := hfields
  refine ⟨view, hview, ?_, ?_⟩
  · rw [isOpen, hstate]
  · rw [settings, hview', hdepth]

/-! ### What does not depend on the allocator -/

section Agree
variable {α β : Type} {file : Bytes} {alignment : UInt64} {depth : ℕ} {index : List IndexEntry}

/-- The answer of an allocator depends on the request alone. -/
def Oblivious (A : Type) [DestinationAlloc A] : Prop :=
  ∀ (request : DestinationRequest) (a b : A),
    (DestinationAlloc.allocate request a).1 = (DestinationAlloc.allocate request b).1

omit [DestinationAlloc A] in
theorem oblivious_systemDestinations : Oblivious SystemDestinations := fun _ _ _ => rfl

/-- The same result, whatever the allocators it leaves. -/
def Agree (x y : Result (α × A)) : Prop := x.map Prod.fst = y.map Prod.fst

omit [DestinationAlloc A] in
theorem agree_bind {x y : Result (α × A)} {f g : α × A → Result (β × A)} (h : Agree x y)
    (hfg : ∀ v a b, Agree (f (v, a)) (g (v, b))) : Agree (x >>= f) (y >>= g) := by
  rcases x with e | ⟨v, a⟩
  · rcases y with e' | ⟨w, b⟩
    · cases h
      exact rfl
    · cases h
  · rcases y with e' | ⟨w, b⟩
    · cases h
    · obtain rfl : v = w := Except.ok.inj h
      exact hfg v a b

omit [DestinationAlloc A] in
theorem agree_lift {r : Result α} {f g : α → Result (β × A)} (h : ∀ v, Agree (f v) (g v)) :
    Agree (r >>= f) (r >>= g) := by
  rcases r with e | v
  · exact rfl
  · exact h v

omit [DestinationAlloc A] in
theorem map_some_of_agree {x y : Result (α × A)} (h : Agree x y) :
    (x.map fun v => some v.1) = y.map fun v => some v.1 := by
  have hsome : ∀ x : Result (α × A), (x.map fun v => some v.1) = (x.map Prod.fst).map some := by
    intro x
    cases x <;> rfl
  rw [hsome, hsome, h]

theorem agree_readBuffers (hA : Oblivious A) {hs : List BufferHandle} {i : ℕ} {offset : UInt64}
    (a b : A) : Agree (readBuffers file alignment hs i offset a)
      (readBuffers file alignment hs i offset b) := by
  induction hs generalizing i offset a b with
  | nil => exact rfl
  | cons h hs ih =>
    unfold readBuffers
    dsimp only
    rw [hA _ a b]
    apply agree_lift
    intro _
    apply agree_lift
    intro data
    split
    · exact rfl
    · apply agree_lift
      intro next
      apply agree_bind (ih _ _)
      intro buffers a b
      exact rfl

theorem agree_readTensor (hA : Oblivious A) {name : String} {offset : UInt64}
    {d : TensorDescriptor} (a b : A) : Agree (readTensor file alignment name offset d a)
      (readTensor file alignment name offset d b) := by
  apply agree_bind (agree_readBuffers hA a b)
  intro buffers a b
  exact rfl

theorem agree_readNode (hA : Oblivious A) {stack : List Open} {e : IndexEntry}
    {d : TensorDescriptor} (a b : A) : Agree (readNode file alignment depth stack e d a)
      (readNode file alignment depth stack e d b) := by
  unfold readNode
  split
  · apply agree_lift
    intro _
    apply agree_lift
    intro validator
    exact rfl
  · apply agree_lift
    intro _
    apply agree_bind (agree_readTensor hA a b)
    intro t a b
    apply agree_lift
    intro handed
    exact rfl

theorem agree_readWalk (hA : Oblivious A) {names : List String} {stack : List Open} (a b : A) :
    Agree (readWalk file alignment depth index names stack a)
      (readWalk file alignment depth index names stack b) := by
  induction names generalizing stack a b with
  | nil =>
    cases stack with
    | nil => exact rfl
    | cons top rest => exact rfl
  | cons name names ih =>
    unfold readWalk
    apply agree_lift
    intro e
    apply agree_lift
    intro d
    apply agree_bind (agree_readNode hA a b)
    intro node a b
    cases node with
    | inl stack => exact ih a b
    | inr composite => exact rfl

theorem agree_readJob (hA : Oblivious A) {job : Job} {e : IndexEntry} (a b : A) :
    Agree (readJob file alignment depth index job e a)
      (readJob file alignment depth index job e b) := by
  cases job with
  | descriptor =>
    apply agree_lift
    intro d
    exact rfl
  | tensor =>
    apply agree_lift
    intro d
    apply agree_bind (agree_readTensor hA a b)
    intro t a b
    exact rfl
  | walk =>
    apply agree_bind (agree_readWalk hA a b)
    intro composite a b
    exact rfl

end Agree

/-- What a driver makes of a core, without the allocator. -/
def delivery (x : FileStep × FileReaderCore A) : Option Delivery := (jobView x).1

theorem delivery_eq (hA : LawfulAlloc A) {crc32c : Bytes → UInt32} {file : Bytes} {job : Job}
    {e : IndexEntry} {name : String} (hfind : find c.index name = some e) (chunk : ℕ → ℕ)
    (calls : ℕ) : (drive crc32c file chunk calls (c.started job e)).map delivery =
      (readJob file c.dataBufferAlignment c.maxCompositeDepth c.index job e c.destinations).map
        fun x => some x.1 := by
  have hview : ∀ x : Result (FileStep × FileReaderCore A),
      x.map delivery = (x.map jobView).map Prod.fst := by
    intro x
    cases x <;> rfl
  have hpair : ∀ x : Result (Delivery × A),
      (x >>= fun x => pure (some x.1, x.2)).map Prod.fst = x.map fun x => some x.1 := by
    intro x
    cases x <;> rfl
  rw [hview, drives_started hA hfind job chunk calls, hpair]

/-- After any calls, a job that can be begun comes to what it comes to in a core that has just been
opened. -/
theorem job_history_independent (hA : LawfulAlloc A) (hoblivious : Oblivious A)
    (crc32c : Bytes → UInt32) (file : Bytes) (size : UInt64) (depth : ℕ) {a b : A}
    {chunk chunk' : ℕ → ℕ} {calls calls' : ℕ} {opened fresh used begun : FileReaderCore A}
    {actions : List ReaderAction} {job : Job} {name : String} {u : Unit}
    (hopened : drive crc32c file chunk calls
      ((withDestinations size a).withMaxCompositeDepth depth) = .ok (.ready, opened))
    (hfresh : drive crc32c file chunk' calls'
      ((withDestinations size b).withMaxCompositeDepth depth) = .ok (.ready, fresh))
    (hused : run crc32c opened actions = some used)
    (hbegun : used.begin job name = (.ok u, begun)) :
    ∃ begun', fresh.begin job name = (.ok (), begun') ∧
      ∀ (chunk chunk' : ℕ → ℕ) (calls calls' : ℕ),
        (drive crc32c file chunk calls begun).map delivery =
          (drive crc32c file chunk' calls' begun').map delivery := by
  obtain ⟨view, hview, hopenedWith⟩ := openWith_of_drive hopened
  obtain ⟨view', hview', hfreshWith⟩ := openWith_of_drive hfresh
  obtain rfl : view = view' := Except.ok.inj (hview.symm.trans hview')
  have husedWith := run_stays hopenedWith hused
  have hsettings : used.settings = fresh.settings := husedWith.2.trans hfreshWith.2.symm
  simp only [settings, Prod.mk.injEq] at hsettings
  obtain ⟨hindex, _, halignment, hdepth⟩ := hsettings
  cases hfind : find used.index name with
  | none =>
    rw [begin_of_find_none husedWith.1 hfind] at hbegun
    cases hbegun
  | some e =>
    rw [begin_of_find husedWith.1 hfind] at hbegun
    cases hbegun
    have hfind' : find fresh.index name = some e := by rw [← hindex, hfind]
    refine ⟨fresh.started job e, begin_of_find hfreshWith.1 hfind', ?_⟩
    intro chunk chunk' calls calls'
    rw [delivery_eq hA hfind, delivery_eq hA hfind', hindex, halignment, hdepth]
    exact map_some_of_agree (agree_readJob hoblivious used.destinations fresh.destinations)

/-- A file that can be read as one opens. -/
theorem exists_opened {crc32c : Bytes → UInt32} {file : Bytes} {size : UInt64} {view : FileView}
    (h : openFile crc32c file size = .ok view) (a : A) (depth : ℕ) (chunk : ℕ → ℕ) (calls : ℕ) :
    ∃ c, drive crc32c file chunk calls ((withDestinations size a).withMaxCompositeDepth depth) =
      .ok (.ready, c) := by
  have hdrives := drives_open crc32c file size a depth chunk calls
  rw [h] at hdrives
  rcases hrun : drive crc32c file chunk calls
    ((withDestinations size a).withMaxCompositeDepth depth) with e | ⟨s, c⟩
  · rw [hrun] at hdrives
    cases hdrives
  · rw [hrun] at hdrives
    have hs : s = .ready := congrArg (fun x => x.1) (Except.ok.inj hdrives)
    rw [hs]
    exact ⟨c, rfl⟩

end Alloc
end FileReaderCore

/-- The file of the worked example, up to the end of its descriptor. -/
def workedFile : Bytes :=
  workedHeader ++ workedExampleBytes 0 61 ++ workedIndex 4096 ++
    workedTrailer 125 (workedIndex 4096) 0

namespace FileReaderCore

/-- A job for the tensor that has a part of its descriptor. -/
def partFilled : List ReaderAction :=
  [.begin .tensor "a", .step, .fill (workedExampleBytes 0 40), .report 40]

/-- The descriptor of the worked example, after a job for its tensor that was given up. -/
theorem job_history_independent_worked : ∃ opened used begun begun',
    drive (fun _ => 0) workedFile (fun _ => 6) 0
      ((withDestinations 208 SystemDestinations.mk).withMaxCompositeDepth 64) =
        .ok (.ready, opened) ∧
    run (fun _ => 0) opened partFilled = some used ∧ used.filled = 40 ∧
    used.begin .descriptor "a" = (.ok (), begun) ∧
    opened.begin .descriptor "a" = (.ok (), begun') ∧
    ∀ (chunk chunk' : ℕ → ℕ) (calls calls' : ℕ),
      (drive (fun _ => 0) workedFile chunk calls begun).map delivery =
        (drive (fun _ => 0) workedFile chunk' calls' begun').map delivery := by
  have hopen : ((openFile (fun _ => 0) workedFile 208).map fun v => v.index) =
      .ok [⟨"a", 64, 61, 4096, 192⟩] := by decide +kernel
  rcases hview : openFile (fun _ => 0) workedFile 208 with e | view
  · rw [hview] at hopen
    cases hopen
  · rw [hview] at hopen
    obtain ⟨opened, hopened⟩ := exists_opened hview SystemDestinations.mk 64 (fun _ => 6) 0
    obtain ⟨view', hview', hwith⟩ := openWith_of_drive hopened
    obtain rfl : view = view' := Except.ok.inj (hview.symm.trans hview')
    have hindex : opened.index = [⟨"a", 64, 61, 4096, 192⟩] :=
      (congrArg Prod.fst hwith.2).trans (Except.ok.inj hopen)
    have hfind : find opened.index "a" = some ⟨"a", 64, 61, 4096, 192⟩ := by
      rw [hindex]
      decide
    obtain ⟨used, hrest, hfilled⟩ : ∃ used, runWithin (fun _ => 0) 1
        (opened.started .tensor ⟨"a", 64, 61, 4096, 192⟩)
          [.step, .fill (workedExampleBytes 0 40), .report 40] = some used ∧ used.filled = 40 :=
      ⟨_, rfl, rfl⟩
    have hused : run (fun _ => 0) opened partFilled = some used := by
      rw [run, partFilled, List.foldlM_cons]
      show (survivor (opened.begin .tensor "a")).bind _ = _
      rw [begin_of_find hwith.1 hfind]
      exact run_of_runWithin hrest
    have husedWith := run_stays hwith hused
    have hfindUsed : find used.index "a" = some ⟨"a", 64, 61, 4096, 192⟩ := by
      have hsame : used.index = opened.index := congrArg Prod.fst (husedWith.2.trans hwith.2.symm)
      rw [hsame]
      exact hfind
    have hbegun := @begin_of_find _ used .descriptor _ _ husedWith.1 hfindUsed
    obtain ⟨begun', hbegin, hsame⟩ := job_history_independent lawfulAlloc_systemDestinations
      oblivious_systemDestinations (fun _ => 0) workedFile 208 64 hopened hopened hused hbegun
    exact ⟨opened, used, _, begun', hopened, hused, hfilled, hbegun, hbegin, hsame⟩

end FileReaderCore
end Hurray.File
