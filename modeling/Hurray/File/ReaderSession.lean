import Hurray.File.HistoryIndependence

/-!
A file reader that is polled. A call waits for a seek and a read, which may fail, and it may be dropped
there; the next call goes on with the core as it was left. Whatever happens, an answer is what the file
has for the request, or the failure of the source.
-/
namespace Hurray.File
open Hurray.Base Hurray.Core Hurray.Descriptor Hurray.Stream

/-- What the source does about a range. A read returns at most `n + 1` bytes of it, and none only past
the end of the file. -/
inductive FileSourceEvent where
  | failed (kind : String)
  | interrupted
  | read (n : ℕ)

inductive FileReaderMove where
  | call (job : Job) (name : String)
  | source (event : FileSourceEvent)
  | drop

/-- Where a reader is: a call waits for a range, or it panicked. -/
inductive FileReaderStage where
  | idle
  | reading (job : Job) (name : String) (offset : UInt64) (len : ℕ)
  | unwound

/-- An answered call. -/
structure FileReply where
  job : Job
  name : String
  outcome : Result Delivery

structure FileReaderSession (A : Type) where
  core : FileReaderCore A
  stage : FileReaderStage
  replies : List FileReply

/-- What a read of the range returns. -/
def returned (file : Bytes) (offset : UInt64) (len n : ℕ) : Bytes :=
  (file.drop offset.toNat).take (min len (n + 1))

/-- The bytes are put where the core wants them, and their count is reported. -/
def FileReaderCore.takeIn {A : Type} (c : FileReaderCore A) (data : Bytes) :
    Result Unit × FileReaderCore A :=
  (c.fillDst data).reportFilled data.length

namespace FileReaderSession
variable {A : Type} [DestinationAlloc A] (crc32c : Bytes → UInt32) (file : Bytes)
  (s : FileReaderSession A)

def opened (core : FileReaderCore A) : FileReaderSession A := ⟨core, .idle, []⟩

/-- What the call takes from the core once its job is done. -/
def collect (job : Job) (step : FileStep) (c : FileReaderCore A) :
    Result Delivery × FileReaderCore A :=
  match job, step with
  | .descriptor, .descriptor =>
      (Exec.orFail (c.takeDescriptor.1.map .descriptor) .coreFailed, c.takeDescriptor.2)
  | .tensor, .tensor => (Exec.orFail (c.takeTensor.1.map .tensor) .coreFailed, c.takeTensor.2)
  | .walk, .composite =>
      (Exec.orFail (c.takeComposite.1.map .composite) .coreFailed, c.takeComposite.2)
  | _, _ => (Exec.fail .coreFailed, c)

def reply (job : Job) (name : String) (outcome : Result Delivery) (c : FileReaderCore A) :
    FileReaderSession A where
  core := c
  stage := match outcome with
    | .error .panic => .unwound
    | _ => .idle
  replies := s.replies ++ [⟨job, name, outcome⟩]

/-- The call goes on until it needs the source or is answered. -/
def goOn (job : Job) (name : String) : FileReaderSession A :=
  match s.core.step crc32c with
  | (.error e, c) => s.reply job name (.error e) c
  | (.ok (.range offset len), c) => { s with core := c, stage := .reading job name offset len }
  | (.ok step, c) => s.reply job name (collect job step c).1 (collect job step c).2

def call (job : Job) (name : String) : FileReaderSession A :=
  match s.core.begin job name with
  | (.error e, c) => s.reply job name (.error e) c
  | (.ok _, c) => goOn crc32c { s with core := c } job name

def fill (job : Job) (name : String) (offset : UInt64) (len : ℕ) :
    FileSourceEvent → FileReaderSession A
  | .failed kind => s.reply job name (Exec.fail (.io kind)) s.core
  | .interrupted => s
  | .read n =>
      match s.core.takeIn (returned file offset len n) with
      | (.error e, c) => s.reply job name (.error e) c
      | (.ok _, c) => goOn crc32c { s with core := c } job name

/-- One move. What cannot happen changes nothing. -/
def act (move : FileReaderMove) : FileReaderSession A :=
  match s.stage, move with
  | .idle, .call job name => s.call crc32c job name
  | .reading job name offset len, .source event => s.fill crc32c file job name offset len event
  | .reading _ _ _ _, .drop => { s with stage := .idle }
  | _, _ => s

def run (moves : List FileReaderMove) : FileReaderSession A := moves.foldl (act crc32c file) s

end FileReaderSession

/-- What the file has for a request. -/
def answerOf {A : Type} [DestinationAlloc A] (file : Bytes) (view : FileView) (depth : ℕ) (a : A)
    (job : Job) (name : String) : Result Delivery :=
  match FileReaderCore.find view.index name with
  | none => Exec.fail (.tensorNotFound name)
  | some e => (readJob file view.dataBufferAlignment depth view.index job e a).map Prod.fst

namespace FileReaderCore
variable {A : Type} [DestinationAlloc A] {crc32c : Bytes → UInt32} {file : Bytes}
  {c c' : FileReaderCore A} {β : Type} {f : FileStep × FileReaderCore A → β} {r : Result β}

theorem drive_error {chunk : ℕ → ℕ} {calls : ℕ} {e : Fault Error}
    (h : c.step crc32c = (.error e, c')) : drive crc32c file chunk calls c = .error e := by
  rw [drive, h]

theorem drive_done {chunk : ℕ → ℕ} {calls : ℕ} {s : FileStep} (h : c.step crc32c = (.ok s, c'))
    (hs : ∀ offset len, s ≠ .range offset len) :
    drive crc32c file chunk calls c = .ok (s, c') := by
  rw [drive, h]
  cases s with
  | range offset len => exact absurd rfl (hs offset len)
  | _ => rfl

/-- The round of a range. -/
theorem drive_reads {chunk : ℕ → ℕ} {calls n : ℕ} {offset : UInt64} {len : ℕ}
    (h : c.step crc32c = (.ok (.range offset len), c')) (hn : chunk calls = n) :
    (∀ e d, c'.takeIn (returned file offset len n) = (.error e, d) →
      drive crc32c file chunk calls c = .error e) ∧
    ∀ u d, c'.takeIn (returned file offset len n) = (.ok u, d) →
      drive crc32c file chunk calls c = drive crc32c file chunk (calls + 1) d := by
  subst hn
  unfold takeIn returned
  rw [drive, h]
  dsimp only
  constructor
  · intro e d hreport
    split <;> simp_all
  · intro u d hreport
    split <;> simp_all

/-- A driver is only asked for the sizes that are still to come. -/
theorem drive_congr {chunk chunk' : ℕ → ℕ} {calls calls' : ℕ}
    (h : ∀ k, chunk (calls + k) = chunk' (calls' + k)) :
    drive crc32c file chunk calls c = drive crc32c file chunk' calls' c := by
  have hsize : chunk calls = chunk' calls' := h 0
  fun_induction drive crc32c file chunk calls c generalizing calls' with
  | case1 calls c e c₁ hstep => rw [drive_error hstep]
  | case2 calls c offset len c₁ hstep data e c₂ =>
    rename_i hreport
    rw [(drive_reads hstep hsize.symm).1 e c₂ hreport]
  | case3 calls c offset len c₁ hstep data u c₂ hreport =>
    rename_i ih
    have hnext : ∀ k, chunk (calls + 1 + k) = chunk' (calls' + 1 + k) := by
      intro k
      simpa [Nat.add_assoc, Nat.add_comm 1 k] using h (k + 1)
    rw [(drive_reads hstep hsize.symm).2 u c₂ hreport]
    exact ih hnext (hnext 0)
  | case4 calls c s c₁ hrange hstep => rw [drive_done hstep hrange]

/-- What is left of a job when its range is asked for. -/
def Reads (crc32c : Bytes → UInt32) (file : Bytes) (f : FileStep × FileReaderCore A → β)
    (c : FileReaderCore A) (offset : UInt64) (len : ℕ) (r : Result β) : Prop :=
  ∀ n, Goes crc32c file f (c.takeIn (returned file offset len n)) r

theorem Drives.error {e : Fault Error} (h : Drives crc32c file f c r)
    (hstep : c.step crc32c = (.error e, c')) : r = .error e := by
  have hdrive := h (fun _ => 0) 0
  rw [drive_error hstep] at hdrive
  exact hdrive.symm

theorem Drives.reads {offset : UInt64} {len : ℕ} (h : Drives crc32c file f c r)
    (hstep : c.step crc32c = (.ok (.range offset len), c')) :
    Reads crc32c file f c' offset len r := by
  intro n
  rcases hin : c'.takeIn (returned file offset len n) with ⟨e | u, d⟩
  · have hdrive := h (fun _ => n) 0
    have hn : (fun _ => n : ℕ → ℕ) 0 = n := rfl
    rw [(drive_reads hstep hn).1 e d hin] at hdrive
    exact hdrive.symm
  · show Drives crc32c file f d r
    intro chunk calls
    -- the read of `n` bytes comes first, and then those of `chunk`
    obtain ⟨sizes, hfirst, hlater⟩ : ∃ sizes : ℕ → ℕ, sizes 0 = n ∧
        ∀ k, sizes (0 + 1 + k) = chunk (calls + k) := by
      refine ⟨fun k => if k = 0 then n else chunk (calls + k - 1), if_pos rfl, ?_⟩
      intro k
      simp [Nat.add_comm 1 k, ← Nat.add_assoc]
    have hdrive := h sizes 0
    rw [(drive_reads hstep hfirst).2 u d hin, drive_congr hlater] at hdrive
    exact hdrive

theorem Drives.done {s : FileStep} (h : Drives crc32c file f c r)
    (hstep : c.step crc32c = (.ok s, c')) (hs : ∀ offset len, s ≠ .range offset len) :
    r = .ok (f (s, c')) := by
  have hdrive := h (fun _ => 0) 0
  rw [drive_done hstep hs] at hdrive
  exact hdrive.symm

end FileReaderCore

/-- A job delivers what it is for. -/
def Delivery.Fits : Delivery → Job → Prop
  | .descriptor _, .descriptor => True
  | .tensor _, .tensor => True
  | .composite _, .walk => True
  | _, _ => False

section Answers
variable {A : Type} [DestinationAlloc A] {file : Bytes} {view : FileView} {depth : ℕ} {a : A}
  {job : Job} {name : String} {d : Delivery}

theorem fits_of_answerOf (h : answerOf file view depth a job name = .ok d) : d.Fits job := by
  unfold answerOf at h
  split at h
  · simp at h
  · next e _ =>
    rcases hjob : readJob file view.dataBufferAlignment depth view.index job e a with f | ⟨x, b⟩
    · simp [hjob, Except.map] at h
    · obtain rfl : x = d := by simpa [hjob, Except.map] using h
      cases job <;> simp only [readJob, Exec.bind_eq_ok, pure, Except.pure] at hjob
      · obtain ⟨y, -, hy⟩ := hjob
        cases hy
        trivial
      · obtain ⟨y, -, z, -, hy⟩ := hjob
        cases hy
        trivial
      · obtain ⟨y, -, hy⟩ := hjob
        cases hy
        trivial

theorem map_some_eq_error {x : Result Delivery} {e : Fault Error} :
    x.map some = .error e ↔ x = .error e := by
  cases x <;> simp [Except.map]

theorem map_some_eq_ok {x : Result Delivery} {o : Option Delivery} :
    x.map some = .ok o ↔ ∃ d, x = .ok d ∧ o = some d := by
  cases x <;> simp [Except.map, eq_comm]

end Answers

namespace FileReaderSession
variable {A : Type} [DestinationAlloc A] {crc32c : Bytes → UInt32} {file : Bytes}
  {s : FileReaderSession A} {c : FileReaderCore A} {job : Job} {name : String} {step : FileStep}
  {d : Delivery}

open FileReaderCore

omit [DestinationAlloc A] in
theorem collect_eq (h : delivery (step, c) = some d) (hfits : d.Fits job) :
    (collect job step c).1 = .ok d := by
  cases job <;> cases step <;> cases d <;> simp_all [collect, delivery, jobView, Delivery.Fits]

/-- What is taken leaves the core open. -/
theorem openWith_collect {v : List IndexEntry × List (String × KvValue) × UInt64 × ℕ}
    (h : OpenWith v c) : OpenWith v (collect job step c).2 := by
  have htake : ∀ action c', c.act (fun _ => 0) action = some c' → OpenWith v c' :=
    fun _ _ hact => act_stays h hact
  cases job <;> cases step <;> simp only [collect] <;> first
    | exact h
    | exact htake .takeDescriptor _ rfl
    | exact htake .takeTensor _ rfl
    | exact htake .takeComposite _ rfl

/-- What a session keeps: its core is open with what the file has, a call that waits is owed what the
file has for it, and so is every call that was answered, unless the source had failed. -/
structure Faithful (crc32c : Bytes → UInt32) (file : Bytes) (view : FileView) (depth : ℕ) (a : A)
    (failures : String → Prop) (s : FileReaderSession A) : Prop where
  replies : ∀ r ∈ s.replies, (∃ kind, failures kind ∧ r.outcome = Exec.fail (.io kind)) ∨
    r.outcome = answerOf file view depth a r.job r.name
  opened : s.stage ≠ .unwound →
    OpenWith (view.index, view.kv, view.dataBufferAlignment, depth) s.core
  waits : ∀ job name offset len, s.stage = .reading job name offset len →
    Reads crc32c file delivery s.core offset len ((answerOf file view depth a job name).map some)
  unwound : s.stage = .unwound → ∃ r ∈ s.replies, r.outcome = Exec.panic

section Faithful
variable {view : FileView} {depth : ℕ} {a : A} {failures : String → Prop}

/-- A reply may be given with what the file has. -/
theorem Faithful.reply (h : Faithful crc32c file view depth a failures s) {r : Result Delivery}
    (hr : (∃ kind, failures kind ∧ r = Exec.fail (.io kind)) ∨
      r = answerOf file view depth a job name)
    (hc : r ≠ Exec.panic → OpenWith (view.index, view.kv, view.dataBufferAlignment, depth) c) :
    Faithful crc32c file view depth a failures (s.reply job name r c) where
  replies := by
    intro x hx
    rcases List.mem_append.mp hx with hx | hx
    · exact h.replies x hx
    · obtain rfl := List.mem_singleton.mp hx
      exact hr
  opened := by
    intro hstage
    apply hc
    rintro rfl
    exact hstage rfl
  waits := by
    intro _ _ _ _ hstage
    rcases r with (_ | _) | _ <;> cases hstage
  unwound := by
    intro hstage
    rcases r with (_ | _) | _
    · cases hstage
    · exact ⟨⟨job, name, Exec.panic⟩, List.mem_append_right _ (List.mem_singleton_self _), rfl⟩
    · cases hstage

/-- The outcomes of going on: the answer is given, or a range is waited for. -/
theorem goOn_cases (hdrives : Drives crc32c file delivery c
      ((answerOf file view depth a job name).map some)) :
    (∃ e c', c.step crc32c = (.error e, c') ∧ answerOf file view depth a job name = .error e ∧
      ({ s with core := c } : FileReaderSession A).goOn crc32c job name =
        s.reply job name (.error e) c') ∨
    (∃ offset len c', c.step crc32c = (.ok (.range offset len), c') ∧
      ({ s with core := c } : FileReaderSession A).goOn crc32c job name =
        { s with core := c', stage := .reading job name offset len }) ∨
    ∃ t c', c.step crc32c = (.ok t, c') ∧
      ({ s with core := c } : FileReaderSession A).goOn crc32c job name =
        s.reply job name (answerOf file view depth a job name) (collect job t c').2 := by
  rcases hc : c.step crc32c with ⟨e | t, c'⟩
  · refine .inl ⟨e, c', rfl, map_some_eq_error.mp (hdrives.error hc), ?_⟩
    simp only [goOn, hc]
    rfl
  · by_cases hrange : ∃ offset len, t = .range offset len
    · obtain ⟨offset, len, rfl⟩ := hrange
      refine .inr (.inl ⟨offset, len, c', rfl, ?_⟩)
      simp only [goOn, hc]
    · have hother : ∀ offset len, t ≠ .range offset len := by
        intro offset len ht
        exact hrange ⟨offset, len, ht⟩
      obtain ⟨d, hd, hdelivery⟩ := map_some_eq_ok.mp (hdrives.done hc hother)
      refine .inr (.inr ⟨t, c', rfl, ?_⟩)
      rw [hd, ← collect_eq hdelivery (fits_of_answerOf hd)]
      unfold goOn
      cases t with
      | range offset len => exact absurd rfl (hother offset len)
      | _ => simp only [hc]; rfl

theorem Faithful.goOn (h : Faithful crc32c file view depth a failures s)
    (hopen : OpenWith (view.index, view.kv, view.dataBufferAlignment, depth) c)
    (hdrives : Drives crc32c file delivery c ((answerOf file view depth a job name).map some)) :
    Faithful crc32c file view depth a failures
      (({ s with core := c } : FileReaderSession A).goOn crc32c job name) := by
  have hstep : ∀ {x}, survivor (c.step crc32c) = some x → OpenWith _ x :=
    fun hx => @act_stays _ _ _ _ crc32c .step _ hopen hx
  rcases goOn_cases hdrives with ⟨e, c', hc, hanswer, heq⟩ | ⟨offset, len, c', hc, heq⟩ |
    ⟨t, c', hc, heq⟩
  · rw [heq]
    refine h.reply (.inr hanswer.symm) ?_
    intro hne
    rcases e with e | _
    · exact hstep (by rw [hc]; rfl)
    · exact absurd rfl hne
  · rw [heq]
    refine ⟨h.replies, fun _ => hstep (by rw [hc]; rfl), ?_, ?_⟩
    · intro _ _ _ _ hstage
      cases hstage
      exact hdrives.reads hc
    · intro hstage
      cases hstage
  · rw [heq]
    exact h.reply (.inr rfl) fun _ => openWith_collect (hstep (by rw [hc]; rfl))

/-- The outcomes of a call to an open core: there is no tensor of the name, or a job is begun that comes
to the answer. -/
theorem call_cases (hA : LawfulAlloc A) (hoblivious : Oblivious A)
    (hopen : OpenWith (view.index, view.kv, view.dataBufferAlignment, depth) s.core) (job : Job)
    (name : String) :
    (∃ c, OpenWith (view.index, view.kv, view.dataBufferAlignment, depth) c ∧
      s.call crc32c job name = s.reply job name (answerOf file view depth a job name) c) ∨
    ∃ c, OpenWith (view.index, view.kv, view.dataBufferAlignment, depth) c ∧
      Drives crc32c file delivery c ((answerOf file view depth a job name).map some) ∧
      s.call crc32c job name = ({ s with core := c } : FileReaderSession A).goOn crc32c job name := by
  have hsettings := hopen.2
  simp only [settings, Prod.mk.injEq] at hsettings
  obtain ⟨hindex, -, halignment, hdepth⟩ := hsettings
  unfold call
  cases hfind : find s.core.index name with
  | none =>
    left
    rw [begin_of_find_none hopen.1 hfind]
    rw [hindex] at hfind
    refine ⟨s.core.supersede job, hopen, ?_⟩
    simp only [answerOf, hfind]
    rfl
  | some e =>
    right
    rw [begin_of_find hopen.1 hfind]
    refine ⟨s.core.started job e, ⟨rfl, hopen.2⟩, ?_, rfl⟩
    intro chunk calls
    have hagree : Agree _ (readJob file view.dataBufferAlignment depth view.index job e a) :=
      agree_readJob hoblivious s.core.destinations a
    rw [delivery_eq hA hfind, hindex, halignment, hdepth, map_some_of_agree hagree]
    rw [hindex] at hfind
    simp only [answerOf, hfind]
    cases readJob file view.dataBufferAlignment depth view.index job e a <;> rfl

theorem Faithful.call (hA : LawfulAlloc A) (hoblivious : Oblivious A)
    (h : Faithful crc32c file view depth a failures s) (hstage : s.stage = .idle) (job : Job)
    (name : String) : Faithful crc32c file view depth a failures (s.call crc32c job name) := by
  have hopen := h.opened (by simp [hstage])
  obtain ⟨c, hc, heq⟩ | ⟨c, hc, hdrives, heq⟩ := call_cases hA hoblivious hopen job name
  · rw [heq]
    exact h.reply (.inr rfl) fun _ => hc
  · rw [heq]
    exact h.goOn hc hdrives

theorem Faithful.fill (h : Faithful crc32c file view depth a failures s) {offset : UInt64}
    {len : ℕ} (hstage : s.stage = .reading job name offset len) (event : FileSourceEvent)
    (hevent : ∀ kind, event = .failed kind → failures kind) :
    Faithful crc32c file view depth a failures
      (s.fill crc32c file job name offset len event) := by
  have hopen := h.opened (by simp [hstage])
  cases event with
  | failed kind => exact h.reply (.inl ⟨kind, hevent kind rfl, rfl⟩) fun _ => hopen
  | interrupted => exact h
  | read n =>
    have hreads := h.waits job name offset len hstage n
    have hfilled : OpenWith _ (s.core.fillDst (returned file offset len n)) :=
      @act_stays _ _ _ _ crc32c (.fill (returned file offset len n)) _ hopen rfl
    have hreport : ∀ {x}, survivor (s.core.takeIn (returned file offset len n)) = some x →
        OpenWith _ x :=
      fun hx => @act_stays _ _ _ _ crc32c (.report (returned file offset len n).length) _ hfilled hx
    simp only [FileReaderSession.fill]
    rcases hin : s.core.takeIn (returned file offset len n) with ⟨e | u, c'⟩
    · rw [hin] at hreads hreport
      refine h.reply (.inr (map_some_eq_error.mp hreads).symm) ?_
      intro hne
      rcases e with e | _
      · exact hreport rfl
      · exact absurd rfl hne
    · rw [hin] at hreads hreport
      exact h.goOn (hreport rfl) hreads

theorem Faithful.act (hA : LawfulAlloc A) (hoblivious : Oblivious A)
    (h : Faithful crc32c file view depth a failures s) (move : FileReaderMove)
    (hmove : ∀ kind, move = .source (.failed kind) → failures kind) :
    Faithful crc32c file view depth a failures (s.act crc32c file move) := by
  unfold FileReaderSession.act
  split
  · next hstage => exact h.call hA hoblivious hstage _ _
  · next event hstage =>
    refine h.fill hstage _ ?_
    rintro kind rfl
    exact hmove kind rfl
  · next hstage =>
    refine ⟨h.replies, fun _ => h.opened (by simp [hstage]), ?_, ?_⟩
    · intro _ _ _ _ hidle
      cases hidle
    · intro hidle
      cases hidle
  · exact h

theorem Faithful.run (hA : LawfulAlloc A) (hoblivious : Oblivious A)
    (h : Faithful crc32c file view depth a failures s) (moves : List FileReaderMove)
    (hmoves : ∀ kind, .source (.failed kind) ∈ moves → failures kind) :
    Faithful crc32c file view depth a failures (s.run crc32c file moves) := by
  refine List.foldlRecOn moves (FileReaderSession.act crc32c file) h ?_
  rintro t ht m hm
  refine ht.act hA hoblivious m ?_
  rintro kind rfl
  exact hmoves kind hm

/-! ### A call is answered -/

/-- Reads of the given sizes, one after the other. -/
def reads (sizes : ℕ → ℕ) (n : ℕ) : List FileReaderMove :=
  (List.range n).map fun i => .source (.read (sizes i))

theorem run_reads_succ (sizes : ℕ → ℕ) (n : ℕ) :
    s.run crc32c file (reads sizes (n + 1)) =
      (s.act crc32c file (.source (.read (sizes 0)))).run crc32c file
        (reads (fun i => sizes (i + 1)) n) := by
  simp [run, reads, List.range_succ_eq_map, Function.comp_def]

theorem goOn_replies (hdrives : Drives crc32c file delivery c
      ((answerOf file view depth a job name).map some))
    (hstep : ∀ offset len c', c.step crc32c ≠ (.ok (.range offset len), c')) :
    (({ s with core := c } : FileReaderSession A).goOn crc32c job name).replies =
      s.replies ++ [⟨job, name, answerOf file view depth a job name⟩] := by
  rcases @goOn_cases _ _ _ _ s _ _ _ _ _ _ hdrives with ⟨e, c', -, hanswer, heq⟩ |
    ⟨offset, len, c', hc, -⟩ | ⟨t, c', -, heq⟩
  · rw [heq, hanswer]
    rfl
  · exact absurd hc (hstep offset len c')
  · rw [heq]
    rfl

theorem goOn_range {offset : UInt64} {len : ℕ} {c' : FileReaderCore A}
    (hstep : c.step crc32c = (.ok (.range offset len), c')) :
    ({ s with core := c } : FileReaderSession A).goOn crc32c job name =
      { s with core := c', stage := .reading job name offset len } := by
  simp only [goOn, hstep]

/-- Reads alone bring a call to its answer. -/
theorem exists_answered (sizes : ℕ → ℕ) {calls : ℕ} (hdrives : Drives crc32c file delivery c
      ((answerOf file view depth a job name).map some)) :
    ∃ n, ((({ s with core := c } : FileReaderSession A).goOn crc32c job name).run crc32c file
      (reads (fun i => sizes (calls + i)) n)).replies =
        s.replies ++ [⟨job, name, answerOf file view depth a job name⟩] := by
  fun_induction drive crc32c file sizes calls c generalizing s with
  | case1 calls c e c₁ hstep =>
    refine ⟨0, goOn_replies hdrives ?_⟩
    simp [hstep]
  | case2 calls c offset len c₁ hstep data e c₂ =>
    rename_i hreport
    have hin : c₁.takeIn (returned file offset len (sizes calls)) = (.error e, c₂) := hreport
    have hanswer := hdrives.reads hstep (sizes calls)
    rw [hin] at hanswer
    refine ⟨1, ?_⟩
    rw [goOn_range hstep, run_reads_succ, map_some_eq_error.mp hanswer]
    simp only [act, fill, Nat.add_zero, hin]
    rfl
  | case3 calls c offset len c₁ hstep data u c₂ hreport =>
    rename_i ih
    have hin : c₁.takeIn (returned file offset len (sizes calls)) = (.ok u, c₂) := hreport
    have hnext := hdrives.reads hstep (sizes calls)
    rw [hin] at hnext
    obtain ⟨n, hn⟩ := @ih ⟨c₁, .reading job name offset len, s.replies⟩ hnext
    refine ⟨n + 1, ?_⟩
    rw [goOn_range hstep, run_reads_succ]
    simpa [act, fill, hin, Nat.add_assoc, Nat.add_comm 1] using hn
  | case4 calls c t c₁ hrange hstep =>
    refine ⟨0, goOn_replies hdrives ?_⟩
    intro offset len c' hc
    rw [hstep] at hc
    cases hc
    exact hrange offset len rfl

theorem Faithful.exists_reply (h : Faithful crc32c file view depth a failures s) {offset : UInt64}
    {len : ℕ} (hstage : s.stage = .reading job name offset len) (sizes : ℕ → ℕ) :
    ∃ n, (s.run crc32c file (reads sizes n)).replies =
      s.replies ++ [⟨job, name, answerOf file view depth a job name⟩] := by
  have hreads := h.waits job name offset len hstage (sizes 0)
  rcases hin : s.core.takeIn (returned file offset len (sizes 0)) with ⟨e | u, c⟩
  · rw [hin] at hreads
    refine ⟨1, ?_⟩
    rw [run_reads_succ, map_some_eq_error.mp hreads]
    simp only [FileReaderSession.act, hstage, FileReaderSession.fill, hin]
    rfl
  · rw [hin] at hreads
    obtain ⟨n, hn⟩ := @exists_answered _ _ _ _ s _ _ _ _ _ _ (fun i => sizes (i + 1)) 0 hreads
    refine ⟨n + 1, ?_⟩
    rw [run_reads_succ]
    simpa [FileReaderSession.act, hstage, FileReaderSession.fill, hin] using hn

/-- A call that is let go on is answered. -/
theorem Faithful.exists_reply_of_call (hA : LawfulAlloc A) (hoblivious : Oblivious A)
    (h : Faithful crc32c file view depth a failures s) (hstage : s.stage = .idle) (job : Job)
    (name : String) (sizes : ℕ → ℕ) :
    ∃ n, ((s.call crc32c job name).run crc32c file (reads sizes n)).replies =
      s.replies ++ [⟨job, name, answerOf file view depth a job name⟩] := by
  have hopen := h.opened (by simp [hstage])
  obtain ⟨c, -, heq⟩ | ⟨c, -, hdrives, heq⟩ := call_cases hA hoblivious hopen job name
  · rw [heq]
    exact ⟨0, rfl⟩
  · rw [heq]
    simpa using @exists_answered _ _ _ _ s _ _ _ _ _ _ sizes 0 hdrives

end Faithful
end FileReaderSession

/-- A reader that was opened. -/
theorem FileReaderSession.faithful_opened {A : Type} [DestinationAlloc A] {crc32c : Bytes → UInt32}
    {file : Bytes} {view : FileView} {depth : ℕ} {a : A} {failures : String → Prop}
    {core : FileReaderCore A}
    (h : core.OpenWith (view.index, view.kv, view.dataBufferAlignment, depth)) :
    Faithful crc32c file view depth a failures (opened core) := by
  refine ⟨?_, fun _ => h, ?_, ?_⟩
  · intro r hr
    cases hr
  · intro _ _ _ _ hstage
    cases hstage
  · intro hstage
    cases hstage

/-- Whatever is called, dropped and called again, and however the source answers, a call is answered
with what the file has for it, or with a failure of the source, and a call that is let go on is
answered. -/
theorem FileReaderSession.calls_answered {A : Type} [DestinationAlloc A] (hA : LawfulAlloc A)
    (hoblivious : FileReaderCore.Oblivious A) {crc32c : Bytes → UInt32} {file : Bytes} {size : UInt64} {a : A}
    {depth calls : ℕ} {chunk : ℕ → ℕ} {core : FileReaderCore A}
    (hopened : FileReaderCore.drive crc32c file chunk calls
      ((FileReaderCore.withDestinations size a).withMaxCompositeDepth depth) = .ok (.ready, core)) :
    ∃ view, openFile crc32c file size = .ok view ∧ ∀ moves : List FileReaderMove,
      (∀ r ∈ ((opened core).run crc32c file moves).replies,
        (∃ kind, .source (.failed kind) ∈ moves ∧ r.outcome = Exec.fail (.io kind)) ∨
          r.outcome = answerOf file view depth a r.job r.name) ∧
      (((opened core).run crc32c file moves).stage = .unwound →
        ∃ r ∈ ((opened core).run crc32c file moves).replies,
          answerOf file view depth a r.job r.name = Exec.panic) ∧
      ∀ (job : Job) (name : String) (sizes : ℕ → ℕ),
        (∀ offset len, ((opened core).run crc32c file moves).stage = .reading job name offset len →
          ∃ n, ((opened core).run crc32c file (moves ++ reads sizes n)).replies =
            ((opened core).run crc32c file moves).replies ++
              [⟨job, name, answerOf file view depth a job name⟩]) ∧
        (((opened core).run crc32c file moves).stage = .idle →
          ∃ n, ((opened core).run crc32c file (moves ++ .call job name :: reads sizes n)).replies =
            ((opened core).run crc32c file moves).replies ++
              [⟨job, name, answerOf file view depth a job name⟩]) := by
  obtain ⟨view, hview, hwith⟩ := FileReaderCore.openWith_of_drive hopened
  refine ⟨view, hview, ?_⟩
  intro moves
  have hstart : Faithful crc32c file view depth a (fun kind => .source (.failed kind) ∈ moves)
      (opened core) := faithful_opened hwith
  have hrun := hstart.run hA hoblivious moves fun _ hmove => hmove
  refine ⟨hrun.replies, ?_, fun job name sizes => ⟨?_, ?_⟩⟩
  · intro hstage
    obtain ⟨r, hr, hpanic⟩ := hrun.unwound hstage
    refine ⟨r, hr, ?_⟩
    rcases hrun.replies r hr with ⟨kind, -, hio⟩ | hanswer
    · rw [hpanic] at hio
      cases hio
    · rw [← hanswer, hpanic]
  · intro offset len hstage
    simpa [FileReaderSession.run] using hrun.exists_reply hstage sizes
  · intro hstage
    obtain ⟨n, hn⟩ := hrun.exists_reply_of_call hA hoblivious hstage job name sizes
    have hact : ((opened core).run crc32c file moves).act crc32c file (.call job name) =
        ((opened core).run crc32c file moves).call crc32c job name := by
      simp only [act, hstage]
    refine ⟨n, ?_⟩
    rw [← hn, ← hact]
    simp [FileReaderSession.run]

/-- A tensor that is not there, and a descriptor that the source fails. -/
def brokenOff : List FileReaderMove :=
  [.call .tensor "b", .call .descriptor "a", .source (.failed "timed out")]

/-- The reader is idle after them. -/
theorem FileReaderSession.stage_brokenOff {A : Type} [DestinationAlloc A] {crc32c : Bytes → UInt32}
    {file : Bytes} {core : FileReaderCore A} {e : IndexEntry} (hopen : core.isOpen = true)
    (hnone : FileReaderCore.find core.index "b" = none)
    (hsome : FileReaderCore.find core.index "a" = some e) (hpos : 0 < e.descriptorLength.toNat) :
    ((opened core).run crc32c file brokenOff).stage = .idle := by
  have hfailed : core.begin .tensor "b" = _ := FileReaderCore.begin_of_find_none hopen hnone
  have hbegun : (core.supersede .tensor).begin .descriptor "a" =
      (.ok (), (core.supersede .tensor).started .descriptor e) :=
    FileReaderCore.begin_of_find hopen hsome
  have hstep : ((core.supersede .tensor).started .descriptor e).step crc32c =
      (.ok (.range e.descriptorOffset (e.descriptorLength.toNat - 0)),
        (core.supersede .tensor).started .descriptor e) :=
    FileReaderCore.step_of_answers (s := .range e.descriptorOffset (e.descriptorLength.toNat - 0))
      ⟨rfl, hpos, rfl, rfl⟩
  simp [brokenOff, FileReaderSession.run, act, opened, call, hfailed, reply, Exec.fail, hbegun, goOn,
    hstep, fill]

/-- A call that is made afterwards gets the descriptor. -/
theorem FileReaderSession.calls_answered_worked : ∃ core view,
    FileReaderCore.drive (fun _ => 0) workedFile (fun _ => 6) 0
      ((FileReaderCore.withDestinations 208 SystemDestinations.mk).withMaxCompositeDepth 64) =
        .ok (.ready, core) ∧
    openFile (fun _ => 0) workedFile 208 = .ok view ∧
    (∀ r ∈ ((opened core).run (fun _ => 0) workedFile brokenOff).replies,
      (∃ kind, .source (.failed kind) ∈ brokenOff ∧ r.outcome = Exec.fail (.io kind)) ∨
        r.outcome = answerOf workedFile view 64 SystemDestinations.mk r.job r.name) ∧
    ∃ n, ((opened core).run (fun _ => 0) workedFile
        (brokenOff ++ .call .descriptor "a" :: reads (fun _ => 6) n)).replies =
      ((opened core).run (fun _ => 0) workedFile brokenOff).replies ++
        [⟨.descriptor, "a", .ok (.descriptor workedExample)⟩] := by
  have hopen : ((openFile (fun _ => 0) workedFile 208).map fun v => v.index) =
      .ok [⟨"a", 64, 61, 4096, 192⟩] := by decide +kernel
  rcases hview : openFile (fun _ => 0) workedFile 208 with e | view
  · rw [hview] at hopen
    cases hopen
  · rw [hview] at hopen
    have hindex : view.index = [⟨"a", 64, 61, 4096, 192⟩] := Except.ok.inj hopen
    obtain ⟨core, hcore⟩ :=
      FileReaderCore.exists_opened hview SystemDestinations.mk 64 (fun _ => 6) 0
    obtain ⟨view', hview', hanswers⟩ := calls_answered lawfulAlloc_systemDestinations
      FileReaderCore.oblivious_systemDestinations hcore
    obtain rfl : view = view' := Except.ok.inj (hview.symm.trans hview')
    obtain ⟨view'', hview'', hwith⟩ := FileReaderCore.openWith_of_drive hcore
    obtain rfl : view = view'' := Except.ok.inj (hview.symm.trans hview'')
    have hcoreIndex : core.index = [⟨"a", 64, 61, 4096, 192⟩] :=
      (congrArg Prod.fst hwith.2).trans hindex
    have hidle := @stage_brokenOff _ _ (fun _ => 0) workedFile core ⟨"a", 64, 61, 4096, 192⟩ hwith.1
      (by rw [hcoreIndex]; decide) (by rw [hcoreIndex]; decide) (by decide)
    have hdescriptor : readDescriptor workedFile ⟨"a", 64, 61, 4096, 192⟩ = .ok workedExample := by
      decide +kernel
    have hanswer : answerOf workedFile view 64 SystemDestinations.mk .descriptor "a" =
        .ok (.descriptor workedExample) := by
      have hfind : FileReaderCore.find view.index "a" = some ⟨"a", 64, 61, 4096, 192⟩ := by
        rw [hindex]
        decide
      simp only [answerOf, hfind, readJob, hdescriptor]
      rfl
    obtain ⟨n, hn⟩ := ((hanswers brokenOff).2.2 .descriptor "a" (fun _ => 6)).2 hidle
    rw [hanswer] at hn
    exact ⟨core, view, hcore, rfl, (hanswers brokenOff).1, n, hn⟩

end Hurray.File
