import Hurray.File.Composite
import Hurray.File.Submission

/-!
The driver of a file writer. A call waits for the sink at every write, and may be
dropped while it waits. A composite is one call over several operations, each of
which is whole on its own: a call that fails between two of them poisons the core,
and a call that is dropped there does not.
-/
namespace Hurray.File
open Hurray.Base Hurray.Core Hurray.Descriptor Hurray.Stream

/-- What a write to the sink comes back with. -/
inductive SinkEvent where
  | wrote (n : ℕ)
  | interrupted
  | failed (kind : String)

/-- A call on the writer: it waits for the sink, has returned, or was unwound by a panic. The
index counts the nodes of the call that are out. -/
inductive WriteFuture where
  | awaiting (index : ℕ) (op : FileWriteOp) (rest : List CompositeWrite)
  | returned (index : ℕ) (error : Option Error) (core : FileWriterCore)
  | unwound (index : ℕ) (core : FileWriterCore)

namespace WriteFuture

def index : WriteFuture → ℕ
  | awaiting index _ _ => index
  | returned index _ _ => index
  | unwound index _ => index

/-- The core that is left behind when the call is dropped. -/
def core : WriteFuture → FileWriterCore
  | awaiting _ op _ => op.core
  | returned _ _ core => core
  | unwound _ core => core

/-- A failure after the first node poisons the core. A panic goes past that. -/
def settle (index : ℕ) (core : FileWriterCore) : Fault Error → WriteFuture
  | .error e => .returned index (some e) (if 0 < index then core.poison .incompleteOutput else core)
  | .panic => .unwound index core

/-- On to the next write of an operation, or to what follows it. -/
def goOn (next : FileWriterCore → WriteFuture) (index : ℕ) (rest : List CompositeWrite)
    (op : FileWriteOp) : WriteFuture :=
  match op.step with
  | (.error e, op) => settle index op.core e
  | (.ok (.output _), op) => .awaiting index op rest
  | (.ok .itemWritten, op) => next op.core

/-- The nodes are written one after another. -/
def submitNodes : List CompositeWrite → ℕ → FileWriterCore → WriteFuture
  | [], index, core => .returned index none core
  | node :: rest, index, core =>
      match core.tensor node.name node.descriptor node.buffers with
      | .error e => settle index core e
      | .ok op => goOn (submitNodes rest (index + 1)) index rest op

/-- A write comes back. A write of no bytes means that the sink is closed. -/
def poll (w : WriteFuture) (event : SinkEvent) : WriteFuture :=
  match w, event with
  | .awaiting index op rest, .interrupted => .awaiting index op rest
  | .awaiting index op _, .failed kind => settle index op.core (.error (.io kind))
  | .awaiting index op rest, .wrote n =>
      if n = 0 then settle index op.reportSinkClosed.2.core (.error op.reportSinkClosed.1)
      else
        match op.reportWritten n with
        | (.error e, op) => settle index op.core e
        | (.ok _, op) => goOn (submitNodes rest (index + 1)) index rest op
  | .returned index error core, _ => .returned index error core
  | .unwound index core, _ => .unwound index core

end WriteFuture

namespace FileWriter
open WriteFuture

def writeTensor (core : FileWriterCore) (name : String) (descriptor : TensorDescriptor)
    (buffers : List Bytes) : WriteFuture :=
  submitNodes [⟨name, descriptor, buffers⟩] 0 core

def writeComposite (core : FileWriterCore) (headName : String) (head : TensorDescriptor)
    (members : List FileCompositeNode) : WriteFuture :=
  match flattenComposite headName head members with
  | .error e => settle 0 core e
  | .ok nodes => submitNodes nodes 0 core

def finish (crc32c : Bytes → UInt32) (core : FileWriterCore) (kv : List (String × KvValue)) :
    WriteFuture :=
  match core.finish crc32c kv with
  | .error e => settle 0 core e
  | .ok op => goOn (submitNodes [] 1) 0 [] op

end FileWriter

open WriteFuture FileWriter

/-- Every call on the writer ends in a fault at once, and leaves the core as it is. -/
structure Refused (crc32c : Bytes → UInt32) (core : FileWriterCore) : Prop where
  tensor : ∀ name d buffers, ∃ e, writeTensor core name d buffers = settle 0 core e
  composite : ∀ name head members, ∃ e, writeComposite core name head members = settle 0 core e
  finish : ∀ kv, ∃ e, finish crc32c core kv = settle 0 core e

/-- The call stops between two nodes without returning: the next node is due, and nothing of it
was reported. -/
def WriteFuture.BetweenNodes : WriteFuture → Prop
  | awaiting index op _ => 0 < index ∧ op.emittedBytes = 0
  | returned _ _ _ => False
  | unwound index core => 0 < index ∧ core.torn = false

instance : DecidablePred WriteFuture.BetweenNodes
  | .awaiting index op _ => inferInstanceAs (Decidable (0 < index ∧ op.emittedBytes = 0))
  | .returned _ _ _ => inferInstanceAs (Decidable False)
  | .unwound index core => inferInstanceAs (Decidable (0 < index ∧ core.torn = false))

/-! ### The calls of a retired core -/

section Refused
variable {crc32c : Bytes → UInt32} {core : FileWriterCore}

theorem refused_of_retired (h : core.retired ≠ none) : Refused crc32c core := by
  obtain ⟨reason, hreason⟩ := Option.ne_none_iff_exists'.mp h
  have hcheck : core.checkRetired = Exec.fail (.coreUnusable reason) := by
    unfold FileWriterCore.checkRetired
    rw [hreason]
  have hnode (node : CompositeWrite) (rest : List CompositeWrite) :
      submitNodes (node :: rest) 0 core = settle 0 core (.error (.coreUnusable reason)) := by
    rw [submitNodes, FileWriterCore.tensor, hcheck]
    rfl
  refine ⟨fun name d buffers => ⟨_, hnode _ _⟩, ?_, ?_⟩
  · intro name head members
    unfold writeComposite
    cases hflat : flattenComposite name head members with
    | error e => exact ⟨e, rfl⟩
    | ok nodes =>
      obtain ⟨-, rfl⟩ := flattenComposite_eq_ok.mp hflat
      rw [FileCompositeNode.tensors]
      exact ⟨_, hnode _ _⟩
  · intro kv
    refine ⟨.error (.coreUnusable reason), ?_⟩
    rw [FileWriter.finish, FileWriterCore.finish, hcheck]
    rfl

/-- A core that takes items lets the file be finished. -/
theorem not_refused_of_open (h : core.Open) : ¬ Refused crc32c core := by
  intro hrefused
  obtain ⟨e, he⟩ := hrefused.finish []
  obtain ⟨op, hop⟩ : ∃ op, core.finish crc32c [] = .ok op :=
    ⟨_, FileWriterCore.finish_eq_ok.mpr ⟨h, rfl, [], 0, 0, core.offset,
      FileWriterCore.planKv_eq_ok.mpr (.inl ⟨rfl, rfl, rfl, rfl⟩), rfl, rfl⟩⟩
  obtain ⟨-, -, footer, kvOffset, kvLength, indexOffset, -, -, hstart⟩ :=
    FileWriterCore.finish_eq_ok.mp hop
  have hunusable := (FileWriterCore.retired_eq_none.mp h.retired).1
  have hbytes : op.bytes ≠ [] := by
    rw [hstart]
    simp [FileWriterCore.start, FileWriterCore.encodeTrailer]
  have hop' : op = core.start [.owned] op.bytes [] .footer := by
    rw [hstart]
    rfl
  have hstep : op.step = (.ok (.output op.bytes.length), op) := by
    rw [hop']
    exact FileWriterCore.step_start hunusable hbytes
  rw [FileWriter.finish, hop] at he
  dsimp only at he
  rw [goOn, hstep] at he
  cases e <;> cases he

end Refused

/-! ### The states of a call -/

/-- A core that takes items once the item in flight is out. -/
structure Live (core : FileWriterCore) : Prop where
  usable : core.unusable = none
  finished : core.finished = false
  headerWritten : core.headerWritten = true
  alignment : core.alignment ≠ 0

/-- An operation of a tensor that can go on. -/
structure FileWriteOp.Emitting (op : FileWriteOp) : Prop where
  core : Live op.core
  healthy : op.failed = false
  commit : ∃ entry, op.commit = some (.tensor entry)
  torn : op.core.torn = decide (0 < op.emittedBytes)

namespace WriteFuture
variable {w : WriteFuture} {total index : ℕ} {core : FileWriterCore} {rest : List CompositeWrite}
  {op : FileWriteOp}

/-- What holds of a call at every moment. -/
def Sound (total : ℕ) : WriteFuture → Prop
  | awaiting index op rest => index + 1 + rest.length = total ∧ op.Emitting
  | returned index error core =>
      (error = none → index = total) ∧ (error ≠ none → 0 < index → core.unusable ≠ none)
  | unwound index core => index < total ∧ (0 < index → Live core)

theorem sound_settle (hindex : index < total) (hlive : 0 < index → Live core) (e : Fault Error) :
    (settle index core e).Sound total := by
  cases e with
  | error e =>
    refine ⟨nofun, fun _ hpos => ?_⟩
    rw [if_pos hpos]
    exact Option.some_ne_none _
  | panic => exact ⟨hindex, hlive⟩

theorem sound_goOn {next : FileWriterCore → WriteFuture} (hop : op.Emitting)
    (hindex : index + 1 + rest.length = total)
    (hnext : ∀ core, Live core → core.torn = false → (next core).Sound total) :
    (goOn next index rest op).Sound total := by
  obtain ⟨entry, hcommit⟩ := hop.commit
  obtain ⟨cursor, written, -, hstep⟩ := FileWriteOp.stepLoop_spec op
  rw [← FileWriteOp.step_eq_stepLoop hop.core.usable hop.healthy] at hstep
  unfold goOn
  rcases hstep with ⟨-, hstep⟩ | ⟨-, hstep⟩
  · rw [hstep]
    have hcore : ((op.moveTo cursor written).complete).core =
        Commit.apply { op.core with torn := false } (.tensor entry) := by
      show op.commit.elim _ (Commit.apply _) = _
      rw [hcommit]
      rfl
    show (next ((op.moveTo cursor written).complete).core).Sound total
    rw [hcore]
    exact hnext _ ⟨hop.core.usable, hop.core.finished, hop.core.headerWritten,
      hop.core.alignment⟩ rfl
  · rw [hstep]
    exact ⟨hindex, hop.core, hop.healthy, hop.commit, hop.torn⟩

theorem emitting_of_tensor {node : CompositeWrite} (halign : core.alignment ≠ 0)
    (h : core.tensor node.name node.descriptor node.buffers = .ok op) : op.Emitting := by
  obtain ⟨hopen, -, -, encoded, henc, hfits, rfl⟩ := (FileWriterCore.tensor_eq_ok halign).mp h
  obtain ⟨hunusable, htorn⟩ := FileWriterCore.retired_eq_none.mp hopen.retired
  exact ⟨⟨hunusable, hopen.finished, hopen.headerWritten, halign⟩, rfl, ⟨_, rfl⟩, htorn⟩

theorem sound_submitNodes {nodes : List CompositeWrite} (halign : core.alignment ≠ 0)
    (hindex : index + nodes.length = total) (hlive : 0 < index → Live core) :
    (submitNodes nodes index core).Sound total := by
  induction nodes generalizing index core with
  | nil => exact ⟨fun _ => hindex, fun hsome => absurd rfl hsome⟩
  | cons node rest ih =>
    rw [List.length_cons] at hindex
    rw [submitNodes]
    cases hop : core.tensor node.name node.descriptor node.buffers with
    | error e => exact sound_settle (by omega) hlive e
    | ok op =>
      apply sound_goOn (emitting_of_tensor halign hop) (by omega)
      intro core' hcore' _
      exact ih hcore'.alignment (by omega) fun _ => hcore'

theorem sound_poll (h : w.Sound total) (event : SinkEvent) : (w.poll event).Sound total := by
  cases w with
  | returned index error core => cases event <;> exact h
  | unwound index core => cases event <;> exact h
  | awaiting index op rest =>
    obtain ⟨hindex, hop⟩ := h
    cases event with
    | interrupted => exact ⟨hindex, hop⟩
    | failed kind =>
      show (settle index op.core (.error (.io kind))).Sound total
      have hlt : index < total := by omega
      exact sound_settle hlt (fun _ => hop.core) _
    | wrote n =>
      show (if n = 0 then settle index op.reportSinkClosed.2.core (.error op.reportSinkClosed.1)
        else match op.reportWritten n with
          | (.error e, op) => settle index op.core e
          | (.ok _, op) => goOn (submitNodes rest (index + 1)) index rest op).Sound total
      by_cases hzero : n = 0
      · rw [if_pos hzero]
        refine ⟨nofun, fun _ hpos => ?_⟩
        rw [if_pos hpos]
        exact Option.some_ne_none _
      · rw [if_neg hzero]
        rcases FileWriteOp.reportWritten_cases hop.core.usable hop.healthy n with
          ⟨hn, hle, offset, hoffset, heq⟩ | ⟨hn, hle, heq⟩ | ⟨-, -, heq⟩ | ⟨-, -, heq⟩ | ⟨hn, -⟩
        · rw [heq]
          have hnext : (op.accepted n offset).Emitting := by
            refine ⟨⟨hop.core.usable, hop.core.finished, hop.core.headerWritten,
              hop.core.alignment⟩, hop.healthy, hop.commit, ?_⟩
            show (op.core.torn || decide (op.emittedBytes = 0)) = decide (0 < op.emittedBytes + n)
            rw [hop.torn, decide_eq_true (show 0 < op.emittedBytes + n by omega)]
            cases hemitted : op.emittedBytes <;> simp
          apply sound_goOn hnext hindex
          intro core hcore _
          exact sound_submitNodes hcore.alignment hindex fun _ => hcore
        · rw [heq]
          exact ⟨by omega, fun _ => ⟨hop.core.usable, hop.core.finished, hop.core.headerWritten,
            hop.core.alignment⟩⟩
        · rw [heq]
          refine ⟨nofun, fun _ hpos => ?_⟩
          rw [if_pos hpos]
          exact Option.some_ne_none _
        · rw [heq]
          refine ⟨nofun, fun _ hpos => ?_⟩
          rw [if_pos hpos]
          exact Option.some_ne_none _
        · exact absurd hn hzero

theorem sound_foldl (h : w.Sound total) (events : List SinkEvent) :
    (events.foldl poll w).Sound total := by
  refine List.foldlRecOn events poll h ?_
  intro w hw event _
  exact sound_poll hw event

theorem refused_iff_torn (crc32c : Bytes → UInt32) (h : Live core) :
    Refused crc32c core ↔ core.torn = true := by
  constructor
  · intro hrefused
    by_contra htorn
    refine not_refused_of_open ⟨?_, h.finished, h.headerWritten⟩ hrefused
    exact FileWriterCore.retired_eq_none.mpr ⟨h.usable, Bool.eq_false_iff.mpr htorn⟩
  · intro htorn
    apply refused_of_retired
    intro hretired
    rw [(FileWriterCore.retired_eq_none.mp hretired).2] at htorn
    cases htorn

/-- Wherever a call on a composite stops with its head out and a member missing, the writer is
refused from then on exactly when the call does not stop between two nodes. -/
theorem writeComposite_atomic_iff {name : String} {head : TensorDescriptor}
    {members : List FileCompositeNode} {nodes : List CompositeWrite}
    (halign : core.alignment ≠ 0) (hflat : flattenComposite name head members = .ok nodes)
    (crc32c : Bytes → UInt32) (events : List SinkEvent) :
    (0 < (events.foldl poll (writeComposite core name head members)).index ∧
        (events.foldl poll (writeComposite core name head members)).index < nodes.length →
      Refused crc32c (events.foldl poll (writeComposite core name head members)).core) ↔
    ¬ (events.foldl poll (writeComposite core name head members)).BetweenNodes := by
  have hsound : (events.foldl poll (writeComposite core name head members)).Sound nodes.length := by
    apply sound_foldl
    rw [writeComposite, hflat]
    exact sound_submitNodes halign (Nat.zero_add _) fun hpos => absurd hpos (Nat.lt_irrefl 0)
  generalize events.foldl poll (writeComposite core name head members) = w at hsound ⊢
  cases w with
  | awaiting index op rest =>
    obtain ⟨hindex, hop⟩ := hsound
    show (0 < index ∧ index < nodes.length → Refused crc32c op.core) ↔
      ¬ (0 < index ∧ op.emittedBytes = 0)
    rw [refused_iff_torn crc32c hop.core, hop.torn, decide_eq_true_eq]
    omega
  | returned index error core =>
    show (0 < index ∧ index < nodes.length → Refused crc32c core) ↔ ¬ False
    rw [iff_true_right id]
    intro hpart
    apply refused_of_retired
    intro hretired
    have hunusable := (FileWriterCore.retired_eq_none.mp hretired).1
    by_cases hnone : error = none
    · exact absurd (hsound.1 hnone) (by omega)
    · exact hsound.2 hnone hpart.1 hunusable
  | unwound index core =>
    show (0 < index ∧ index < nodes.length → Refused crc32c core) ↔ ¬ (0 < index ∧ core.torn = false)
    by_cases hpos : 0 < index
    · rw [refused_iff_torn crc32c (hsound.2 hpos)]
      simp [hpos, hsound.1]
    · simp [hpos]

/-- A core that has written its header. -/
def headedCore : FileWriterCore := { FileWriterCore.new with offset := 64, headerWritten := true }

/-- A group over the worked example. -/
def groupMembers : List FileCompositeNode :=
  [.tensor "g.0" workedExample [List.replicate 192 7]]

def groupNodes : List CompositeWrite :=
  [⟨"g", workedGroup 1, []⟩, ⟨"g.0", workedExample, [List.replicate 192 7]⟩]

theorem flattenComposite_group :
    flattenComposite "g" (workedGroup 1) groupMembers = .ok groupNodes := by
  apply flattenComposite_eq_ok.mpr
  simp only [FileCompositeNode.LevelsValid, FileCompositeNode.tensors, groupMembers, groupNodes,
    List.forall_mem_singleton, List.flatMap_singleton, and_true]
  decide +kernel

theorem writeComposite_group : writeComposite headedCore "g" (workedGroup 1) groupMembers =
    submitNodes groupNodes 0 headedCore := by
  rw [writeComposite, flattenComposite_group]

/-- The group is dropped in the middle of its member. -/
theorem writeComposite_atomic_group :
    0 < ([SinkEvent.wrote 53, .wrote 3, .wrote 1].foldl poll
      (writeComposite headedCore "g" (workedGroup 1) groupMembers)).index ∧
    ([SinkEvent.wrote 53, .wrote 3, .wrote 1].foldl poll
      (writeComposite headedCore "g" (workedGroup 1) groupMembers)).index < groupNodes.length ∧
    Refused (fun _ => 0) ([SinkEvent.wrote 53, .wrote 3, .wrote 1].foldl poll
      (writeComposite headedCore "g" (workedGroup 1) groupMembers)).core := by
  have hindex : ([SinkEvent.wrote 53, .wrote 3, .wrote 1].foldl poll
      (writeComposite headedCore "g" (workedGroup 1) groupMembers)).index = 1 := by
    rw [writeComposite_group]
    decide +kernel
  have hwithin : ¬ ([SinkEvent.wrote 53, .wrote 3, .wrote 1].foldl poll
      (writeComposite headedCore "g" (workedGroup 1) groupMembers)).BetweenNodes := by
    rw [writeComposite_group]
    decide +kernel
  have hrefused := (writeComposite_atomic_iff (by decide) flattenComposite_group (fun _ => 0)
    [.wrote 53, .wrote 3, .wrote 1]).mpr hwithin
  rw [hindex] at hrefused ⊢
  exact ⟨by decide, by decide, hrefused ⟨by decide, by decide⟩⟩

/-- The writer of a file with a header, whose group is dropped while it waits for the first write
of its member: the head is out, the member is not, and the file can still be finished. -/
theorem dropped_group_not_refused :
    (∃ op, FileWriterCore.new.header = .ok op ∧
      (poll (goOn (submitNodes [] 1) 0 [] op) (.wrote 64)).core = headedCore) ∧
    0 < ([SinkEvent.wrote 53, .wrote 3].foldl poll
      (writeComposite headedCore "g" (workedGroup 1) groupMembers)).index ∧
    ([SinkEvent.wrote 53, .wrote 3].foldl poll
      (writeComposite headedCore "g" (workedGroup 1) groupMembers)).index < groupNodes.length ∧
    ∀ crc32c, ¬ Refused crc32c ([SinkEvent.wrote 53, .wrote 3].foldl poll
      (writeComposite headedCore "g" (workedGroup 1) groupMembers)).core := by
  rw [writeComposite_group]
  refine ⟨⟨FileWriterCore.new.start [.owned] FileWriterCore.new.encodeHeader [] .header, rfl, ?_⟩,
    ?_, ?_, ?_⟩
  · decide +kernel
  · decide +kernel
  · decide +kernel
  · intro crc32c
    apply not_refused_of_open
    refine ⟨?_, ?_, ?_⟩
    · decide +kernel
    · decide +kernel
    · decide +kernel

end WriteFuture
end Hurray.File
