import Hurray.Ffi.Item
import Hurray.File.CompositeRoundtrip
import Hurray.File.ReaderSession
import Hurray.Stream.Transfer
import Mathlib.Data.Set.List

/-!
What a reader hands over, on its way back. A tensor is read with a payload of the declared size for
each of its buffers, and a composite with as many members as its head tells; so the composite that C
hands back is the one that was read.
-/
namespace Hurray.Ffi
open Hurray.Base Hurray.Core Hurray.Descriptor Hurray.Stream Hurray.File

/-! ### Items of a stream -/

section Stream
variable {A : Type} {call : Stream.ReaderCall} {s s' : ReaderSession A} {m₀ : StreamContent}

open StreamReaderCore ReaderSession

/-- The items that a session has handed over, and those that its groups hold. -/
structure Handed (s : ReaderSession A) : Prop where
  stack : ∀ top ∈ s.reader.assembler.stack, top.Counted Filled
  answered : ∀ item, .ok (some item) ∈ s.answered → item.Counted Filled

theorem Handed.of_eq (h : Handed s) (hassembler : s'.reader.assembler = s.reader.assembler)
    (hanswered : s'.answered = s.answered) : Handed s' := by
  constructor
  · rw [hassembler]
    exact h.stack
  · rw [hanswered]
    exact h.answered

theorem Handed.answer {r : Answer} (h : Handed s)
    (hr : ∀ item, r = .ok (some item) → item.Counted Filled) : Handed (s.answer r) := by
  refine ⟨h.stack, ?_⟩
  intro item hitem
  rcases List.mem_append.mp hitem with hitem | hitem
  · exact h.answered item hitem
  · exact hr item (List.mem_singleton.mp hitem).symm

/-- A tensor that a core hands over has its buffers. -/
theorem filled_of_takeTensor {c c' : StreamReaderCore A} {w : Bytes} {t : StreamTensor}
    (h : c.Fed w) (ht : c.takeTensor = (some t, c')) : Filled t := by
  unfold takeTensor at ht
  split at ht
  · next hs =>
    unfold Fed at h
    rw [hs] at h
    obtain ⟨t', ht', hwhole, -⟩ := h
    rw [ht'] at ht
    cases ht
    exact hwhole.sizes.symm
  · cases ht

/-- A tensor is handed over, or becomes a part of what is. -/
theorem counted_receive {assembler assembler' : CompositeAssembler} {t : StreamTensor}
    {r : Option Answer} (hstack : ∀ top ∈ assembler.stack, top.Counted Filled) (ht : Filled t)
    (h : call.receive assembler t = (r, assembler')) :
    (∀ top ∈ assembler'.stack, top.Counted Filled) ∧
      ∀ item, r = some (.ok (some item)) → item.Counted Filled := by
  cases call with
  | nextTensor =>
    cases h
    refine ⟨hstack, ?_⟩
    intro item hitem
    cases hitem
    rw [StreamItem.Counted]
    exact ht
  | nextItem =>
    obtain ⟨hopen, hsome⟩ := AssemblyRun.counted_push (t := t) hstack fun _ => ht
    unfold ReaderCall.receive at h
    rcases hpush : assembler.push t with ⟨e | _ | i, pushed⟩
    all_goals
      rw [hpush] at h hopen hsome
      cases h
      refine ⟨hopen, ?_⟩
      intro item hitem
      cases hitem
    exact hsome i rfl

theorem Handed.fill (h : Handed s) (event : SourceEvent) : Handed (s.fill event) := by
  unfold ReaderSession.fill
  cases event with
  | interrupted => exact h
  | failed kind => exact h.of_eq rfl rfl
  | read n =>
    dsimp only
    split
    · exact Handed.answer (h.of_eq rfl rfl) fun item hitem => by cases hitem
    · exact h.of_eq rfl rfl

variable [DestinationAlloc A]

theorem Handed.turn (hA : SizedAlloc A) (htracks : ReaderSession.Tracks call m₀ s) (h : Handed s) :
    Handed (s.turn call) := by
  obtain ⟨w, hfed⟩ := htracks.fed
  unfold ReaderSession.turn
  rcases hstep : s.reader.core.step with ⟨e | r, core⟩
  · exact Handed.answer (h.of_eq rfl rfl) fun item hitem => by cases hitem
  · rcases step_eq_ok hstep with ⟨rfl, -⟩ | ⟨rfl, -⟩ | ⟨rfl, -⟩
    · exact h.of_eq rfl rfl
    · dsimp only
      split
      · exact Handed.answer (h.of_eq rfl rfl) fun item hitem => by cases hitem
      · next t core' ht =>
        have hfilled := filled_of_takeTensor (hfed.of_step hA hstep) ht
        rcases hr : call.receive s.reader.assembler t with ⟨_ | r, assembler⟩
        · exact ⟨(counted_receive h.stack hfilled hr).1, h.answered⟩
        · obtain ⟨hopen, hsome⟩ := counted_receive h.stack hfilled hr
          refine Handed.answer ⟨hopen, h.answered⟩ ?_
          intro item hitem
          exact hsome item (congrArg some hitem)
    · refine Handed.answer (h.of_eq rfl rfl) ?_
      intro item hitem
      unfold ReaderCall.conclude at hitem
      split at hitem
      · cases hitem
      · split at hitem <;> cases hitem

theorem Handed.act (hA : SizedAlloc A) (htracks : ReaderSession.Tracks call m₀ s) (h : Handed s)
    (m : ReaderMove) :
    Handed (s.act call m) := by
  unfold ReaderSession.act
  split
  · exact h.of_eq rfl rfl
  · exact h.turn hA htracks
  · exact h.fill _
  · exact h.of_eq rfl rfl
  · exact h

/-- Whatever is called, read and dropped. -/
theorem handed_run (hA : LawfulAlloc A) (options : StreamReaderOptions) (a : A) (input : Bytes)
    (call : Stream.ReaderCall) (moves : List ReaderMove) :
    Handed ((ReaderSession.start options a input).run call moves) := by
  have hsized := sizedAlloc_of_lawful hA
  obtain ⟨ts, outcome, hd⟩ := exists_delivers input hsized (fed_start options a)
  have hstart : Handed (ReaderSession.start options a input) := by
    constructor
    · intro top htop
      cases htop
    · intro item hitem
      cases hitem
  have hrun : ReaderSession.Tracks call ⟨ts, outcome, .new options.maxCompositeDepth⟩
      ((ReaderSession.start options a input).run call moves) ∧
      Handed ((ReaderSession.start options a input).run call moves) := by
    refine List.foldlRecOn (motive := fun s => ReaderSession.Tracks call _ s ∧ Handed s) moves
      (ReaderSession.act call) ⟨tracks_start hd, hstart⟩ ?_
    intro s hs m _
    exact ⟨hs.1.act hsized m, hs.2.act hsized hs.1 m⟩
  exact hrun.2

end Stream

/-! ### Composites of a file -/

section File
variable {A : Type} [DestinationAlloc A] {file : Bytes} {alignment : UInt64}

theorem filled_of_readBuffers {handles : List BufferHandle} {index : ℕ} {offset : UInt64} {a a' : A}
    {buffers : List Bytes}
    (h : readBuffers file alignment handles index offset a = .ok (buffers, a')) :
    handles.map (fun h => h.byteSize.toNat) = buffers.map List.length := by
  induction handles generalizing index offset a buffers a' with
  | nil =>
    cases h
    rfl
  | cons handle handles ih =>
    rw [readBuffers] at h
    obtain ⟨_, -, h⟩ := Exec.bind_eq_ok.mp h
    obtain ⟨data, hdata, h⟩ := Exec.bind_eq_ok.mp h
    obtain ⟨-, hlen, -⟩ := fetch_eq_ok.mp hdata
    split at h
    · next hlast =>
      cases h
      simp [List.isEmpty_iff.mp hlast, hlen]
    · obtain ⟨next, -, h⟩ := Exec.bind_eq_ok.mp h
      obtain ⟨⟨rest, a''⟩, hrest, h⟩ := Exec.bind_eq_ok.mp h
      cases h
      simp [ih hrest, hlen]

theorem hasLeaves_filled : HasLeaves A file alignment Filled := by
  intro name offset d a a' t _ ht
  obtain ⟨⟨buffers, a''⟩, hbuffers, ht⟩ := Exec.bind_eq_ok.mp ht
  cases ht
  exact filled_of_readBuffers hbuffers

/-- A composite that a file answers with. -/
theorem counted_of_answerOf {view : FileView} {depth : ℕ} {a : A} {job : Job} {name : String}
    {c : FileComposite} (h : answerOf file view depth a job name = .ok (.composite c)) :
    c.unnamed.Counted Filled := by
  unfold answerOf at h
  split at h
  · cases h
  · next e he =>
    rcases hjob : readJob file view.dataBufferAlignment depth view.index job e a with f | ⟨d, a'⟩
    · rw [hjob] at h
      cases h
    · rw [hjob] at h
      cases h
      cases job with
      | descriptor =>
        obtain ⟨d, -, hjob⟩ := Exec.bind_eq_ok.mp hjob
        cases hjob
      | tensor =>
        obtain ⟨d, -, hjob⟩ := Exec.bind_eq_ok.mp hjob
        obtain ⟨t, -, hjob⟩ := Exec.bind_eq_ok.mp hjob
        cases hjob
      | walk =>
        obtain ⟨⟨c', a''⟩, hwalk, hjob⟩ := Exec.bind_eq_ok.mp hjob
        cases hjob
        exact readWalk_counted hasLeaves_filled (fun _ h => absurd h List.not_mem_nil) hwalk

end File

/-! ### What is handed back -/

theorem exists_toItem : ∀ item : StreamItem, ∃ node : CompositeNode, node.toItem = item
  | .tensor t => ⟨.tensor t.descriptor t.buffers, by rw [CompositeNode.toItem]⟩
  | .composite head members => by
    have hmembers : members ∈ Set.range (List.map CompositeNode.toItem) := by
      rw [Set.range_list_map]
      exact fun m _ => exists_toItem m
    obtain ⟨nodes, rfl⟩ := hmembers
    exact ⟨.composite head nodes, by rw [CompositeNode.toItem]⟩

theorem exists_fileToItem : ∀ item : FileItem, ∃ node : FileCompositeNode, node.toItem = item
  | .tensor t => ⟨.tensor t.name t.descriptor t.buffers, by rw [FileCompositeNode.toItem]⟩
  | .composite name head members => by
    have hmembers : members ∈ Set.range (List.map FileCompositeNode.toItem) := by
      rw [Set.range_list_map]
      exact fun m _ => exists_fileToItem m
    obtain ⟨nodes, rfl⟩ := hmembers
    exact ⟨.composite name head nodes, by rw [FileCompositeNode.toItem]⟩

/-- The composite that was read, as a composite to write. -/
def Rebuilds (head : TensorDescriptor) (members : List StreamItem) : Prop :=
  ∃ nodes, nodes.map CompositeNode.toItem = members ∧
    streamTree ((itemHandle (.composite head members)).map fun node => node.toC.relay) =
      .ok (head, nodes)

def FileRebuilds (c : FileComposite) : Prop :=
  ∃ nodes, nodes.map FileCompositeNode.toItem = c.members ∧
    fileTree ((fileItemHandle (.composite c.name c.head c.members)).map fun node =>
      node.toC.relay) = .ok (c.name, c.head, nodes)

theorem rebuilds_of_counted {head : TensorDescriptor} {members : List StreamItem}
    (h : (StreamItem.composite head members).Counted Filled) : Rebuilds head members := by
  obtain ⟨node, hnode⟩ := exists_toItem (.composite head members)
  rw [← hnode] at h
  cases node with
  | tensor descriptor buffers =>
    rw [CompositeNode.toItem] at hnode
    cases hnode
  | composite head' nodes =>
    have hlisting := (related_stream h).preorder
    rw [hnode] at hlisting
    rw [CompositeNode.toItem] at hnode
    cases hnode
    refine ⟨nodes, rfl, ?_⟩
    rw [(streamTree_verdict _).1, itemHandle_eq]
    exact List.forall₂_map_left_iff.mpr hlisting

theorem fileRebuilds_of_counted {c : FileComposite} (h : c.unnamed.Counted Filled) :
    FileRebuilds c := by
  obtain ⟨name, head, members⟩ := c
  obtain ⟨node, hnode⟩ := exists_fileToItem (.composite name head members)
  have hcounted : node.toItem.unnamed.Counted Filled := by
    rw [hnode, FileItem.unnamed]
    exact h
  cases node with
  | tensor name' descriptor buffers =>
    rw [FileCompositeNode.toItem] at hnode
    cases hnode
  | composite name' head' nodes =>
    have hlisting := (related_file hcounted).preorder
    rw [hnode] at hlisting
    rw [FileCompositeNode.toItem] at hnode
    cases hnode
    refine ⟨nodes, rfl, ?_⟩
    rw [(fileTree_verdict _).1, fileItemHandle_eq]
    exact List.forall₂_map_left_iff.mpr hlisting

/-- A composite that a session has handed over, of a stream or of a file, is what is rebuilt from the
nodes that C was given for it. -/
theorem relay_read {A : Type} [DestinationAlloc A] (hA : LawfulAlloc A)
    (hoblivious : FileReaderCore.Oblivious A) :
    (∀ (options : StreamReaderOptions) (a : A) (input : Bytes) (call : Stream.ReaderCall)
      (moves : List ReaderMove) (head : TensorDescriptor) (members : List StreamItem),
      .ok (some (.composite head members)) ∈
        ((ReaderSession.start options a input).run call moves).answered → Rebuilds head members) ∧
    ∀ (crc32c : Bytes → UInt32) (file : Bytes) (size : UInt64) (a : A) (depth calls : ℕ)
      (chunk : ℕ → ℕ) (core : FileReaderCore A),
      FileReaderCore.drive crc32c file chunk calls
        ((FileReaderCore.withDestinations size a).withMaxCompositeDepth depth) =
          .ok (.ready, core) →
      ∀ (moves : List FileReaderMove) (job : Job) (name : String) (c : FileComposite),
        ⟨job, name, .ok (.composite c)⟩ ∈
          ((FileReaderSession.opened core).run crc32c file moves).replies → FileRebuilds c := by
  constructor
  · intro options a input call moves head members hitem
    exact rebuilds_of_counted ((handed_run hA options a input call moves).answered _ hitem)
  · intro crc32c file size a depth calls chunk core hopened moves job name c hreply
    obtain ⟨view, -, hwith⟩ := FileReaderCore.openWith_of_drive hopened
    have hstart : FileReaderSession.Faithful crc32c file view depth a
        (fun kind => .source (.failed kind) ∈ moves) (FileReaderSession.opened core) :=
      FileReaderSession.faithful_opened hwith
    rcases (hstart.run hA hoblivious moves fun _ hmove => hmove).replies _ hreply with
      ⟨kind, -, hio⟩ | hanswer
    · cases hio
    · exact fileRebuilds_of_counted (counted_of_answerOf hanswer.symm)

/-- The group of one, on a stream. -/
def workedStream : Bytes :=
  ReaderSession.groupHead ++ workedExampleBytes 0 61 ++ List.replicate 192 7

/-- A call for it is answered. -/
theorem exists_answered_workedNode : ∃ moves,
    ((ReaderSession.start .default SystemDestinations.mk workedStream).run .nextItem moves).answered =
      [.ok (some workedNode.toItem)] := by
  have hsized := StreamReaderCore.sizedAlloc_of_lawful lawfulAlloc_systemDestinations
  have hbytes : bytesOf workedNode.tensors = some workedStream := by
    rw [tensors_workedNode]
    decide +kernel
  have hd := delivers_of_ends hsized (StreamReaderCore.fed_start .default .mk)
    (ends_of_tensors readable_workedNode hbytes .mk)
  have htracks : ReaderSession.Tracks .nextItem _
      (ReaderSession.start .default SystemDestinations.mk workedStream) :=
    ReaderSession.tracks_start hd
  obtain ⟨moves, -, hlen⟩ : ReaderSession.Answers .nextItem 0
      (ReaderSession.start .default SystemDestinations.mk workedStream) :=
    ReaderSession.exists_answer hsized htracks
  obtain ⟨m, -, hn⟩ := (htracks.run hsized moves).answers
  have hcarried : Carried SystemDestinations .default workedNode := by
    refine ⟨readable_workedNode, ?_, ?_⟩
    · simp [workedNode, CompositeNode.Counted, workedGroup]
      decide
    · simp [workedNode, CompositeNode.depth, StreamReaderOptions.default,
        Stream.DEFAULT_MAX_COMPOSITE_DEPTH]
  obtain ⟨op, hop⟩ := submit_of_valid 1 [.tensor workedExample [List.replicate 192 7]]
    (by decide +kernel)
  have hitems : ∀ i ∈ [workedNode], Carried SystemDestinations .default i ∧
      ∃ op, StreamWriterCore.new.submit i = .ok op := by
    simpa using ⟨hcarried, op, hop⟩
  have hanswers := @answers_of_items SystemDestinations _ .default .new [workedNode] [] (.ok ())
    hitems 0
  refine ⟨moves, ?_⟩
  have hfirst := hn 0
  rw [hlen, StreamContent.answers, List.append_nil] at hfirst
  rw [← hfirst]
  simpa [StreamContent.answers, ReaderSession.start] using hanswers

/-- A file with the same group and its member. -/
def workedWalkIndex : List IndexEntry := [⟨"w", 64, 53, 0, 0⟩, ⟨"w.0", 117, 61, 0, 192⟩]

def workedWalkFile : Bytes :=
  workedHeader ++ ReaderSession.groupHead ++ workedExampleBytes 0 61 ++
    encodeIndexSection workedWalkIndex ++ workedTrailer 178 (encodeIndexSection workedWalkIndex) 0

theorem namesFrom_workedWalkIndex : namesFrom workedWalkIndex "w" = ["w", "w.0"] := by
  have hsorted : orderedNames workedWalkIndex = ["w", "w.0"] := by
    rw [orderedNames, List.mergeSort_of_pairwise (by decide)]
    rfl
  rw [namesFrom, hsorted]
  rfl

/-- The group is what the file answers with. -/
theorem exists_answerOf_workedWalkFile {view : FileView} (hindex : view.index = workedWalkIndex)
    (halignment : view.dataBufferAlignment = 4096) :
    ∃ c, answerOf workedWalkFile view 64 SystemDestinations.mk .walk "w" = .ok (.composite c) ∧
      c.head = workedGroup 1 := by
  have hhead : ((readWalk workedWalkFile 4096 64 workedWalkIndex ["w", "w.0"] []
      SystemDestinations.mk).map fun x => x.1.head) = .ok (workedGroup 1) := by decide +kernel
  have hfind : FileReaderCore.find workedWalkIndex "w" = some ⟨"w", 64, 53, 0, 0⟩ := by decide
  rcases hwalk : readWalk workedWalkFile 4096 64 workedWalkIndex ["w", "w.0"] []
    SystemDestinations.mk with f | ⟨c, a⟩
  · rw [hwalk] at hhead
    cases hhead
  · rw [hwalk] at hhead
    refine ⟨c, ?_, Except.ok.inj hhead⟩
    simp only [answerOf, hindex, hfind, halignment, readJob, namesFrom_workedWalkIndex, hwalk]
    rfl

/-- A call for the group, in a reader that has opened the file. -/
theorem exists_replied_workedWalkFile : ∃ core moves c,
    FileReaderCore.drive (fun _ => 0) workedWalkFile (fun _ => 6) 0
      ((FileReaderCore.withDestinations 298 SystemDestinations.mk).withMaxCompositeDepth 64) =
        .ok (.ready, core) ∧
    ⟨.walk, "w", .ok (.composite c)⟩ ∈
      ((FileReaderSession.opened core).run (fun _ => 0) workedWalkFile moves).replies ∧
    c.head = workedGroup 1 := by
  have hopen : ((openFile (fun _ => 0) workedWalkFile 298).map fun v =>
      (v.index, v.dataBufferAlignment)) = .ok (workedWalkIndex, 4096) := by decide +kernel
  rcases hview : openFile (fun _ => 0) workedWalkFile 298 with e | view
  · rw [hview] at hopen
    cases hopen
  · rw [hview] at hopen
    obtain ⟨hindex, halignment⟩ := Prod.mk.inj (Except.ok.inj hopen)
    obtain ⟨c, hanswer, hhead⟩ := exists_answerOf_workedWalkFile hindex halignment
    obtain ⟨core, hcore⟩ :=
      FileReaderCore.exists_opened hview SystemDestinations.mk 64 (fun _ => 6) 0
    obtain ⟨view', hview', hwith⟩ := FileReaderCore.openWith_of_drive hcore
    obtain rfl : view = view' := Except.ok.inj (hview.symm.trans hview')
    have hfaithful : FileReaderSession.Faithful (fun _ => 0) workedWalkFile view 64
        SystemDestinations.mk (fun _ => False) (FileReaderSession.opened core) :=
      FileReaderSession.faithful_opened hwith
    obtain ⟨n, hn⟩ := hfaithful.exists_reply_of_call lawfulAlloc_systemDestinations
      FileReaderCore.oblivious_systemDestinations rfl .walk "w" fun _ => 6
    refine ⟨core, .call .walk "w" :: FileReaderSession.reads (fun _ => 6) n, c, hcore, ?_, hhead⟩
    have hrun : ((FileReaderSession.opened core).run (fun _ => 0) workedWalkFile
        (.call .walk "w" :: FileReaderSession.reads (fun _ => 6) n)).replies =
          [⟨.walk, "w", answerOf workedWalkFile view 64 SystemDestinations.mk .walk "w"⟩] := hn
    rw [hrun, hanswer]
    exact List.mem_singleton_self _

/-- The group is rebuilt on either surface. -/
theorem relay_read_workedGroup :
    (∃ moves, .ok (some workedNode.toItem) ∈
        ((ReaderSession.start .default SystemDestinations.mk workedStream).run .nextItem
          moves).answered ∧ Rebuilds (workedGroup 1) [.tensor workedTensor]) ∧
    ∃ (core : FileReaderCore SystemDestinations) (moves : List FileReaderMove) (c : FileComposite),
      ⟨.walk, "w", .ok (.composite c)⟩ ∈
        ((FileReaderSession.opened core).run (fun _ => 0) workedWalkFile moves).replies ∧
      c.head = workedGroup 1 ∧ FileRebuilds c := by
  obtain ⟨hstream, hfile⟩ := relay_read lawfulAlloc_systemDestinations
    FileReaderCore.oblivious_systemDestinations
  constructor
  · obtain ⟨moves, hmoves⟩ := exists_answered_workedNode
    have hitem : .ok (some workedNode.toItem) ∈ ((ReaderSession.start .default
        SystemDestinations.mk workedStream).run .nextItem moves).answered := by simp [hmoves]
    refine ⟨moves, hitem, hstream .default .mk workedStream .nextItem moves _ _ ?_⟩
    simpa [workedNode, CompositeNode.toItem, workedTensor] using hitem
  · obtain ⟨core, moves, c, hcore, hreply, hhead⟩ := exists_replied_workedWalkFile
    exact ⟨core, moves, c, hreply, hhead, hfile _ _ _ _ _ _ _ _ hcore _ _ _ _ hreply⟩

end Hurray.Ffi
