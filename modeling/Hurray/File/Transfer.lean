import Hurray.File.CompositeRoundtrip
import Hurray.File.ReaderSession
import Hurray.File.WriterSession

/-!
A file from the calls on its writer to the answers of its reader. Whatever fails or is dropped at
either end, a file that was finished is read back as what the log of the writer says.
-/
namespace Hurray.File
open Hurray.Base Hurray.Core Hurray.Descriptor Hurray.Stream

/-! ### Where the calls of a log come from -/

namespace FileWriterCall

theorem length_items_pos (call : FileWriterCall) : 0 < call.items.length := by
  cases call <;> simp [items, tensors, FileCompositeNode.tensors]

/-- The levels of a composite pass the checks that come before its first byte. -/
def Valid : FileWriterCall → Prop
  | .writeComposite headName head members =>
      (FileCompositeNode.composite headName head members).LevelsValid
  | _ => True

/-- A composite that is not valid is turned away. -/
theorem begin_of_not_valid {call : FileWriterCall} (h : ¬ call.Valid) (crc32c : Bytes → UInt32)
    (core : FileWriterCore) : ∃ e, call.begin crc32c core = .settle 0 core e := by
  cases call with
  | writeComposite headName head members =>
    cases hflat : flattenComposite headName head members with
    | error e => exact ⟨e, by simp only [begin, FileWriter.writeComposite, hflat]⟩
    | ok nodes => exact absurd (flattenComposite_eq_ok.mp hflat).1 h
  | _ => exact absurd trivial h

end FileWriterCall

namespace FileWriterSession
variable {crc32c : Bytes → UInt32} {core : FileWriterCore} {s : FileWriterSession}
  {moves : List FileWriterMove} {call : FileWriterCall}

/-- The call was made, and if anything of it is out it is valid. -/
def Called (moves : List FileWriterMove) (call : FileWriterCall) (out : ℕ) : Prop :=
  .call call ∈ moves ∧ (0 < out → call.Valid)

/-- The calls of a session are among its moves. -/
def Grounded (moves : List FileWriterMove) (s : FileWriterSession) : Prop :=
  (∀ e ∈ s.log, Called moves e.call e.out) ∧
  match s.stage with
  | .waiting call _ _ _ => .call call ∈ moves ∧ call.Valid
  | .flushing kv _ => .call (.finish kv) ∈ moves
  | _ => True

theorem grounded_conclude {out : ℕ} {result : Option (Result Unit)}
    (hlog : ∀ e ∈ s.log, Called moves e.call e.out) (hcall : Called moves call out) :
    Grounded moves (s.conclude call out core result) := by
  refine ⟨forall_log.mpr ⟨hlog, hcall⟩, ?_⟩
  rcases stageAfter_cases core call result with hstage | hstage | ⟨hstage, -⟩ <;>
    simp [conclude, hstage]

theorem grounded_settle {w : WriteFuture} (hlog : ∀ e ∈ s.log, Called moves e.call e.out)
    (hcall : .call call ∈ moves) (hvalid : call.Valid ∨ ∃ core e, w = .settle 0 core e) :
    Grounded moves (s.settle call w) := by
  have hout : ∀ out, call.Valid ∨ out = 0 → Called moves call out := by
    intro out h
    refine ⟨hcall, fun hpos => ?_⟩
    rcases h with h | rfl
    · exact h
    · exact absurd hpos (Nat.lt_irrefl 0)
  cases w with
  | awaiting index op rest =>
    refine ⟨hlog, hcall, hvalid.resolve_right ?_⟩
    rintro ⟨core, e | _, hw⟩ <;> cases hw
  | unwound index core =>
    refine grounded_conclude hlog (hout index (hvalid.imp_right ?_))
    rintro ⟨core, e | _, hw⟩ <;> cases hw
    rfl
  | returned index error core =>
    have hindex : call.Valid ∨ index = 0 := by
      refine hvalid.imp_right ?_
      rintro ⟨core, e | _, hw⟩ <;> cases hw
      rfl
    cases error with
    | some e => exact grounded_conclude hlog (hout index hindex)
    | none =>
      cases call with
      | finish kv => exact ⟨hlog, hcall⟩
      | _ => exact grounded_conclude hlog (hout index hindex)

theorem Grounded.act (h : Grounded moves s) {m : FileWriterMove} (hm : m ∈ moves) :
    Grounded moves (s.act crc32c m) := by
  obtain ⟨hlog, hstaged⟩ := h
  have hbegin : ∀ core call, m = .call call → Grounded moves (s.settle call (call.begin crc32c core)) := by
    rintro core call rfl
    refine grounded_settle hlog hm ?_
    by_cases hvalid : call.Valid
    · exact .inl hvalid
    · exact .inr ⟨core, FileWriterCall.begin_of_not_valid hvalid crc32c core⟩
  unfold FileWriterSession.act
  split
  · exact hbegin _ _ rfl
  · exact ⟨hlog, hstaged⟩
  · exact ⟨hlog, hstaged⟩
  · exact hbegin _ _ rfl
  · next call index op rest event hstage =>
    simp only [hstage] at hstaged
    cases event with
    | wrote n => exact @grounded_settle ⟨_, _, s.log⟩ _ _ _ hlog hstaged.1 (.inl hstaged.2)
    | interrupted => exact grounded_settle hlog hstaged.1 (.inl hstaged.2)
    | failed kind => exact grounded_settle hlog hstaged.1 (.inl hstaged.2)
  · next hstage =>
    simp only [hstage] at hstaged
    exact grounded_conclude hlog ⟨hstaged.1, fun _ => hstaged.2⟩
  · next hstage =>
    simp only [hstage] at hstaged
    exact grounded_conclude hlog ⟨hstaged, fun _ => trivial⟩
  · next hstage =>
    simp only [hstage] at hstaged
    exact grounded_conclude hlog ⟨hstaged, fun _ => trivial⟩
  · next hstage =>
    simp only [hstage] at hstaged
    exact grounded_conclude hlog ⟨hstaged, fun _ => trivial⟩
  · exact ⟨hlog, hstaged⟩

theorem grounded_run (crc32c : Bytes → UInt32) (core : FileWriterCore) (moves : List FileWriterMove) :
    Grounded moves (run crc32c core moves) := by
  have hstart : Grounded moves (start core) := by
    refine ⟨?_, trivial⟩
    intro e he
    cases he
  refine List.foldlRecOn moves (FileWriterSession.act crc32c) hstart ?_
  intro s hs m hm
  exact hs.act hm

end FileWriterSession

/-! ### What a sealed file answers -/

namespace Sealed
variable {A : Type} [DestinationAlloc A] {crc32c : Bytes → UInt32} {options : FileWriterOptions}
  {kv : List (String × KvValue)} {file : Bytes} {us : List Stowed} {index : List IndexEntry}
  {t : Trailer} {u : Stowed} {depth : ℕ} {a : A} {name : String} {job : Job}

/-- What the file has is a matter of its index. -/
theorem answerOf_missing (h : Sealed crc32c options kv file us index t)
    (hmissing : ∀ t ∈ us.map Stowed.tensor, t.name ≠ name) :
    answerOf file ⟨options.dataBufferAlignment.toUInt64, index, kv⟩ depth a job name =
      Exec.fail (.tensorNotFound name) := by
  have hfind : FileReaderCore.find index name = none := by
    rw [FileReaderCore.find_eq_none]
    intro hname
    rw [(h.order.perm.map IndexEntry.name).mem_iff, List.map_map] at hname
    obtain ⟨u, hu, rfl⟩ := List.mem_map.mp hname
    exact hmissing u.tensor (List.mem_map_of_mem hu) rfl
  simp only [answerOf, hfind]

theorem answerOf_descriptor (h : Sealed crc32c options kv file us index t) (hu : u ∈ us)
    (hroundTrips : RoundTrips u.descriptor) :
    answerOf file ⟨options.dataBufferAlignment.toUInt64, index, kv⟩ depth a .descriptor u.name =
      .ok (.descriptor u.descriptor) := by
  obtain ⟨hfind, hentry⟩ := h.entryAt hu
  simp only [answerOf, hfind, readJob, hentry.readDescriptor h.size hroundTrips]
  rfl

theorem answerOf_tensor (h : Sealed crc32c options kv file us index t) (hvalid : options.Valid)
    (hu : u ∈ us) (hroundTrips : RoundTrips u.descriptor) (hgrants : GrantsAll A u.descriptor) :
    answerOf file ⟨options.dataBufferAlignment.toUInt64, index, kv⟩ depth a .tensor u.name =
      .ok (.tensor u.tensor) := by
  have hholds : Holds A file options.dataBufferAlignment.toUInt64 index u.tensor u.entry :=
    h.holds hvalid hu hroundTrips hgrants
  obtain ⟨a', htensor⟩ := hholds.tensor a
  have hfind : FileReaderCore.find index u.name = some u.entry := hholds.found
  simp only [answerOf, hfind, readJob, hholds.descriptor, Exec.ok_bind, htensor]
  rfl

/-- A composite whose counts say where it ends, anywhere in the file. -/
theorem answerOf_composite (h : Sealed crc32c options kv file us index t) (hvalid : options.Valid)
    {head : TensorDescriptor} {members : List FileCompositeNode} (before after : List FileTensor)
    (htensors : us.map Stowed.tensor =
      before ++ (FileCompositeNode.composite name head members).tensors ++ after)
    (hlevels : (FileCompositeNode.composite name head members).LevelsValid)
    (hcounted : (FileCompositeNode.composite name head members).unnamed.Counted)
    (hdepth : (FileCompositeNode.composite name head members).unnamed.depth ≤ depth)
    (hroundTrips : ∀ t ∈ (FileCompositeNode.composite name head members).tensors,
      RoundTrips t.descriptor)
    (hgrants : ∀ t ∈ (FileCompositeNode.composite name head members).tensors,
      GrantsAll A t.descriptor) :
    answerOf file ⟨options.dataBufferAlignment.toUInt64, index, kv⟩ depth a .walk name =
      .ok (.composite ⟨name, head, members.map FileCompositeNode.toItem⟩) := by
  have hholds : ∀ t ∈ (FileCompositeNode.composite name head members).tensors,
      ∃ e, Holds A file options.dataBufferAlignment.toUInt64 index t e := by
    intro t ht
    have hmem : t ∈ us.map Stowed.tensor := by
      rw [htensors]
      exact List.mem_append_left _ (List.mem_append_right _ ht)
    obtain ⟨u, hu, rfl⟩ := List.mem_map.mp hmem
    exact ⟨u.entry, h.holds hvalid hu (hroundTrips _ ht) (hgrants _ ht)⟩
  have hfrom : File.namesFrom index name =
      (FileCompositeNode.composite name head members).tensors.map FileTensor.name ++
        after.map FileTensor.name := by
    rw [FileCompositeNode.tensors, List.append_assoc, List.cons_append] at htensors
    rw [show name = (⟨name, head, []⟩ : FileTensor).name from rfl, h.namesFrom htensors,
      FileCompositeNode.tensors, ← List.map_append, List.cons_append]
  obtain ⟨e, he⟩ := hholds ⟨name, head, []⟩ (by simp [FileCompositeNode.tensors])
  have hfind : FileReaderCore.find index name = some e := he.found
  have hname : e.name = name := (FileReaderCore.name_of_find hfind).1
  have hwalks : Walks A file options.dataBufferAlignment.toUInt64 depth index
      (.composite name head members) := walks_of_counted hcounted hlevels hholds
  obtain ⟨a', hwalk⟩ := hwalks [] (after.map FileTensor.name) a
    (by rw [FileCompositeNode.toItem]; exact trivial) ((Nat.zero_add _).symm ▸ hdepth)
  simp only [answerOf, hfind, readJob, hname, hfrom, hwalk, FileCompositeNode.toItem]
  rfl

end Sealed

/-! ### The two ends -/

/-- An item that can be read back: its descriptors have room in their fields, and there is memory. -/
structure FileWriterCall.Portable (A : Type) [DestinationAlloc A] (call : FileWriterCall) : Prop where
  roundTrips : ∀ t ∈ call.tensors, RoundTrips t.descriptor
  granted : ∀ t ∈ call.tensors, GrantsAll A t.descriptor

/-- The reply of a reader is what the log of the writer says. -/
structure Truthful (log : List FileWriterEntry) (depth : ℕ) (r : FileReply) : Prop where
  missing : (∀ t ∈ log.flatMap FileWriterEntry.written, t.name ≠ r.name) →
    r.outcome = Exec.fail (.tensorNotFound r.name)
  descriptor : r.job = .descriptor → ∀ t ∈ log.flatMap FileWriterEntry.written, t.name = r.name →
    r.outcome = .ok (.descriptor t.descriptor)
  tensor : r.job = .tensor → ∀ t ∈ log.flatMap FileWriterEntry.written, t.name = r.name →
    r.outcome = .ok (.tensor t)
  composite : r.job = .walk → ∀ e ∈ log, e.result = some (.ok ()) → ∀ head members,
    e.call = .writeComposite r.name head members →
    (FileCompositeNode.composite r.name head members).unnamed.Counted →
    (FileCompositeNode.composite r.name head members).unnamed.depth ≤ depth →
    r.outcome = .ok (.composite ⟨r.name, head, members.map FileCompositeNode.toItem⟩)

section Transfer
variable {A : Type} [DestinationAlloc A] {options : FileWriterOptions} {core : FileWriterCore}
  {crc32c : Bytes → UInt32} {writes : List FileWriterMove} {e : FileWriterEntry}
  {kv : List (String × KvValue)}

open FileReaderCore

/-- What a finished file has is what the log says. -/
theorem truthful_of_sealed {log : List FileWriterEntry} {file : Bytes} {us : List Stowed}
    {index : List IndexEntry} {t : Trailer} {depth : ℕ} {a : A} {r : FileReply}
    (h : Sealed crc32c options kv file us index t) (hvalid : options.Valid)
    (htensors : us.map Stowed.tensor = log.flatMap FileWriterEntry.written)
    (htold : ∀ e ∈ log, e.Told) (hcalled : ∀ e ∈ log, FileWriterSession.Called writes e.call e.out)
    (hportable : ∀ call, .call call ∈ writes → call.Portable A)
    (hr : r.outcome =
      answerOf file ⟨options.dataBufferAlignment.toUInt64, index, kv⟩ depth a r.job r.name) :
    Truthful log depth r := by
  have hwritten : ∀ t ∈ log.flatMap FileWriterEntry.written,
      ∃ u ∈ us, u.tensor = t ∧ RoundTrips u.descriptor ∧ GrantsAll A u.descriptor := by
    intro t ht
    obtain ⟨e, he, hmem⟩ := List.mem_flatMap.mp ht
    rw [← htensors] at ht
    obtain ⟨u, hu, rfl⟩ := List.mem_map.mp ht
    have hport := hportable e.call (hcalled e he).1
    have hcall := List.mem_of_mem_take hmem
    exact ⟨u, hu, rfl, hport.roundTrips _ hcall, hport.granted _ hcall⟩
  refine ⟨?_, ?_, ?_, ?_⟩
  · intro hmissing
    rw [hr]
    exact h.answerOf_missing (htensors ▸ hmissing)
  · intro hjob t ht hname
    obtain ⟨u, hu, rfl, hroundTrips, -⟩ := hwritten t ht
    rw [hr, hjob, ← hname]
    exact h.answerOf_descriptor hu hroundTrips
  · intro hjob t ht hname
    obtain ⟨u, hu, rfl, hroundTrips, hgrants⟩ := hwritten t ht
    rw [hr, hjob, ← hname]
    exact h.answerOf_tensor hvalid hu hroundTrips hgrants
  · intro hjob e he hok head members hcall hcounted hdepth
    have hwhole := (htold e he).written_of_succeeded hok
    obtain ⟨before, after, rfl⟩ := List.append_of_mem he
    have hport := hportable e.call (hcalled e he).1
    have hout : 0 < e.out := by
      have hdrop := (htold e he).succeeded hok
      exact Nat.lt_of_lt_of_le e.call.length_items_pos (List.drop_eq_nil_iff.mp hdrop)
    have hlevels := (hcalled e he).2 hout
    rw [hcall] at hlevels hport hwhole
    rw [hr, hjob]
    refine h.answerOf_composite hvalid (before.flatMap FileWriterEntry.written)
      (after.flatMap FileWriterEntry.written) ?_ hlevels hcounted hdepth hport.roundTrips
      hport.granted
    rw [htensors, List.flatMap_append, List.flatMap_cons, hwhole, List.append_assoc]
    rfl

/-- Whatever fails or is dropped at either end: a file that was finished opens with its metadata and
with the names of the tensors that the calls on its writer left in it, and every call on a reader is
answered with what was written under the name, or with a failure of the source. -/
theorem file_transfer (hA : LawfulAlloc A) (hoblivious : Oblivious A)
    (hcore : FileWriterCore.withOptions options = .ok core)
    (he : e ∈ (FileWriterSession.run crc32c core writes).log) (hcall : e.call = .finish kv)
    (hok : e.result = some (.ok ())) (hportable : ∀ call, .call call ∈ writes → call.Portable A)
    (hindex : indexSize (((FileWriterSession.run crc32c core writes).log.flatMap
      FileWriterEntry.written).map FileTensor.name) ≤ ISIZE_MAX)
    (hmetadata : ∀ bytes, encodeKvSection kv = .ok bytes → bytes.length < UInt32.size)
    (a : A) (depth : ℕ) (chunk : ℕ → ℕ) (calls : ℕ) :
    let s := FileWriterSession.run crc32c core writes
    ∃ opened, drive crc32c s.sink chunk calls
        ((withDestinations (UInt64.ofNat s.sink.length) a).withMaxCompositeDepth depth) =
          .ok (.ready, opened) ∧
      opened.kv = kv ∧
      (opened.index.map IndexEntry.name).Perm
        ((s.log.flatMap FileWriterEntry.written).map FileTensor.name) ∧
      ∀ (moves : List FileReaderMove),
        ∀ r ∈ ((FileReaderSession.opened opened).run crc32c s.sink moves).replies,
          (∃ kind, .source (.failed kind) ∈ moves ∧ r.outcome = Exec.fail (.io kind)) ∨
            Truthful s.log depth r := by
  intro s
  obtain ⟨-, -, hlog⟩ :=
    FileWriterSession.finished_of_sane (FileWriterSession.sane_run crc32c core writes) he hcall hok
  obtain ⟨items, hitems, hfooted⟩ := FileWriterSession.footed_of_finished hcore he hcall hok
  obtain ⟨us, index, t, rfl, hsealed⟩ := hfooted.exists_sealed
  have htensors := FileWriterSession.tensors_of_items hitems
  have hvalid := valid_of_withOptions hcore
  have hnames : (index.map IndexEntry.name).Perm
      ((s.log.flatMap FileWriterEntry.written).map FileTensor.name) := by
    rw [← Stowed.names_of_tensors htensors]
    exact hsealed.order.perm.map IndexEntry.name
  have hvector : (encodeIndexSection index).length ≤ ISIZE_MAX := by
    rw [length_encodeIndexSection, indexSize_perm hnames]
    exact hindex
  have hopen := hsealed.openFile hvalid hvector hmetadata
  obtain ⟨opened, hopened⟩ := exists_opened hopen a depth chunk calls
  obtain ⟨view, hview, hwith⟩ := openWith_of_drive hopened
  obtain rfl := Except.ok.inj (hopen.symm.trans hview)
  have hsettings := hwith.2
  simp only [settings, Prod.mk.injEq] at hsettings
  refine ⟨opened, hopened, hsettings.2.1, hsettings.1 ▸ hnames, ?_⟩
  intro moves r hr
  have hstart : FileReaderSession.Faithful crc32c s.sink _ depth a
      (fun kind => .source (.failed kind) ∈ moves) (.opened opened) :=
    FileReaderSession.faithful_opened hwith
  rcases (hstart.run hA hoblivious moves fun _ hmove => hmove).replies r hr with hio | hanswer
  · exact .inl hio
  · right
    exact truthful_of_sealed hsealed hvalid htensors (fun e he => (hlog e he).1)
      (FileWriterSession.grounded_run crc32c core writes).1 hportable hanswer

theorem file_transfer_worked :
    let s := FileWriterSession.run (fun _ => 0) .new FileWriterSession.workedCalls
    ∃ opened, drive (fun _ => 0) s.sink (fun _ => 6) 0
        ((withDestinations (UInt64.ofNat s.sink.length)
          SystemDestinations.mk).withMaxCompositeDepth 64) = .ok (.ready, opened) ∧
      opened.kv = [] ∧
      (opened.index.map IndexEntry.name).Perm
        ((s.log.flatMap FileWriterEntry.written).map FileTensor.name) ∧
      ∀ (moves : List FileReaderMove),
        ∀ r ∈ ((FileReaderSession.opened opened).run (fun _ => 0) s.sink moves).replies,
          (∃ kind, .source (.failed kind) ∈ moves ∧ r.outcome = Exec.fail (.io kind)) ∨
            Truthful s.log 64 r := by
  have hportable : ∀ call, .call call ∈ FileWriterSession.workedCalls →
      call.Portable SystemDestinations := by
    intro call hcall
    have htensors : ∀ t ∈ call.tensors, t.descriptor = workedExample := by
      simp [FileWriterSession.workedCalls] at hcall
      rcases hcall with rfl | rfl | rfl | rfl | rfl <;> simp [FileWriterCall.tensors]
    have hroundTrips : RoundTrips workedExample :=
      roundTrips_worked ⟨"b", workedExample, [List.replicate 192 7]⟩ List.mem_cons_self
    have hgrants : GrantsAll SystemDestinations workedExample :=
      @grantsAll_systemDestinations workedTensors (by decide +kernel)
        ⟨"b", workedExample, [List.replicate 192 7]⟩ List.mem_cons_self
    exact ⟨fun t ht => htensors t ht ▸ hroundTrips, fun t ht => htensors t ht ▸ hgrants⟩
  obtain ⟨e, he, hcall, hok⟩ := FileWriterSession.exists_finished_worked
  refine file_transfer lawfulAlloc_systemDestinations oblivious_systemDestinations
    (show FileWriterCore.withOptions .default = .ok FileWriterCore.new from rfl) he hcall hok
    hportable (by decide +kernel) ?_ .mk 64 (fun _ => 6) 0
  intro bytes hbytes
  cases hbytes
  decide

end Transfer
end Hurray.File
