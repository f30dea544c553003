import Hurray.Descriptor.Contract
import Hurray.File.HistoryIndependence
import Hurray.File.SectionFormat

/-!
The length of a descriptor stands twice in a file: in the index and in the
descriptor itself. The decoder takes what it needs of the bytes the index gives
it, so that the two may differ where it needs fewer bytes than it is given, or
leaves the end of a descriptor of a newer minor version unread.
-/
namespace Hurray.File
open Hurray.Base Hurray.Core Hurray.Descriptor Hurray.Stream

/-! ### The nodes that a job delivers -/

mutual

def FileItem.nodes : FileItem → List (String × TensorDescriptor)
  | .tensor t => [(t.name, t.descriptor)]
  | .composite name head members => (name, head) :: itemNodes members

def itemNodes : List FileItem → List (String × TensorDescriptor)
  | [] => []
  | item :: items => item.nodes ++ itemNodes items

end

/-- The names that are delivered, each with its descriptor. -/
def Delivery.nodes (name : String) : Delivery → List (String × TensorDescriptor)
  | .descriptor d => [(name, d)]
  | .tensor t => [(t.name, t.descriptor)]
  | .composite c => (c.name, c.head) :: itemNodes c.members

theorem itemNodes_append (items more : List FileItem) :
    itemNodes (items ++ more) = itemNodes items ++ itemNodes more := by
  induction items with
  | nil => rw [List.nil_append, itemNodes, List.nil_append]
  | cons item items ih => rw [List.cons_append, itemNodes, itemNodes, ih, List.append_assoc]

/-- The node is the descriptor that the file has for its name. -/
def Sourced (file : Bytes) (index : List IndexEntry) (node : String × TensorDescriptor) : Prop :=
  ∃ e ∈ index, e.name = node.1 ∧ readDescriptor file e = .ok node.2

section Nodes
variable {A : Type} [DestinationAlloc A] {file : Bytes} {alignment : UInt64} {depth : ℕ}
  {index : List IndexEntry}

/-- What is open comes from the file. -/
def StackSourced (file : Bytes) (index : List IndexEntry) (stack : List Open) : Prop :=
  ∀ top ∈ stack, Sourced file index (top.name, top.head) ∧
    ∀ node ∈ itemNodes top.members, Sourced file index node

/-- What a step of the walk comes to. -/
def StepSourced (file : Bytes) (index : List IndexEntry) : List Open ⊕ FileComposite → Prop
  | .inl stack => StackSourced file index stack
  | .inr c => ∀ node ∈ (Delivery.composite c).nodes c.name, Sourced file index node

theorem handOver_sourced {stack : List Open} {item : FileItem} {r : List Open ⊕ FileComposite}
    (hstack : StackSourced file index stack) (hitem : ∀ node ∈ item.nodes, Sourced file index node)
    (h : handOver stack item = .ok r) : StepSourced file index r := by
  induction stack generalizing item with
  | nil =>
    cases item with
    | tensor t => cases h
    | composite name head members =>
      cases h
      exact hitem
  | cons top rest ih =>
    rw [handOver] at h
    obtain ⟨validator, -, h⟩ := Exec.bind_eq_ok.mp h
    obtain ⟨⟨hhead, hmembers⟩, hrest⟩ := List.forall_mem_cons.mp hstack
    have hmore : ∀ node ∈ itemNodes (top.members ++ [item]), Sourced file index node := by
      intro node hnode
      rw [itemNodes_append, itemNodes, itemNodes, List.append_nil, List.mem_append] at hnode
      rcases hnode with hnode | hnode
      · exact hmembers node hnode
      · exact hitem node hnode
    dsimp only at h
    split at h
    · cases h
      exact List.forall_mem_cons.mpr ⟨⟨hhead, hmore⟩, hrest⟩
    · obtain ⟨_, -, h⟩ := Exec.bind_eq_ok.mp h
      apply ih hrest _ h
      rw [FileItem.nodes]
      exact List.forall_mem_cons.mpr ⟨hhead, hmore⟩

theorem readTensor_node {name : String} {offset : UInt64} {d : TensorDescriptor} {a b : A}
    {t : FileTensor} (h : readTensor file alignment name offset d a = .ok (t, b)) :
    t.name = name ∧ t.descriptor = d := by
  obtain ⟨⟨buffers, b'⟩, -, h⟩ := Exec.bind_eq_ok.mp h
  cases h
  exact ⟨rfl, rfl⟩

theorem readNode_sourced {stack : List Open} {e : IndexEntry} {d : TensorDescriptor} {a b : A}
    {r : List Open ⊕ FileComposite} (hstack : StackSourced file index stack) (he : e ∈ index)
    (hd : readDescriptor file e = .ok d)
    (h : readNode file alignment depth stack e d a = .ok (r, b)) : StepSourced file index r := by
  have hnode : Sourced file index (e.name, d) := ⟨e, he, rfl, hd⟩
  unfold readNode at h
  split at h
  · obtain ⟨_, -, h⟩ := Exec.bind_eq_ok.mp h
    obtain ⟨validator, -, h⟩ := Exec.bind_eq_ok.mp h
    cases h
    intro top htop
    rcases List.mem_cons.mp htop with rfl | htop
    · exact ⟨hnode, List.forall_mem_nil _⟩
    · exact hstack top htop
  · obtain ⟨_, -, h⟩ := Exec.bind_eq_ok.mp h
    obtain ⟨⟨t, b'⟩, ht, h⟩ := Exec.bind_eq_ok.mp h
    obtain ⟨handed, hhanded, h⟩ := Exec.bind_eq_ok.mp h
    cases h
    obtain ⟨hname, hdescriptor⟩ := readTensor_node ht
    apply handOver_sourced hstack _ hhanded
    rw [FileItem.nodes, List.forall_mem_singleton, hname, hdescriptor]
    exact hnode

theorem readWalk_sourced {names : List String} {stack : List Open} {a b : A} {c : FileComposite}
    (hstack : StackSourced file index stack)
    (h : readWalk file alignment depth index names stack a = .ok (c, b)) :
    ∀ node ∈ (Delivery.composite c).nodes c.name, Sourced file index node := by
  induction names generalizing stack a with
  | nil =>
    cases stack with
    | nil => cases h
    | cons top rest => cases h
  | cons name names ih =>
    rw [readWalk] at h
    obtain ⟨e, he, h⟩ := Exec.bind_eq_ok.mp h
    obtain ⟨d, hd, h⟩ := Exec.bind_eq_ok.mp h
    obtain ⟨⟨node, a'⟩, hnode, h⟩ := Exec.bind_eq_ok.mp h
    obtain ⟨-, hmem⟩ := FileReaderCore.name_of_find (Exec.orFail_eq_ok.mp he)
    have hsourced := readNode_sourced hstack hmem hd hnode
    cases node with
    | inl stack => exact ih hsourced h
    | inr composite =>
      cases h
      exact hsourced

/-- Every node that a job delivers is the descriptor that the file has for its name. -/
theorem readJob_sourced {job : Job} {e : IndexEntry} {a b : A} {delivered : Delivery}
    (he : e ∈ index) (h : readJob file alignment depth index job e a = .ok (delivered, b)) :
    ∀ node ∈ delivered.nodes e.name, Sourced file index node := by
  cases job with
  | descriptor =>
    obtain ⟨d, hd, h⟩ := Exec.bind_eq_ok.mp h
    cases h
    rw [Delivery.nodes, List.forall_mem_singleton]
    exact ⟨e, he, rfl, hd⟩
  | tensor =>
    obtain ⟨d, hd, h⟩ := Exec.bind_eq_ok.mp h
    obtain ⟨⟨t, a'⟩, ht, h⟩ := Exec.bind_eq_ok.mp h
    cases h
    obtain ⟨hname, hdescriptor⟩ := readTensor_node ht
    rw [Delivery.nodes, List.forall_mem_singleton, hname, hdescriptor]
    exact ⟨e, he, rfl, hd⟩
  | walk =>
    obtain ⟨⟨c, a'⟩, hc, h⟩ := Exec.bind_eq_ok.mp h
    cases h
    exact readWalk_sourced (List.forall_mem_nil _) hc

end Nodes

/-! ### The two lengths -/

/-- The length in the index is that of the descriptor at its place. -/
def LengthAgrees (file : Bytes) (e : IndexEntry) : Prop :=
  e.descriptorLength.toNat = lengthField (file.drop e.descriptorOffset.toNat)

/-- The bytes of the entry go on behind the end of a descriptor. -/
def Overlong (file : Bytes) (e : IndexEntry) : Prop :=
  ∃ b u d, fetch file e.descriptorOffset e.descriptorLength.toNat = .ok b ∧ u <+: b ∧
    u.length < b.length ∧ lengthField u = u.length ∧ decode u = .ok d

/-- The bytes of the entry leave off the end of a descriptor of another minor version, all of whose
known fields are there. -/
def CutShort (file : Bytes) (e : IndexEntry) : Prop :=
  ∃ b d, fetch file e.descriptorOffset e.descriptorLength.toNat = .ok b ∧ decode b = .ok d ∧
    d.versionMinor ≠ DESCRIPTOR_VERSION_MINOR ∧ b.length < lengthField b

section Lengths
variable {file b u : Bytes} {e : IndexEntry} {d : TensorDescriptor}

theorem ten_le_of_decode (h : decode b = .ok d) : 10 ≤ b.length := by
  obtain ⟨-, len, w, hw, hpre, -, -⟩ := decode_eq_ok_iff.mp h
  have hlen := hw.length_eq
  rw [length_descriptorCells] at hlen
  have hle := hpre.length_le
  omega

theorem lengthField_eq_of_prefix (hpre : u <+: b) (hlen : 10 ≤ u.length) :
    lengthField u = lengthField b := by
  obtain ⟨v, rfl⟩ := hpre
  have hdrop : 4 ≤ (u.drop 6).length := by
    rw [List.length_drop]
    omega
  rw [lengthField, lengthField, List.drop_append_of_le_length (by omega),
    List.take_append_of_le_length hdrop]

/-- What is decoded from the front of some bytes is decoded from all of them, if the front is as
long as it says. -/
theorem decode_of_prefix (hpre : u <+: b) (h : decode u = .ok d) : decode b = .ok d := by
  obtain ⟨hd, len, w, hw, hwu, hle, heq⟩ := decode_eq_ok_iff.mp h
  exact decode_eq_ok_iff.mpr ⟨hd, len, w, hw, hwu.trans hpre, hle, heq⟩

theorem known_of_decode (h : decode b = .ok d) (hknown : d.versionMinor = DESCRIPTOR_VERSION_MINOR) :
    lengthField b ≤ b.length := by
  obtain ⟨-, len, w, hw, hpre, -, heq⟩ := decode_eq_ok_iff.mp h
  rw [lengthField_of_matches hw hpre, ← heq hknown]
  exact hpre.length_le

theorem readDescriptor_eq_ok : readDescriptor file e = .ok d ↔
    ∃ b, fetch file e.descriptorOffset e.descriptorLength.toNat = .ok b ∧ decode b = .ok d := by
  rw [readDescriptor, Exec.bind_eq_ok]
  simp only [Exec.mapError_eq_ok]

theorem decodes_of_overlong (h : Overlong file e) : ∃ d, readDescriptor file e = .ok d := by
  obtain ⟨b, u, d, hb, hpre, -, -, hd⟩ := h
  exact ⟨d, readDescriptor_eq_ok.mpr ⟨b, hb, decode_of_prefix hpre hd⟩⟩

theorem decodes_of_cutShort (h : CutShort file e) : ∃ d, readDescriptor file e = .ok d := by
  obtain ⟨b, d, hb, hd, -, -⟩ := h
  exact ⟨d, readDescriptor_eq_ok.mpr ⟨b, hb, hd⟩⟩

/-- Where a descriptor is decoded, its two lengths differ in one of two ways. -/
theorem lengthAgrees_iff (h : readDescriptor file e = .ok d) :
    LengthAgrees file e ↔ ¬ Overlong file e ∧ ¬ CutShort file e := by
  obtain ⟨b, hb, hd⟩ := readDescriptor_eq_ok.mp h
  obtain ⟨-, hlen, hdata⟩ := fetch_eq_ok.mp hb
  have hten := ten_le_of_decode hd
  have hpre : b <+: file.drop e.descriptorOffset.toNat := by
    conv => lhs; rw [hdata]
    exact List.take_prefix _ _
  rw [LengthAgrees, ← lengthField_eq_of_prefix hpre hten, ← hlen]
  constructor
  · intro hagrees
    constructor
    · intro hover
      obtain ⟨b', u, d', hb', hu, hlt, hfield, hd'⟩ := hover
      cases hb.symm.trans hb'
      have hsame := lengthField_eq_of_prefix hu (ten_le_of_decode hd')
      omega
    · intro hcut
      obtain ⟨b', d', hb', -, -, hlt⟩ := hcut
      cases hb.symm.trans hb'
      omega
  · intro hnone
    obtain ⟨hover, hcut⟩ := hnone
    by_contra hne
    rcases Nat.lt_or_gt_of_ne hne with hlt | hgt
    · apply hcut
      refine ⟨b, d, hb, hd, ?_, hlt⟩
      intro hknown
      have hle := known_of_decode hd hknown
      omega
    · apply hover
      have htake := decode_take hd
      have hulen : (b.take (lengthField b)).length = lengthField b := by
        rw [List.length_take]
        omega
      refine ⟨b, b.take (lengthField b), d, hb, List.take_prefix _ _, by omega, ?_, htake⟩
      rw [hulen]
      exact lengthField_eq_of_prefix (List.take_prefix _ _) (ten_le_of_decode htake)

end Lengths

theorem find_of_nodup {index : List IndexEntry} (hnodup : (index.map IndexEntry.name).Nodup)
    {e : IndexEntry} (he : e ∈ index) : FileReaderCore.find index e.name = some e := by
  cases hfind : FileReaderCore.find index e.name with
  | none =>
    rw [FileReaderCore.find_eq_none] at hfind
    exact absurd (List.mem_map_of_mem he) hfind
  | some e' =>
    obtain ⟨hname, he'⟩ := FileReaderCore.name_of_find hfind
    rw [List.inj_on_of_nodup_map hnodup he' he hname]

/-- The names of a file that opens are distinct. -/
theorem nodup_of_openFile {crc32c : Bytes → UInt32} {file : Bytes} {size : UInt64} {v : FileView}
    (h : openFile crc32c file size = .ok v) : (v.index.map IndexEntry.name).Nodup := by
  simp only [openFile, readIndex, Exec.bind_eq_ok, Prod.exists] at h
  obtain ⟨_, _, -, _, -, index, ⟨_, -, _, -, _, -, hindex⟩, _, -, hv⟩ := h
  cases hv
  obtain ⟨-, -, -, -, hnodup⟩ := parseIndex_eq_ok.mp hindex
  exact hnodup

namespace FileReaderCore
variable {A : Type} [DestinationAlloc A]

/-- Every node that an open reader delivers, after any calls and whatever the reads return, has the
length in its descriptor that it has in the index, if and only if no entry of the index is longer
than a descriptor or cuts one short. -/
theorem delivered_lengths_agree_iff (hA : LawfulAlloc A) {crc32c : Bytes → UInt32} {file : Bytes}
    {size : UInt64} {a : A} {depth calls : ℕ} {chunk : ℕ → ℕ} {opened : FileReaderCore A}
    (hopened : drive crc32c file chunk calls
      ((withDestinations size a).withMaxCompositeDepth depth) = .ok (.ready, opened)) :
    (∀ (actions : List ReaderAction) (used begun : FileReaderCore A) (job : Job) (name : String)
      (u : Unit) (chunk : ℕ → ℕ) (calls : ℕ) (delivered : Delivery),
      run crc32c opened actions = some used → used.begin job name = (.ok u, begun) →
      (drive crc32c file chunk calls begun).map delivery = .ok (some delivered) →
      ∀ node ∈ delivered.nodes name, ∀ e ∈ opened.index, e.name = node.1 → LengthAgrees file e) ↔
    ∀ e ∈ opened.index, ¬ Overlong file e ∧ ¬ CutShort file e := by
  obtain ⟨view, hview, hopenedWith⟩ := openWith_of_drive hopened
  have hindexView : opened.index = view.index := congrArg Prod.fst hopenedWith.2
  have hnodup : (opened.index.map IndexEntry.name).Nodup := by
    rw [hindexView]
    exact nodup_of_openFile hview
  constructor
  · intro hall e he
    have hfind := find_of_nodup hnodup he
    have hagrees : ∀ {d : TensorDescriptor}, readDescriptor file e = .ok d →
        LengthAgrees file e := by
      intro d hd
      have hdelivers : (drive crc32c file chunk calls (opened.started .descriptor e)).map delivery =
          .ok (some (.descriptor d)) := by
        rw [delivery_eq hA hfind, readJob, hd]
        rfl
      exact hall [] opened _ .descriptor e.name () chunk calls (.descriptor d) rfl
        (begin_of_find hopenedWith.1 hfind) hdelivers (e.name, d) List.mem_cons_self e he rfl
    constructor
    · intro hover
      obtain ⟨d, hd⟩ := decodes_of_overlong hover
      exact ((lengthAgrees_iff hd).mp (hagrees hd)).1 hover
    · intro hcut
      obtain ⟨d, hd⟩ := decodes_of_cutShort hcut
      exact ((lengthAgrees_iff hd).mp (hagrees hd)).2 hcut
  · intro hnone actions used begun job name u chunk calls delivered hused hbegun hdelivers node
      hnode e he hname
    have husedWith := run_stays hopenedWith hused
    have hindex : used.index = opened.index := (congrArg Prod.fst husedWith.2).trans hindexView.symm
    cases hfind : find used.index name with
    | none =>
      rw [begin_of_find_none husedWith.1 hfind] at hbegun
      cases hbegun
    | some f =>
      rw [begin_of_find husedWith.1 hfind] at hbegun
      cases hbegun
      rw [delivery_eq hA hfind] at hdelivers
      obtain ⟨rfl, hf⟩ := name_of_find hfind
      rcases hjob : readJob file used.dataBufferAlignment used.maxCompositeDepth used.index job f
        used.destinations with err | ⟨delivered', b⟩
      · rw [hjob] at hdelivers
        cases hdelivers
      · rw [hjob] at hdelivers
        cases hdelivers
        obtain ⟨g, hg, hgname, hd⟩ := readJob_sourced hf hjob node hnode
        rw [hindex] at hg
        rw [List.inj_on_of_nodup_map hnodup he hg (hname.trans hgname.symm)]
        exact (lengthAgrees_iff hd).mpr (hnone g hg)

end FileReaderCore

/-- The file of the worked example, with another minor version, length field or length in the
index. -/
def relabelledFile (minor : UInt8) (length indexLength : UInt32) : Bytes :=
  workedHeader ++ workedExampleBytes minor length ++
    encodeIndexSection [⟨"a", 64, indexLength, 4096, 192⟩] ++
      workedTrailer 125 (encodeIndexSection [⟨"a", 64, indexLength, 4096, 192⟩]) 0

namespace FileReaderCore

theorem delivered_lengths_agree_iff_worked : ∃ opened : FileReaderCore SystemDestinations,
    drive (fun _ => 0) (relabelledFile 0 61 61) (fun _ => 6) 0
      ((withDestinations 208 SystemDestinations.mk).withMaxCompositeDepth 64) =
        .ok (.ready, opened) ∧
    ((∀ (actions : List ReaderAction) (used begun : FileReaderCore SystemDestinations) (job : Job)
      (name : String) (u : Unit) (chunk : ℕ → ℕ) (calls : ℕ) (delivered : Delivery),
      run (fun _ => 0) opened actions = some used → used.begin job name = (.ok u, begun) →
      (drive (fun _ => 0) (relabelledFile 0 61 61) chunk calls begun).map delivery =
        .ok (some delivered) →
      ∀ node ∈ delivered.nodes name, ∀ e ∈ opened.index, e.name = node.1 →
        LengthAgrees (relabelledFile 0 61 61) e) ↔
    ∀ e ∈ opened.index, ¬ Overlong (relabelledFile 0 61 61) e ∧
      ¬ CutShort (relabelledFile 0 61 61) e) := by
  have hopen : ((openFile (fun _ => 0) (relabelledFile 0 61 61) 208).map fun _ => ()) = .ok () := by
    decide +kernel
  rcases hview : openFile (fun _ => 0) (relabelledFile 0 61 61) 208 with e | view
  · rw [hview] at hopen
    cases hopen
  · obtain ⟨c, hc⟩ := exists_opened hview SystemDestinations.mk 64 (fun _ => 6) 0
    exact ⟨c, hc, delivered_lengths_agree_iff lawfulAlloc_systemDestinations hc⟩

/-- A descriptor is delivered whose length is not the one that the index has. -/
def DeliversDisagreeing (file : Bytes) : Prop :=
  ∃ (opened begun : FileReaderCore SystemDestinations) (e : IndexEntry) (d : TensorDescriptor),
    drive (fun _ => 0) file (fun _ => 6) 0
      ((withDestinations 208 SystemDestinations.mk).withMaxCompositeDepth 64) =
        .ok (.ready, opened) ∧
    opened.begin .descriptor "a" = (.ok (), begun) ∧
    (drive (fun _ => 0) file (fun _ => 6) 0 begun).map delivery = .ok (some (.descriptor d)) ∧
    e ∈ opened.index ∧ e.name = "a" ∧ ¬ LengthAgrees file e

theorem deliversDisagreeing_of_open {file : Bytes} {e : IndexEntry}
    (hopen : ((openFile (fun _ => 0) file 208).map fun v => v.index) = .ok [e]) (hname : e.name = "a")
    (hdecodes : ((readDescriptor file e).map fun _ => ()) = .ok ()) (hdiffer : ¬ LengthAgrees file e) :
    DeliversDisagreeing file := by
  rcases hview : openFile (fun _ => 0) file 208 with err | view
  · rw [hview] at hopen
    cases hopen
  rcases hd : readDescriptor file e with err | d
  · rw [hd] at hdecodes
    cases hdecodes
  rw [hview] at hopen
  obtain ⟨opened, hopened⟩ := exists_opened hview SystemDestinations.mk 64 (fun _ => 6) 0
  obtain ⟨view', hview', hwith⟩ := openWith_of_drive hopened
  obtain rfl : view = view' := Except.ok.inj (hview.symm.trans hview')
  have hindex : opened.index = [e] := (congrArg Prod.fst hwith.2).trans (Except.ok.inj hopen)
  have hfind : find opened.index "a" = some e := by
    rw [hindex, find, List.find?_cons_of_pos]
    exact decide_eq_true hname
  refine ⟨opened, _, e, d, hopened, begin_of_find hwith.1 hfind, ?_, ?_, hname, hdiffer⟩
  · rw [delivery_eq lawfulAlloc_systemDestinations hfind, readJob, hd]
    rfl
  · rw [hindex]
    exact List.mem_cons_self

/-- An index that says 62 of a descriptor of 61 bytes, and a descriptor that says 1000 of itself
where the index says 61: both are delivered. -/
theorem disagreeing_lengths_are_delivered :
    DeliversDisagreeing (relabelledFile 0 61 62) ∧ DeliversDisagreeing (relabelledFile 1 1000 61) := by
  constructor
  · exact deliversDisagreeing_of_open (e := ⟨"a", 64, 62, 4096, 192⟩) (by decide +kernel) rfl
      (by decide +kernel) (show ¬ _ = _ by decide +kernel)
  · exact deliversDisagreeing_of_open (e := ⟨"a", 64, 61, 4096, 192⟩) (by decide +kernel) rfl
      (by decide +kernel) (show ¬ _ = _ by decide +kernel)

end FileReaderCore
end Hurray.File
