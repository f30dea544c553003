import Hurray.File.Composite
import Hurray.File.FileRoundtrip
import Hurray.File.WalkAgreement
import Hurray.Stream.CompositeRoundtrip

/-!
A composite that is written among other tensors and walked again. The file has no
record of the tree but the member counts and the order of the descriptors, so it
comes back exactly when every count is the true number of members and no leaf
passes for a head.
-/
namespace Hurray.File
open Hurray.Base Hurray.Core Hurray.Descriptor Hurray.Stream StateTransition

namespace FileCompositeNode

/-- The node as a stream has it. -/
def unnamed : FileCompositeNode → CompositeNode
  | tensor _ d buffers => .tensor d buffers
  | composite _ head members => .composite head (members.map unnamed)

theorem toItem_unnamed (node : FileCompositeNode) : node.toItem.unnamed = node.unnamed.toItem := by
  induction node using FileCompositeNode.induct with
  | tensor name d buffers =>
    rw [toItem, FileItem.unnamed, unnamed, CompositeNode.toItem]
  | composite name head members ih =>
    rw [toItem, FileItem.unnamed, unnamed, CompositeNode.toItem, List.map_map, List.map_map]
    congr 1
    exact List.map_congr_left ih

theorem descriptor_toItem (node : FileCompositeNode) : node.toItem.descriptor = node.descriptor := by
  cases node <;> simp [toItem, FileItem.descriptor, descriptor]

/-- What is checked of one head. -/
theorem validateLevel_eq_ok {head : TensorDescriptor} {members : List FileCompositeNode} {u : Unit}
    (h : validateLevel head members = .ok u) :
    ∃ c v w, head.layout = .composite c ∧ CompositeValidator.new head = .ok v ∧
      members.foldlM (fun v m => v.pushMember m.descriptor) v = .ok w ∧ w.finish = .ok () := by
  obtain ⟨v, hnew, h⟩ := Exec.bind_eq_ok.mp (Exec.mapError_eq_ok.mp h)
  obtain ⟨w, hfold, hfinish⟩ := Exec.bind_eq_ok.mp h
  obtain ⟨c, hc, -⟩ := CompositeValidator.new_eq_ok hnew
  exact ⟨c, v, w, hc, hnew, hfold, hfinish⟩

end FileCompositeNode

/-! ### The walk over a tree -/

/-- The file has the tensor under its name. -/
structure Holds (A : Type) [DestinationAlloc A] (file : Bytes) (alignment : UInt64)
    (index : List IndexEntry) (t : FileTensor) (e : IndexEntry) : Prop where
  found : FileReaderCore.find index t.name = some e
  descriptor : readDescriptor file e = .ok t.descriptor
  tensor : ∀ a : A, ∃ a', readTensor file alignment e.name e.dataOffset t.descriptor a = .ok (t, a')

section Walk
variable {A : Type} [DestinationAlloc A] {file : Bytes} {alignment : UInt64} {depth : ℕ}
  {index : List IndexEntry} {stack rest : List Open} {names : List String} {t : FileTensor}
  {e : IndexEntry} {a : A}

/-- The walk goes on after an item was handed over. -/
def goOn (A : Type) [DestinationAlloc A] (file : Bytes) (alignment : UInt64) (depth : ℕ)
    (index : List IndexEntry) (names : List String) (a : A) :
    List Open ⊕ FileComposite → Result (FileComposite × A)
  | .inl stack => readWalk file alignment depth index names stack a
  | .inr composite => pure (composite, a)

theorem readWalk_head {c : CompositeLayout} {v : CompositeValidator}
    (h : Holds A file alignment index t e) (hc : t.descriptor.layout = .composite c)
    (hnew : CompositeValidator.new t.descriptor = .ok v) (hdepth : stack.length < depth) :
    readWalk file alignment depth index (t.name :: names) stack a =
      readWalk file alignment depth index names
        (⟨t.name, t.descriptor, c.memberCount, [], v⟩ :: stack) a := by
  obtain ⟨hname, -⟩ := FileReaderCore.name_of_find h.found
  rw [readWalk, h.found, Exec.orFail_some, Exec.ok_bind, h.descriptor, Exec.ok_bind,
    readNode_of_head hc, Exec.reject_of_not (Nat.not_le.mpr hdepth), Exec.ok_bind,
    Exec.mapError_eq_ok.mpr hnew, hname]
  rfl

theorem readWalk_leaf (h : Holds A file alignment index t e)
    (hleaf : t.descriptor.layout.isVirtual = false) (hstack : stack ≠ []) :
    ∃ a', readWalk file alignment depth index (t.name :: names) stack a =
      handOver stack (.tensor t) >>= goOn A file alignment depth index names a' := by
  have hlayout : ∀ layout, t.descriptor.layout = .composite layout → False := by
    intro layout hlayout
    rw [hlayout] at hleaf
    cases hleaf
  have hempty : ¬ stack.isEmpty = true := by rwa [List.isEmpty_iff]
  obtain ⟨a', htensor⟩ := h.tensor a
  refine ⟨a', ?_⟩
  rw [readWalk, h.found, Exec.orFail_some, Exec.ok_bind, h.descriptor, Exec.ok_bind,
    readNode_of_tensor hlayout, Exec.reject_of_not hempty, Exec.ok_bind, htensor, Exec.ok_bind]
  simp only [bind_assoc, pure_bind]
  rfl

/-- The tensors of a node, walked one by one, do what handing over its item does. -/
def Walks (A : Type) [DestinationAlloc A] (file : Bytes) (alignment : UInt64) (depth : ℕ)
    (index : List IndexEntry) (node : FileCompositeNode) : Prop :=
  ∀ (stack : List Open) (names : List String) (a : A), Expects stack node.toItem →
    stack.length + node.unnamed.depth ≤ depth →
    ∃ a', readWalk file alignment depth index (node.tensors.map FileTensor.name ++ names) stack a =
      handOver stack node.toItem >>= goOn A file alignment depth index names a'

/-- The members that a head still needs close it. -/
theorem readWalk_members {ms : List FileCompositeNode} (names : List String) (a : A)
    (hwalks : ∀ m ∈ ms, Walks A file alignment depth index m) (hne : ms ≠ []) (top : Open)
    {v : CompositeValidator} (hdepth : ∀ m ∈ ms, rest.length + 1 + m.unnamed.depth ≤ depth)
    (hfold : ms.foldlM (fun v m => v.pushMember m.descriptor) top.validator = .ok v)
    (hfinish : v.finish = .ok ())
    (hcount : top.members.length + ms.length = top.memberCount.toNat) :
    ∃ a', readWalk file alignment depth index
        ((ms.flatMap FileCompositeNode.tensors).map FileTensor.name ++ names) (top :: rest) a =
      handOver rest (.composite top.name top.head (top.members ++ ms.map FileCompositeNode.toItem))
        >>= goOn A file alignment depth index names a' := by
  induction ms generalizing top a with
  | nil => exact absurd rfl hne
  | cons m ms ih =>
    rw [List.foldlM_cons] at hfold
    obtain ⟨v₁, hpush, hfold⟩ := Exec.bind_eq_ok.mp hfold
    rw [← FileCompositeNode.descriptor_toItem] at hpush
    rw [List.length_cons] at hcount
    have hnat : (UInt32.ofNat (top.members ++ [m.toItem]).length).toNat = top.members.length + 1 := by
      rw [List.length_append, List.length_singleton]
      apply UInt32.toNat_ofNat_of_lt'
      have hmax := top.memberCount.toNat_lt
      rw [UInt32.size]
      omega
    have hexpects : Expects (top :: rest) m.toItem := by
      cases m.toItem with
      | tensor t => exact List.cons_ne_nil _ _
      | composite name head members => exact trivial
    obtain ⟨a₁, hfirst⟩ := hwalks m List.mem_cons_self (top :: rest)
      ((ms.flatMap FileCompositeNode.tensors).map FileTensor.name ++ names) a hexpects
      (hdepth m List.mem_cons_self)
    rw [List.flatMap_cons, List.map_append, List.append_assoc, hfirst, handOver,
      Exec.mapError_eq_ok.mpr hpush, Exec.ok_bind]
    dsimp only
    by_cases hlast : ms = []
    · subst hlast
      cases hfold
      have hfull : ¬ UInt32.ofNat (top.members ++ [m.toItem]).length < top.memberCount := by
        rw [UInt32.lt_iff_toNat_lt, hnat, ← hcount]
        exact Nat.lt_irrefl _
      rw [if_neg hfull, Exec.mapError_eq_ok.mpr hfinish, Exec.ok_bind]
      exact ⟨a₁, rfl⟩
    · have hpos := List.length_pos_iff.mpr hlast
      have hopen : UInt32.ofNat (top.members ++ [m.toItem]).length < top.memberCount := by
        rw [UInt32.lt_iff_toNat_lt, hnat]
        omega
      rw [if_pos hopen]
      obtain ⟨a₂, hrest⟩ := ih a₁ (fun k hk => hwalks k (List.mem_cons_of_mem m hk)) hlast
        { top with members := top.members ++ [m.toItem], validator := v₁ }
        (fun k hk => hdepth k (List.mem_cons_of_mem m hk)) hfold (by
          show (top.members ++ [m.toItem]).length + ms.length = top.memberCount.toNat
          rw [List.length_append, List.length_singleton]
          omega)
      refine ⟨a₂, ?_⟩
      show readWalk file alignment depth index _ ({ top with
        members := top.members ++ [m.toItem], validator := v₁ } :: rest) a₁ = _
      rw [hrest, List.map_cons, List.append_assoc]
      rfl

/-- A tree whose counts say where it ends is walked as a whole. -/
theorem walks_of_counted {node : FileCompositeNode} (hcounted : node.unnamed.Counted)
    (hvalid : node.LevelsValid)
    (hholds : ∀ t ∈ node.tensors, ∃ e, Holds A file alignment index t e) :
    Walks A file alignment depth index node := by
  induction node using FileCompositeNode.induct with
  | tensor name d buffers =>
    intro stack names a hexpects _
    rw [FileCompositeNode.unnamed, CompositeNode.Counted] at hcounted
    rw [FileCompositeNode.toItem] at hexpects
    rw [FileCompositeNode.tensors, List.forall_mem_singleton] at hholds
    obtain ⟨e, he⟩ := hholds
    rw [FileCompositeNode.tensors, FileCompositeNode.toItem]
    exact readWalk_leaf he hcounted hexpects
  | composite name head members ih =>
    intro stack names a _ hdepth
    rw [FileCompositeNode.unnamed, CompositeNode.Counted] at hcounted
    obtain ⟨hne, hcount, hmembers⟩ := hcounted
    rw [FileCompositeNode.LevelsValid] at hvalid
    obtain ⟨c, v, w, hc, hnew, hfold, hfinish⟩ := FileCompositeNode.validateLevel_eq_ok hvalid.1
    rw [FileCompositeNode.tensors, List.forall_mem_cons] at hholds
    obtain ⟨e, he⟩ := hholds.1
    rw [FileCompositeNode.unnamed] at hdepth
    have hdeeper (m : FileCompositeNode) (hm : m ∈ members) :
        stack.length + 1 + m.unnamed.depth ≤ depth := by
      have hlt := depth_lt head (List.mem_map_of_mem (f := FileCompositeNode.unnamed) hm)
      omega
    have hlt : stack.length < depth := by
      rw [CompositeNode.depth] at hdepth
      omega
    have hwalks (m : FileCompositeNode) (hm : m ∈ members) :
        Walks A file alignment depth index m :=
      ih m hm (hmembers _ (List.mem_map_of_mem hm)) (hvalid.2 m hm)
        (fun t ht => hholds.2 t (List.mem_flatMap.mpr ⟨m, hm, ht⟩))
    obtain ⟨a', hwalk⟩ := readWalk_members names a hwalks (by simpa using hne)
      ⟨name, head, c.memberCount, [], v⟩ hdeeper hfold hfinish (by
        have hcount := hcount c hc
        rw [List.length_map] at hcount
        show 0 + members.length = c.memberCount.toNat
        omega)
    refine ⟨a', ?_⟩
    rw [FileCompositeNode.tensors, List.map_cons, List.cons_append,
      readWalk_head he hc hnew hlt, hwalk, FileCompositeNode.toItem]
    rfl

/-! ### What a walk delivers -/

/-- The open heads are in the making, and a composite that is complete is a counted tree. -/
def StepCounted (leaf : StreamTensor → Prop) : List Open ⊕ FileComposite → Prop
  | .inl stack => ∀ top ∈ stack, top.unnamed.Counted leaf
  | .inr c => c.unnamed.Counted leaf

variable {leaf : StreamTensor → Prop}

theorem handOver_counted {item : FileItem} {r : List Open ⊕ FileComposite}
    (hstack : ∀ top ∈ stack, top.unnamed.Counted leaf) (hitem : item.unnamed.Counted leaf)
    (hexpects : Expects stack item) (h : handOver stack item = .ok r) : StepCounted leaf r := by
  have hmirrors := handOver_mirrors hexpects
  have hunnamed : ∀ top ∈ stack.map Open.unnamed, top.Counted leaf := by
    intro group hgroup
    obtain ⟨top, htop, rfl⟩ := List.mem_map.mp hgroup
    exact hstack top htop
  obtain ⟨hopen, hreturned⟩ := AssemblyRun.counted_deliver hunnamed hitem
  rw [h] at hmirrors
  cases r with
  | inl stack' =>
    have hdeliver := hmirrors.2
    rw [hdeliver] at hopen
    intro top htop
    exact hopen top.unnamed (List.mem_map_of_mem htop)
  | inr c =>
    have hdeliver : CompositeAssembler.deliver (stack.map Open.unnamed) item.unnamed =
      (.ok (some c.unnamed), []) := hmirrors
    rw [hdeliver] at hreturned
    exact hreturned c.unnamed rfl

/-- The tensors that a file has are of the kind. -/
def HasLeaves (A : Type) [DestinationAlloc A] (file : Bytes) (alignment : UInt64)
    (leaf : StreamTensor → Prop) : Prop :=
  ∀ name offset d (a a' : A) (t : FileTensor), d.layout.isVirtual = false →
    readTensor file alignment name offset d a = .ok (t, a') → leaf ⟨t.descriptor, t.buffers⟩

theorem hasLeaves_isLeaf : HasLeaves A file alignment StreamTensor.IsLeaf := by
  intro name offset d a a' t hd ht
  rw [StreamTensor.IsLeaf, (readTensor_node ht).2]
  exact hd

theorem readNode_counted {d : TensorDescriptor} {a' : A} {r : List Open ⊕ FileComposite}
    (hleaf : HasLeaves A file alignment leaf) (hstack : ∀ top ∈ stack, top.unnamed.Counted leaf)
    (h : readNode file alignment depth stack e d a = .ok (r, a')) : StepCounted leaf r := by
  cases hvirtual : d.layout.isVirtual with
  | true =>
    obtain ⟨c, hc⟩ := CompositeAssembler.layout_of_isVirtual hvirtual
    rw [readNode_of_head hc] at h
    obtain ⟨_, -, h⟩ := Exec.bind_eq_ok.mp h
    obtain ⟨v, hnew, h⟩ := Exec.bind_eq_ok.mp h
    cases h
    obtain ⟨c', hc', hzero, hdeclared⟩ :=
      CompositeValidator.new_eq_ok (Exec.mapError_eq_ok.mp hnew)
    obtain rfl : c = c' := by simpa [hc] using hc'
    refine List.forall_mem_cons.mpr ⟨⟨⟨c, hc, rfl⟩, ?_, hzero, hdeclared, .inl rfl⟩, hstack⟩
    exact fun m hm => absurd hm List.not_mem_nil
  | false =>
    have hlayout : ∀ layout, d.layout = .composite layout → False := by
      intro layout hlayout
      rw [hlayout] at hvirtual
      cases hvirtual
    rw [readNode_of_tensor hlayout] at h
    obtain ⟨_, hempty, h⟩ := Exec.bind_eq_ok.mp h
    obtain ⟨⟨t, a₁⟩, ht, h⟩ := Exec.bind_eq_ok.mp h
    obtain ⟨handed, hhanded, h⟩ := Exec.bind_eq_ok.mp h
    cases h
    refine handOver_counted hstack ?_ ?_ hhanded
    · rw [FileItem.unnamed, StreamItem.Counted]
      exact hleaf _ _ _ _ _ _ hvirtual ht
    · rw [Exec.reject_eq_ok, List.isEmpty_iff] at hempty
      exact hempty

/-- What a walk delivers is a counted tree. -/
theorem readWalk_counted {a' : A} {c : FileComposite} (hleaf : HasLeaves A file alignment leaf)
    (hstack : ∀ top ∈ stack, top.unnamed.Counted leaf)
    (h : readWalk file alignment depth index names stack a = .ok (c, a')) :
    c.unnamed.Counted leaf := by
  induction names generalizing stack a with
  | nil =>
    cases stack with
    | nil => cases h
    | cons top rest => cases h
  | cons name names ih =>
    rw [readWalk] at h
    obtain ⟨e, -, h⟩ := Exec.bind_eq_ok.mp h
    obtain ⟨d, -, h⟩ := Exec.bind_eq_ok.mp h
    obtain ⟨⟨node, a₁⟩, hnode, h⟩ := Exec.bind_eq_ok.mp h
    have hcounted := readNode_counted hleaf hstack hnode
    cases node with
    | inl stack' => exact ih hcounted h
    | inr composite =>
      cases h
      exact hcounted

end Walk

/-! ### A written composite -/

namespace Sealed
variable {A : Type} [DestinationAlloc A] {crc32c : Bytes → UInt32} {options : FileWriterOptions}
  {kv : List (String × KvValue)} {file : Bytes} {us : List Stowed} {index : List IndexEntry}
  {t : Trailer} {u : Stowed}

theorem toNat_descriptorOffset (h : Sealed crc32c options kv file us index t) (hu : u ∈ us) :
    u.entry.descriptorOffset.toNat = u.placement.offset := by
  have hsize := h.size
  have himage := h.images u hu
  have hpos := List.length_pos_iff.mpr (encode_ne_nil (h.accepted u hu).encoded)
  have hlen := himage.length_le
  rw [List.length_drop, Placement.image] at hlen
  simp only [List.length_append] at hlen
  exact UInt64.toNat_ofNat_of_lt' (by omega)

/-- By their offsets, the entries stand in the order of the tensors, whatever the index has. -/
theorem orderedEntries (h : Sealed crc32c options kv file us index t) :
    orderedEntries index = us.map Stowed.entry := by
  apply orderedEntries_eq h.order.perm.symm
  rw [List.pairwise_map]
  apply h.increasing.imp_of_mem
  intro u v hu hv hlt
  rw [UInt64.lt_iff_toNat_lt, h.toNat_descriptorOffset hu, h.toNat_descriptorOffset hv]
  exact hlt

/-- A reader finds each tensor under its name. -/
theorem holds (h : Sealed crc32c options kv file us index t) (hvalid : options.Valid) (hu : u ∈ us)
    (hroundTrips : RoundTrips u.descriptor) (hgrants : GrantsAll A u.descriptor) :
    Holds A file options.dataBufferAlignment.toUInt64 index u.tensor u.entry := by
  obtain ⟨hfind, hentry⟩ := h.entryAt hu
  refine ⟨hfind, hentry.readDescriptor h.size hroundTrips, ?_⟩
  exact hentry.readTensor h.size hvalid.alignment_ne_zero (h.accepted u hu).sizes hgrants

/-- From the head of a group on, a walk goes through the tensors as they were written. -/
theorem namesFrom (h : Sealed crc32c options kv file us index t) {before after : List FileTensor}
    {first : FileTensor} (htensors : us.map Stowed.tensor = before ++ first :: after) :
    namesFrom index first.name = (first :: after).map FileTensor.name := by
  have hget : (us.map Stowed.tensor)[before.length]? = some first := by
    rw [htensors, List.getElem?_append_right le_rfl, Nat.sub_self, List.getElem?_cons_zero]
  rw [List.getElem?_map, Option.map_eq_some_iff] at hget
  obtain ⟨u, hu, rfl⟩ := hget
  have hentry : (File.orderedEntries index)[before.length]? = some u.entry := by
    rw [h.orderedEntries, List.getElem?_map, hu]
    rfl
  have hnodup : (index.map IndexEntry.name).Nodup := by
    rw [(h.order.perm.map IndexEntry.name).nodup_iff, List.map_map]
    exact h.distinct
  have hnames : ((us.map Stowed.entry).drop before.length).map IndexEntry.name =
      ((us.map Stowed.tensor).drop before.length).map FileTensor.name := by
    simp only [List.map_drop, List.map_map]
    rfl
  show File.namesFrom index u.entry.name = _
  rw [namesFrom_eq hnodup hentry, h.orderedEntries, hnames, htensors, List.drop_left]

end Sealed

section Roundtrip
variable {A : Type} [DestinationAlloc A] {options : FileWriterOptions} {core : FileWriterCore}
  {before after order : List FileTensor} {kv : List (String × KvValue)} {depth : ℕ} {name : String}
  {head : TensorDescriptor} {members : List FileCompositeNode}

/-- The tensors and the metadata become a file that opens, whatever the sink accepts and the reads
return; and from then on, whatever was read before, a walk from the head delivers the composite. -/
def WalksBack (A : Type) [DestinationAlloc A] (depth : ℕ) (core : FileWriterCore)
    (ts : List FileTensor) (kv : List (String × KvValue)) (c : FileComposite) : Prop :=
  ∀ (crc32c : Bytes → UInt32) (accept chunk : ℕ → ℕ) (a : A),
    ∃ w ∈ StateTransition.eval (FileWriteDriver.round crc32c accept)
        ⟨core, none, .header :: (ts.map FileTensor.submission ++ [.finish kv]), [], 0⟩,
      w.flight = none ∧ w.todo = [] ∧
      ∃ opened, FileReaderCore.drive crc32c w.sent chunk 0
          ((FileReaderCore.withDestinations (UInt64.ofNat w.sent.length) a).withMaxCompositeDepth
            depth) = .ok (.ready, opened) ∧
        ∀ (actions : List ReaderAction) (used : FileReaderCore A),
          FileReaderCore.run crc32c opened actions = some used → ∃ begun,
            used.begin .walk c.name = (.ok (), begun) ∧ ∀ chunk calls,
              (FileReaderCore.drive crc32c w.sent chunk calls begun).map FileReaderCore.delivery =
                .ok (some (.composite c))

open FileReaderCore

/-- The tree of a composite as the reader has it. -/
theorem unnamed_composite (name : String) (head : TensorDescriptor)
    (members : List FileCompositeNode) :
    (FileComposite.mk name head (members.map FileCompositeNode.toItem)).unnamed =
      (FileCompositeNode.composite name head members).unnamed.toItem := by
  rw [← FileCompositeNode.toItem_unnamed, FileCompositeNode.toItem, FileItem.unnamed]
  rfl

theorem counted_of_walksBack [Inhabited A] (hA : LawfulAlloc A) {ts : List FileTensor}
    (h : WalksBack A depth core ts kv ⟨name, head, members.map FileCompositeNode.toItem⟩) :
    (FileCompositeNode.composite name head members).unnamed.Counted := by
  obtain ⟨w, -, -, -, opened, hopened, hwalks⟩ := h (fun _ => 0) (fun _ => 0) (fun _ => 0) default
  obtain ⟨begun, hbegun, hdelivers⟩ := hwalks [] opened rfl
  obtain ⟨view, -, hwith⟩ := openWith_of_drive hopened
  rcases hfind : find opened.index name with _ | e
  · rw [begin_of_find_none hwith.1 hfind] at hbegun
    cases hbegun
  rw [begin_of_find hwith.1 hfind] at hbegun
  cases hbegun
  have hdelivery := hdelivers (fun _ => 0) 0
  rw [delivery_eq hA hfind, readJob] at hdelivery
  rcases hwalk : readWalk w.sent opened.dataBufferAlignment opened.maxCompositeDepth opened.index
      (namesFrom opened.index e.name) [] opened.destinations with f | ⟨c, a'⟩
  · rw [hwalk] at hdelivery
    cases hdelivery
  · rw [hwalk] at hdelivery
    obtain rfl : c = ⟨name, head, members.map FileCompositeNode.toItem⟩ := by
      cases hdelivery
      rfl
    have hcounted := readWalk_counted hasLeaves_isLeaf (fun _ h => absurd h List.not_mem_nil) hwalk
    rw [unnamed_composite] at hcounted
    exact counted_of_toItem hcounted

/-- The round trip of a composite that was accepted, anywhere among other tensors: it comes back
exactly if its counts tell where it ends. -/
theorem walksBack_iff_counted [Inhabited A] (hA : LawfulAlloc A)
    (hcore : FileWriterCore.withOptions options = .ok core)
    (hflatten : flattenComposite name head members = .ok order)
    (h : Writable options (before ++ order ++ after) kv)
    (hroundTrips : ∀ t ∈ order, RoundTrips t.descriptor)
    (hgrants : ∀ t ∈ order, GrantsAll A t.descriptor)
    (hdepth : (FileCompositeNode.composite name head members).unnamed.depth ≤ depth) :
    WalksBack A depth core (before ++ order ++ after) kv
        ⟨name, head, members.map FileCompositeNode.toItem⟩ ↔
      (FileCompositeNode.composite name head members).unnamed.Counted := by
  constructor
  · exact counted_of_walksBack hA
  · intro hcounted crc32c accept chunk a
    obtain ⟨w, hw, hflight, htodo, us, index, t, opened, htensors, hsealed, hopened, hwith⟩ :=
      written_opens hcore h crc32c accept chunk a depth
    refine ⟨w, hw, hflight, htodo, opened, hopened, ?_⟩
    intro actions used hused
    obtain ⟨hopen, hsettings⟩ := run_stays hwith hused
    simp only [settings, Prod.mk.injEq] at hsettings
    obtain ⟨hindex, -, halignment, hmax⟩ := hsettings
    have hvalid := valid_of_withOptions hcore
    obtain ⟨hlevels, horder⟩ := flattenComposite_eq_ok.mp hflatten
    have hholds : ∀ t ∈ order, ∃ e, Holds A w.sent options.dataBufferAlignment.toUInt64 index t e := by
      intro t ht
      have hmem : t ∈ us.map Stowed.tensor := by
        rw [htensors]
        exact List.mem_append_left _ (List.mem_append_right _ ht)
      obtain ⟨u, hu, rfl⟩ := List.mem_map.mp hmem
      exact ⟨u.entry, hsealed.holds hvalid hu (hroundTrips _ ht) (hgrants _ ht)⟩
    have hsplit : us.map Stowed.tensor = before ++ ⟨name, head, []⟩ ::
        (members.flatMap FileCompositeNode.tensors ++ after) := by
      rw [htensors, horder, FileCompositeNode.tensors, List.append_assoc]
      rfl
    obtain ⟨e, he⟩ := hholds ⟨name, head, []⟩ (by
      rw [horder, FileCompositeNode.tensors]
      exact List.mem_cons_self)
    have hfind : find used.index name = some e := by
      rw [hindex]
      exact he.found
    have hname : e.name = name := (name_of_find hfind).1
    have hnames : namesFrom index e.name =
        (FileCompositeNode.composite name head members).tensors.map FileTensor.name ++
          after.map FileTensor.name := by
      rw [hname]
      have hfrom := hsealed.namesFrom hsplit
      rw [hfrom, FileCompositeNode.tensors, ← List.map_append]
      rfl
    refine ⟨_, begin_of_find hopen hfind, ?_⟩
    intro chunk calls
    have hwalks : Walks A w.sent options.dataBufferAlignment.toUInt64 depth index
        (.composite name head members) := walks_of_counted hcounted hlevels (by rwa [← horder])
    obtain ⟨a', hwalk⟩ := hwalks [] (after.map FileTensor.name) used.destinations
      (by rw [FileCompositeNode.toItem]; exact trivial) ((Nat.zero_add _).symm ▸ hdepth)
    rw [delivery_eq hA hfind, readJob, hindex, halignment, hmax, hnames, hwalk,
      FileCompositeNode.toItem]
    rfl

end Roundtrip

/-- A group of one behind another tensor, in a file with a sorted index. -/
theorem walksBack_iff_counted_worked :
    WalksBack SystemDestinations 64 (FileWriterCore.build ⟨4096, true⟩) workedTensors workedKv
        ⟨"c", workedGroup 1, [.tensor ⟨"a", workedExample, [List.replicate 192 9]⟩]⟩ ↔
      (FileCompositeNode.composite "c" (workedGroup 1)
        [.tensor "a" workedExample [List.replicate 192 9]]).unnamed.Counted := by
  have hflatten : flattenComposite "c" (workedGroup 1)
      [.tensor "a" workedExample [List.replicate 192 9]] = .ok (workedTensors.drop 1) := by
    rw [flattenComposite_eq_ok, FileCompositeNode.LevelsValid]
    refine ⟨⟨by decide +kernel, fun m hm => ?_⟩, by simp [FileCompositeNode.tensors, workedTensors]⟩
    rw [List.mem_singleton] at hm
    subst hm
    rw [FileCompositeNode.LevelsValid]
    trivial
  have hcore : FileWriterCore.withOptions ⟨4096, true⟩ =
      .ok (FileWriterCore.build ⟨4096, true⟩) := by decide +kernel
  have hwhole : workedTensors.take 1 ++ workedTensors.drop 1 ++ [] = workedTensors := by
    rw [List.append_nil, List.take_append_drop]
  have hback : WalksBack SystemDestinations 64 (FileWriterCore.build ⟨4096, true⟩)
      (workedTensors.take 1 ++ workedTensors.drop 1 ++ []) workedKv _ ↔ _ :=
    walksBack_iff_counted lawfulAlloc_systemDestinations hcore hflatten
      (hwhole.symm ▸ writable_worked) (fun t ht => roundTrips_worked t (List.mem_of_mem_drop ht))
      (grantsAll_systemDestinations (by decide +kernel))
      (by simp [FileCompositeNode.unnamed, CompositeNode.depth])
  rw [hwhole, List.map_singleton, FileCompositeNode.toItem] at hback
  exact hback

/-- A group without members before a tensor is accepted, but the tensor is taken for a member. -/
theorem unfilledHead_not_walksBack :
    ∃ order, flattenComposite "g" (workedGroup 0) [] = .ok order ∧
      Writable ⟨4096, false⟩ (order ++ [⟨"a", workedExample, [List.replicate 192 9]⟩]) [] ∧
      (∀ t ∈ order, RoundTrips t.descriptor ∧ GrantsAll SystemDestinations t.descriptor) ∧
      (FileCompositeNode.composite "g" (workedGroup 0) []).unnamed.depth ≤ 64 ∧
      ¬ WalksBack SystemDestinations 64 (FileWriterCore.build ⟨4096, false⟩)
        (order ++ [⟨"a", workedExample, [List.replicate 192 9]⟩]) [] ⟨"g", workedGroup 0, []⟩ := by
  have hround : encode (workedGroup 0) = .ok ((encode (workedGroup 0)).toOption.getD []) ∧
      lengthField ((encode (workedGroup 0)).toOption.getD []) =
        ((encode (workedGroup 0)).toOption.getD []).length ∧
      decode ((encode (workedGroup 0)).toOption.getD []) = .ok (workedGroup 0) := by
    decide +kernel
  refine ⟨[⟨"g", workedGroup 0, []⟩], ?_, ?_, ?_, ?_, ?_⟩
  · rw [flattenComposite_eq_ok, FileCompositeNode.LevelsValid]
    refine ⟨⟨by decide +kernel, fun m hm => absurd hm List.not_mem_nil⟩, ?_⟩
    simp [FileCompositeNode.tensors]
  · constructor
    · unfold Named
      decide
    · decide
    · intro t ht
      rcases List.mem_cons.mp ht with rfl | ht
      · exact ⟨_, hround.1⟩
      · obtain rfl := List.mem_singleton.mp ht
        exact ⟨(encode workedExample).toOption.getD [], by decide +kernel⟩
    · decide +kernel
    · decide +kernel
    · exact ⟨(encodeKvSection []).toOption.getD [], by decide +kernel, by decide +kernel⟩
    · decide +kernel
    · decide +kernel
  · rw [List.forall_mem_singleton]
    refine ⟨⟨_, hround⟩, ?_⟩
    intro i h hh
    cases List.mem_of_getElem? hh
  · simp [FileCompositeNode.unnamed, CompositeNode.depth]
  · intro h
    have hcounted : (FileCompositeNode.composite "g" (workedGroup 0) []).unnamed.Counted :=
      counted_of_walksBack lawfulAlloc_systemDestinations h
    rw [FileCompositeNode.unnamed, CompositeNode.Counted] at hcounted
    exact hcounted.1 rfl

end Hurray.File
