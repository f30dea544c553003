import Hurray.Stream.Assembler
import Hurray.Stream.Completion
import Hurray.Stream.StreamRoundtrip
import Mathlib.Data.List.MinMax

/-!
A composite that is written, read and assembled. On the wire the tree is only
implied by the member counts, so it comes back exactly when every count is the
true number of members and no leaf passes for a head.
-/
namespace Hurray.Stream
open Hurray.Base Hurray.Core Hurray.Descriptor StateTransition

/-! ### Trees whose counts say where they end -/

namespace CompositeNode

/-- A property of every tree, from the leaves to the heads. -/
theorem induct {P : CompositeNode → Prop} (tensor : ∀ d buffers, P (.tensor d buffers))
    (composite : ∀ head members, (∀ m ∈ members, P m) → P (.composite head members)) :
    ∀ node, P node
  | .tensor d buffers => tensor d buffers
  | .composite head members => composite head members fun m _ => induct tensor composite m

/-- The number of heads on the longest way down. -/
def depth : CompositeNode → ℕ
  | .tensor _ _ => 0
  | .composite _ members => (members.map depth).foldr max 0 + 1

/-- Every head has members, as many as it says, and no tensor has the layout of a head. -/
def Counted : CompositeNode → Prop
  | .tensor d _ => d.layout.isVirtual = false
  | .composite head members => members ≠ [] ∧
      (∀ c, head.layout = .composite c → members.length = c.memberCount.toNat) ∧
      ∀ m ∈ members, Counted m

end CompositeNode

/-- The tensor is not a head. -/
def StreamTensor.IsLeaf (t : StreamTensor) : Prop := t.descriptor.layout.isVirtual = false

/-- The same of an item that was assembled from tensors of a kind. -/
def StreamItem.Counted (leaf : StreamTensor → Prop) : StreamItem → Prop
  | .tensor t => leaf t
  | .composite head members => members ≠ [] ∧
      (∃ c, head.layout = .composite c ∧ members.length = c.memberCount.toNat) ∧
      ∀ m ∈ members, Counted leaf m

theorem counted_of_toItem {node : CompositeNode} (h : node.toItem.Counted StreamTensor.IsLeaf) :
    node.Counted := by
  induction node using CompositeNode.induct with
  | tensor d buffers =>
    simpa [CompositeNode.toItem, StreamItem.Counted, CompositeNode.Counted,
      StreamTensor.IsLeaf] using h
  | composite head members ih =>
    rw [CompositeNode.toItem, StreamItem.Counted] at h
    rw [CompositeNode.Counted]
    obtain ⟨hne, ⟨c, hc, hcount⟩, hmembers⟩ := h
    refine ⟨by simpa using hne, ?_, ?_⟩
    · intro c' hc'
      obtain rfl : c = c' := by simpa [hc] using hc'
      simpa using hcount
    · intro m hm
      exact ih m hm (hmembers _ (List.mem_map_of_mem hm))

theorem depth_lt (head : TensorDescriptor) {members : List CompositeNode} {m : CompositeNode}
    (hm : m ∈ members) : m.depth < (CompositeNode.composite head members).depth := by
  rw [CompositeNode.depth]
  exact Nat.lt_succ_of_le (List.le_max_of_le' 0 (List.mem_map_of_mem hm) le_rfl)

theorem descriptor_toItem (node : CompositeNode) : node.toItem.descriptor = node.descriptor := by
  cases node <;> simp [CompositeNode.toItem, StreamItem.descriptor, CompositeNode.descriptor]

/-! ### What an accepted tree has passed -/

section Validation
variable {core : StreamWriterCore} {head : TensorDescriptor} {members : List CompositeNode} {u : Unit}

theorem validateGroup_eq_ok (h : StreamWriterCore.validateGroup head members = .ok u) :
    ∃ c v w, head.layout = .composite c ∧ CompositeValidator.new head = .ok v ∧
      members.foldlM (fun v m => v.pushMember m.descriptor) v = .ok w ∧ w.finish = .ok () := by
  unfold StreamWriterCore.validateGroup at h
  obtain ⟨v, hnew, h⟩ := Exec.bind_eq_ok.mp (Exec.mapError_eq_ok.mp h)
  obtain ⟨w, hfold, hfinish⟩ := Exec.bind_eq_ok.mp h
  obtain ⟨c, hc, -⟩ := CompositeValidator.new_eq_ok hnew
  exact ⟨c, v, w, hc, hnew, hfold, hfinish⟩

theorem validateMembers_eq_ok (h : core.validateMembers members = .ok u) :
    ∀ m ∈ members, core.validateNode m = .ok () := by
  induction members with
  | nil => exact fun _ hm => absurd hm List.not_mem_nil
  | cons m ms ih =>
    rw [StreamWriterCore.validateMembers] at h
    obtain ⟨_, hm, hms⟩ := Exec.bind_eq_ok.mp h
    exact List.forall_mem_cons.mpr ⟨hm, ih hms⟩

end Validation

/-! ### The items of an assembler -/

/-- A group in the making: its members are counted trees, and it has room for one more. -/
structure OpenGroup.Counted (leaf : StreamTensor → Prop) (top : OpenGroup) : Prop where
  head : ∃ c, top.head.layout = .composite c ∧ c.memberCount = top.memberCount
  members : ∀ m ∈ top.members, m.Counted leaf
  seen : top.validator.membersSeen = top.members.length
  declared : top.validator.declaredMemberCount = top.memberCount
  room : top.members = [] ∨ top.members.length < top.memberCount.toNat

namespace AssemblyRun
variable {s : AssemblyRun} {stack : List OpenGroup} {item : StreamItem} {t : StreamTensor}
  {leaf : StreamTensor → Prop}

open CompositeAssembler

theorem counted_deliver (hstack : ∀ top ∈ stack, top.Counted leaf) (hitem : item.Counted leaf) :
    (∀ top ∈ (deliver stack item).2, top.Counted leaf) ∧
      ∀ i, (deliver stack item).1 = .ok (some i) → i.Counted leaf := by
  induction stack generalizing item with
  | nil =>
    refine ⟨fun _ h => absurd h List.not_mem_nil, ?_⟩
    intro i hi
    cases hi
    exact hitem
  | cons top rest ih =>
    have hrest := fun g hg => hstack g (List.mem_cons_of_mem top hg)
    obtain ⟨⟨c, hc, hcount⟩, hmembers, hseen, hdeclared, hroom⟩ := hstack top List.mem_cons_self
    have hsnoc : ∀ m ∈ top.members ++ [item], m.Counted leaf := by
      intro m hm
      rcases List.mem_append.mp hm with hm | hm
      · exact hmembers m hm
      · obtain rfl := List.mem_singleton.mp hm
        exact hitem
    have hlen : (top.members ++ [item]).length = top.members.length + 1 := by simp
    -- the count of the members does not wrap, as the group has room for the new one
    have hnat : (UInt32.ofNat (top.members ++ [item]).length).toNat = top.members.length + 1 := by
      rw [hlen]
      apply UInt32.toNat_ofNat_of_lt'
      have hmax := top.memberCount.toNat_lt
      rcases hroom with hnil | hlt
      · rw [hnil]
        decide
      · rw [UInt32.size]
        omega
    unfold deliver
    split
    · exact ⟨hrest, fun i hi => by cases hi⟩
    · next v hv =>
      obtain ⟨hseen', hdeclared'⟩ := CompositeValidator.pushMember_eq_ok (Exec.mapError_eq_ok.mp hv)
      dsimp only
      split
      · next hlt =>
        rw [UInt32.lt_iff_toNat_lt, hnat] at hlt
        refine ⟨?_, fun i hi => by cases hi⟩
        intro g hg
        rcases List.mem_cons.mp hg with rfl | hg
        · exact ⟨⟨c, hc, hcount⟩, hsnoc, by rw [hseen', hseen, hlen], hdeclared'.trans hdeclared,
            .inr (by rw [hlen]; exact hlt)⟩
        · exact hrest g hg
      · split
        · exact ⟨hrest, fun i hi => by cases hi⟩
        · next hfinish =>
          have hfull := CompositeValidator.finish_eq_ok (Exec.mapError_eq_ok.mp hfinish)
          rw [hseen', hseen, hdeclared', hdeclared, ← hlen] at hfull
          refine ih hrest ?_
          rw [StreamItem.Counted]
          exact ⟨by simp, ⟨c, hc, by rw [hcount, ← hfull, hnat, hlen]⟩, hsnoc⟩

/-- A tensor opens a group, or is handed to the one that is open. -/
theorem counted_push {a : CompositeAssembler} (hstack : ∀ top ∈ a.stack, top.Counted leaf)
    (hleaf : t.IsLeaf → leaf t) :
    (∀ top ∈ (a.push t).2.stack, top.Counted leaf) ∧
      ∀ i, (a.push t).1 = .ok (some i) → i.Counted leaf := by
  cases hv : t.descriptor.layout.isVirtual with
  | true =>
    obtain ⟨c, hc⟩ := layout_of_isVirtual hv
    rcases push_of_virtual (a := a) hc with ⟨e, hpush⟩ | ⟨v, hnew, hpush⟩
    · rw [hpush]
      exact ⟨hstack, fun i hi => by cases hi⟩
    · rw [hpush]
      refine ⟨?_, fun i hi => by cases hi⟩
      intro top htop
      rcases List.mem_cons.mp htop with rfl | htop
      · obtain ⟨c', hc', hzero, hdeclared⟩ := CompositeValidator.new_eq_ok hnew
        obtain rfl : c = c' := by simpa [hc] using hc'
        exact ⟨⟨c, hc, rfl⟩, fun _ hm => absurd hm List.not_mem_nil, hzero, hdeclared, .inl rfl⟩
      · exact hstack top htop
  | false =>
    rw [push_of_not_virtual hv]
    apply counted_deliver hstack
    rw [StreamItem.Counted]
    exact hleaf hv

/-- The groups and the items of a run are counted trees. -/
structure Counted (s : AssemblyRun) : Prop where
  stack : ∀ top ∈ s.assembler.stack, top.Counted StreamTensor.IsLeaf
  returned : ∀ i ∈ s.returned, i.Counted StreamTensor.IsLeaf

theorem counted_feed (h : s.Counted) (t : StreamTensor) : (s.feed t).Counted := by
  obtain ⟨hstack, hsome⟩ := counted_push (t := t) h.stack id
  unfold feed
  rcases hpush : s.assembler.push t with ⟨e | _ | i, a⟩
  · rw [hpush] at hstack
    exact ⟨hstack, h.returned⟩
  · rw [hpush] at hstack
    exact ⟨hstack, h.returned⟩
  · rw [hpush] at hstack hsome
    refine ⟨hstack, ?_⟩
    intro j hj
    rcases List.mem_append.mp hj with hj | hj
    · exact h.returned j hj
    · obtain rfl := List.mem_singleton.mp hj
      exact hsome j rfl

theorem counted_run (maxDepth : ℕ) (ts : List StreamTensor) : (run maxDepth ts).Counted := by
  refine List.foldlRecOn ts feed ⟨?_, ?_⟩ fun s hs t _ => counted_feed hs t
  · exact fun _ h => absurd h List.not_mem_nil
  · exact fun _ h => absurd h List.not_mem_nil

/-! ### Feeding a tree -/

/-- A member that leaves its group open. -/
theorem deliver_open {top : OpenGroup} {v : CompositeValidator}
    (hv : top.validator.pushMember item.descriptor = .ok v)
    (hlt : UInt32.ofNat (top.members.length + 1) < top.memberCount) :
    deliver (top :: stack) item =
      (.ok none, { top with members := top.members ++ [item], validator := v } :: stack) := by
  unfold deliver
  rw [Exec.mapError_eq_ok.mpr hv]
  dsimp only
  rw [List.length_append, List.length_singleton, if_pos hlt]

/-- A member that closes its group. -/
theorem deliver_close {top : OpenGroup} {v : CompositeValidator}
    (hv : top.validator.pushMember item.descriptor = .ok v)
    (hlt : ¬ UInt32.ofNat (top.members.length + 1) < top.memberCount) (hfinish : v.finish = .ok ()) :
    deliver (top :: stack) item = deliver stack (.composite top.head (top.members ++ [item])) := by
  rw [deliver, Exec.mapError_eq_ok.mpr hv]
  dsimp only
  rw [List.length_append, List.length_singleton, if_neg hlt, Exec.mapError_eq_ok.mpr hfinish]

/-- The state of a run after more tensors were accepted. -/
def advance (s : AssemblyRun) (stack : List OpenGroup) (ts : List StreamTensor)
    (r : Option StreamItem) : AssemblyRun :=
  ⟨{ s.assembler with stack }, s.accepted ++ ts, s.returned ++ r.toList⟩

/-- The tensors of a node, fed one by one, do what the delivery of its item does. -/
def Feeds (node : CompositeNode) : Prop :=
  ∀ (s : AssemblyRun) (r : Option StreamItem) (stack : List OpenGroup),
    s.assembler.stack.length + node.depth ≤ s.assembler.maxDepth →
    deliver s.assembler.stack node.toItem = (.ok r, stack) →
    node.tensors.foldl feed s = s.advance stack node.tensors r

theorem feed_head {c : CompositeLayout} {v : CompositeValidator}
    (hc : t.descriptor.layout = .composite c) (hnew : CompositeValidator.new t.descriptor = .ok v)
    (hdepth : s.assembler.stack.length < s.assembler.maxDepth) :
    s.feed t = s.advance (⟨t.descriptor, c.memberCount, [], v⟩ :: s.assembler.stack) [t] none := by
  unfold feed push
  rw [hc]
  dsimp only
  rw [if_neg (Nat.not_le.mpr hdepth), Exec.mapError_eq_ok.mpr hnew]
  simp [advance]

/-- The members that a group still needs close it. -/
theorem feed_members {ms : List CompositeNode} (hfeeds : ∀ m ∈ ms, Feeds m) (hne : ms ≠ [])
    {s : AssemblyRun} {top : OpenGroup} {rest stack : List OpenGroup} {r : Option StreamItem}
    {v : CompositeValidator} (hstack : s.assembler.stack = top :: rest)
    (hdepth : ∀ m ∈ ms, s.assembler.stack.length + m.depth ≤ s.assembler.maxDepth)
    (hfold : ms.foldlM (fun v m => v.pushMember m.descriptor) top.validator = .ok v)
    (hfinish : v.finish = .ok ())
    (hcount : top.members.length + ms.length = top.memberCount.toNat)
    (hdeliver : deliver rest (.composite top.head (top.members ++ ms.map CompositeNode.toItem)) =
      (.ok r, stack)) :
    (ms.flatMap CompositeNode.tensors).foldl feed s =
      s.advance stack (ms.flatMap CompositeNode.tensors) r := by
  induction ms generalizing s top with
  | nil => exact absurd rfl hne
  | cons m ms ih =>
    rw [List.foldlM_cons] at hfold
    obtain ⟨v₁, hpush, hfold⟩ := Exec.bind_eq_ok.mp hfold
    rw [← descriptor_toItem] at hpush
    have hnat : (UInt32.ofNat (top.members.length + 1)).toNat = top.members.length + 1 := by
      apply UInt32.toNat_ofNat_of_lt'
      have hmax := top.memberCount.toNat_lt
      rw [List.length_cons] at hcount
      rw [UInt32.size]
      omega
    rw [List.flatMap_cons, List.foldl_append]
    by_cases hlast : ms = []
    · subst hlast
      cases hfold
      have hclosed : deliver s.assembler.stack m.toItem = (.ok r, stack) := by
        rw [hstack, deliver_close hpush ?_ hfinish]
        · exact hdeliver
        · rw [UInt32.lt_iff_toNat_lt, hnat, ← hcount]
          exact Nat.lt_irrefl _
      rw [hfeeds m List.mem_cons_self s r stack (hdepth m List.mem_cons_self) hclosed]
      simp
    · have hpos := List.length_pos_iff.mpr hlast
      rw [List.length_cons] at hcount
      have hopen : deliver s.assembler.stack m.toItem =
          (.ok none, { top with members := top.members ++ [m.toItem], validator := v₁ } :: rest) := by
        rw [hstack, deliver_open hpush]
        rw [UInt32.lt_iff_toNat_lt, hnat]
        omega
      rw [hfeeds m List.mem_cons_self s none _ (hdepth m List.mem_cons_self) hopen]
      rw [ih (fun k hk => hfeeds k (List.mem_cons_of_mem m hk)) hlast rfl ?_ hfold ?_ ?_]
      · simp [advance]
      · intro k hk
        have hk' := hdepth k (List.mem_cons_of_mem m hk)
        rw [hstack] at hk'
        exact hk'
      · rw [List.length_append, List.length_singleton, ← hcount]
        omega
      · rw [List.append_assoc]
        exact hdeliver

/-- A tree whose counts say where it ends is put back together. -/
theorem feeds_of_counted {core : StreamWriterCore} {node : CompositeNode} (h : node.Counted)
    (hvalid : core.validateNode node = .ok ()) : Feeds node := by
  induction node using CompositeNode.induct with
  | tensor d buffers =>
    intro s r stack _ hdeliver
    rw [CompositeNode.Counted] at h
    rw [CompositeNode.toItem] at hdeliver
    rw [CompositeNode.tensors]
    exact feed_of_deliver h hdeliver
  | composite head members ih =>
    intro s r stack hdepth hdeliver
    rw [CompositeNode.Counted] at h
    obtain ⟨hne, hcount, hmembers⟩ := h
    rw [StreamWriterCore.validateNode] at hvalid
    obtain ⟨_, hgroup, hvalid⟩ := Exec.bind_eq_ok.mp hvalid
    obtain ⟨c, v, w, hc, hnew, hfold, hfinish⟩ := validateGroup_eq_ok hgroup
    have hmember := validateMembers_eq_ok hvalid
    have hlt : s.assembler.stack.length < s.assembler.maxDepth := by
      rw [CompositeNode.depth] at hdepth
      omega
    rw [CompositeNode.toItem] at hdeliver
    rw [CompositeNode.tensors, List.foldl_cons, feed_head (t := ⟨head, []⟩) hc hnew hlt,
      feed_members (fun m hm => ih m hm (hmembers m hm) (hmember m hm)) hne rfl ?_ hfold hfinish ?_
        hdeliver]
    · simp [advance]
    · intro m hm
      have hm' := depth_lt head hm
      simp only [advance, List.length_cons]
      omega
    · rw [List.length_nil, Nat.zero_add]
      exact hcount c hc

end AssemblyRun

/-! ### The round trip -/

/-- The composite is written, its bytes are read, and the tensors that were read are assembled to
that composite and nothing else. -/
def ReadsBack (A : Type) [DestinationAlloc A] (options : StreamReaderOptions) (maxDepth : ℕ)
    (core : StreamWriterCore) (node : CompositeNode) : Prop :=
  ∀ (accept chunk : ℕ → ℕ) (a : A),
    ∃ w ∈ eval (WriteDriver.round accept) ⟨core, none, [node], [], 0⟩, w.flight = none ∧ w.todo = [] ∧
      ∃ ts, ReadDriver.Ends chunk (.start (.withDestinations options a) w.sent) ts (.ok ()) ∧
        (AssemblyRun.run maxDepth ts).accepted = ts ∧
        (AssemblyRun.run maxDepth ts).returned = [node.toItem] ∧
        (AssemblyRun.run maxDepth ts).assembler.finish = .ok ()

theorem counted_of_readsBack {A : Type} [Inhabited A] [DestinationAlloc A]
    {options : StreamReaderOptions} {maxDepth : ℕ} {core : StreamWriterCore} {node : CompositeNode}
    (h : ReadsBack A options maxDepth core node) : node.Counted := by
  obtain ⟨w, -, -, -, ts, -, -, hreturned, -⟩ := h (fun _ => 0) (fun _ => 0) default
  have hcounted := (AssemblyRun.counted_run maxDepth ts).returned
  rw [hreturned] at hcounted
  exact counted_of_toItem (hcounted _ List.mem_cons_self)

/-- An accepted composite within the limits of the reader is read back exactly when its counts say
where it ends. -/
theorem readsBack_iff_counted {A : Type} [Inhabited A] [DestinationAlloc A]
    {options : StreamReaderOptions} {maxDepth : ℕ} {core : StreamWriterCore}
    {head : TensorDescriptor} {members : List CompositeNode} {op : WriteOp}
    (hsubmit : core.composite head members = .ok op)
    (hread : ∀ t ∈ (CompositeNode.composite head members).tensors, Readable A options t)
    (hdepth : (CompositeNode.composite head members).depth ≤ maxDepth) :
    ReadsBack A options maxDepth core (.composite head members) ↔
      (CompositeNode.composite head members).Counted := by
  obtain ⟨node, hnode⟩ : ∃ node, node = CompositeNode.composite head members := ⟨_, rfl⟩
  rw [← hnode] at hread hdepth ⊢
  constructor
  · exact counted_of_readsBack
  · intro hcounted accept chunk a
    have hsubmit : core.submit node = .ok op := by
      rw [hnode]
      exact hsubmit
    obtain ⟨hretired, hvalid, -⟩ := StreamWriterCore.submit_eq_ok.mp hsubmit
    obtain ⟨b, hb⟩ : ∃ b, bytesOf node.tensors = some b := by
      apply Option.isSome_iff_exists.mp
      apply bytesOf_isSome.mpr
      intro t ht
      obtain ⟨e, henc, -⟩ := (hread t ht).roundTrips
      exact (encode_eq_ok_iff.mp henc).1
    obtain ⟨calls, hreach⟩ := WriteDriver.reaches_all accept
      (d := ⟨core, none, [node], [], 0⟩) rfl hretired (by simpa using hvalid) (by simpa using hb)
    refine ⟨_, mem_eval.mpr ⟨hreach, rfl⟩, rfl, rfl, node.tensors, ends_of_tensors hread hb a, ?_⟩
    have hrun : AssemblyRun.run maxDepth node.tensors =
        (AssemblyRun.start maxDepth).advance [] node.tensors (some node.toItem) :=
      AssemblyRun.feeds_of_counted hcounted hvalid (.start maxDepth) _ _
        ((Nat.zero_add node.depth).symm ▸ hdepth) rfl
    rw [hrun]
    exact ⟨rfl, rfl, rfl⟩

theorem readable_groupTensor {memberCount : UInt32} {e : Bytes}
    (henc : encode (workedGroup memberCount) = .ok e) (hdec : decode e = .ok (workedGroup memberCount))
    (hlimit : e.length ≤ DEFAULT_MAX_DESCRIPTOR_BYTES.toNat) :
    Readable SystemDestinations .default ⟨workedGroup memberCount, []⟩ where
  roundTrips := ⟨e, henc, hdec, hlimit⟩
  sized := rfl
  within := fun h hh => absurd hh List.not_mem_nil
  synced := fun hx => absurd hx Bool.false_ne_true
  granted := by
    intro i h hh
    exact absurd (List.mem_of_getElem? hh) List.not_mem_nil

theorem tensors_workedNode : workedNode.tensors = [⟨workedGroup 1, []⟩, workedTensor] := by
  simp only [workedNode, workedTensor, CompositeNode.tensors, List.flatMap_cons, List.flatMap_nil,
    List.append_nil]

theorem readable_workedNode : ∀ t ∈ workedNode.tensors, Readable SystemDestinations .default t := by
  intro t ht
  have hmem : t = ⟨workedGroup 1, []⟩ ∨ t = workedTensor := by
    rw [tensors_workedNode] at ht
    simpa only [List.mem_cons, List.not_mem_nil, or_false] using ht
  rcases hmem with rfl | rfl
  · exact readable_groupTensor (e := (encode (workedGroup 1)).toOption.getD [])
      (by decide +kernel) (by decide +kernel) (by decide +kernel)
  · exact readable_workedTensor

/-- A group of one. -/
theorem readsBack_iff_counted_workedNode :
    ReadsBack SystemDestinations .default 64 .new workedNode ↔ workedNode.Counted := by
  obtain ⟨op, hop⟩ := submit_of_valid 1 [.tensor workedExample [List.replicate 192 7]]
    (by decide +kernel)
  exact readsBack_iff_counted hop readable_workedNode (by simp [CompositeNode.depth])

/-- A group without members is accepted, but stays open for a reader. -/
theorem emptyGroup_not_readsBack :
    ∃ op, StreamWriterCore.new.composite (workedGroup 0) [] = .ok op ∧
      (∀ t ∈ (CompositeNode.composite (workedGroup 0) []).tensors,
        Readable SystemDestinations .default t) ∧
      (CompositeNode.composite (workedGroup 0) []).depth ≤ 64 ∧
      ¬ ReadsBack SystemDestinations .default 64 .new (.composite (workedGroup 0) []) := by
  obtain ⟨op, hop⟩ := submit_of_valid 0 [] (by decide +kernel)
  refine ⟨op, hop, ?_, by simp [CompositeNode.depth], ?_⟩
  · intro t ht
    obtain rfl : t = ⟨workedGroup 0, []⟩ := by simpa [CompositeNode.tensors] using ht
    exact readable_groupTensor (e := (encode (workedGroup 0)).toOption.getD [])
      (by decide +kernel) (by decide +kernel) (by decide +kernel)
  · intro h
    have hcounted := counted_of_readsBack h
    rw [CompositeNode.Counted] at hcounted
    exact hcounted.1 rfl

end Hurray.Stream
