import Hurray.File.LengthAgreement
import Hurray.Stream.Assembler

/-!
A composite that is walked in a file and one that is assembled from a stream are the same, apart
from the names, which a stream does not have. The walk pulls the tensors that the assembler is fed,
and the stack of the one is the stack of the other.
-/
namespace Hurray.Stream.CompositeAssembler
open Hurray.Base Hurray.Core Hurray.Descriptor Hurray.Stream

/-- The first item that comes of tensors that are fed one by one, up to the end of input. -/
def assemble (a : CompositeAssembler) : List StreamTensor → Result (Option StreamItem)
  | [] => do
      let _ ← a.finish
      pure none
  | t :: ts =>
      match a.push t with
      | (.error e, _) => .error e
      | (.ok (some item), _) => .ok (some item)
      | (.ok none, a) => a.assemble ts

/-- What keeps tensors from becoming a composite. -/
def Refusal (depth : ℕ) (e : Error) : Prop :=
  e = .compositeNestingTooDeep depth ∨ (∃ reason, e = .core reason) ∨
    ∃ declared actual, e = .tornComposite declared actual

section Refusal
variable {depth : ℕ} {α : Type} {r : Exec Core.Error α} {f : Fault Error}

theorem refusal_of_mapError (hr : r.Safe) (h : Exec.mapError Error.core r = .error f) :
    ∃ e, f = .error e ∧ Refusal depth e := by
  rcases r with (e | _) | a
  · cases h
    exact ⟨_, rfl, .inr (.inl ⟨e, rfl⟩)⟩
  · exact absurd rfl hr
  · cases h

/-- The shard of a tensor that was decoded lies in its parent. -/
def Sharded (d : TensorDescriptor) : Prop := ∀ s, d.shard = some s → s.FitsShape d.shape

theorem refusal_of_deliver {stack : List OpenGroup} {item : StreamItem}
    (hitem : Sharded item.descriptor) (hstack : ∀ top ∈ stack, Sharded top.head)
    (h : (deliver stack item).1 = .error f) : ∃ e, f = .error e ∧ Refusal depth e := by
  induction stack generalizing item with
  | nil => cases h
  | cons top rest ih =>
    obtain ⟨htop, hrest⟩ := List.forall_mem_cons.mp hstack
    unfold deliver at h
    split at h
    · next hpush =>
      cases h
      exact refusal_of_mapError (CompositeValidator.pushMember_safe hitem) hpush
    · dsimp only at h
      split at h
      · cases h
      · split at h
        · next hfinish =>
          cases h
          exact refusal_of_mapError CompositeValidator.finish_safe hfinish
        · refine ih ?_ hrest h
          exact htop

/-- Every open group has its head from a tensor. -/
theorem heads_of_deliver {P : TensorDescriptor → Prop} {stack stack' : List OpenGroup}
    {item : StreamItem} {r : Option StreamItem} (hstack : ∀ top ∈ stack, P top.head)
    (h : deliver stack item = (.ok r, stack')) : ∀ top ∈ stack', P top.head := by
  induction stack generalizing item with
  | nil =>
    cases h
    exact hstack
  | cons top rest ih =>
    obtain ⟨htop, hrest⟩ := List.forall_mem_cons.mp hstack
    obtain ⟨v, -, ⟨-, -, rfl⟩ | ⟨-, -, hdeliver⟩⟩ := deliver_cons_eq_ok h
    · exact List.forall_mem_cons.mpr ⟨htop, hrest⟩
    · exact ih hrest hdeliver

theorem refusal_of_assemble {a : CompositeAssembler} {ts : List StreamTensor}
    (hts : ∀ t ∈ ts, Sharded t.descriptor) (hstack : ∀ top ∈ a.stack, Sharded top.head)
    (h : a.assemble ts = .error f) : ∃ e, f = .error e ∧ Refusal a.maxDepth e := by
  induction ts generalizing a with
  | nil =>
    rw [assemble, finish] at h
    split at h
    · cases h
    · cases h
      exact ⟨_, rfl, .inr (.inr ⟨_, _, rfl⟩)⟩
  | cons t ts ih =>
    obtain ⟨ht, hts⟩ := List.forall_mem_cons.mp hts
    rw [assemble] at h
    cases hlayout : t.descriptor.layout.isVirtual with
    | true =>
      obtain ⟨layout, hlayout⟩ := layout_of_isVirtual hlayout
      unfold push at h
      rw [hlayout] at h
      dsimp only at h
      by_cases hdeep : a.maxDepth ≤ a.stack.length
      · rw [if_pos hdeep] at h
        cases h
        exact ⟨_, rfl, .inl rfl⟩
      · rw [if_neg hdeep] at h
        split at h
        · next hpush =>
          split at hpush
          · next hnew =>
            cases hpush
            cases h
            exact refusal_of_mapError CompositeValidator.new_safe hnew
          · cases hpush
        · cases h
        · next hpush =>
          split at hpush
          · cases hpush
          · cases hpush
            apply ih (a := { a with stack := _ }) hts _ h
            exact List.forall_mem_cons.mpr ⟨ht, hstack⟩
    | false =>
      rw [push_of_not_virtual hlayout] at h
      rcases hdeliver : deliver a.stack (.tensor t) with ⟨e | item | _, stack'⟩
      · rw [hdeliver] at h
        cases h
        refine refusal_of_deliver ?_ hstack (congrArg Prod.fst hdeliver)
        exact ht
      · rw [hdeliver] at h
        apply ih (a := { a with stack := stack' }) hts _ h
        exact heads_of_deliver hstack hdeliver
      · rw [hdeliver] at h
        cases h

end Refusal
end Hurray.Stream.CompositeAssembler

namespace Hurray.File
open Hurray.Base Hurray.Core Hurray.Descriptor Hurray.Stream

/-! ### Names aside -/

/-- The item as a stream has it. -/
def FileItem.unnamed : FileItem → StreamItem
  | tensor t => .tensor ⟨t.descriptor, t.buffers⟩
  | composite _ head members => .composite head (members.map unnamed)

def FileComposite.unnamed (c : FileComposite) : StreamItem :=
  .composite c.head (c.members.map FileItem.unnamed)

def Open.unnamed (top : Open) : OpenGroup :=
  ⟨top.head, top.memberCount, top.members.map FileItem.unnamed, top.validator⟩

theorem FileItem.descriptor_unnamed (item : FileItem) :
    item.unnamed.descriptor = item.descriptor := by
  cases item <;> simp [unnamed, descriptor, StreamItem.descriptor]

/-- The composite that a driver collects, as a stream has it. -/
def compositeOf : Option Delivery → Option StreamItem
  | some (.composite c) => some c.unnamed
  | _ => none

open CompositeAssembler (deliver)

section Stack
variable {stack stack' : List Open} {item : FileItem}

theorem pushMember_unnamed (top : Open) (item : FileItem) :
    top.unnamed.validator.pushMember item.unnamed.descriptor =
      top.validator.pushMember item.descriptor := by
  rw [FileItem.descriptor_unnamed, Open.unnamed]

theorem Open.unnamed_append (top : Open) (item : FileItem) (validator : CompositeValidator) :
    (⟨top.head, top.memberCount, (top.members.map FileItem.unnamed) ++ [item.unnamed], validator⟩ :
      OpenGroup) = Open.unnamed { top with members := top.members ++ [item], validator } := by
  simp [Open.unnamed]

/-- A member that the open group refuses. -/
theorem deliver_unnamed_of_push {top : Open} {rest : List Open} {e : Fault Error}
    (hpush : Exec.mapError Error.core (top.validator.pushMember item.descriptor) = .error e) :
    deliver ((top :: rest).map Open.unnamed) item.unnamed = (.error e, rest.map Open.unnamed) := by
  rw [List.map_cons, deliver, pushMember_unnamed, hpush]

section Pushed
variable {top : Open} {rest : List Open} {validator : CompositeValidator}
  (hpush : Exec.mapError Error.core (top.validator.pushMember item.descriptor) = .ok validator)
include hpush

/-- A member that the open group takes, with members still to come. -/
theorem deliver_unnamed_of_lt
    (hlt : UInt32.ofNat (top.members ++ [item]).length < top.memberCount) :
    deliver ((top :: rest).map Open.unnamed) item.unnamed =
      (.ok none,
        ({ top with members := top.members ++ [item], validator } :: rest).map Open.unnamed) := by
  have hlt' : UInt32.ofNat (top.unnamed.members ++ [item.unnamed]).length <
      top.unnamed.memberCount := by
    simpa [Open.unnamed] using hlt
  rw [List.map_cons, deliver, pushMember_unnamed, hpush]
  dsimp only
  rw [if_pos hlt', List.map_cons, ← Open.unnamed_append]
  rfl

section Closing
variable (hnlt : ¬ UInt32.ofNat (top.members ++ [item]).length < top.memberCount)
include hnlt

/-- The last member of a group that is not complete then. -/
theorem deliver_unnamed_of_finish {e : Fault Error}
    (hfinish : Exec.mapError Error.core validator.finish = .error e) :
    deliver ((top :: rest).map Open.unnamed) item.unnamed = (.error e, rest.map Open.unnamed) := by
  have hnlt' : ¬ UInt32.ofNat (top.unnamed.members ++ [item.unnamed]).length <
      top.unnamed.memberCount := by
    simpa [Open.unnamed] using hnlt
  rw [List.map_cons, deliver, pushMember_unnamed, hpush]
  dsimp only
  rw [if_neg hnlt', hfinish]

/-- The last member completes its group, which is a member of the next one. -/
theorem deliver_unnamed_of_complete {u : Unit}
    (hfinish : Exec.mapError Error.core validator.finish = .ok u) :
    deliver ((top :: rest).map Open.unnamed) item.unnamed =
      deliver (rest.map Open.unnamed)
        (FileItem.composite top.name top.head (top.members ++ [item])).unnamed := by
  have hnlt' : ¬ UInt32.ofNat (top.unnamed.members ++ [item.unnamed]).length <
      top.unnamed.memberCount := by
    simpa [Open.unnamed] using hnlt
  rw [List.map_cons, deliver, pushMember_unnamed, hpush]
  dsimp only
  rw [if_neg hnlt', hfinish]
  simp [Open.unnamed, FileItem.unnamed]

end Closing
end Pushed

/-- A tensor is not handed to an empty stack, which has no composite to complete. -/
def Expects (stack : List Open) : FileItem → Prop
  | .tensor _ => stack ≠ []
  | .composite _ _ _ => True

/-- A delivery in a stream does what the handing over does in a file. -/
def Mirrors : Result (List Open ⊕ FileComposite) → Result (Option StreamItem) × List OpenGroup → Prop
  | .ok (.inl stack), r => stack ≠ [] ∧ r = (.ok none, stack.map Open.unnamed)
  | .ok (.inr c), r => r = (.ok (some c.unnamed), [])
  | .error e, r => r.1 = .error e

theorem handOver_mirrors (h : Expects stack item) :
    Mirrors (handOver stack item) (deliver (stack.map Open.unnamed) item.unnamed) := by
  induction stack generalizing item with
  | nil =>
    cases item with
    | tensor t => exact absurd rfl h
    | composite name head members =>
      show _ = _
      rw [FileItem.unnamed]
      rfl
  | cons top rest ih =>
    rw [handOver]
    rcases hpush : Exec.mapError Error.core (top.validator.pushMember item.descriptor) with
      e | validator
    · exact congrArg Prod.fst (deliver_unnamed_of_push hpush)
    · rw [Exec.ok_bind]
      dsimp only
      by_cases hlt : UInt32.ofNat (top.members ++ [item]).length < top.memberCount
      · rw [if_pos hlt]
        exact ⟨List.cons_ne_nil _ _, deliver_unnamed_of_lt hpush hlt⟩
      · rw [if_neg hlt]
        rcases hfinish : Exec.mapError Error.core validator.finish with e | u
        · exact congrArg Prod.fst (deliver_unnamed_of_finish hpush hlt hfinish)
        · rw [Exec.ok_bind, deliver_unnamed_of_complete hpush hlt hfinish]
          apply ih
          exact trivial

end Stack

/-! ### The walk -/

/-- A tensor is stored at an entry: its descriptor is there, and unless it is a head its buffers
can be read. -/
structure Stored (A : Type) [DestinationAlloc A] (file : Bytes) (alignment : UInt64)
    (e : IndexEntry) (t : StreamTensor) : Prop where
  descriptor : readDescriptor file e = .ok t.descriptor
  buffers : t.descriptor.layout.isVirtual = false → ∀ a : A, ∃ a' : A,
    readBuffers file alignment t.descriptor.buffers 0 e.dataOffset a = .ok (t.buffers, a')

section Walk
variable {A : Type} [DestinationAlloc A] {file : Bytes} {alignment : UInt64} {depth : ℕ}
  {index : List IndexEntry} {stack : List Open} {es : List IndexEntry} {ts : List StreamTensor}

theorem sharded_of_stored {e : IndexEntry} {t : StreamTensor} (h : Stored A file alignment e t) :
    CompositeAssembler.Sharded t.descriptor := by
  obtain ⟨b, -, hdecode⟩ := Exec.bind_eq_ok.mp h.descriptor
  obtain ⟨hdecodable, -⟩ := decode_eq_ok_iff.mp (Exec.mapError_eq_ok.mp hdecode)
  exact hdecodable.fields.shard

/-- The walk over stored tensors comes to what the assembler comes to. -/
theorem readWalk_unnamed (depth : ℕ) (stack : List Open)
    (hstored : List.Forall₂ (Stored A file alignment) es ts)
    (hfind : ∀ e ∈ es, FileReaderCore.find index e.name = some e)
    (hstart : stack = [] → ∃ t ∈ ts.head?, t.descriptor.layout.isVirtual = true) (a : A) :
    ((readWalk file alignment depth index (es.map IndexEntry.name) stack a).map
      fun x => some x.1.unnamed) =
        CompositeAssembler.assemble ⟨depth, stack.map Open.unnamed⟩ ts := by
  induction hstored generalizing stack a with
  | nil =>
    cases stack with
    | nil =>
      obtain ⟨t, ht, -⟩ := hstart rfl
      cases ht
    | cons top rest =>
      show (Exec.fail _ : Result (Option StreamItem)) = Exec.fail _
      rw [Open.unnamed, List.length_map]
  | @cons e t es ts ht _ ih =>
    obtain ⟨hfinde, hfind⟩ := List.forall_mem_cons.mp hfind
    rw [List.map_cons, readWalk, hfinde, Exec.orFail_some, Exec.ok_bind, ht.descriptor,
      Exec.ok_bind, CompositeAssembler.assemble]
    cases hvirtual : t.descriptor.layout.isVirtual with
    | true =>
      obtain ⟨layout, hlayout⟩ := CompositeAssembler.layout_of_isVirtual hvirtual
      rw [readNode_of_head hlayout]
      unfold CompositeAssembler.push
      rw [hlayout]
      dsimp only
      rw [List.length_map]
      by_cases hdeep : depth ≤ stack.length
      · rw [Exec.reject, if_pos hdeep, if_pos hdeep]
        rfl
      · rw [Exec.reject, if_neg hdeep, if_neg hdeep, Exec.ok_bind]
        rcases Exec.mapError Error.core (CompositeValidator.new t.descriptor) with e' | validator
        · rfl
        · exact ih (⟨e.name, t.descriptor, layout.memberCount, [], validator⟩ :: stack)
            hfind (fun h => absurd h (List.cons_ne_nil _ _)) a
    | false =>
      have hstack : stack ≠ [] := by
        intro hnil
        obtain ⟨t', ht', hhead⟩ := hstart hnil
        cases ht'
        rw [hvirtual] at hhead
        cases hhead
      have hleaf : ∀ layout, t.descriptor.layout = .composite layout → False := by
        intro layout hlayout
        rw [hlayout] at hvirtual
        cases hvirtual
      have hempty : ¬ stack.isEmpty = true := by
        rwa [List.isEmpty_iff]
      obtain ⟨a', hbuffers⟩ := ht.buffers hvirtual a
      rw [readNode_of_tensor hleaf, Exec.reject_of_not hempty, Exec.ok_bind, readTensor, hbuffers,
        Exec.ok_bind, CompositeAssembler.push_of_not_virtual hvirtual]
      have hmirrors := @handOver_mirrors stack (.tensor ⟨e.name, t.descriptor, t.buffers⟩) hstack
      rw [FileItem.unnamed] at hmirrors
      simp only [pure_bind]
      generalize handOver stack (.tensor ⟨e.name, t.descriptor, t.buffers⟩) = handed at hmirrors ⊢
      rcases handed with e' | stack' | c
      · have hfailed : (deliver (stack.map Open.unnamed) (.tensor t)).1 = .error e' := hmirrors
        rw [hfailed]
        rfl
      · obtain ⟨hne, hdeliver⟩ := hmirrors
        rw [hdeliver]
        exact ih stack' hfind (fun h => absurd h hne) a'
      · have hdelivered : deliver (stack.map Open.unnamed) (.tensor t) = (.ok (some c.unnamed), []) :=
          hmirrors
        rw [hdelivered]
        rfl

end Walk

/-- The entries of an index in the order of the descriptors in the file. -/
def orderedEntries (index : List IndexEntry) : List IndexEntry :=
  index.mergeSort fun e f => e.descriptorOffset ≤ f.descriptorOffset

/-- Offsets that differ leave one order, whatever the sort does with equal ones. -/
theorem orderedEntries_eq {index es : List IndexEntry} (horder : es.Perm index)
    (hincreasing : es.Pairwise fun e f => e.descriptorOffset < f.descriptorOffset) :
    orderedEntries index = es := by
  have hperm : (orderedEntries index).Perm es := (List.mergeSort_perm index _).trans horder.symm
  have hsorted : (orderedEntries index).Pairwise fun e f =>
      e.descriptorOffset ≤ f.descriptorOffset := by
    have hpairwise := @List.pairwise_mergeSort _
      (fun e f : IndexEntry => decide (e.descriptorOffset ≤ f.descriptorOffset))
      (by
        intro e f g hef hfg
        rw [decide_eq_true_eq] at hef hfg ⊢
        exact UInt64.le_trans hef hfg)
      (by
        intro e f
        rw [Bool.or_eq_true, decide_eq_true_eq, decide_eq_true_eq]
        exact UInt64.le_total _ _) index
    exact hpairwise.imp of_decide_eq_true
  have hdistinct : (orderedEntries index).Pairwise fun e f =>
      e.descriptorOffset ≠ f.descriptorOffset := by
    rw [hperm.pairwise_iff Ne.symm]
    exact hincreasing.imp UInt64.ne_of_lt
  have hstrict : (orderedEntries index).Pairwise fun e f =>
      e.descriptorOffset < f.descriptorOffset := by
    apply (hsorted.and hdistinct).imp
    intro e f hef
    exact UInt64.lt_of_le_of_ne hef.1 hef.2
  apply hperm.eq_of_pairwise ?_ hstrict hincreasing
  intro e f _ _ hef hfe
  exact absurd hfe (UInt64.lt_asymm hef)

theorem namesFrom_eq {index : List IndexEntry} (hnodup : (index.map IndexEntry.name).Nodup)
    {k : ℕ} {e : IndexEntry} (he : (orderedEntries index)[k]? = some e) :
    namesFrom index e.name = ((orderedEntries index).drop k).map IndexEntry.name := by
  have hperm : (orderedNames index).Perm (index.map IndexEntry.name) :=
    (List.mergeSort_perm index _).map _
  have hnodup' : (orderedNames index).Nodup := hperm.nodup_iff.mpr hnodup
  have hname : (orderedNames index)[k]? = some e.name := by
    show ((orderedEntries index).map IndexEntry.name)[k]? = _
    rw [List.getElem?_map, he]
    rfl
  obtain ⟨hlt, hget⟩ := List.getElem?_eq_some_iff.mp hname
  have hidx : (orderedNames index).idxOf? e.name = some k := by
    rw [List.idxOf?_eq_some_iff]
    refine ⟨hlt, hget, ?_⟩
    intro j hj heq
    exact absurd ((List.Nodup.getElem_inj_iff hnodup').mp (heq.trans hget.symm)) (by omega)
  rw [namesFrom, hidx, Option.elim_some, List.map_drop]
  rfl

section Entries
variable {α β : Type} {R : α → β → Prop} {es : List α} {ts : List β} {t : β}

theorem exists_entry (h : List.Forall₂ R es ts) (ht : t ∈ ts) : ∃ e ∈ es, R e t := by
  induction h with
  | nil => cases ht
  | @cons e t' es ts he _ ih =>
    rcases List.mem_cons.mp ht with rfl | hmem
    · exact ⟨e, List.mem_cons_self, he⟩
    · obtain ⟨f, hf, hft⟩ := ih hmem
      exact ⟨f, List.mem_cons_of_mem e hf, hft⟩

theorem exists_entry_at {k : ℕ} (h : List.Forall₂ R es ts) (ht : ts[k]? = some t) :
    ∃ e, es[k]? = some e := by
  obtain ⟨hlt, -⟩ := List.getElem?_eq_some_iff.mp ht
  have hlt' : k < es.length := by rwa [h.length_eq]
  exact ⟨_, List.getElem?_eq_getElem hlt'⟩

end Entries

namespace FileReaderCore
variable {A : Type} [DestinationAlloc A]

/-- The entries of a file stand at increasing offsets. A walk that begins at a head delivers the
composite that an assembler makes of the tensors from there on, or ends in the same error. -/
theorem walk_agrees_with_assembler (hA : LawfulAlloc A) {crc32c : Bytes → UInt32} {file : Bytes}
    {size : UInt64} {a : A} {depth calls : ℕ} {chunk : ℕ → ℕ} {opened used : FileReaderCore A}
    {actions : List ReaderAction} {es : List IndexEntry} {ts : List StreamTensor} {k : ℕ}
    {head : StreamTensor}
    (hopened : drive crc32c file chunk calls
      ((withDestinations size a).withMaxCompositeDepth depth) = .ok (.ready, opened))
    (hused : run crc32c opened actions = some used) (horder : es.Perm opened.index)
    (hincreasing : es.Pairwise fun e f => e.descriptorOffset < f.descriptorOffset)
    (hstored : List.Forall₂ (Stored A file opened.dataBufferAlignment) es ts)
    (hhead : ts[k]? = some head) (hvirtual : head.descriptor.layout.isVirtual = true) :
    ∃ e begun, es[k]? = some e ∧
      used.begin .walk e.name = (.ok (), begun) ∧
      (∀ (chunk : ℕ → ℕ) (calls : ℕ),
        (drive crc32c file chunk calls begun).map (fun x => compositeOf (delivery x)) =
          (CompositeAssembler.new depth).assemble (ts.drop k)) ∧
      ∀ f, (CompositeAssembler.new depth).assemble (ts.drop k) = .error f →
        ∃ e, f = .error e ∧ CompositeAssembler.Refusal depth e := by
  obtain ⟨view, hview, hopenedWith⟩ := openWith_of_drive hopened
  have husedWith := run_stays hopenedWith hused
  have hsettings : used.settings = opened.settings := husedWith.2.trans hopenedWith.2.symm
  have hdepth : used.maxCompositeDepth = depth := congrArg (fun v => v.2.2.2) husedWith.2
  simp only [settings, Prod.mk.injEq] at hsettings
  obtain ⟨hindex, _, halignment, _⟩ := hsettings
  have hnodup : (opened.index.map IndexEntry.name).Nodup := by
    have hindexView : opened.index = view.index := congrArg Prod.fst hopenedWith.2
    rw [hindexView]
    exact nodup_of_openFile hview
  obtain ⟨e, he⟩ := exists_entry_at hstored hhead
  have hordered := orderedEntries_eq horder hincreasing
  have hmem (e : IndexEntry) (he : e ∈ es) : find opened.index e.name = some e :=
    find_of_nodup hnodup (horder.mem_iff.mp he)
  have hfind : find used.index e.name = some e := by
    rw [hindex]
    exact hmem e (List.mem_of_getElem? he)
  refine ⟨e, used.started .walk e, he, begin_of_find husedWith.1 hfind, ?_, ?_⟩
  · intro chunk calls
    have hwalk := readWalk_unnamed depth [] (List.forall₂_drop k hstored)
      (fun e he => hmem e (List.mem_of_mem_drop he))
      (fun _ => ⟨head, by rw [List.head?_drop, hhead]; rfl, hvirtual⟩) used.destinations
    have hnames := namesFrom_eq hnodup (hordered ▸ he)
    rw [hordered] at hnames
    rw [← hnames] at hwalk
    have hdelivery : (drive crc32c file chunk calls (used.started .walk e)).map delivery = _ :=
      delivery_eq hA hfind chunk calls
    rw [readJob, hindex, halignment, hdepth] at hdelivery
    calc (drive crc32c file chunk calls (used.started .walk e)).map
          (fun x => compositeOf (delivery x))
        = ((drive crc32c file chunk calls (used.started .walk e)).map delivery).map compositeOf := by
          cases drive crc32c file chunk calls (used.started .walk e) <;> rfl
      _ = (readWalk file opened.dataBufferAlignment depth opened.index
            (namesFrom opened.index e.name) [] used.destinations).map
              fun x => some x.1.unnamed := by
          rw [hdelivery]
          cases readWalk file opened.dataBufferAlignment depth opened.index
            (namesFrom opened.index e.name) [] used.destinations <;> rfl
      _ = (CompositeAssembler.new depth).assemble (ts.drop k) := hwalk
  · intro f hf
    refine CompositeAssembler.refusal_of_assemble ?_ ?_ hf
    · intro t ht
      obtain ⟨e, _, hstored⟩ := exists_entry hstored (List.mem_of_mem_drop ht)
      exact sharded_of_stored hstored
    · intro top htop
      exact absurd htop List.not_mem_nil

end FileReaderCore

/-- The index of a group and of the worked example behind it. -/
def groupedIndex : List IndexEntry := [⟨"g", 64, 53, 117, 0⟩, ⟨"a", 117, 61, 178, 192⟩]

/-- A group of one that holds the worked example. -/
def groupedFile : Bytes :=
  workedHeader ++ (encode (workedGroup 1)).toOption.getD [] ++ workedExampleBytes 0 61 ++
    List.replicate 192 7 ++ encodeIndexSection groupedIndex ++
      workedTrailer 370 (encodeIndexSection groupedIndex) 0

namespace FileReaderCore

theorem walk_agrees_with_assembler_groupedFile : ∃ opened begun : FileReaderCore SystemDestinations,
    drive (fun _ => 0) groupedFile (fun _ => 6) 0
      ((withDestinations 488 SystemDestinations.mk).withMaxCompositeDepth 64) =
        .ok (.ready, opened) ∧
    opened.begin .walk "g" = (.ok (), begun) ∧
    (∀ (chunk : ℕ → ℕ) (calls : ℕ),
      (drive (fun _ => 0) groupedFile chunk calls begun).map (fun x => compositeOf (delivery x)) =
        (CompositeAssembler.new 64).assemble [AssemblyRun.groupTensor 1, workedTensor]) ∧
    ∀ f, (CompositeAssembler.new 64).assemble [AssemblyRun.groupTensor 1, workedTensor] = .error f →
      ∃ e, f = .error e ∧ CompositeAssembler.Refusal 64 e := by
  have hopen : ((openFile (fun _ => 0) groupedFile 488).map fun v =>
      (v.index, v.dataBufferAlignment)) = .ok (groupedIndex, 4096) := by decide +kernel
  rcases hview : openFile (fun _ => 0) groupedFile 488 with e | view
  · rw [hview] at hopen
    cases hopen
  rw [hview] at hopen
  obtain ⟨opened, hopened⟩ := exists_opened hview SystemDestinations.mk 64 (fun _ => 6) 0
  obtain ⟨view', hview', hwith⟩ := openWith_of_drive hopened
  obtain rfl : view = view' := Except.ok.inj (hview.symm.trans hview')
  have hsettings := Prod.mk.inj (Except.ok.inj hopen)
  have hindex : opened.index = groupedIndex := (congrArg Prod.fst hwith.2).trans hsettings.1
  have halignment : opened.dataBufferAlignment = 4096 :=
    (congrArg (fun v => v.2.2.1) hwith.2).trans hsettings.2
  have horder : groupedIndex.Perm opened.index := by rw [hindex]
  have hgroup : Stored SystemDestinations groupedFile 4096 ⟨"g", 64, 53, 117, 0⟩
      (AssemblyRun.groupTensor 1) :=
    ⟨by decide +kernel, fun h => absurd h (by decide)⟩
  have hworked : Stored SystemDestinations groupedFile 4096 ⟨"a", 117, 61, 178, 192⟩
      workedTensor := by
    refine ⟨by decide +kernel, ?_⟩
    intro _ a
    cases a
    exact ⟨⟨⟩, by decide +kernel⟩
  have hused : run (fun _ => 0) opened [] = some opened := rfl
  have hstored : List.Forall₂ (Stored SystemDestinations groupedFile opened.dataBufferAlignment)
      groupedIndex [AssemblyRun.groupTensor 1, workedTensor] := by
    rw [halignment]
    exact .cons hgroup (.cons hworked .nil)
  obtain ⟨e, begun, he, hbegun, hagrees⟩ := walk_agrees_with_assembler
    lawfulAlloc_systemDestinations hopened hused horder (by decide) hstored (k := 0) rfl rfl
  cases he
  exact ⟨opened, begun, hopened, hbegun, hagrees⟩

end FileReaderCore
end Hurray.File
