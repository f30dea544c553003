import Hurray.Base.ArityCode
import Hurray.Ffi.Types
import Hurray.File.Types

/-!
A composite that a C caller describes, as the preorder of its nodes. A forward pass finds the members
of every head, a backward pass builds the tree. An array is taken just when it lists the nodes of one
composite, and then that composite is built.
-/
namespace Hurray.Ffi
open Hurray.Base Hurray.Core Hurray.Descriptor Hurray.Stream Hurray.File

def HURRAY_ITEM_TENSOR : UInt8 := 0
def HURRAY_ITEM_COMPOSITE : UInt8 := 1

structure HurrayCompositeNode where
  kind : UInt8
  name : Pointer UInt8
  nameLen : ℕ
  descriptor : Option TensorDescriptor
  payloads : Pointer HurrayIoSlice
  payloadCount : ℕ
  memberCount : UInt32

/-- The number of nodes after it that are its direct members. -/
def HurrayCompositeNode.arity (node : HurrayCompositeNode) : ℕ :=
  if node.kind = HURRAY_ITEM_COMPOSITE then node.memberCount.toNat else 0

/-- The pass over the array. The open heads are those still owed members, the innermost first. -/
structure MembersPass where
  members : List (List ℕ)
  openHeads : List (ℕ × UInt32)

namespace MembersPass

/-- The heads that are full are taken off. -/
def settle (heads : List (ℕ × UInt32)) : List (ℕ × UInt32) := heads.dropWhile (·.2 == 0)

/-- The innermost head takes the node as its next member. -/
def adopt (s : MembersPass) (index : ℕ) : Result MembersPass :=
  match s.openHeads with
  | [] => Exec.fail HURRAY_ERR_INDEX_OUT_OF_BOUNDS
  | (parent, owed) :: rest => do
      let owed ← if owed = 0 then Exec.panic else .ok (owed - 1)
      let siblings ← Exec.index s.members parent
      .ok ⟨s.members.set parent (siblings ++ [index]), settle ((parent, owed) :: rest)⟩

def enter (s : MembersPass) (index : ℕ) (node : HurrayCompositeNode) : MembersPass :=
  if node.kind = HURRAY_ITEM_COMPOSITE ∧ 0 < node.memberCount then
    { s with openHeads := (index, node.memberCount) :: s.openHeads }
  else s

def visit (s : MembersPass) (index : ℕ) (node : HurrayCompositeNode) : Result MembersPass := do
  let s ← if 0 < index then s.adopt index else .ok s
  .ok (s.enter index node)

def visitFrom : ℕ → List HurrayCompositeNode → MembersPass → Result MembersPass
  | _, [], s => .ok s
  | index, node :: nodes, s => do
      let s ← s.visit index node
      visitFrom (index + 1) nodes s

def finish (s : MembersPass) : Result (List (List ℕ)) := do
  Exec.reject (s.openHeads ≠ []) HURRAY_ERR_INDEX_OUT_OF_BOUNDS
  .ok s.members

end MembersPass

def membersOf (nodes : List HurrayCompositeNode) : Result (List (List ℕ)) := do
  let s ← MembersPass.visitFrom 0 nodes ⟨List.replicate nodes.length [], []⟩
  s.finish

theorem HurrayCompositeNode.toNat_memberCount {node : HurrayCompositeNode} (h : 0 < node.arity) :
    node.memberCount.toNat = node.arity := by
  unfold arity at h ⊢
  split at h
  · next hkind => simp [hkind]
  · simp at h

namespace MembersPass
variable {heads : List (ℕ × UInt32)} {places : List ℕ} {members : List (List ℕ)}

def owed (heads : List (ℕ × UInt32)) : ℕ := (heads.map (·.2.toNat)).sum

/-- The places that come are dealt to the heads, to each what it is owed. -/
def deal : List (ℕ × UInt32) → List ℕ → List (List ℕ) → List (List ℕ)
  | [], _, members => members
  | (head, owed) :: heads, places, members =>
      deal heads (places.drop owed.toNat) (members.modify head (· ++ places.take owed.toNat))

@[simp] theorem settle_nil : settle [] = [] := rfl

theorem settle_cons {head : ℕ} {n : UInt32} :
    settle ((head, n) :: heads) = if n = 0 then settle heads else (head, n) :: heads := by
  by_cases h : n = 0 <;> simp [settle, h]

@[simp] theorem owed_settle : owed (settle heads) = owed heads := by
  induction heads with
  | nil => rfl
  | cons h heads ih =>
    obtain ⟨head, n⟩ := h
    rw [settle_cons]
    split
    · next hzero => simpa [owed, hzero] using ih
    · rfl

@[simp] theorem deal_settle : deal (settle heads) places members = deal heads places members := by
  induction heads generalizing places members with
  | nil => rfl
  | cons h heads ih =>
    obtain ⟨head, n⟩ := h
    rw [settle_cons]
    split
    · next hzero =>
      have hsame : members.modify head (fun x => x) = members := List.modify_id head members
      simp [deal, hzero, ih, hsame]
    · rfl

theorem mem_settle {h : ℕ × UInt32} (hmem : h ∈ settle heads) : h ∈ heads :=
  (List.dropWhile_sublist _).mem hmem

/-- Every open head is owed a member, and has a place among those that are done. -/
def Open (place : ℕ) (heads : List (ℕ × UInt32)) : Prop :=
  ∀ h ∈ heads, h.1 < place ∧ 0 < h.2.toNat

theorem Open.settle_pred {place : ℕ} {head : ℕ} {n m : UInt32} (h : Open place ((head, n) :: heads)) :
    Open (place + 1) (settle ((head, m) :: heads)) := by
  have hhead := h (head, n) List.mem_cons_self
  have hrest : Open (place + 1) heads := by
    intro k hk
    have hplace := h k (List.mem_cons_of_mem _ hk)
    exact ⟨by omega, hplace.2⟩
  rw [settle_cons]
  split
  · intro k hk
    exact hrest k (mem_settle hk)
  · next hne =>
    intro k hk
    rcases List.mem_cons.mp hk with rfl | hk
    · have hpos : m.toNat ≠ 0 := by simpa [← UInt32.toNat_inj] using hne
      exact ⟨by omega, by simpa using Nat.pos_of_ne_zero hpos⟩
    · exact hrest k hk

theorem adopt_eq {done rest : List (List ℕ)} {head index : ℕ} {n : UInt32} (hn : 0 < n.toNat)
    (hhead : head < done.length) :
    adopt ⟨done ++ rest, (head, n) :: heads⟩ index =
      .ok ⟨done.modify head (· ++ [index]) ++ rest, settle ((head, n - 1) :: heads)⟩ := by
  have hne : n ≠ 0 := by
    rintro rfl
    simp at hn
  simp [adopt, hne, Exec.index, List.getElem?_append_left hhead, List.set_append_left _ _ hhead,
    List.modify_eq_set_getElem?, hhead]

/-- The open heads with a node after them. -/
def entered (place : ℕ) (node : HurrayCompositeNode) (heads : List (ℕ × UInt32)) :
    List (ℕ × UInt32) :=
  if 0 < node.arity then (place, node.memberCount) :: heads else heads

theorem enter_eq {s : MembersPass} {index : ℕ} {node : HurrayCompositeNode} :
    s.enter index node = ⟨s.members, entered index node s.openHeads⟩ := by
  by_cases h : node.kind = HURRAY_ITEM_COMPOSITE
  · by_cases hpos : 0 < node.memberCount.toNat <;>
      simp [enter, entered, HurrayCompositeNode.arity, h, UInt32.lt_iff_toNat_lt, hpos]
  · simp [enter, entered, HurrayCompositeNode.arity, h]

theorem modify_append_left {done rest : List (List ℕ)} {head : ℕ} (h : head < done.length)
    (f : List ℕ → List ℕ) : (done ++ rest).modify head f = done.modify head f ++ rest := by
  simp [List.modify_eq_set_getElem?, h, List.getElem?_append_left h, List.set_append_left _ _ h]

theorem owed_cons {head : ℕ} {n : UInt32} (hn : 0 < n.toNat) :
    owed ((head, n) :: heads) = owed ((head, n - 1) :: heads) + 1 := by
  have hle : (1 : UInt32) ≤ n := hn
  simp only [owed, List.map_cons, List.sum_cons, UInt32.toNat_sub_of_le _ _ hle, UInt32.toNat_one]
  omega

/-- The head takes the place that comes, before those that are left for it. -/
theorem deal_cons {done rest : List (List ℕ)} {head place : ℕ} {n : UInt32} (hn : 0 < n.toNat)
    (hhead : head < done.length) :
    deal ((head, n) :: heads) (place :: places) (done ++ rest) =
      deal ((head, n - 1) :: heads) places (done.modify head (· ++ [place]) ++ rest) := by
  have hle : (1 : UInt32) ≤ n := hn
  obtain ⟨k, hk⟩ := Nat.exists_eq_add_of_lt hn
  have hpred : (n - 1).toNat = k := by
    rw [UInt32.toNat_sub_of_le _ _ hle, UInt32.toNat_one]
    omega
  have hsucc : n.toNat = k + 1 := by omega
  have hhead' : head < (done.modify head (· ++ [place])).length := by simpa using hhead
  simp [deal, hpred, hsucc, modify_append_left hhead, modify_append_left hhead',
    List.modify_modify_eq, Function.comp_def]

/-- A node that is entered gets the places of its members. -/
theorem deal_enter {done rest : List (List ℕ)} {place : ℕ} {node : HurrayCompositeNode}
    (hplace : place = done.length) :
    deal (entered place node heads) places (done ++ [] :: rest) =
      deal heads (places.drop node.arity) (done ++ places.take node.arity :: rest) := by
  subst hplace
  unfold entered
  split
  · next h => simp [deal, HurrayCompositeNode.toNat_memberCount h, List.modify_eq_set_getElem?]
  · next h =>
    have hzero : node.arity = 0 := by omega
    simp [hzero]

theorem owed_enter {place : ℕ} {node : HurrayCompositeNode} :
    owed (entered place node heads) = owed heads + node.arity := by
  unfold entered
  split
  · next h => simp [owed, HurrayCompositeNode.toNat_memberCount h, Nat.add_comm]
  · omega

theorem Open.enter {place : ℕ} {node : HurrayCompositeNode} (h : Open (place + 1) heads) :
    Open (place + 1) (entered place node heads) := by
  unfold entered
  split
  · next hpos =>
    rw [Open, List.forall_mem_cons]
    exact ⟨⟨Nat.lt_succ_self place, by rwa [HurrayCompositeNode.toNat_memberCount hpos]⟩, h⟩
  · exact h

theorem visit_eq {done rest : List (List ℕ)} {head : ℕ} {n : UInt32} {node : HurrayCompositeNode}
    (hn : 0 < n.toNat) (hhead : head < done.length) :
    visit ⟨done ++ [] :: rest, (head, n) :: heads⟩ done.length node =
      .ok ⟨(done.modify head (· ++ [done.length]) ++ [[]]) ++ rest,
        entered done.length node (settle ((head, n - 1) :: heads))⟩ := by
  have hpos : 0 < done.length := by omega
  simp [visit, if_pos hpos, adopt_eq hn hhead, enter_eq]

/-- The pass from a place on, over a word that is owed what the open heads are owed: every head gets
the places of its members. -/
theorem visitFrom_eq {nodes : List HurrayCompositeNode} {heads : List (ℕ × UInt32)}
    {done : List (List ℕ)} (hopen : Open done.length heads) (hpos : 0 < done.length) :
    (visitFrom done.length nodes ⟨done ++ List.replicate nodes.length [], heads⟩ >>= finish) =
      if Codes HurrayCompositeNode.arity (owed heads) nodes then
        .ok (deal heads (RoseTree.roots done.length (RoseTree.grow HurrayCompositeNode.arity nodes))
          (done ++ RoseTree.links HurrayCompositeNode.arity done.length nodes))
      else Exec.fail HURRAY_ERR_INDEX_OUT_OF_BOUNDS := by
  induction nodes generalizing heads done with
  | nil =>
    cases heads with
    | nil => simp [visitFrom, finish, Exec.reject, owed, Codes, deal, RoseTree.links]
    | cons h heads =>
      have howed := (hopen h List.mem_cons_self).2
      have hne : ¬ owed (h :: heads) = 0 := by
        simp [owed]
        omega
      simp [visitFrom, finish, Exec.reject, Codes, hne]
  | cons node nodes ih =>
    cases heads with
    | nil => simp [visitFrom, visit, hpos, adopt, owed, Codes]
    | cons h heads =>
      obtain ⟨head, n⟩ := h
      obtain ⟨hhead, hn⟩ := hopen (head, n) List.mem_cons_self
      have hlen : (done.modify head (· ++ [done.length]) ++ [[]]).length = done.length + 1 := by
        simp
      have hrun := @ih (entered done.length node (settle ((head, n - 1) :: heads)))
        (done.modify head (· ++ [done.length]) ++ [[]])
        (by rw [hlen]; exact hopen.settle_pred.enter) (by rw [hlen]; omega)
      rw [hlen, owed_enter, owed_settle] at hrun
      rw [List.length_cons, List.replicate_succ, visitFrom, visit_eq hn hhead, Exec.ok_bind, hrun,
        owed_cons hn, Codes]
      split
      · next hcodes =>
        have hgrow := RoseTree.length_grow hcodes
        rw [RoseTree.roots_grow_cons (by omega), RoseTree.links, deal_cons hn hhead,
          ← RoseTree.roots_take, List.append_assoc, List.singleton_append,
          deal_enter (by simp), deal_settle]
      · rfl

end MembersPass

/-- An array is taken just when it lists one tree, and the members are found where its children are. -/
theorem membersOf_eq {nodes : List HurrayCompositeNode} (h : nodes ≠ []) :
    membersOf nodes = if Codes HurrayCompositeNode.arity 1 nodes then
      .ok (RoseTree.links HurrayCompositeNode.arity 0 nodes)
      else Exec.fail HURRAY_ERR_INDEX_OUT_OF_BOUNDS := by
  cases nodes with
  | nil => simp at h
  | cons node nodes =>
    have hrun := @MembersPass.visitFrom_eq nodes (MembersPass.entered 0 node []) [[]]
      (MembersPass.Open.enter (by simp [MembersPass.Open])) (by simp)
    have henter := @MembersPass.deal_enter [] (RoseTree.roots 1
      (RoseTree.grow HurrayCompositeNode.arity nodes)) []
      (RoseTree.links HurrayCompositeNode.arity 1 nodes) 0 node rfl
    simp only [List.length_singleton, MembersPass.owed_enter, List.singleton_append,
      List.nil_append] at hrun henter
    simp only [membersOf, MembersPass.visitFrom, MembersPass.visit, List.length_cons,
      List.replicate_succ, Nat.lt_irrefl, if_false, Exec.ok_bind, MembersPass.enter_eq, hrun, henter,
      Codes, RoseTree.links, ← RoseTree.roots_take]
    rfl

/-- What a node says, with the bytes that it lends. -/
inductive Entry (ρ : Type) where
  | tensor (node : ρ) (buffers : List Bytes)
  | composite (node : ρ) (memberCount : ℕ)
  deriving DecidableEq

def Entry.arity {ρ : Type} : Entry ρ → ℕ
  | tensor _ _ => 0
  | composite _ memberCount => memberCount

/-- How a surface reads a node, and what it makes of it. -/
structure Surface (ρ β : Type) where
  read : HurrayCompositeNode → Result ρ
  tensor : ρ → List Bytes → β
  composite : ρ → List β → β

def descriptorFromC (ptr : Option TensorDescriptor) : Result TensorDescriptor :=
  Exec.orFail ptr HURRAY_ERR_NULL_POINTER

def payloadsFromC (node : HurrayCompositeNode) : Result (List Bytes) :=
  if node.payloadCount = 0 then .ok []
  else do
    let slices ← Exec.orFail node.payloads HURRAY_ERR_NULL_POINTER
    (slices.take node.payloadCount).mapM fun slice => bytesFromC slice.ptr slice.len

def rootCheck (nodes : List HurrayCompositeNode) : Result (List (List ℕ)) :=
  match nodes with
  | [] => Exec.fail HURRAY_ERR_NOT_COMPOSITE
  | root :: _ =>
      if root.kind = HURRAY_ITEM_COMPOSITE then membersOf nodes
      else Exec.fail HURRAY_ERR_NOT_COMPOSITE

/-- The members at the places, in order, and what is left in the array. -/
def takeMembers {β : Type} : List (Option β) → List ℕ → Result (List β × List (Option β))
  | built, [] => .ok ([], built)
  | built, index :: indices => do
      let member ← Exec.orFail built[index]?.join HURRAY_ERR_INTERNAL
      let (members, built) ← takeMembers (built.set index none) indices
      .ok (member :: members, built)

namespace Surface
variable {ρ β : Type} (surface : Surface ρ β)

def buildNode (membersOfNode : List (List ℕ)) (index : ℕ) (node : HurrayCompositeNode)
    (built : List (Option β)) : Result (List (Option β)) := do
  let head ← surface.read node
  let (value, built) ←
    if node.kind = HURRAY_ITEM_COMPOSITE then do
      let indices ← Exec.index membersOfNode index
      let (members, built) ← takeMembers built indices
      .ok (surface.composite head members, built)
    else do
      let payloads ← payloadsFromC node
      .ok (surface.tensor head payloads, built)
  if index < built.length then .ok (built.set index (some value)) else Exec.panic

/-- The nodes from a place on are built, the last one first. -/
def buildFrom (membersOfNode : List (List ℕ)) :
    ℕ → List HurrayCompositeNode → List (Option β) → Result (List (Option β))
  | _, [], built => .ok built
  | index, node :: nodes, built => do
      let built ← buildFrom membersOfNode (index + 1) nodes built
      surface.buildNode membersOfNode index node built

def tree (nodes : List HurrayCompositeNode) : Result β := do
  let membersOfNode ← rootCheck nodes
  let built ← surface.buildFrom membersOfNode 0 nodes (List.replicate nodes.length none)
  let root ← Exec.index built 0
  Exec.orFail root HURRAY_ERR_INTERNAL

def entry (node : HurrayCompositeNode) : Result (Entry ρ) := do
  let head ← surface.read node
  if node.kind = HURRAY_ITEM_COMPOSITE then .ok (.composite head node.memberCount.toNat)
  else do
    let payloads ← payloadsFromC node
    .ok (.tensor head payloads)

/-- The entries of the nodes, the last one read first. -/
def listing : List HurrayCompositeNode → Result (List (Entry ρ))
  | [] => .ok []
  | node :: nodes => do
      let entries ← listing nodes
      let e ← surface.entry node
      .ok (e :: entries)

def value : RoseTree (Entry ρ) → β
  | .node (.tensor head buffers) _ => surface.tensor head buffers
  | .node (.composite head _) members => surface.composite head (members.map value)

/-- A forest as the array holds it, every tree at the place of its root. -/
def slots (ts : List (RoseTree (Entry ρ))) : List (Option β) :=
  ts.flatMap fun t => some (surface.value t) :: List.replicate (t.size - 1) none

variable {surface}

@[simp] theorem value_tensor {head : ρ} {buffers : List Bytes} {ts : List (RoseTree (Entry ρ))} :
    surface.value (.node (.tensor head buffers) ts) = surface.tensor head buffers := by
  rw [value]

@[simp] theorem value_composite {head : ρ} {count : ℕ} {ts : List (RoseTree (Entry ρ))} :
    surface.value (.node (.composite head count) ts) =
      surface.composite head (ts.map surface.value) := by
  rw [value]

@[simp] theorem slots_nil : surface.slots [] = [] := rfl

@[simp] theorem slots_cons {t : RoseTree (Entry ρ)} {ts : List (RoseTree (Entry ρ))} :
    surface.slots (t :: ts) =
      some (surface.value t) :: (List.replicate (t.size - 1) none ++ surface.slots ts) := by
  simp [slots]

theorem slots_append {ts us : List (RoseTree (Entry ρ))} :
    surface.slots (ts ++ us) = surface.slots ts ++ surface.slots us := by
  simp [slots]

/-- The trees of a forest are taken at the places of their roots. -/
theorem takeMembers_slots (front back : List (Option β)) (ts : List (RoseTree (Entry ρ))) {place : ℕ}
    (hplace : place = front.length) :
    takeMembers (front ++ (surface.slots ts ++ back)) (RoseTree.roots place ts) =
      .ok (ts.map surface.value,
        front ++ (List.replicate (ts.map RoseTree.size).sum none ++ back)) := by
  induction ts generalizing front place with
  | nil => simp [takeMembers, RoseTree.roots]
  | cons t ts ih =>
    have hrest := @ih (front ++ List.replicate t.size none) (place + t.size) (by simp [hplace])
    have hroot : (front ++ (surface.slots (t :: ts) ++ back))[place]?.join =
        some (surface.value t) := by simp [hplace]
    have hleft : (front ++ (surface.slots (t :: ts) ++ back)).set place none =
        front ++ List.replicate t.size none ++ (surface.slots ts ++ back) := by
      obtain ⟨n, hn⟩ := Nat.exists_eq_add_of_lt (RoseTree.size_pos t)
      simp [hplace, hn, List.replicate_succ]
    rw [RoseTree.roots, takeMembers, hroot, hleft, hrest]
    simp only [Exec.orFail_some, Exec.ok_bind, List.map_cons, List.sum_cons, List.replicate_add,
      List.append_assoc]

theorem arity_entry {node : HurrayCompositeNode} {e : Entry ρ} (h : surface.entry node = .ok e) :
    e.arity = node.arity := by
  rw [entry, Exec.bind_eq_ok] at h
  obtain ⟨head, -, h⟩ := h
  split at h
  · next hkind =>
    cases h
    simp [Entry.arity, HurrayCompositeNode.arity, hkind]
  · next hkind =>
    rw [Exec.bind_eq_ok] at h
    obtain ⟨payloads, -, h⟩ := h
    cases h
    simp [Entry.arity, HurrayCompositeNode.arity, hkind]

theorem listing_forall₂ {nodes : List HurrayCompositeNode} {entries : List (Entry ρ)} :
    surface.listing nodes = .ok entries ↔
      List.Forall₂ (fun node e => surface.entry node = .ok e) nodes entries := by
  induction nodes generalizing entries with
  | nil => simp [listing, eq_comm]
  | cons node nodes ih =>
    simp only [listing, Exec.bind_eq_ok, ih, List.forall₂_cons_left_iff]
    grind

theorem set_last {place : ℕ} {x : β} : (List.replicate (place + 1) none).set place (some x) =
    List.replicate place none ++ [some x] := by
  simp [List.replicate_succ']

theorem arities_of_listing {nodes : List HurrayCompositeNode} {entries : List (Entry ρ)}
    (h : surface.listing nodes = .ok entries) :
    List.Forall₂ (fun node e => HurrayCompositeNode.arity node = Entry.arity e) nodes entries :=
  (listing_forall₂.mp h).imp fun _ _ he => (arity_entry he).symm

/-- A node is built from the trees that follow it, of which it takes its members. -/
theorem buildNode_eq {membersOfNode : List (List ℕ)} {index : ℕ} {node : HurrayCompositeNode}
    {entries : List (Entry ρ)}
    (hmembers : membersOfNode[index]? =
      some (RoseTree.roots (index + 1) ((RoseTree.grow Entry.arity entries).take node.arity))) :
    surface.buildNode membersOfNode index node
        (List.replicate (index + 1) none ++ surface.slots (RoseTree.grow Entry.arity entries)) =
      (surface.entry node >>= fun e => .ok (List.replicate index none ++
        surface.slots (RoseTree.grow Entry.arity (e :: entries)))) := by
  rw [buildNode, entry]
  cases hread : surface.read node with
  | error fault => rfl
  | ok head =>
    by_cases hkind : node.kind = HURRAY_ITEM_COMPOSITE
    · have harity : node.arity = node.memberCount.toNat := by
        simp [HurrayCompositeNode.arity, hkind]
      have hindex : (Exec.index membersOfNode index : Result (List ℕ)) = .ok _ :=
        Exec.index_eq_ok.mpr hmembers
      have htake := @takeMembers_slots _ _ surface (List.replicate (index + 1) none)
        (surface.slots ((RoseTree.grow Entry.arity entries).drop node.arity))
        ((RoseTree.grow Entry.arity entries).take node.arity) _ List.length_replicate.symm
      rw [← slots_append, List.take_append_drop] at htake
      simp [hkind, hindex, htake, RoseTree.grow, Entry.arity, ← harity, RoseTree.size_node, set_last]
      omega
    · have harity : node.arity = 0 := by simp [HurrayCompositeNode.arity, hkind]
      cases hpayloads : payloadsFromC node with
      | error fault =>
        simp [hkind]
        rfl
      | ok payloads =>
        simp [hkind, RoseTree.grow, Entry.arity, RoseTree.size_node, set_last]
        omega

/-- The array from a place on holds the trees of the entries there. -/
theorem buildFrom_eq {membersOfNode : List (List ℕ)} {index : ℕ} {nodes : List HurrayCompositeNode}
    (hmembers : membersOfNode.drop index =
      RoseTree.links HurrayCompositeNode.arity index nodes) :
    surface.buildFrom membersOfNode index nodes (List.replicate (index + nodes.length) none) =
      (surface.listing nodes >>= fun entries => .ok (List.replicate index none ++
        surface.slots (RoseTree.grow Entry.arity entries))) := by
  induction nodes generalizing index with
  | nil => simp [buildFrom, listing, RoseTree.grow]
  | cons node nodes ih =>
    rw [RoseTree.links] at hmembers
    have hhead := congrArg List.head? hmembers
    have htail := congrArg List.tail hmembers
    simp only [List.head?_drop, List.head?_cons, List.tail_drop, List.tail_cons] at hhead htail
    have hlen : index + (node :: nodes).length = index + 1 + nodes.length := by
      rw [List.length_cons]
      omega
    rw [buildFrom, listing, hlen, ih htail]
    cases hlisting : surface.listing nodes with
    | error fault => rfl
    | ok entries =>
      have hroots : RoseTree.roots (index + 1)
          ((RoseTree.grow HurrayCompositeNode.arity nodes).take node.arity) =
            RoseTree.roots (index + 1) ((RoseTree.grow Entry.arity entries).take node.arity) := by
        apply RoseTree.roots_congr
        rw [List.map_take, List.map_take, RoseTree.size_grow_congr (arities_of_listing hlisting)]
      simp only [Exec.ok_bind, buildNode_eq (hroots ▸ hhead), bind_assoc]

/-- The root is a head. -/
def Headed (nodes : List HurrayCompositeNode) : Prop :=
  ∃ root rest, nodes = root :: rest ∧ root.kind = HURRAY_ITEM_COMPOSITE

/-- The whole conversion: the checks of the array, then the entries, then their one tree. -/
theorem tree_of_codes {nodes : List HurrayCompositeNode} (h : Headed nodes)
    (hcodes : Codes HurrayCompositeNode.arity 1 nodes) :
    surface.tree nodes = (surface.listing nodes >>= fun entries =>
      Exec.orFail ((RoseTree.grow Entry.arity entries).head?.map surface.value)
        HURRAY_ERR_INTERNAL) := by
  obtain ⟨root, rest, rfl, hkind⟩ := h
  have hbuild := @buildFrom_eq _ _ surface _ 0 (root :: rest) List.drop_zero
  rw [Nat.zero_add] at hbuild
  rw [tree, rootCheck, if_pos hkind, membersOf_eq (List.cons_ne_nil _ _), if_pos hcodes, Exec.ok_bind,
    hbuild]
  cases hlisting : surface.listing (root :: rest) with
  | error fault => rfl
  | ok entries =>
    rw [RoseTree.codes_congr (arities_of_listing hlisting)] at hcodes
    obtain ⟨t, ht⟩ := List.length_eq_one_iff.mp (RoseTree.length_grow hcodes)
    simp [ht, Exec.index]

end Surface

/-- The tree of a stream has no names. -/
def streamSurface : Surface TensorDescriptor CompositeNode where
  read node := descriptorFromC node.descriptor
  tensor := .tensor
  composite := .composite

/-- The tree of a file has the name of every node. -/
def fileSurface : Surface (TensorDescriptor × String) FileCompositeNode where
  read node := do
    let descriptor ← descriptorFromC node.descriptor
    let name ← strFromC node.name node.nameLen
    .ok (descriptor, name)
  tensor node buffers := .tensor node.2 node.1 buffers
  composite node members := .composite node.2 node.1 members

def streamTree (nodes : List HurrayCompositeNode) :
    Result (TensorDescriptor × List CompositeNode) := do
  match ← streamSurface.tree nodes with
  | .composite head members => .ok (head, members)
  | .tensor _ _ => Exec.fail HURRAY_ERR_INTERNAL

def fileTree (nodes : List HurrayCompositeNode) :
    Result (String × TensorDescriptor × List FileCompositeNode) := do
  match ← fileSurface.tree nodes with
  | .composite name head members => .ok (name, head, members)
  | .tensor _ _ _ => Exec.fail HURRAY_ERR_INTERNAL

end Hurray.Ffi
