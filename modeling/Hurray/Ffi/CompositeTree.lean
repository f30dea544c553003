import Hurray.Ffi.Composite
import Hurray.File.Composite
import Hurray.Stream.CompositeRoundtrip

/-!
What becomes of an array of nodes: the composite of which it is the listing, or the status of what is
wrong with it. The shape is judged before any node is read, and the nodes are read from the last one
on.
-/
namespace Hurray.Ffi
open Hurray.Base Hurray.Core Hurray.Descriptor Hurray.Stream Hurray.File

/-- The nodes are the preorder of one tree, as their member counts tell. -/
def OneTree (nodes : List HurrayCompositeNode) : Prop :=
  ∃ t : RoseTree HurrayCompositeNode, t.Counted HurrayCompositeNode.arity ∧ t.preorder = nodes

theorem payloadsFromC_ne_panic {node : HurrayCompositeNode} :
    payloadsFromC node ≠ Exec.panic := by
  unfold payloadsFromC
  split
  · simp
  · simp [Exec.bind_eq_panic, mapM_ne_panic, bytesFromC_ne_panic]

namespace Surface
variable {ρ β : Type} {surface : Surface ρ β}

/-- Every value is made of nodes, and its tree has the entries that these were made from. -/
structure Lists (surface : Surface ρ β) (treeOf : β → RoseTree (Entry ρ)) : Prop where
  tensor : ∀ node buffers,
    treeOf (surface.tensor node buffers) = .node (.tensor node buffers) []
  composite : ∀ node members, treeOf (surface.composite node members) =
    .node (.composite node members.length) (members.map treeOf)
  induct : ∀ {P : β → Prop} (_tensor : ∀ node buffers, P (surface.tensor node buffers))
    (_composite : ∀ node members, (∀ m ∈ members, P m) → P (surface.composite node members)),
    ∀ x, P x

variable {treeOf : β → RoseTree (Entry ρ)}

theorem Lists.counted (hlists : surface.Lists treeOf) (x : β) :
    (treeOf x).Counted Entry.arity := by
  induction x using hlists.induct with
  | _tensor node buffers =>
    rw [hlists.tensor]
    exact .node rfl (by simp)
  | _composite node members ih =>
    rw [hlists.composite]
    exact .node (by simp [Entry.arity]) (by simpa using ih)

theorem Lists.value_treeOf (hlists : surface.Lists treeOf) (x : β) : surface.value (treeOf x) = x := by
  induction x using hlists.induct with
  | _tensor node buffers => simp [hlists.tensor]
  | _composite node members ih =>
    have hmembers : members.map (surface.value ∘ treeOf) = members :=
      (List.map_congr_left ih).trans (List.map_id members)
    simp [hlists.composite, hmembers]

theorem Lists.treeOf_value (hlists : surface.Lists treeOf) {t : RoseTree (Entry ρ)}
    (ht : t.Counted Entry.arity) :
    treeOf (surface.value t) = t := by
  induction t using RoseTree.induct with
  | node e cs ih =>
    obtain ⟨hcount, hcs⟩ := ht
    cases e with
    | tensor node buffers =>
      have hnil : cs = [] := List.eq_nil_of_length_eq_zero hcount.symm
      simp [hnil, hlists.tensor]
    | composite node memberCount =>
      have hmembers : cs.map (treeOf ∘ surface.value) = cs :=
        (List.map_congr_left fun c hc => ih c hc (hcs c hc)).trans (List.map_id cs)
      have hlen : memberCount = cs.length := hcount
      simp [hlists.composite, hmembers, hlen]

/-- The nodes say what the entries say. -/
def Reads (surface : Surface ρ β) (nodes : List HurrayCompositeNode) (entries : List (Entry ρ)) :
    Prop :=
  List.Forall₂ (fun node e => surface.entry node = .ok e) nodes entries

/-- The last node that cannot be read has the status. -/
def Blames (surface : Surface ρ β) (nodes : List HurrayCompositeNode) (status : HurrayStatus) : Prop :=
  ∃ front node back, nodes = front ++ node :: back ∧ surface.entry node = Exec.fail status ∧
    ∀ n ∈ back, ∃ e, surface.entry n = .ok e

/-- The array is refused with the status. -/
inductive Refuses (surface : Surface ρ β) (nodes : List HurrayCompositeNode) : HurrayStatus → Prop
  | head (h : ¬ Headed nodes) : Refuses surface nodes HURRAY_ERR_NOT_COMPOSITE
  | shape (h : Headed nodes) (hshape : ¬ OneTree nodes) :
      Refuses surface nodes HURRAY_ERR_INDEX_OUT_OF_BOUNDS
  | node {status : HurrayStatus} (h : Headed nodes) (hshape : OneTree nodes)
      (hnode : surface.Blames nodes status) : Refuses surface nodes status

theorem tree_of_not_headed {nodes : List HurrayCompositeNode} (h : ¬ Headed nodes) :
    surface.tree nodes = Exec.fail HURRAY_ERR_NOT_COMPOSITE := by
  cases nodes with
  | nil => rfl
  | cons root rest =>
    have hkind : ¬ root.kind = HURRAY_ITEM_COMPOSITE := by
      intro hkind
      exact h ⟨root, rest, rfl, hkind⟩
    simp [tree, rootCheck, hkind]

theorem tree_of_not_oneTree {nodes : List HurrayCompositeNode} (h : Headed nodes)
    (hshape : ¬ OneTree nodes) :
    surface.tree nodes = Exec.fail HURRAY_ERR_INDEX_OUT_OF_BOUNDS := by
  obtain ⟨root, rest, rfl, hkind⟩ := h
  have hcodes : ¬ Codes HurrayCompositeNode.arity 1 (root :: rest) = true := by
    rwa [RoseTree.codes_one]
  simp [tree, rootCheck, hkind, membersOf_eq, hcodes]

theorem exists_listing {nodes : List HurrayCompositeNode} :
    (∃ entries, surface.listing nodes = .ok entries) ↔
      ∀ n ∈ nodes, ∃ e, surface.entry n = .ok e := by
  induction nodes with
  | nil => simp [listing]
  | cons node nodes ih =>
    rw [List.forall_mem_cons, ← ih]
    simp only [listing, Exec.bind_eq_ok]
    grind

theorem listing_eq_fail {nodes : List HurrayCompositeNode} {status : HurrayStatus} :
    surface.listing nodes = Exec.fail status ↔ surface.Blames nodes status := by
  induction nodes with
  | nil => simp [listing, Blames, Exec.fail]
  | cons node nodes ih =>
    simp only [listing, bind_eq_fail, ih, ok_ne_fail, and_false, exists_false, or_false]
    constructor
    · rintro (⟨front, n, back, rfl, hn, hback⟩ | ⟨entries, hentries, hnode⟩)
      · exact ⟨node :: front, n, back, rfl, hn, hback⟩
      · exact ⟨[], node, nodes, rfl, hnode, exists_listing.mp ⟨entries, hentries⟩⟩
    · rintro ⟨front, n, back, hsplit, hn, hback⟩
      cases front with
      | nil =>
        obtain ⟨rfl, rfl⟩ := List.cons.inj hsplit
        obtain ⟨entries, hentries⟩ := exists_listing.mpr hback
        exact .inr ⟨entries, hentries, hn⟩
      | cons m front =>
        obtain ⟨rfl, rfl⟩ := List.cons.inj hsplit
        exact .inl ⟨front, n, back, rfl, hn, hback⟩

theorem entry_ne_panic {node : HurrayCompositeNode} (hread : surface.read node ≠ Exec.panic) :
    surface.entry node ≠ Exec.panic := by
  rw [entry]
  intro h
  rcases Exec.bind_eq_panic.mp h with h | ⟨head, -, h⟩
  · exact hread h
  · split at h
    · simp at h
    · simp [Exec.bind_eq_panic, payloadsFromC_ne_panic] at h

theorem listing_ne_panic (hread : ∀ node, surface.read node ≠ Exec.panic)
    {nodes : List HurrayCompositeNode} : surface.listing nodes ≠ Exec.panic := by
  induction nodes with
  | nil => simp [listing]
  | cons node nodes ih => simp [listing, Exec.bind_eq_panic, ih, entry_ne_panic (hread node)]

/-- The trees of the entries of an array of one tree. -/
theorem exists_tree (hlists : surface.Lists treeOf)
    {nodes : List HurrayCompositeNode} {entries : List (Entry ρ)} (h : Headed nodes)
    (hshape : OneTree nodes) (hentries : surface.listing nodes = .ok entries) :
    ∃ x, surface.tree nodes = .ok x ∧ (treeOf x).preorder = entries := by
  have hcodes := RoseTree.codes_one.mpr hshape
  rw [tree_of_codes h hcodes, hentries]
  rw [RoseTree.codes_congr (arities_of_listing hentries)] at hcodes
  obtain ⟨t, ht, rfl⟩ := RoseTree.codes_one.mp hcodes
  refine ⟨surface.value t, ?_, ?_⟩
  · simp [RoseTree.grow_preorder ht]
  · rw [hlists.treeOf_value ht]

/-- An array is converted to a value just when it lists the tree of the value. -/
theorem tree_eq_ok (hlists : surface.Lists treeOf)
    {nodes : List HurrayCompositeNode} {x : β} :
    surface.tree nodes = .ok x ↔ Headed nodes ∧ surface.Reads nodes (treeOf x).preorder := by
  constructor
  · intro htree
    have hhead : Headed nodes := by
      by_contra h
      simp [tree_of_not_headed h] at htree
    have hshape : OneTree nodes := by
      by_contra h
      simp [tree_of_not_oneTree hhead h] at htree
    refine ⟨hhead, ?_⟩
    have hlisting := htree
    rw [tree_of_codes hhead (RoseTree.codes_one.mpr hshape), Exec.bind_eq_ok] at hlisting
    obtain ⟨entries, hentries, -⟩ := hlisting
    obtain ⟨y, hy, rfl⟩ := exists_tree hlists hhead hshape hentries
    obtain rfl : y = x := by simpa [hy] using htree
    exact listing_forall₂.mp hentries
  · rintro ⟨hhead, hreads⟩
    have hentries := listing_forall₂.mpr hreads
    have hcodes : Codes HurrayCompositeNode.arity 1 nodes = true := by
      rw [RoseTree.codes_congr (arities_of_listing hentries), RoseTree.codes_one]
      exact ⟨treeOf x, hlists.counted x, rfl⟩
    rw [tree_of_codes hhead hcodes, hentries]
    simp [RoseTree.grow_preorder (hlists.counted x), hlists.value_treeOf]

theorem tree_eq_fail (hlists : surface.Lists treeOf)
    {nodes : List HurrayCompositeNode} {status : HurrayStatus} :
    surface.tree nodes = Exec.fail status ↔ surface.Refuses nodes status := by
  by_cases hhead : Headed nodes
  · by_cases hshape : OneTree nodes
    · rw [tree_of_codes hhead (RoseTree.codes_one.mpr hshape), bind_eq_fail, listing_eq_fail]
      constructor
      · rintro (h | ⟨entries, hentries, h⟩)
        · exact .node hhead hshape h
        · obtain ⟨y, hy, -⟩ := exists_tree hlists hhead hshape hentries
          rw [tree_of_codes hhead (RoseTree.codes_one.mpr hshape), hentries, Exec.ok_bind, h] at hy
          simp at hy
      · intro h
        cases h with
        | head h => exact absurd hhead h
        | shape _ h => exact absurd hshape h
        | node _ _ h => exact .inl h
    · rw [tree_of_not_oneTree hhead hshape]
      constructor
      · intro h
        cases h
        exact .shape hhead hshape
      · intro h
        cases h with
        | head h => exact absurd hhead h
        | shape _ _ => rfl
        | node _ h _ => exact absurd h hshape
  · rw [tree_of_not_headed hhead]
    constructor
    · intro h
      cases h
      exact .head hhead
    · intro h
      cases h with
      | head _ => rfl
      | shape h _ => exact absurd h hhead
      | node h _ _ => exact absurd h hhead

theorem tree_ne_panic (hread : ∀ node, surface.read node ≠ Exec.panic) {nodes : List HurrayCompositeNode} :
    surface.tree nodes ≠ Exec.panic := by
  by_cases hhead : Headed nodes
  · by_cases hshape : OneTree nodes
    · rw [tree_of_codes hhead (RoseTree.codes_one.mpr hshape)]
      simp [Exec.bind_eq_panic, listing_ne_panic hread]
    · simp [tree_of_not_oneTree hhead hshape]
  · simp [tree_of_not_headed hhead]

theorem headed_of_reads {nodes : List HurrayCompositeNode} {node : ρ} {count : ℕ}
    {entries : List (Entry ρ)} (h : surface.Reads nodes (.composite node count :: entries)) :
    Headed nodes := by
  cases h with
  | @cons root _ rest _ hroot _ =>
    refine ⟨root, rest, rfl, ?_⟩
    rw [entry, Exec.bind_eq_ok] at hroot
    obtain ⟨head, -, hroot⟩ := hroot
    by_contra hkind
    simp [hkind, Exec.bind_eq_ok] at hroot

/-- The root that was checked is the head of what is built. -/
theorem exists_composite (hlists : surface.Lists treeOf) {nodes : List HurrayCompositeNode} {x : β}
    (h : surface.tree nodes = .ok x) : ∃ node members, x = surface.composite node members := by
  obtain ⟨⟨root, rest, rfl, hkind⟩, hreads⟩ := (tree_eq_ok hlists).mp h
  induction x using hlists.induct with
  | _tensor node buffers =>
    rw [hlists.tensor, RoseTree.preorder] at hreads
    obtain ⟨hroot, -⟩ := List.forall₂_cons.mp hreads
    rw [entry, Exec.bind_eq_ok] at hroot
    obtain ⟨head, -, hroot⟩ := hroot
    simp [hkind] at hroot
  | _composite node members _ => exact ⟨node, members, rfl⟩

end Surface

/-- The listing of a composite is the preorder of its tree. -/
def streamTreeOf : CompositeNode → RoseTree (Entry TensorDescriptor)
  | .tensor descriptor buffers => .node (.tensor descriptor buffers) []
  | .composite head members => .node (.composite head members.length) (members.map streamTreeOf)

def fileTreeOf : FileCompositeNode → RoseTree (Entry (TensorDescriptor × String))
  | .tensor name descriptor buffers => .node (.tensor (descriptor, name) buffers) []
  | .composite name head members =>
      .node (.composite (head, name) members.length) (members.map fileTreeOf)

theorem streamSurface_lists : streamSurface.Lists streamTreeOf where
  tensor descriptor buffers := by simp [streamSurface, streamTreeOf]
  composite head members := by simp [streamSurface, streamTreeOf]
  induct tensor composite := CompositeNode.induct tensor composite

theorem fileSurface_lists : fileSurface.Lists fileTreeOf where
  tensor node buffers := by simp [fileSurface, fileTreeOf]
  composite node members := by simp [fileSurface, fileTreeOf]
  induct tensor composite := FileCompositeNode.induct
    (fun name descriptor => tensor (descriptor, name))
    (fun name head => composite (head, name))

theorem streamSurface_read_ne_panic (node : HurrayCompositeNode) :
    streamSurface.read node ≠ Exec.panic := by
  simp [streamSurface, descriptorFromC]

theorem fileSurface_read_ne_panic (node : HurrayCompositeNode) :
    fileSurface.read node ≠ Exec.panic := by
  simp [fileSurface, descriptorFromC, Exec.bind_eq_panic, strFromC_ne_panic]

theorem streamTree_verdict (nodes : List HurrayCompositeNode) :
    (∀ head members, streamTree nodes = .ok (head, members) ↔
      streamSurface.Reads nodes (streamTreeOf (.composite head members)).preorder) ∧
    (∀ status, streamTree nodes = Exec.fail status ↔ streamSurface.Refuses nodes status) ∧
    streamTree nodes ≠ Exec.panic := by
  have hpanic := @Surface.tree_ne_panic _ _ streamSurface streamSurface_read_ne_panic nodes
  have hreads : ∀ head members, streamSurface.tree nodes = .ok (.composite head members) ↔
      streamSurface.Reads nodes (streamTreeOf (.composite head members)).preorder := by
    intro head members
    rw [Surface.tree_eq_ok streamSurface_lists, and_iff_right_of_imp]
    intro h
    rw [streamTreeOf, RoseTree.preorder] at h
    exact Surface.headed_of_reads h
  simp only [← hreads, ← Surface.tree_eq_fail streamSurface_lists, streamTree]
  cases htree : streamSurface.tree nodes with
  | error fault =>
    cases fault with
    | error status => simp [Exec.fail, Exec.panic, bind, Except.bind]
    | panic => exact absurd htree hpanic
  | ok x =>
    obtain ⟨head, members, rfl⟩ := Surface.exists_composite streamSurface_lists htree
    simp [streamSurface]

theorem fileTree_verdict (nodes : List HurrayCompositeNode) :
    (∀ name head members, fileTree nodes = .ok (name, head, members) ↔
      fileSurface.Reads nodes (fileTreeOf (.composite name head members)).preorder) ∧
    (∀ status, fileTree nodes = Exec.fail status ↔ fileSurface.Refuses nodes status) ∧
    fileTree nodes ≠ Exec.panic := by
  have hpanic := @Surface.tree_ne_panic _ _ fileSurface fileSurface_read_ne_panic nodes
  have hreads : ∀ name head members, fileSurface.tree nodes = .ok (.composite name head members) ↔
      fileSurface.Reads nodes (fileTreeOf (.composite name head members)).preorder := by
    intro name head members
    rw [Surface.tree_eq_ok fileSurface_lists, and_iff_right_of_imp]
    intro h
    rw [fileTreeOf, RoseTree.preorder] at h
    exact Surface.headed_of_reads h
  simp only [← hreads, ← Surface.tree_eq_fail fileSurface_lists, fileTree]
  cases htree : fileSurface.tree nodes with
  | error fault =>
    cases fault with
    | error status => simp [Exec.fail, Exec.panic, bind, Except.bind]
    | panic => exact absurd htree hpanic
  | ok x =>
    obtain ⟨node, members, rfl⟩ := Surface.exists_composite fileSurface_lists htree
    simp [fileSurface]

/-- An array from C is the composite whose listing it is, in a stream and in a file. Any other array is
refused, for its root, for its shape or for a node, in that order; no array is found wrong later. -/
theorem tree_verdicts (nodes : List HurrayCompositeNode) :
    ((∀ head members, streamTree nodes = .ok (head, members) ↔
        streamSurface.Reads nodes (streamTreeOf (.composite head members)).preorder) ∧
      (∀ status, streamTree nodes = Exec.fail status ↔ streamSurface.Refuses nodes status) ∧
      streamTree nodes ≠ Exec.panic) ∧
    (∀ name head members, fileTree nodes = .ok (name, head, members) ↔
        fileSurface.Reads nodes (fileTreeOf (.composite name head members)).preorder) ∧
    (∀ status, fileTree nodes = Exec.fail status ↔ fileSurface.Refuses nodes status) ∧
    fileTree nodes ≠ Exec.panic :=
  ⟨streamTree_verdict nodes, fileTree_verdict nodes⟩

end Hurray.Ffi
