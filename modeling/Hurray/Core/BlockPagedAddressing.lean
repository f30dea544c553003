import Hurray.Base.MixedRadix
import Hurray.Core.SparseAddressing

/-!
Element lookup of the block-paged layout: a table names the physical page of each page
of a sequence, and sequences can share pages. The index buffers are of either width.
-/
namespace Hurray.Core.BlockPaged
open Hurray.Base

section Lookup
variable {T : Type}

/-- The flattened place of a slot, head and dimension of a page. -/
def flatten (physPage pageSize offsetInPage numHeads h headDim d : UInt64) : Option UInt64 := do
  let v ← checkedMul physPage pageSize
  let v ← checkedAdd v offsetInPage
  let v ← checkedMul v numHeads
  let v ← checkedAdd v h
  let v ← checkedMul v headDim
  checkedAdd v d

/-- The lookup for any index width; `into` widens an index. -/
def elementOffsetImpl (into : T → UInt64) (s t h d : UInt64) (pageSize : UInt32)
    (numPages numHeads headDim : UInt64) (seqPtr blockTable : Slice T) : Result UInt64 := do
  let numSeqs := UInt64.ofNat (seqPtr.elems.length - 1)
  Exec.reject (s ≥ numSeqs) (.indexOutOfRange 0 s numSeqs)
  Exec.reject (h ≥ numHeads) (.indexOutOfRange 1 h numHeads)
  Exec.reject (d ≥ headDim) (.indexOutOfRange 2 d headDim)
  let pageSize := pageSize.toUInt64
  let btStart ← Exec.index seqPtr.elems s.toNat
  let next ← Exec.inBits 64 (s.toNat + 1)
  let btEnd ← Exec.index seqPtr.elems next
  let seqPageCount ← Exec.orFail (checkedSub (into btEnd) (into btStart)) (.invalidLayout
    "block-paged: seq_ptr is not non-decreasing (storage invariant violated)")
  let pageInSeq ← Exec.div t pageSize
  let offsetInPage ← Exec.rem t pageSize
  Exec.reject (pageInSeq ≥ seqPageCount)
    (.indexOutOfRange 0 t (saturatingMul seqPageCount pageSize))
  let btIdx ← Exec.orFail (checkedAdd (into btStart) pageInSeq) .addressOverflow
  Exec.reject (btIdx.toNat ≥ blockTable.elems.length)
    (.indexOutOfRange 0 btIdx (UInt64.ofNat blockTable.elems.length))
  let physPage ← Exec.index blockTable.elems btIdx.toNat
  Exec.reject (into physPage ≥ numPages) (.indexOutOfRange 0 (into physPage) numPages)
  Exec.orFail (flatten (into physPage) pageSize offsetInPage numHeads h headDim d) .addressOverflow

def elementOffsetU32 (s t h d : UInt64) (pageSize : UInt32) (numPages numHeads headDim : UInt64)
    (blockTable seqPtr : Slice UInt32) : Result UInt64 :=
  elementOffsetImpl UInt32.toUInt64 s t h d pageSize numPages numHeads headDim seqPtr blockTable

def elementOffsetU64 (s t h d : UInt64) (pageSize : UInt32) (numPages numHeads headDim : UInt64)
    (blockTable seqPtr : Slice UInt64) : Result UInt64 :=
  elementOffsetImpl id s t h d pageSize numPages numHeads headDim seqPtr blockTable

end Lookup

section Validation

def validateIndexBuffersImpl (numPages : UInt64) (numSeqs : UInt32)
    (seqPtr blockTable : Slice UInt64) : Result Unit := do
  let expectedSpLen := min (numSeqs.toNat + 1) (2 ^ 64 - 1)
  Exec.reject (seqPtr.elems.length ≠ expectedSpLen) (.invalidLayout
    (s!"block-paged: seq_ptr length {seqPtr.elems.length} does not equal num_seqs + 1 = " ++
      s!"{expectedSpLen}"))
  let first ← Exec.index seqPtr.elems 0
  Exec.reject (first ≠ 0) (.invalidLayout s!"block-paged: seq_ptr[0] must be 0, got {first}")
  let pairs ← Exec.subSize seqPtr.elems.length 1
  (List.range pairs).forM (checkRising (fun i a b =>
    s!"block-paged: seq_ptr is not non-decreasing at index {i}: " ++
      s!"seq_ptr[{i}]={a} > seq_ptr[{i + 1}]={b}") seqPtr.elems)
  let totalLogicalPages ← Exec.index seqPtr.elems numSeqs.toNat
  Exec.reject (totalLogicalPages ≠ UInt64.ofNat blockTable.elems.length) (.invalidLayout
    (s!"block-paged: seq_ptr[num_seqs]={totalLogicalPages} does not equal " ++
      s!"block_table.len()={blockTable.elems.length}"))
  blockTable.elems.zipIdx.forM fun p => Exec.reject (p.1 ≥ numPages) (.invalidLayout
    s!"block-paged: block_table[{p.2}]={p.1} >= num_pages={numPages}")

/-- The same indices, one word wider. -/
def widen (xs : Slice UInt32) : Slice UInt64 :=
  ⟨xs.elems.map UInt32.toUInt64, by rw [List.length_map]; exact xs.length_lt⟩

def validateIndexBuffersU64 (numPages : UInt64) (numSeqs : UInt32)
    (seqPtr blockTable : Slice UInt64) : Result Unit :=
  validateIndexBuffersImpl numPages numSeqs seqPtr blockTable

def validateIndexBuffersU32 (numPages : UInt64) (numSeqs : UInt32)
    (seqPtr blockTable : Slice UInt32) : Result Unit :=
  validateIndexBuffersImpl numPages numSeqs (widen seqPtr) (widen blockTable)

end Validation

/-- What the validation asks for. -/
structure Accepted (numPages : UInt64) (numSeqs : UInt32) (seqPtr blockTable : List UInt64) : Prop
    extends Pointers blockTable seqPtr where
  length_eq : seqPtr.length = numSeqs.toNat + 1
  inBounds : ∀ page ∈ blockTable, page < numPages

structure Query where
  s : UInt64
  t : UInt64
  h : UInt64
  d : UInt64

section Statement
variable (pageSize : UInt32) (numPages numHeads headDim : UInt64) (seqPtr blockTable : List UInt64)

/-- The sequence is one of the batch, the token is in its pages, head and dimension are in range. -/
def Query.InRange (q : Query) : Prop :=
  ∃ start stop, seqPtr[q.s.toNat]? = some start ∧ seqPtr[q.s.toNat + 1]? = some stop ∧
    q.t.toNat < (stop.toNat - start.toNat) * pageSize.toNat ∧ q.h < numHeads ∧ q.d < headDim

/-- The physical page that holds the token. -/
def Query.page (q : Query) : Option UInt64 :=
  (seqPtr[q.s.toNat]?).bind fun start => blockTable[start.toNat + q.t.toNat / pageSize.toNat]?

/-- The slot of the token in its page. -/
def Query.slot (q : Query) : ℕ := q.t.toNat % pageSize.toNat

/-- A lookup that returns a place in the pool for each query in range, and the same place for just
those queries that agree in the page, the slot, the head and the dimension. -/
structure Exact (lookup : Query → Result UInt64) : Prop where
  returns : ∀ q : Query, q.InRange pageSize numHeads headDim seqPtr → ∃ flat,
    lookup q = .ok flat ∧
      flat.toNat < numPages.toNat * pageSize.toNat * numHeads.toNat * headDim.toNat
  aliases : ∀ q r : Query, q.InRange pageSize numHeads headDim seqPtr →
    r.InRange pageSize numHeads headDim seqPtr →
      (lookup q = lookup r ↔ q.page pageSize seqPtr blockTable = r.page pageSize seqPtr blockTable ∧
        q.slot pageSize = r.slot pageSize ∧ q.h = r.h ∧ q.d = r.d)

end Statement

section Validated
variable {numPages : UInt64} {numSeqs : UInt32} {u : Unit}

theorem validateIndexBuffersImpl_eq_ok {seqPtr blockTable : Slice UInt64} :
    validateIndexBuffersImpl numPages numSeqs seqPtr blockTable = .ok u ↔
      Accepted numPages numSeqs seqPtr.elems blockTable.elems := by
  have hseq := seqPtr.length_lt
  have htable := blockTable.length_lt
  have hcount : (UInt64.ofNat blockTable.elems.length).toNat = blockTable.elems.length :=
    UInt64.toNat_ofNat_of_lt' (by show _ < 2 ^ 64; omega)
  have hpages : (∀ p ∈ blockTable.elems.zipIdx, (Exec.reject (p.1 ≥ numPages) (.invalidLayout
      s!"block-paged: block_table[{p.2}]={p.1} >= num_pages={numPages}") : Result Unit) = .ok ()) ↔
        ∀ page ∈ blockTable.elems, page < numPages := by
    simp only [Exec.reject_eq_ok, ge_iff_le, UInt64.not_le]
    constructor
    · intro h page hmem
      obtain ⟨k, hk⟩ := List.getElem?_of_mem hmem
      exact h (page, k) (List.mk_mem_zipIdx_iff_getElem?.mpr hk)
    · intro h p hmem
      exact h p.1 (List.fst_mem_of_mem_zipIdx hmem)
  simp only [validateIndexBuffersImpl, Exec.bind_eq_ok, Exec.index_eq_ok, Exec.reject_eq_ok,
    not_not, Exec.subSize_eq_ok, exists_const]
  constructor
  · intro h
    obtain ⟨hlen, _, hfirst, rfl, _, ⟨-, rfl⟩, _, hrising, total, hlast, rfl, hall⟩ := h
    have hlen : seqPtr.elems.length = numSeqs.toNat + 1 := by omega
    refine ⟨⟨hfirst, forM_checkRising_eq_ok.mp hrising, ?_⟩, hlen,
      hpages.mp (Exec.forM_eq_ok.mp hall)⟩
    intro last h
    rw [hlen, Nat.add_sub_cancel, hlast] at h
    rw [← Option.some_inj.mp h, hcount]
  · intro h
    have hlen := h.length_eq
    have hlast : seqPtr.elems[numSeqs.toNat]? = some (UInt64.ofNat blockTable.elems.length) := by
      rw [List.getElem?_eq_getElem (by omega)]
      have hends := h.ends _ (List.getElem?_eq_getElem (by omega))
      simp only [hlen, Nat.add_sub_cancel] at hends
      rw [UInt64.toNat_inj.mp (hends.trans hcount.symm)]
    exact ⟨by omega, 0, h.starts, rfl, _, ⟨by omega, rfl⟩, (),
      forM_checkRising_eq_ok.mpr h.monotone, _, hlast, rfl,
      Exec.forM_eq_ok.mpr (hpages.mpr h.inBounds)⟩

end Validated

section Widths
variable {T : Type} {into : T → UInt64} {xs : List T} {n : ℕ}

/-- A read of widened indices is a read that is widened after. -/
theorem index_map_bind {β : Type} {g : UInt64 → Result β} :
    (Exec.index (xs.map into) n >>= g) = Exec.index xs n >>= fun a => g (into a) := by
  rw [Exec.index, Exec.index, List.getElem?_map]
  cases xs[n]? <;> rfl

/-- Both entry points return the same on equal indices, valid or not. -/
theorem elementOffsetU32_eq (s t h d : UInt64) (pageSize : UInt32) (numPages numHeads headDim : UInt64)
    (blockTable seqPtr : Slice UInt32) :
    elementOffsetU32 s t h d pageSize numPages numHeads headDim blockTable seqPtr =
      elementOffsetU64 s t h d pageSize numPages numHeads headDim (widen blockTable)
        (widen seqPtr) := by
  simp only [elementOffsetU32, elementOffsetU64, elementOffsetImpl, widen, List.length_map,
    index_map_bind, id]

end Widths

section Lookup
variable {pageSize : UInt32} {numPages numHeads headDim : UInt64} {numSeqs : UInt32}
  {seqPtr blockTable : Slice UInt64}

open MixedRadix

theorem toNat_pageSize : pageSize.toUInt64.toNat = pageSize.toNat := by
  simp

/-- Below the size of the pool no step of the flattening overflows. -/
theorem exists_flatten {phys off h d : UInt64}
    (hfits : numPages.toNat * pageSize.toNat * numHeads.toNat * headDim.toNat < 2 ^ 64)
    (hphys : phys < numPages) (hoff : off.toNat < pageSize.toNat) (hh : h < numHeads)
    (hd : d < headDim) :
    ∃ flat, flatten phys pageSize.toUInt64 off numHeads h headDim d = some flat ∧
      flat.toNat = value [headDim.toNat, numHeads.toNat, pageSize.toNat, numPages.toNat]
        [d.toNat, h.toNat, off.toNat, phys.toNat] := by
  have hh := UInt64.lt_iff_toNat_lt.mp hh
  have hd := UInt64.lt_iff_toNat_lt.mp hd
  have hphys := UInt64.lt_iff_toNat_lt.mp hphys
  have hwithin : Within [headDim.toNat, numHeads.toNat, pageSize.toNat, numPages.toNat]
      [d.toNat, h.toNat, off.toNat, phys.toNat] := by
    simp only [within_cons, within_nil]
    exact ⟨hd, hh, hoff, hphys, trivial⟩
  have hlt := value_lt hwithin
  have hvalue : value [headDim.toNat, numHeads.toNat, pageSize.toNat, numPages.toNat]
      [d.toNat, h.toNat, off.toNat, phys.toNat] =
        ((phys.toNat * pageSize.toNat + off.toNat) * numHeads.toNat + h.toNat) * headDim.toNat +
          d.toNat := by
    simp only [value_cons, value_nil]
    ring
  have hprod : [headDim.toNat, numHeads.toNat, pageSize.toNat, numPages.toNat].prod =
      numPages.toNat * pageSize.toNat * numHeads.toNat * headDim.toNat := by
    simp only [List.prod_cons, List.prod_nil]
    ring
  rw [hvalue, hprod] at hlt
  -- Each step of the flattening is at most the whole of it.
  have hgrow : ∀ a n b : ℕ, 0 < n → a ≤ a * n + b := fun a n b hn =>
    (Nat.le_mul_of_pos_right a hn).trans (Nat.le_add_right _ _)
  have hlast := hgrow ((phys.toNat * pageSize.toNat + off.toNat) * numHeads.toNat + h.toNat)
    headDim.toNat d.toNat (by omega)
  have hfirst := hgrow (phys.toNat * pageSize.toNat + off.toNat) numHeads.toNat h.toNat (by omega)
  obtain ⟨a, hmul, hadd, ha⟩ := exists_checkedMulAdd (a := phys) (b := pageSize.toUInt64) (c := off)
    (by rw [toNat_pageSize]; show _ < 2 ^ 64; omega)
  rw [toNat_pageSize] at ha
  obtain ⟨b, hmul', hadd', hb⟩ := exists_checkedMulAdd (a := a) (b := numHeads) (c := h)
    (by rw [ha]; show _ < 2 ^ 64; omega)
  rw [ha] at hb
  obtain ⟨c, hmul'', hadd'', hc⟩ := exists_checkedMulAdd (a := b) (b := headDim) (c := d)
    (by rw [hb]; show _ < 2 ^ 64; omega)
  rw [hb, ← hvalue] at hc
  refine ⟨c, ?_, hc⟩
  simp only [flatten, hmul, hadd, hmul', hadd', hmul'', hadd'', bind, Option.bind]

/-- What the lookup returns for a query in range. -/
theorem elementOffsetU64_eq (hpage : 1 ≤ pageSize)
    (hfits : numPages.toNat * pageSize.toNat * numHeads.toNat * headDim.toNat < 2 ^ 64)
    (h : Accepted numPages numSeqs seqPtr.elems blockTable.elems) {q : Query}
    (hq : q.InRange pageSize numHeads headDim seqPtr.elems) :
    ∃ phys flat, q.page pageSize seqPtr.elems blockTable.elems = some phys ∧ phys < numPages ∧
      elementOffsetU64 q.s q.t q.h q.d pageSize numPages numHeads headDim blockTable seqPtr =
        .ok flat ∧
      flat.toNat = value [headDim.toNat, numHeads.toNat, pageSize.toNat, numPages.toNat]
        [q.d.toNat, q.h.toNat, q.slot pageSize, phys.toNat] := by
  obtain ⟨start, stop, hstart, hstop, ht, hh, hd⟩ := hq
  have hseqlt := seqPtr.length_lt
  have htablelt := blockTable.length_lt
  have hs := (List.getElem?_eq_some_iff.mp hstop).1
  have hle := h.getElem?_le hstart hstop (Nat.le_succ _)
  have hwithin := h.le_length hstop
  have hpos : 0 < pageSize.toNat := UInt32.le_iff_toNat_le.mp hpage
  have hdiv : (q.t / pageSize.toUInt64).toNat = q.t.toNat / pageSize.toNat := by
    rw [UInt64.toNat_div, toNat_pageSize]
  have hmod : (q.t % pageSize.toUInt64).toNat = q.slot pageSize := by
    rw [UInt64.toNat_mod, toNat_pageSize, Query.slot]
  have hpages : q.t.toNat / pageSize.toNat < stop.toNat - start.toNat :=
    (Nat.div_lt_iff_lt_mul hpos).mpr ht
  have hsub : (stop - start).toNat = stop.toNat - start.toNat :=
    UInt64.toNat_sub_of_le _ _ (UInt64.le_iff_toNat_le.mpr hle)
  have hadd : start.toNat + (q.t / pageSize.toUInt64).toNat < UInt64.size := by
    rw [hdiv]
    show _ < 2 ^ 64
    omega
  have hidx : (start + q.t / pageSize.toUInt64).toNat =
      start.toNat + q.t.toNat / pageSize.toNat := by
    rw [toNat_add_of_lt hadd, hdiv]
  have hphys := List.getElem?_eq_getElem
    (show start.toNat + q.t.toNat / pageSize.toNat < blockTable.elems.length by omega)
  have hbound := h.inBounds _ (List.mem_of_getElem? hphys)
  obtain ⟨flat, hflat, hvalue⟩ := exists_flatten hfits hbound
    (by rw [hmod]; exact Nat.mod_lt _ hpos) hh hd
  rw [hmod] at hvalue
  refine ⟨_, flat, ?_, hbound, ?_, hvalue⟩
  · rw [Query.page, hstart, Option.bind_some, hphys]
  · have hseqs : (UInt64.ofNat (seqPtr.elems.length - 1)).toNat = seqPtr.elems.length - 1 :=
      UInt64.toNat_ofNat_of_lt' (by show _ < 2 ^ 64; omega)
    have hne : pageSize.toUInt64 ≠ 0 := by
      intro hzero
      rw [← toNat_pageSize, hzero] at hpos
      exact Nat.lt_irrefl 0 hpos
    have hin : ¬ q.s ≥ UInt64.ofNat (seqPtr.elems.length - 1) := by
      rw [ge_iff_le, UInt64.le_iff_toNat_le, hseqs]
      omega
    have htoken : ¬ q.t / pageSize.toUInt64 ≥ stop - start := by
      rw [ge_iff_le, UInt64.le_iff_toNat_le, hdiv, hsub]
      omega
    have hentry : ¬ (start + q.t / pageSize.toUInt64).toNat ≥ blockTable.elems.length := by
      rw [hidx]
      omega
    have hread : (Exec.index blockTable.elems (start + q.t / pageSize.toUInt64).toNat :
        Result UInt64) = .ok (blockTable.elems[start.toNat + q.t.toNat / pageSize.toNat]) := by
      rw [hidx]
      exact Exec.index_eq_ok.mpr hphys
    simp only [elementOffsetU64, elementOffsetImpl, Exec.reject_of_not hin, Exec.ok_bind,
      Exec.reject_of_not (show ¬ q.h ≥ numHeads from UInt64.not_le.mpr hh),
      Exec.reject_of_not (show ¬ q.d ≥ headDim from UInt64.not_le.mpr hd),
      Exec.index_eq_ok.mpr hstart, Exec.inBits, if_pos (show q.s.toNat + 1 < 2 ^ 64 by omega),
      Exec.index_eq_ok.mpr hstop, id, checkedSub, if_pos (UInt64.le_iff_toNat_le.mpr hle),
      Exec.orFail_some, Exec.div, Exec.rem, if_neg hne, Exec.reject_of_not htoken,
      checkedAdd_eq_some.mpr ⟨hadd, rfl⟩, Exec.reject_of_not hentry, hread,
      Exec.reject_of_not (UInt64.not_le.mpr hbound), hflat]

theorem exact_of_accepted (hpage : 1 ≤ pageSize)
    (hfits : numPages.toNat * pageSize.toNat * numHeads.toNat * headDim.toNat < 2 ^ 64)
    (h : Accepted numPages numSeqs seqPtr.elems blockTable.elems) :
    Exact pageSize numPages numHeads headDim seqPtr.elems blockTable.elems fun q =>
      elementOffsetU64 q.s q.t q.h q.d pageSize numPages numHeads headDim blockTable seqPtr := by
  have hslot : ∀ q : Query, q.slot pageSize < pageSize.toNat := fun q =>
    Nat.mod_lt _ (UInt32.le_iff_toNat_le.mp hpage)
  have hwithin : ∀ (q : Query) (phys : UInt64), q.InRange pageSize numHeads headDim seqPtr.elems →
      phys < numPages → Within [headDim.toNat, numHeads.toNat, pageSize.toNat, numPages.toNat]
        [q.d.toNat, q.h.toNat, q.slot pageSize, phys.toNat] := by
    intro q phys hq hphys
    obtain ⟨_, _, -, -, -, hh, hd⟩ := hq
    simp only [within_cons, within_nil]
    exact ⟨UInt64.lt_iff_toNat_lt.mp hd, UInt64.lt_iff_toNat_lt.mp hh, hslot q,
      UInt64.lt_iff_toNat_lt.mp hphys, trivial⟩
  constructor
  · intro q hq
    obtain ⟨phys, flat, -, hphys, hlookup, hvalue⟩ := elementOffsetU64_eq hpage hfits h hq
    refine ⟨flat, hlookup, ?_⟩
    have hlt := value_lt (hwithin q phys hq hphys)
    rw [← hvalue, List.prod_cons, List.prod_cons, List.prod_cons, List.prod_singleton] at hlt
    calc flat.toNat < headDim.toNat * (numHeads.toNat * (pageSize.toNat * numPages.toNat)) := hlt
      _ = numPages.toNat * pageSize.toNat * numHeads.toNat * headDim.toNat := by ring
  · intro q r hq hr
    obtain ⟨phys, flat, hpageq, hphys, hlookup, hvalue⟩ := elementOffsetU64_eq hpage hfits h hq
    obtain ⟨phys', flat', hpager, hphys', hlookup', hvalue'⟩ :=
      elementOffsetU64_eq hpage hfits h hr
    rw [hlookup, hlookup', hpageq, hpager, Except.ok.injEq, Option.some_inj]
    constructor
    · intro hsame
      rw [hsame, hvalue'] at hvalue
      have hdigits := value_injOn (hwithin r phys' hr hphys') (hwithin q phys hq hphys) hvalue
      simp only [List.cons.injEq, UInt64.toNat_inj, and_true] at hdigits
      obtain ⟨hd, hh, hslots, hpages⟩ := hdigits
      exact ⟨hpages.symm, hslots.symm, hh.symm, hd.symm⟩
    · intro hsame
      obtain ⟨hpages, hslots, hh, hd⟩ := hsame
      rw [← UInt64.toNat_inj, hvalue, hvalue', hpages, hslots, hh, hd]

end Lookup

/-- The lookup on accepted tables whose pool fits a word: of either width it returns a place in the
pool, which two queries share just when they resolve to the same element, and the two entry points
are one function of the indices. -/
theorem lookup_exact (pageSize : UInt32) (numPages numHeads headDim : UInt64) (numSeqs : UInt32)
    (hpage : 1 ≤ pageSize)
    (hfits : numPages.toNat * pageSize.toNat * numHeads.toNat * headDim.toNat < 2 ^ 64) :
    (∀ seqPtr blockTable : Slice UInt64,
      validateIndexBuffersU64 numPages numSeqs seqPtr blockTable = .ok () →
        Exact pageSize numPages numHeads headDim seqPtr.elems blockTable.elems fun q =>
          elementOffsetU64 q.s q.t q.h q.d pageSize numPages numHeads headDim blockTable seqPtr) ∧
    (∀ seqPtr blockTable : Slice UInt32,
      validateIndexBuffersU32 numPages numSeqs seqPtr blockTable = .ok () →
        Exact pageSize numPages numHeads headDim (widen seqPtr).elems (widen blockTable).elems
          fun q =>
            elementOffsetU32 q.s q.t q.h q.d pageSize numPages numHeads headDim blockTable seqPtr) ∧
    ∀ (seqPtr blockTable : Slice UInt32) (q : Query),
      elementOffsetU32 q.s q.t q.h q.d pageSize numPages numHeads headDim blockTable seqPtr =
        elementOffsetU64 q.s q.t q.h q.d pageSize numPages numHeads headDim (widen blockTable)
          (widen seqPtr) := by
  refine ⟨?_, ?_, ?_⟩
  · intro seqPtr blockTable hvalid
    exact exact_of_accepted hpage hfits (validateIndexBuffersImpl_eq_ok.mp hvalid)
  · intro seqPtr blockTable hvalid
    simp only [elementOffsetU32_eq]
    exact exact_of_accepted hpage hfits (validateIndexBuffersImpl_eq_ok.mp hvalid)
  · intro seqPtr blockTable q
    exact elementOffsetU32_eq _ _ _ _ _ _ _ _ _ _

theorem lookup_exact_small :
    Exact 4 5 2 8 (widen ⟨[0, 2, 3], by decide⟩).elems (widen ⟨[0, 1, 0], by decide⟩).elems
      fun q => elementOffsetU32 q.s q.t q.h q.d 4 5 2 8 ⟨[0, 1, 0], by decide⟩
        ⟨[0, 2, 3], by decide⟩ :=
  (lookup_exact 4 5 2 8 2 (by decide) (by decide)).2.1 ⟨[0, 2, 3], by decide⟩
    ⟨[0, 1, 0], by decide⟩ (by decide +kernel)

example : elementOffsetU32 0 4 0 0 4 5 2 8 ⟨[0, 1, 0], by decide⟩ ⟨[0, 2, 3], by decide⟩ =
    .ok 64 := by
  decide +kernel

end Hurray.Core.BlockPaged
