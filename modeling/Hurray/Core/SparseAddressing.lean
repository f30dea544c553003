import Hurray.Base.BinarySearch
import Hurray.Base.Checked
import Hurray.Core.Error

/-!
Element lookup of the coordinate list and of the two compressed matrix layouts. They
are run on index buffers that nothing has checked, and return the place of the element
among the stored ones, or nothing where it is not stored.
-/
namespace Hurray.Core
open Hurray.Base

section Lookups

namespace Coo

/-- The coordinates of entry `r`. -/
def coords (indices : List UInt64) (rank r : ℕ) : Result (List UInt64) := do
  let start ← Exec.inBits 64 (r * rank)
  let stop ← Exec.inBits 64 (start + rank)
  Exec.slice indices start (stop - start)

def searchEntries (indices query : List UInt64) (lo hi : ℕ) : Result (Option UInt64) :=
  if lo < hi then do
    let mid := lo + (hi - lo) / 2
    let _ ← Exec.inBits 64 mid
    let entry ← coords indices query.length mid
    match compare entry query with
    | .lt => do
        let _ ← Exec.inBits 64 (mid + 1)
        searchEntries indices query (mid + 1) hi
    | .gt => searchEntries indices query lo mid
    | .eq => pure (some (UInt64.ofNat mid))
  else pure none
termination_by hi - lo

def scanEntries (indices query : List UInt64) : List ℕ → Result (Option UInt64)
  | [] => pure none
  | r :: rs => do
      let entry ← coords indices query.length r
      if entry = query then pure (some (UInt64.ofNat r)) else scanEntries indices query rs

def elementOffset (query : List UInt64) (isSorted : Bool) (indices : Slice UInt64) :
    Result (Option UInt64) := do
  let rank := query.length
  Exec.reject (rank = 0) (.indexRankMismatch 0 0)
  Exec.reject (indices.elems.length % rank ≠ 0) (.invalidLayout
    s!"coo: indices.len()={indices.elems.length} is not a multiple of rank={rank}")
  let nnz := indices.elems.length / rank
  if isSorted then searchEntries indices.elems query 0 nnz
  else scanEntries indices.elems query (List.range nnz)

end Coo

/-- The check of one step of an array that must not fall. -/
def checkRising (text : ℕ → UInt64 → UInt64 → String) (xs : List UInt64) (k : ℕ) :
    Result Unit := do
  let a ← Exec.index xs k
  let b ← Exec.index xs (k + 1)
  Exec.reject (a > b) (.invalidLayout (text k a b))

/-- What the texts of a compressed matrix layout call the layout, its buffers and its slices. -/
structure CompressedNames where
  layout : String
  ptr : String
  indices : String
  count : String

/-- The lookup that the two compressed matrix layouts share: `outer` picks a slice of the
indices, and `inner` is searched in it. -/
def compressedOffset (names : CompressedNames) (dim : UInt32) (outer inner : UInt64)
    (indices ptr : Slice UInt64) : Result (Option UInt64) := do
  Exec.reject (ptr.elems = []) (.invalidLayout
    s!"{names.layout}: {names.ptr} must have at least {names.count}+1 = 1 entries")
  let count ← Exec.subSize ptr.elems.length 1
  let count := UInt64.ofNat count
  Exec.reject (outer ≥ count) (.indexOutOfRange dim outer count)
  let start ← Exec.index ptr.elems outer.toNat
  let next ← Exec.inBits 64 (outer.toNat + 1)
  let stop ← Exec.index ptr.elems next
  if start > stop ∨ indices.elems.length < stop.toNat then do
    let after ← Exec.addU64 outer 1
    Exec.fail (.invalidLayout (s!"{names.layout}: {names.ptr}[{outer}..{after}] = " ++
      s!"[{start}..{stop}] out of bounds for {names.indices}.len()={indices.elems.length}"))
  else do
    let part ← Exec.slice indices.elems start.toNat (stop.toNat - start.toNat)
    match binarySearch part inner with
    | some k => do
        let place ← Exec.inBits 64 (start.toNat + k)
        pure (some (UInt64.ofNat place))
    | none => pure none

def Csr.elementOffset (query : List UInt64) (colIndices rowPtr : Slice UInt64) :
    Result (Option UInt64) := do
  Exec.reject (query.length ≠ 2) (.indexRankMismatch query.length 2)
  let row ← Exec.index query 0
  let col ← Exec.index query 1
  compressedOffset ⟨"csr", "row_ptr", "col_indices", "nrows"⟩ 0 row col colIndices rowPtr

def Csc.elementOffset (query : List UInt64) (rowIndices colPtr : Slice UInt64) :
    Result (Option UInt64) := do
  Exec.reject (query.length ≠ 2) (.indexRankMismatch query.length 2)
  let row ← Exec.index query 0
  let col ← Exec.index query 1
  compressedOffset ⟨"csc", "col_ptr", "row_indices", "ncols"⟩ 1 col row rowIndices colPtr

end Lookups

namespace Coo

/-- The entries that a buffer of coordinates holds. -/
def entries (indices : List UInt64) (rank : ℕ) : List (List UInt64) :=
  (List.range (indices.length / rank)).map fun r => (indices.drop (r * rank)).take rank

section Entries
variable {indices query : List UInt64} {rank r lo hi : ℕ}

theorem length_entries : (entries indices rank).length = indices.length / rank := by
  simp [entries]

theorem entries_getElem? (h : r < indices.length / rank) :
    (entries indices rank)[r]? = some ((indices.drop (r * rank)).take rank) := by
  simp [entries, List.getElem?_range h]

theorem compareAt_entries (h : r < indices.length / rank) : compareAt (entries indices rank) query r =
    compare ((indices.drop (r * rank)).take rank) query := by
  rw [compareAt, entries_getElem? h, Option.elim_some]

theorem coords_eq (hlt : indices.length < 2 ^ 63) (h : r < indices.length / rank) :
    coords indices rank r = .ok ((indices.drop (r * rank)).take rank) := by
  have hwithin : r * rank + rank ≤ indices.length := by
    rw [← Nat.succ_mul]
    exact (Nat.mul_le_mul_right rank h).trans (Nat.div_mul_le_self _ _)
  rw [coords, Exec.inBits, if_pos (by omega), Exec.ok_bind, Exec.inBits, if_pos (by omega),
    Exec.ok_bind, Nat.add_sub_cancel_left]
  exact Exec.slice_eq_ok.mpr ⟨hwithin, rfl⟩

/-- The loop is a binary search of the entries, on any buffer. -/
theorem searchEntries_eq (hlt : indices.length < 2 ^ 63)
    (hi_le : hi ≤ indices.length / query.length) : searchEntries indices query lo hi =
      .ok ((bisect (compareAt (entries indices query.length) query) lo hi).map UInt64.ofNat) := by
  have hcount : indices.length / query.length ≤ indices.length := Nat.div_le_self _ _
  induction lo, hi using bisect.induct (compareAt (entries indices query.length) query) with
  | case1 lo hi hle hcmp ih =>
    have hmid : lo + (hi - lo) / 2 < indices.length / query.length := by omega
    rw [bisect, if_pos hle, hcmp, ← ih hi_le, searchEntries, if_pos hle]
    simp only [Exec.inBits, if_pos (show lo + (hi - lo) / 2 < 2 ^ 64 by omega),
      if_pos (show lo + (hi - lo) / 2 + 1 < 2 ^ 64 by omega), Exec.ok_bind, coords_eq hlt hmid]
    rw [compareAt_entries hmid] at hcmp
    rw [hcmp]
  | case2 lo hi hle hcmp ih =>
    have hmid : lo + (hi - lo) / 2 < indices.length / query.length := by omega
    rw [bisect, if_pos hle, hcmp, ← ih (by omega), searchEntries, if_pos hle]
    simp only [Exec.inBits, if_pos (show lo + (hi - lo) / 2 < 2 ^ 64 by omega), Exec.ok_bind,
      coords_eq hlt hmid]
    rw [compareAt_entries hmid] at hcmp
    rw [hcmp]
  | case3 lo hi hle hcmp =>
    have hmid : lo + (hi - lo) / 2 < indices.length / query.length := by omega
    rw [bisect, if_pos hle, hcmp, searchEntries, if_pos hle]
    simp only [Exec.inBits, if_pos (show lo + (hi - lo) / 2 < 2 ^ 64 by omega), Exec.ok_bind,
      coords_eq hlt hmid]
    rw [compareAt_entries hmid] at hcmp
    rw [hcmp]
    rfl
  | case4 lo hi hle =>
    rw [searchEntries, if_neg hle, bisect, if_neg hle]
    rfl

theorem scanEntries_eq (hlt : indices.length < 2 ^ 63) {rs : List ℕ}
    (h : ∀ r ∈ rs, r < indices.length / query.length) : scanEntries indices query rs =
      .ok ((rs.find? fun r => (entries indices query.length)[r]? = some query).map
        UInt64.ofNat) := by
  induction rs with
  | nil => rfl
  | cons r rs ih =>
    obtain ⟨hr, hrest⟩ := List.forall_mem_cons.mp h
    rw [scanEntries, coords_eq hlt hr, Exec.ok_bind, List.find?_cons, entries_getElem? hr]
    by_cases hsame : (indices.drop (r * query.length)).take query.length = query
    · simp only [hsame, if_true, decide_true]
      rfl
    · simp only [hsame, if_false, Option.some.injEq, decide_false]
      exact ih hrest

/-- What the lookup returns on any buffer: it never stops the program. -/
theorem elementOffset_eq {isSorted : Bool} {indices : Slice UInt64} (hrank : query ≠ [])
    (hlen : indices.elems.length % query.length = 0) :
    elementOffset query isSorted indices = .ok ((if isSorted then
      bisect (compareAt (entries indices.elems query.length) query) 0
        (indices.elems.length / query.length)
      else (List.range (indices.elems.length / query.length)).find? fun r =>
        (entries indices.elems query.length)[r]? = some query).map UInt64.ofNat) := by
  have hpos : query.length ≠ 0 := fun h => hrank (List.length_eq_zero_iff.mp h)
  have hsearch : searchEntries indices.elems query 0 (indices.elems.length / query.length) = _ :=
    searchEntries_eq indices.length_lt le_rfl
  have hscan : scanEntries indices.elems query
      (List.range (indices.elems.length / query.length)) = _ :=
    scanEntries_eq indices.length_lt fun r hr => List.mem_range.mp hr
  simp only [elementOffset, Exec.reject_of_not hpos,
    Exec.reject_of_not (not_not.mpr hlen), Exec.ok_bind, hsearch, hscan]
  cases isSorted <;> rfl

theorem compare_eq_lt {xs ys : List UInt64} : compare xs ys = .lt ↔ xs < ys := by
  induction xs generalizing ys with
  | nil => cases ys <;> simp [List.compare_nil_cons]
  | cons x xs ih =>
    cases ys with
    | nil => simp [List.compare_cons_nil]
    | cons y ys =>
      rw [List.cons_lt_cons_iff, ← ih, List.compare_cons_cons, Ordering.then_eq_lt,
        Std.compare_eq_lt, Std.compare_eq_iff_eq]

/-- Among entries without a repetition the scan finds the one that is asked for. -/
theorem find?_entries {xs : List (List UInt64)} (h : xs.Nodup) {n : ℕ} (hn : n = xs.length) {k : ℕ} :
    ((List.range n).find? fun r => xs[r]? = some query) = some k ↔ xs[k]? = some query := by
  constructor
  · intro hk
    simpa using List.find?_some hk
  · intro hk
    have hlt := (List.getElem?_eq_some_iff.mp hk).1
    cases hfound : (List.range n).find? fun r => xs[r]? = some query with
    | none =>
      have hnone := List.find?_eq_none.mp hfound k (List.mem_range.mpr (hn ▸ hlt))
      simp [hk] at hnone
    | some j =>
      have hj : xs[j]? = some query := by simpa using List.find?_some hfound
      rw [(List.getElem?_inj hlt h).mp (hk.trans hj.symm)]

/-- In a sorted buffer both paths return the place of the entry that is asked for. -/
theorem elementOffset_of_sorted {isSorted : Bool} {indices : Slice UInt64} (hrank : query ≠ [])
    (hlen : indices.elems.length % query.length = 0)
    (h : (entries indices.elems query.length).Pairwise (· < ·)) {o : Option ℕ}
    (ho : ∀ k, o = some k ↔ (entries indices.elems query.length)[k]? = some query) :
    elementOffset query isSorted indices = .ok (o.map UInt64.ofNat) := by
  have hsorted : (entries indices.elems query.length).Pairwise (compare · · = .lt) :=
    h.imp compare_eq_lt.mpr
  rw [elementOffset_eq hrank hlen]
  congr 2
  apply Option.ext
  intro k
  rw [ho]
  cases isSorted with
  | true =>
    rw [← length_entries, if_pos rfl]
    exact bisect_compareAt hsorted
  | false =>
    exact find?_entries (nodup_of_sorted hsorted) length_entries.symm

theorem take_drop_flatten {xs : List (List UInt64)} (h : ∀ x ∈ xs, x.length = rank) {k : ℕ}
    {x : List UInt64} (hk : xs[k]? = some x) : (xs.flatten.drop (k * rank)).take rank = x := by
  induction xs generalizing k with
  | nil => cases hk
  | cons y xs ih =>
    have hy : y.length = rank := h y List.mem_cons_self
    cases k with
    | zero =>
      obtain rfl := Option.some_inj.mp hk
      simp [← hy]
    | succ k =>
      rw [List.flatten_cons, Nat.succ_mul, Nat.add_comm, ← hy, List.drop_length_add_append, hy]
      exact ih (fun z hz => h z (List.mem_cons_of_mem y hz)) hk

/-- A buffer that was written entry by entry holds these entries. -/
theorem entries_flatten {xs : List (List UInt64)} (hpos : 0 < rank) (h : ∀ x ∈ xs, x.length = rank) :
    entries xs.flatten rank = xs := by
  have hlen : xs.flatten.length / rank = xs.length := by
    rw [List.length_flatten, List.map_congr_left h, List.map_const', List.sum_replicate_nat,
      Nat.mul_div_cancel _ hpos]
  apply List.ext_getElem (length_entries.trans hlen)
  intro k hk hk'
  have hplace := entries_getElem? (hlen.symm ▸ hk' : k < xs.flatten.length / rank)
  rw [take_drop_flatten h (List.getElem?_eq_getElem hk'), List.getElem?_eq_getElem hk] at hplace
  exact Option.some_inj.mp hplace

end Entries
end Coo

theorem forM_checkRising_eq_ok {text : ℕ → UInt64 → UInt64 → String} {xs : List UInt64} {u : Unit} :
    (List.range (xs.length - 1)).forM (checkRising text xs) = .ok u ↔ xs.Pairwise (· ≤ ·) := by
  rw [Exec.forM_eq_ok, ← List.isChain_iff_pairwise, List.isChain_iff_getElem]
  simp only [List.mem_range, checkRising, Exec.bind_eq_ok, Exec.index_eq_ok, Exec.reject_eq_ok,
    gt_iff_lt, UInt64.not_lt]
  constructor
  · intro h k hk
    obtain ⟨a, ha, b, hb, hle⟩ := h k (by omega)
    obtain ⟨_, rfl⟩ := List.getElem?_eq_some_iff.mp ha
    obtain ⟨_, rfl⟩ := List.getElem?_eq_some_iff.mp hb
    exact hle
  · intro h k hk
    exact ⟨_, List.getElem?_eq_getElem (by omega), _, List.getElem?_eq_getElem (by omega),
      h k (by omega)⟩

/-! ### The compressed matrices -/

/-- The places that pointer `i` delimits. -/
def span (ptr : List UInt64) (i : ℕ) : List ℕ :=
  match ptr[i]?, ptr[i + 1]? with
  | some start, some stop => List.range' start.toNat (stop.toNat - start.toNat)
  | _, _ => []

/-- The indices at these places. -/
def part (indices ptr : List UInt64) (i : ℕ) : List UInt64 :=
  match ptr[i]?, ptr[i + 1]? with
  | some start, some stop => (indices.drop start.toNat).take (stop.toNat - start.toNat)
  | _, _ => []

/-- The coordinates of the stored elements, one part after another. -/
def expand (indices ptr : List UInt64) : List (List UInt64) :=
  (List.range (ptr.length - 1)).flatMap fun i =>
    (part indices ptr i).map fun inner => [UInt64.ofNat i, inner]

/-- Pointers that rise from zero to the number of elements. -/
structure Pointers (indices ptr : List UInt64) : Prop where
  starts : ptr[0]? = some 0
  monotone : ptr.Pairwise (· ≤ ·)
  ends : ∀ last, ptr[ptr.length - 1]? = some last → last.toNat = indices.length

/-- The indices between two pointers increase. -/
structure Compressed (indices ptr : List UInt64) : Prop extends Pointers indices ptr where
  increasing : ∀ i < ptr.length - 1, (part indices ptr i).Pairwise (· < ·)

section Compressed
variable {indices ptr : List UInt64} {i k : ℕ} {start stop : UInt64}

theorem Pointers.getElem?_le (h : Pointers indices ptr) {j : ℕ} (hi : ptr[i]? = some start)
    (hj : ptr[j]? = some stop) (hij : i ≤ j) : start.toNat ≤ stop.toNat := by
  obtain ⟨hlti, rfl⟩ := List.getElem?_eq_some_iff.mp hi
  obtain ⟨hltj, rfl⟩ := List.getElem?_eq_some_iff.mp hj
  rcases Nat.eq_or_lt_of_le hij with rfl | hlt
  · exact le_rfl
  · exact UInt64.le_iff_toNat_le.mp (List.pairwise_iff_getElem.mp h.monotone i j hlti hltj hlt)

theorem Pointers.le_length (h : Pointers indices ptr) (hi : ptr[i]? = some start) :
    start.toNat ≤ indices.length := by
  have hlt := (List.getElem?_eq_some_iff.mp hi).1
  have hlast := List.getElem?_eq_getElem (show ptr.length - 1 < ptr.length by omega)
  rw [← h.ends _ hlast]
  exact h.getElem?_le hi hlast (by omega)

theorem span_eq (hi : ptr[i]? = some start) (hnext : ptr[i + 1]? = some stop) :
    span ptr i = List.range' start.toNat (stop.toNat - start.toNat) := by
  rw [span, hi, hnext]

theorem part_eq (hi : ptr[i]? = some start) (hnext : ptr[i + 1]? = some stop) :
    part indices ptr i = (indices.drop start.toNat).take (stop.toNat - start.toNat) := by
  rw [part, hi, hnext]

theorem getElem?_part (hi : ptr[i]? = some start) (hnext : ptr[i + 1]? = some stop) {c : UInt64} :
    (part indices ptr i)[k]? = some c ↔
      start.toNat + k < stop.toNat ∧ indices[start.toNat + k]? = some c := by
  rw [part_eq hi hnext, List.getElem?_take, List.getElem?_drop]
  split
  · next hk => exact ⟨fun h => ⟨by omega, h⟩, And.right⟩
  · next hk =>
    constructor
    · intro h
      cases h
    · intro h
      omega

theorem Pointers.length_part (h : Pointers indices ptr) (hi : ptr[i]? = some start)
    (hnext : ptr[i + 1]? = some stop) : (part indices ptr i).length = stop.toNat - start.toNat := by
  have hle := h.le_length hnext
  rw [part_eq hi hnext, List.length_take, List.length_drop]
  omega

/-- The spans before a pointer are the places before it. -/
theorem Pointers.spans_before (h : Pointers indices ptr) (hi : ptr[i]? = some start) :
    (List.range i).flatMap (span ptr) = List.range start.toNat := by
  induction i generalizing start with
  | zero =>
    rw [h.starts] at hi
    obtain rfl := Option.some_inj.mp hi
    rfl
  | succ i ih =>
    have hlt := (List.getElem?_eq_some_iff.mp hi).1
    have hbefore := List.getElem?_eq_getElem (show i < ptr.length by omega)
    have hle := h.getElem?_le hbefore hi (Nat.le_succ i)
    have hjoin : ∀ a b, a ≤ b → List.range' 0 a ++ List.range' a (b - a) = List.range' 0 b := by
      intro a b hab
      have happend := @List.range'_append_1 0 a (b - a)
      rwa [Nat.zero_add, Nat.add_sub_cancel' hab] at happend
    rw [List.range_succ, List.flatMap_append, ih hbefore, List.flatMap_singleton,
      span_eq hbefore hi, List.range_eq_range', List.range_eq_range', hjoin _ _ hle]

/-- The spans of all the pointers are the places of all the indices. -/
theorem Pointers.spans (h : Pointers indices ptr) :
    (List.range (ptr.length - 1)).flatMap (span ptr) = List.range indices.length := by
  have hpos := (List.getElem?_eq_some_iff.mp h.starts).1
  have hlast := List.getElem?_eq_getElem (show ptr.length - 1 < ptr.length by omega)
  rw [h.spans_before hlast, h.ends _ hlast]

theorem Pointers.lt_length_of_mem_span (h : Pointers indices ptr) (hi : i < ptr.length - 1)
    (hk : k ∈ span ptr i) : k < indices.length := by
  rw [← List.mem_range, ← h.spans]
  exact List.mem_flatMap.mpr ⟨i, List.mem_range.mpr hi, hk⟩

/-- The parts before a pointer have as many elements as the pointer says. -/
theorem Pointers.length_before (h : Pointers indices ptr) (hi : ptr[i]? = some start) :
    ((List.range i).flatMap fun i =>
      (part indices ptr i).map fun inner => [UInt64.ofNat i, inner]).length = start.toNat := by
  have hlt := (List.getElem?_eq_some_iff.mp hi).1
  have hspans := congrArg List.length (h.spans_before hi)
  rw [List.length_flatMap, List.length_range] at hspans
  rw [List.length_flatMap, ← hspans]
  congr 1
  apply List.map_congr_left
  intro j hj
  have hj := List.mem_range.mp hj
  have hstart := List.getElem?_eq_getElem (show j < ptr.length by omega)
  have hstop := List.getElem?_eq_getElem (show j + 1 < ptr.length by omega)
  rw [List.length_map, h.length_part hstart hstop, span_eq hstart hstop, List.length_range']

/-- Element `k` of a part is that far after the pointer. -/
theorem Compressed.expand_getElem? (h : Compressed indices ptr) (hi : ptr[i]? = some start)
    (hnext : ptr[i + 1]? = some stop) {inner : UInt64}
    (hk : (part indices ptr i)[k]? = some inner) :
    (expand indices ptr)[start.toNat + k]? = some [UInt64.ofNat i, inner] := by
  have hlt := (List.getElem?_eq_some_iff.mp hnext).1
  have hkpart := (List.getElem?_eq_some_iff.mp hk).1
  rw [h.length_part hi hnext] at hkpart
  have hsplit : ptr.length - 1 = i + 1 + (ptr.length - 2 - i) := by omega
  rw [expand, hsplit, List.range_add, List.flatMap_append, List.getElem?_append_left,
    List.range_succ, List.flatMap_append, List.getElem?_append_right, h.length_before hi,
    Nat.add_sub_cancel_left, List.flatMap_singleton, List.getElem?_map, hk]
  · rfl
  · rw [h.length_before hi]
    exact Nat.le_add_right _ _
  · rw [h.length_before hnext]
    omega

/-- The expanded list is in lexicographic order. -/
theorem Compressed.expand_sorted (h : Compressed indices ptr) (hlen : ptr.length < 2 ^ 64) :
    (expand indices ptr).Pairwise (· < ·) := by
  rw [expand, List.pairwise_flatMap]
  constructor
  · intro i hi
    rw [List.pairwise_map]
    apply (h.increasing i (List.mem_range.mp hi)).imp
    intro a b hlt
    exact List.cons_lt_cons_iff.mpr (.inr ⟨rfl, List.cons_lt_cons_iff.mpr (.inl hlt)⟩)
  · apply List.Pairwise.imp_of_mem _ List.pairwise_lt_range
    intro i j hi hj hlt x hx y hy
    obtain ⟨a, -, rfl⟩ := List.mem_map.mp hx
    obtain ⟨b, -, rfl⟩ := List.mem_map.mp hy
    have hj := List.mem_range.mp hj
    apply List.cons_lt_cons_iff.mpr
    apply Or.inl
    rw [UInt64.lt_iff_toNat_lt, UInt64.toNat_ofNat_of_lt' (by show i < 2 ^ 64; omega),
      UInt64.toNat_ofNat_of_lt' (by show j < 2 ^ 64; omega)]
    exact hlt

/-- An element of the expanded list is one of the part under its first coordinate. -/
theorem Compressed.getElem?_expand (h : Compressed indices ptr) (hlen : ptr.length < 2 ^ 64)
    {outer inner : UInt64} (hi : ptr[outer.toNat]? = some start)
    (hnext : ptr[outer.toNat + 1]? = some stop) {p : ℕ} :
    (expand indices ptr)[p]? = some [outer, inner] ↔
      ∃ k, (part indices ptr outer.toNat)[k]? = some inner ∧ start.toNat + k = p := by
  constructor
  · intro hp
    obtain ⟨i, hirange, hmem⟩ := List.mem_flatMap.mp (List.mem_of_getElem? hp)
    obtain ⟨c, hc, hsame⟩ := List.mem_map.mp hmem
    have hi_lt : i < 2 ^ 64 := by
      have hrange := List.mem_range.mp hirange
      omega
    have houter : i = outer.toNat := by
      rw [← (List.cons.inj hsame).1]
      exact (UInt64.toNat_ofNat_of_lt' hi_lt).symm
    have hinner : c = inner := (List.cons.inj (List.cons.inj hsame).2).1
    rw [houter, hinner] at hc
    obtain ⟨k, hk⟩ := List.getElem?_of_mem hc
    have hplace := h.expand_getElem? hi hnext hk
    rw [UInt64.ofNat_toNat] at hplace
    have hnodup := nodup_of_sorted ((h.expand_sorted hlen).imp Coo.compare_eq_lt.mpr)
    have hlt := (List.getElem?_eq_some_iff.mp hplace).1
    exact ⟨k, hk, (List.getElem?_inj hlt hnodup).mp (hplace.trans hp.symm)⟩
  · intro hp
    obtain ⟨k, hk, rfl⟩ := hp
    have hplace := h.expand_getElem? hi hnext hk
    rw [UInt64.ofNat_toNat] at hplace
    exact hplace

end Compressed

/-- What the shared lookup returns where the two pointers delimit a part. -/
theorem compressedOffset_eq {names : CompressedNames} {dim : UInt32} {outer inner start stop : UInt64}
    {indices ptr : Slice UInt64} (hi : ptr.elems[outer.toNat]? = some start)
    (hnext : ptr.elems[outer.toNat + 1]? = some stop) (hle : start.toNat ≤ stop.toNat)
    (hwithin : stop.toNat ≤ indices.elems.length) :
    compressedOffset names dim outer inner indices ptr =
      .ok (((binarySearch (part indices.elems ptr.elems outer.toNat) inner).map
        (start.toNat + ·)).map UInt64.ofNat) := by
  have hptr := ptr.length_lt
  have hindices := indices.length_lt
  have hlt := (List.getElem?_eq_some_iff.mp hnext).1
  have hne : ptr.elems ≠ [] := fun h => by simp [h] at hlt
  have hcount : ¬ outer ≥ UInt64.ofNat (ptr.elems.length - 1) := by
    rw [ge_iff_le, UInt64.le_iff_toNat_le, UInt64.toNat_ofNat_of_lt' (by
      show ptr.elems.length - 1 < 2 ^ 64
      omega)]
    omega
  have hgood : ¬ (start > stop ∨ indices.elems.length < stop.toNat) := by
    rw [gt_iff_lt, UInt64.lt_iff_toNat_lt]
    omega
  have hslice : (Exec.slice indices.elems start.toNat (stop.toNat - start.toNat) :
      Result (List UInt64)) = .ok (part indices.elems ptr.elems outer.toNat) :=
    Exec.slice_eq_ok.mpr ⟨by omega, part_eq hi hnext⟩
  rw [compressedOffset, Exec.reject_of_not hne, Exec.ok_bind, Exec.subSize, if_pos (by omega),
    Exec.ok_bind]
  simp only [Exec.reject_of_not hcount, Exec.ok_bind, Exec.index_eq_ok.mpr hi, Exec.inBits,
    if_pos (show outer.toNat + 1 < 2 ^ 64 by omega), Exec.index_eq_ok.mpr hnext, if_neg hgood,
    hslice]
  cases hfound : binarySearch (part indices.elems ptr.elems outer.toNat) inner with
  | none => rfl
  | some k =>
    have hk := (List.getElem?_eq_some_iff.mp (binarySearch_sound hfound)).1
    rw [part_eq hi hnext, List.length_take, List.length_drop] at hk
    simp only [if_pos (show start.toNat + k < 2 ^ 64 by omega), Exec.ok_bind]
    rfl

/-! ### Safety -/

theorem Coo.elementOffset_safe (query : List UInt64) (isSorted : Bool) (indices : Slice UInt64) :
    (Coo.elementOffset query isSorted indices).Safe := by
  by_cases hrank : query = []
  · subst query
    exact Exec.fail_ne_panic
  by_cases hlen : indices.elems.length % query.length = 0
  · rw [elementOffset_eq hrank hlen]
    exact Exec.ok_ne_panic
  · apply Exec.safe_bind Exec.reject_ne_panic
    intro _ _
    apply Exec.safe_bind Exec.reject_ne_panic
    intro _ hmultiple
    exact absurd hlen (Exec.reject_eq_ok.mp hmultiple)

theorem compressedOffset_safe (names : CompressedNames) (dim : UInt32) (outer inner : UInt64)
    (indices ptr : Slice UInt64) : (compressedOffset names dim outer inner indices ptr).Safe := by
  have hptr := ptr.length_lt
  have hindices := indices.length_lt
  apply Exec.safe_bind Exec.reject_ne_panic
  intro _ hne
  have hpos := List.length_pos_iff.mpr (Exec.reject_eq_ok.mp hne)
  rw [Exec.subSize, if_pos (by omega), Exec.ok_bind]
  apply Exec.safe_bind Exec.reject_ne_panic
  intro _ hcount
  have hcount := Exec.reject_eq_ok.mp hcount
  rw [ge_iff_le, UInt64.le_iff_toNat_le, UInt64.toNat_ofNat_of_lt' (by
    show ptr.elems.length - 1 < 2 ^ 64
    omega)] at hcount
  have hstart := List.getElem?_eq_getElem (show outer.toNat < ptr.elems.length by omega)
  have hstop := List.getElem?_eq_getElem (show outer.toNat + 1 < ptr.elems.length by omega)
  simp only [Exec.index_eq_ok.mpr hstart, Exec.ok_bind, Exec.inBits,
    if_pos (show outer.toNat + 1 < 2 ^ 64 by omega), Exec.index_eq_ok.mpr hstop]
  split
  · -- The text of the error has the next row in it, which does not overflow below the count.
    rw [Exec.addU64, if_pos (by rw [UInt64.toNat_one]; show outer.toNat + 1 < 2 ^ 64; omega),
      Exec.ok_bind]
    exact Exec.fail_ne_panic
  · next hgood =>
    rw [gt_iff_lt, UInt64.lt_iff_toNat_lt, not_or] at hgood
    apply Exec.safe_bind
    · intro hpanic
      have hlong := Exec.slice_eq_panic.mp hpanic
      omega
    intro part hpart
    obtain ⟨-, rfl⟩ := Exec.slice_eq_ok.mp hpart
    split
    · next k hfound =>
      have hk := (List.getElem?_eq_some_iff.mp (binarySearch_sound hfound)).1
      rw [List.length_take, List.length_drop] at hk
      rw [if_pos (by omega), Exec.ok_bind]
      exact Exec.ok_ne_panic
    · exact Exec.ok_ne_panic

/-! ### Agreement -/

/-- The lookup of a part is the lookup of the expanded list, by either of its paths. -/
theorem compressedOffset_eq_coo {names : CompressedNames} {dim : UInt32} {i j : UInt64}
    {indices ptr expanded : Slice UInt64} {isSorted : Bool}
    (h : Compressed indices.elems ptr.elems)
    (hexpanded : expanded.elems = (expand indices.elems ptr.elems).flatten)
    (hi : i.toNat + 1 < ptr.elems.length) :
    compressedOffset names dim i j indices ptr = Coo.elementOffset [i, j] isSorted expanded := by
  have hptr := ptr.length_lt
  have hstart := List.getElem?_eq_getElem (Nat.lt_of_succ_lt hi)
  have hstop := List.getElem?_eq_getElem hi
  have hpairs : ∀ x ∈ expand indices.elems ptr.elems, x.length = 2 := by
    intro x hx
    obtain ⟨i, -, hmem⟩ := List.mem_flatMap.mp hx
    obtain ⟨c, -, rfl⟩ := List.mem_map.mp hmem
    rfl
  have hentries : Coo.entries expanded.elems [i, j].length = expand indices.elems ptr.elems := by
    rw [hexpanded]
    exact Coo.entries_flatten Nat.two_pos hpairs
  have hmultiple : expanded.elems.length % [i, j].length = 0 := by
    rw [hexpanded, List.length_flatten, List.map_congr_left hpairs, List.map_const',
      List.sum_replicate_nat]
    exact Nat.mul_mod_left _ 2
  have hsorted := h.expand_sorted (by omega)
  rw [compressedOffset_eq hstart hstop (h.getElem?_le hstart hstop (Nat.le_succ _))
    (h.le_length hstop)]
  apply (Coo.elementOffset_of_sorted (List.cons_ne_nil i [j]) hmultiple (hentries ▸ hsorted) ?_).symm
  intro p
  rw [hentries, h.getElem?_expand (by omega) hstart hstop, Option.map_eq_some_iff]
  have hpart := (h.increasing i.toNat (by omega)).imp Std.compare_eq_lt.mpr
  simp only [binarySearch_eq_some hpart]

/-- The lookups agree: on sorted entries the search is the scan, and in a compressed matrix they
return what the coordinate list of its elements returns, the column layout with the coordinates
exchanged. -/
theorem lookups_agree :
    (∀ (query : List UInt64) (indices : Slice UInt64), query ≠ [] →
      (Coo.entries indices.elems query.length).Pairwise (· < ·) →
        Coo.elementOffset query true indices = Coo.elementOffset query false indices) ∧
    ∀ (indices ptr expanded : Slice UInt64), Compressed indices.elems ptr.elems →
      expanded.elems = (expand indices.elems ptr.elems).flatten →
        ∀ (i j : UInt64) (isSorted : Bool), i.toNat + 1 < ptr.elems.length →
          Csr.elementOffset [i, j] indices ptr = Coo.elementOffset [i, j] isSorted expanded ∧
          Csc.elementOffset [j, i] indices ptr = Coo.elementOffset [i, j] isSorted expanded := by
  constructor
  · intro query indices hrank hsorted
    by_cases hlen : indices.elems.length % query.length = 0
    · have ho : ∀ k, bisect (compareAt (Coo.entries indices.elems query.length) query) 0
          (Coo.entries indices.elems query.length).length = some k ↔
            (Coo.entries indices.elems query.length)[k]? = some query := fun k =>
        bisect_compareAt (hsorted.imp Coo.compare_eq_lt.mpr)
      rw [Coo.elementOffset_of_sorted hrank hlen hsorted ho,
        Coo.elementOffset_of_sorted hrank hlen hsorted ho]
    · -- A buffer that is not one of entries is refused before either path.
      simp only [Coo.elementOffset, Exec.reject, if_pos hlen, Exec.fail_bind]
  · intro indices ptr expanded h hexpanded i j isSorted hi
    exact ⟨compressedOffset_eq_coo h hexpanded hi, compressedOffset_eq_coo h hexpanded hi⟩

theorem lookups_agree_small :
    Coo.elementOffset [2, 0] true ⟨[0, 1, 2, 0, 2, 3], by decide⟩ =
      Coo.elementOffset [2, 0] false ⟨[0, 1, 2, 0, 2, 3], by decide⟩ ∧
    Csr.elementOffset [2, 1] ⟨[0, 2, 1], by decide⟩ ⟨[0, 2, 2, 3], by decide⟩ =
      Coo.elementOffset [2, 1] true ⟨[0, 0, 0, 2, 2, 1], by decide⟩ :=
  ⟨lookups_agree.1 [2, 0] ⟨[0, 1, 2, 0, 2, 3], by decide⟩ (by decide) (by decide),
    (lookups_agree.2 ⟨[0, 2, 1], by decide⟩ ⟨[0, 2, 2, 3], by decide⟩
      ⟨[0, 0, 0, 2, 2, 1], by decide⟩
      ⟨⟨rfl, by decide, by intro last h; cases h; rfl⟩, by decide⟩ rfl 2 1 true (by decide)).1⟩

end Hurray.Core
