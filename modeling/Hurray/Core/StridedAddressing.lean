import Hurray.Core.Addressing

/-!
The strided offset as an integer. The components are read as signed words before
they are multiplied, so that the offset is exact except where components from
`2 ^ 63` on meet strides that do not cancel out.
-/
namespace Hurray.Core
open Hurray.Base

/-- The offset that the strides say, as an integer. -/
def exactOffset (ps : List (UInt64 × Int64)) : ℤ :=
  (ps.map fun p => (p.1.toNat : ℤ) * p.2.toInt).sum

/-- The offset with the components read as signed words. -/
def signedOffset (ps : List (UInt64 × Int64)) : ℤ :=
  (ps.map fun p => p.1.toInt64.toInt * p.2.toInt).sum

/-- The strides of the components that do not fit a signed word. -/
def highStrides (ps : List (UInt64 × Int64)) : ℤ :=
  (ps.map fun p => if p.1.toNat < 2 ^ 63 then 0 else p.2.toInt).sum

/-- Every product and every partial sum of the signed readings is a signed word. -/
def SumsInRange : ℤ → List (UInt64 × Int64) → Prop
  | _, [] => True
  | sum, p :: ps => InI64 (p.1.toInt64.toInt * p.2.toInt) ∧
      InI64 (sum + p.1.toInt64.toInt * p.2.toInt) ∧
      SumsInRange (sum + p.1.toInt64.toInt * p.2.toInt) ps

theorem signedOffset_eq (ps : List (UInt64 × Int64)) :
    signedOffset ps = exactOffset ps - 2 ^ 64 * highStrides ps := by
  induction ps with
  | nil => rfl
  | cons p ps ih =>
    simp only [signedOffset, exactOffset, highStrides, List.map_cons, List.sum_cons] at ih ⊢
    rw [ih, toInt_toInt64]
    split <;> ring

section Fold
variable {ps : List (UInt64 × Int64)} {sum r : Int64}

theorem stridedTerm_eq_ok {i : UInt64} {stride : Int64} : stridedTerm sum i stride = .ok r ↔
    InI64 (i.toInt64.toInt * stride.toInt) ∧ InI64 (sum.toInt + i.toInt64.toInt * stride.toInt) ∧
      r.toInt = sum.toInt + i.toInt64.toInt * stride.toInt := by
  rw [stridedTerm, Exec.bind_eq_ok]
  simp only [Exec.orFail_eq_ok, checkedMulSigned_iff, checkedAddSigned_iff]
  constructor
  · intro h
    obtain ⟨term, ⟨hproduct, hterm⟩, hsum, hr⟩ := h
    rw [hterm] at hsum hr
    exact ⟨hproduct, hsum, hr⟩
  · intro h
    obtain ⟨hproduct, hsum, hr⟩ := h
    obtain ⟨term, hterm⟩ := hproduct.exists_word
    exact ⟨term, ⟨hproduct, hterm⟩, hterm.symm ▸ hsum, hterm.symm ▸ hr⟩

/-- The loop over the components ends with the signed offset, if nothing on the way overflows. -/
theorem foldlM_stridedTerm_eq_ok :
    (ps.foldlM (fun sum p => stridedTerm sum p.1 p.2) sum : Result Int64) = .ok r ↔
      SumsInRange sum.toInt ps ∧ r.toInt = sum.toInt + signedOffset ps := by
  induction ps generalizing sum with
  | nil =>
    rw [SumsInRange, signedOffset, List.map_nil, List.sum_nil, add_zero, true_and, Int64.toInt_inj,
      List.foldlM_nil, eq_comm (a := r)]
    exact ⟨fun h => Except.ok.inj h, fun h => congrArg Except.ok h⟩
  | cons p ps ih =>
    rw [List.foldlM_cons, Exec.bind_eq_ok, SumsInRange, signedOffset, List.map_cons, List.sum_cons,
      ← signedOffset, ← add_assoc]
    constructor
    · intro h
      obtain ⟨next, hterm, hrest⟩ := h
      obtain ⟨hproduct, hsum, hnext⟩ := stridedTerm_eq_ok.mp hterm
      rw [← hnext]
      exact ⟨⟨hproduct, by rwa [← hnext] at hsum, (ih.mp hrest).1⟩, (ih.mp hrest).2⟩
    · intro h
      obtain ⟨⟨hproduct, hsum, hrest⟩, hr⟩ := h
      obtain ⟨next, hnext⟩ := hsum.exists_word
      refine ⟨_, stridedTerm_eq_ok.mpr ⟨hproduct, hsum, hnext⟩, ih.mpr ?_⟩
      rw [hnext]
      exact ⟨hrest, hr⟩

theorem SumsInRange.total {s : ℤ} (h : SumsInRange s ps) (hs : InI64 s) :
    InI64 (s + signedOffset ps) := by
  induction ps generalizing s with
  | nil =>
    rw [signedOffset, List.map_nil, List.sum_nil, add_zero]
    exact hs
  | cons p ps ih =>
    obtain ⟨-, hsum, hrest⟩ := h
    rw [signedOffset, List.map_cons, List.sum_cons, ← signedOffset, ← add_assoc]
    exact ih hrest hsum

/-- What the loop returns is exact just when the high strides cancel out. -/
theorem exact_iff : (∀ o, (ps.foldlM (fun sum p => stridedTerm sum p.1 p.2) 0 : Result Int64) =
    .ok o → o.toInt = exactOffset ps) ↔ (SumsInRange 0 ps → highStrides ps = 0) := by
  have hsigned := signedOffset_eq ps
  constructor
  · intro h hrange
    have htotal : InI64 (0 + signedOffset ps) := hrange.total (by decide)
    obtain ⟨o, hreturned⟩ := htotal.exists_word
    have hexact := h _ (foldlM_stridedTerm_eq_ok.mpr ⟨hrange, hreturned⟩)
    rw [hreturned, hsigned] at hexact
    omega
  · intro h o ho
    obtain ⟨hrange, ho⟩ := foldlM_stridedTerm_eq_ok.mp ho
    have hzero := h hrange
    rw [hzero] at hsigned
    rw [ho, hsigned]
    show 0 + _ = _
    ring

end Fold

/-! ### The strided layouts -/

theorem StridedLayout.elementOffset_eq_ok {l : StridedLayout} {index : List UInt64} {shape : Shape}
    {o : UInt64} : l.elementOffset index shape = .ok o ↔
      ValidIndex index shape ∧ l.strides.length = shape.rank ∧
        ∃ sum, (index.zip l.strides).foldlM (fun sum p => stridedTerm sum p.1 p.2) 0 = .ok sum ∧
          sum.toUInt64 = o := by
  simp only [elementOffset, Exec.bind_eq_ok, validateIndex_eq_ok, Exec.reject_eq_ok, not_not,
    exists_const, pure, Except.pure, Except.ok.injEq]

theorem stridedOffset_eq {index : List UInt64} {strides : List Int64}
    (h : index.length ≤ strides.length) : stridedOffset index strides =
      (index.zip strides).foldlM (fun sum p => stridedTerm sum p.1 p.2) 0 := by
  apply Exec.foldlM_congr (Exec.forall₂_range_zip h)
  intro k p hk sum
  rw [Exec.index_eq_ok.mpr hk.1, Exec.ok_bind, Exec.index_eq_ok.mpr hk.2, Exec.ok_bind]

/-- Every component is multiplied by a stride. -/
theorem length_le_of_stridedOffset {index : List UInt64} {strides : List Int64} {o : Int64}
    (h : stridedOffset index strides = .ok o) : index.length ≤ strides.length := by
  by_contra hlt
  have hmem : strides.length ∈ List.range index.length := List.mem_range.mpr (by omega)
  obtain ⟨sum, _, hstep⟩ := Exec.exists_step_of_foldlM h hmem
  obtain ⟨i, -, hstep⟩ := Exec.bind_eq_ok.mp hstep
  obtain ⟨stride, hstride, -⟩ := Exec.bind_eq_ok.mp hstep
  have hnone := Exec.index_eq_ok.mp hstride
  rw [List.getElem?_eq_none le_rfl] at hnone
  cases hnone

/-- The strided layout, and the strided parts of a tiled layout, return the exact offset just when
the strides of the components from `2 ^ 63` on cancel out, or when they return no offset. -/
theorem strided_exact_iff (strides : List Int64) (index : List UInt64) :
    (∀ shape, (∀ o, (StridedLayout.mk strides).elementOffset index shape = .ok o →
          o.toInt64.toInt = exactOffset (index.zip strides)) ↔
        (ValidIndex index shape → strides.length = shape.rank →
          SumsInRange 0 (index.zip strides) → highStrides (index.zip strides) = 0)) ∧
    ∀ dims, (∀ o, flatOffset TAG_STRIDED (some strides) index dims = .ok o →
          o.toInt = exactOffset (index.zip strides)) ↔
        (index.length ≤ strides.length →
          SumsInRange 0 (index.zip strides) → highStrides (index.zip strides) = 0) := by
  constructor
  · intro shape
    constructor
    · intro h hvalid hlen
      apply exact_iff.mp
      intro sum hsum
      exact h sum.toUInt64 (StridedLayout.elementOffset_eq_ok.mpr ⟨hvalid, hlen, sum, hsum, rfl⟩)
    · intro h o ho
      obtain ⟨hvalid, hlen, sum, hsum, rfl⟩ := StridedLayout.elementOffset_eq_ok.mp ho
      exact exact_iff.mpr (h hvalid hlen) sum hsum
  · intro dims
    constructor
    · intro h hlen
      apply exact_iff.mp
      rw [← stridedOffset_eq hlen]
      exact h
    · intro h o ho
      have hlen := length_le_of_stridedOffset ho
      have hexact := exact_iff.mpr (h hlen)
      rw [← stridedOffset_eq hlen] at hexact
      exact hexact o ho

/-- A component of `2 ^ 63` flips the sign of the offset, in a strided layout and in the grid of a
tiled one. -/
theorem strided_sign_flips :
    ((StridedLayout.mk [1]).elementOffset [2 ^ 63] ⟨[2 ^ 63 + 1], by decide⟩ = .ok (2 ^ 63) ∧
      ((2 ^ 63 : UInt64).toInt64).toInt ≠ exactOffset [(2 ^ 63, 1)]) ∧
    ∃ o, flatOffset TAG_STRIDED (some [1]) [2 ^ 63] [2 ^ 63 + 1] = .ok o ∧
      o.toInt ≠ exactOffset [(2 ^ 63, 1)] := by
  refine ⟨⟨by decide +kernel, by decide +kernel⟩, (2 ^ 63 : UInt64).toInt64, ?_, by decide +kernel⟩
  decide +kernel

end Hurray.Core
