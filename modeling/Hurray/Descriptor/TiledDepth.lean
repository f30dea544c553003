import Hurray.Descriptor.Contract

/-!
The three limits on the nesting of a tiled layout: that of the constructor, of the writer and of
the reader. They agree at every depth. What is written is read back just when the vectors of every
level have the length of the rank, which the constructor does not check.
-/
namespace Hurray.Descriptor
open Hurray.Base Hurray.Core

section Tiled
variable {l : TiledLayout} {k : ℕ} {rank : UInt32} {s t : ByteCursor}

theorem newAtDepth_accepts (hwf : l.WellFormed) :
    (∃ u, TiledLayout.newAtDepth k l = .ok u) ↔ k + l.depth ≤ MAX_TILED_DEPTH := by
  simp only [TiledLayout.newAtDepth_eq_ok]
  constructor
  · intro h
    obtain ⟨_, -, -, hdepth⟩ := h
    exact hdepth
  · intro hdepth
    exact ⟨l, rfl, hwf, hdepth⟩

theorem encodeTiled_accepts (hwf : l.WellFormed) :
    (∃ w, encodeTiled k l = .ok w) ↔ k + l.depth ≤ MAX_TILED_DEPTH := by
  simp only [encodeTiled_eq_ok, writtenLevels_of_wellFormed hwf]
  constructor
  · intro h
    obtain ⟨_, hdepth, -⟩ := h
    exact hdepth
  · intro hdepth
    exact ⟨_, hdepth, rfl⟩

/-- A reader at the depth of the writer returns the layout from what was written, whatever
follows. -/
def ReadBack (rank : UInt32) (k : ℕ) (l : TiledLayout) : Prop :=
  ∃ w, encodeTiled k l = .ok w ∧ ∀ s t : ByteCursor, ByteSource.Consumes s w t →
    decodeTiled rank (MAX_TILED_DEPTH - k) s = .ok (l, t)

theorem readBack_iff (hwf : l.WellFormed) (hdepth : k + l.depth ≤ MAX_TILED_DEPTH) :
    ReadBack rank k l ↔ l.AllLevels (LevelRank rank.toNat) := by
  have hreader : Recognises (decodeTiled rank (MAX_TILED_DEPTH - k)) _ _ :=
    decodeTiled_recognises (Nat.sub_le _ _)
  have henc : encodeTiled k l = .ok (tiledBytes l) :=
    encodeTiled_eq_ok.mpr ⟨(writtenLevels_of_wellFormed hwf).symm ▸ hdepth, rfl⟩
  constructor
  · intro h
    obtain ⟨w, hw, hread⟩ := h
    have hnext : ByteSource.Consumes (ByteCursor.new w w.length)
        w ⟨w, w.length, w.length, Nat.le_refl _, Nat.le_refl _⟩ := by
      refine ⟨rfl, ?_, ?_, ?_⟩
      · simp [ByteCursor.new]
      · simp [ByteCursor.new]
      · exact List.prefix_refl _
    exact ((hreader _ _ _).mp (hread _ _ hnext)).1.2.1
  · intro hrank
    refine ⟨_, henc, ?_⟩
    intro s t hnext
    exact (hreader s l t).mpr ⟨⟨hwf, hrank, by omega⟩, reads_fixed.mpr hnext⟩

/-- What a reader returns is no deeper than the limit, and passes the constructor. -/
theorem depth_of_decodeTiled (h : decodeTiled rank MAX_TILED_DEPTH s = .ok (l, t)) :
    l.WellFormed ∧ l.depth ≤ MAX_TILED_DEPTH := by
  obtain ⟨⟨hwf, -, hdepth⟩, -⟩ := (decodeTiled_recognises (Nat.le_refl _) s l t).mp h
  exact ⟨hwf, hdepth⟩

theorem depth_of_decode {b : Bytes} {d : TensorDescriptor} (h : decode b = .ok d)
    (hl : d.layout = .tiled l) : l.depth ≤ MAX_TILED_DEPTH := by
  have hfits := (decode_eq_ok_iff.mp h).1.fields.layout.wellFormed
  rw [hl] at hfits
  exact hfits.2

/-- The limits agree on every chain of valid levels. What is constructed can be written, and is
read back just when each of its vectors has the length of the rank. -/
theorem depth_guards_agree_iff (l : TiledLayout) :
    (l.WellFormed →
      ((∃ u, TiledLayout.new l.level l.innerTiled = .ok u) ↔ l.depth ≤ MAX_TILED_DEPTH)) ∧
    (∀ lv inner, TiledLayout.new lv inner = .ok l → (∃ w, encodeTiled 0 l = .ok w) ∧
      ∀ rank, ReadBack rank 0 l ↔ l.AllLevels (LevelRank rank.toNat)) ∧
    (∀ rank s t, decodeTiled rank MAX_TILED_DEPTH s = .ok (l, t) →
      l.depth ≤ MAX_TILED_DEPTH) ∧
    ∀ b d, decode b = .ok d → d.layout = .tiled l → l.depth ≤ MAX_TILED_DEPTH := by
  refine ⟨?_, ?_, fun _ _ _ h => (depth_of_decodeTiled h).2, fun _ _ h => depth_of_decode h⟩
  · intro hwf
    have hparts : TiledLayout.ofParts l.level l.innerTiled = l := by cases l <;> rfl
    rw [TiledLayout.new, hparts, newAtDepth_accepts hwf, Nat.zero_add]
  · intro lv inner hnew
    obtain ⟨-, hwf, hdepth⟩ := TiledLayout.new_eq_ok.mp hnew
    have hroom : 0 + l.depth ≤ MAX_TILED_DEPTH := (Nat.zero_add _).trans_le hdepth
    exact ⟨(encodeTiled_accepts hwf).mpr hroom, fun _ => readBack_iff hwf hroom⟩

end Tiled

/-- Two levels of rank one. -/
def twoLevels : TiledLayout :=
  .nested ⟨[4], 0x01, 0x04, none, none⟩ (.flat ⟨[2], 0x02, 0x01, none, none⟩)

theorem depth_guards_agree_twoLevels :
    (∃ u, TiledLayout.new twoLevels.level twoLevels.innerTiled = .ok u) ∧
      ReadBack 1 0 twoLevels := by
  have hnew : TiledLayout.new twoLevels.level twoLevels.innerTiled = .ok twoLevels := by decide
  have hwf : twoLevels.WellFormed := (TiledLayout.new_eq_ok.mp hnew).2.1
  have hrank : twoLevels.AllLevels (LevelRank (1 : UInt32).toNat) :=
    ⟨⟨rfl, fun _ h => (by cases h), fun _ h => (by cases h)⟩,
      ⟨rfl, fun _ h => (by cases h), fun _ h => (by cases h)⟩⟩
  exact ⟨((depth_guards_agree_iff twoLevels).1 hwf).mpr (by decide),
    (((depth_guards_agree_iff twoLevels).2.1 _ _ hnew).2 1).mpr hrank⟩

/-- One level of rank one, whose outer strides are for no dimension. -/
def unstridedLevel : TiledLevel := ⟨[1], 0x03, 0x01, some ⟨[]⟩, none⟩

/-- The level is accepted and written, and a reader of any rank fails on it or returns another. -/
theorem unstridedLevel_not_read :
    TiledLayout.new unstridedLevel none = .ok (.flat unstridedLevel) ∧
    encodeTiled 0 (.flat unstridedLevel) = .ok [1, 0, 0, 0, 0, 0, 0, 0, 0x03, 0x01, 0, 0] ∧
    decodeTiled 1 MAX_TILED_DEPTH
        (ByteCursor.new [1, 0, 0, 0, 0, 0, 0, 0, 0x03, 0x01, 0, 0] 12) =
      Exec.fail (.descriptorTruncated 12 8 0) ∧
    ∀ rank, ¬ ReadBack rank 0 (.flat unstridedLevel) := by
  have hnew : TiledLayout.new unstridedLevel none = .ok (.flat unstridedLevel) := by decide
  refine ⟨hnew, by decide, rfl, ?_⟩
  intro rank h
  obtain ⟨-, hwf, hdepth⟩ := TiledLayout.new_eq_ok.mp hnew
  have hlevel : LevelRank rank.toNat unstridedLevel :=
    (readBack_iff hwf ((Nat.zero_add _).trans_le hdepth)).mp h
  have hshape : 1 = rank.toNat := hlevel.tileShape
  have hstrides : 0 = rank.toNat := hlevel.outerStrides ⟨[]⟩ rfl
  omega

end Hurray.Descriptor
