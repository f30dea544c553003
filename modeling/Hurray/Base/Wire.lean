import Hurray.Base.Exec
import Hurray.Base.LittleEndian
import Mathlib.Data.List.Forall2

/-!
Wire formats and the readers that recognise them. A format is a list of cells,
one a byte. A reader recognises a format when it returns a value exactly where
the format of that value stands next in its source, so one statement carries
both that what was written is read back and that nothing else is accepted.
-/
namespace Hurray.Base

/-- One byte of a format. Any non-zero byte reads as a true truth cell. -/
inductive Cell where
  | byte (x : UInt8)
  | truth (b : Bool)
  deriving DecidableEq

namespace Cell

def toByte : Cell → UInt8
  | byte x => x
  | truth b => if b then 1 else 0

def Accepts : Cell → UInt8 → Prop
  | byte x, y => y = x
  | truth b, y => b = decide (y ≠ 0)

theorem accepts_toByte (c : Cell) : c.Accepts c.toByte := by
  rcases c with x | (_ | _) <;> simp [Accepts, toByte]

end Cell

/-- The bytes a writer puts down for a format. -/
def wireBytes (cs : List Cell) : Bytes := cs.map Cell.toByte

/-- The format of a fixed byte string. -/
def fixed (w : Bytes) : List Cell := w.map Cell.byte

def Matches (cs : List Cell) (w : Bytes) : Prop := List.Forall₂ Cell.Accepts cs w

/-- Every truth cell of the format stands over a byte that is 0 or 1. -/
def BooleansCanonical (cs : List Cell) (w : Bytes) : Prop :=
  ∀ (i : ℕ) (b : Bool) (x : UInt8), cs[i]? = some (.truth b) → w[i]? = some x → x ≤ 1

@[simp] theorem wireBytes_append (cs ds : List Cell) :
    wireBytes (cs ++ ds) = wireBytes cs ++ wireBytes ds := List.map_append

@[simp] theorem wireBytes_nil : wireBytes [] = [] := rfl

@[simp] theorem wireBytes_fixed (w : Bytes) : wireBytes (fixed w) = w := by
  simp [wireBytes, fixed, Function.comp_def, Cell.toByte]

@[simp] theorem length_wireBytes (cs : List Cell) : (wireBytes cs).length = cs.length :=
  List.length_map _

@[simp] theorem fixed_append (u v : Bytes) : fixed (u ++ v) = fixed u ++ fixed v :=
  List.map_append

@[simp] theorem fixed_nil : fixed [] = [] := rfl

@[simp] theorem length_fixed (w : Bytes) : (fixed w).length = w.length := List.length_map _

theorem fixed_flatMap {α : Type} (xs : List α) (f : α → Bytes) :
    fixed (xs.flatMap f) = xs.flatMap fun x => fixed (f x) := by
  simp [fixed, List.map_flatMap]

theorem matches_wireBytes (cs : List Cell) : Matches cs (wireBytes cs) := by
  induction cs with
  | nil => exact .nil
  | cons c cs ih => exact .cons c.accepts_toByte ih

@[simp] theorem matches_fixed {u w : Bytes} : Matches (fixed u) w ↔ w = u := by
  induction u generalizing w with
  | nil => simp [Matches]
  | cons x u ih =>
    cases w with
    | nil => simp [Matches, fixed]
    | cons y w =>
      have h := @ih w
      simp only [Matches, fixed] at h
      simp [Matches, fixed, Cell.Accepts, h]

theorem matches_append {cs ds : List Cell} {w : Bytes} :
    Matches (cs ++ ds) w ↔ ∃ u v, Matches cs u ∧ Matches ds v ∧ w = u ++ v := by
  constructor
  · intro h
    refine ⟨w.take cs.length, w.drop cs.length, ?_, ?_, (List.take_append_drop ..).symm⟩
    · simpa [Matches] using List.forall₂_take cs.length h
    · simpa [Matches] using List.forall₂_drop cs.length h
  · intro h
    obtain ⟨u, v, hu, hv, rfl⟩ := h
    exact List.rel_append hu hv

theorem Matches.length_eq {cs : List Cell} {w : Bytes} (h : Matches cs w) :
    w.length = cs.length := (List.Forall₂.length_eq h).symm

/-- A byte string with canonical truth bytes has one reading: the written one. -/
theorem Matches.eq_wireBytes {cs : List Cell} {w : Bytes} (h : Matches cs w)
    (hc : BooleansCanonical cs w) : w = wireBytes cs := by
  induction h with
  | nil => rfl
  | @cons c x cs w hx _ ih =>
    have htail : BooleansCanonical cs w := by
      intro i b y hb hy
      exact hc (i + 1) b y hb hy
    rw [wireBytes, List.map_cons, ← wireBytes, ← ih htail]
    congr 1
    cases c with
    | byte y => exact hx
    | truth b =>
      have hle : x ≤ 1 := hc 0 b x rfl rfl
      have hcases : x = 0 ∨ x = 1 := by
        have h1 : x.toNat ≤ 1 := hle
        rcases Nat.le_one_iff_eq_zero_or_eq_one.mp h1 with h | h
        · exact .inl (UInt8.toNat_inj.mp h)
        · exact .inr (UInt8.toNat_inj.mp h)
      rcases hcases with rfl | rfl <;> simp_all [Cell.Accepts, Cell.toByte]

theorem BooleansCanonical.of_prefix {cs : List Cell} {u w : Bytes} (h : BooleansCanonical cs w)
    (hpre : u <+: w) : BooleansCanonical cs u := by
  intro i b x hi hx
  obtain ⟨hlt, rfl⟩ := List.getElem?_eq_some_iff.mp hx
  exact h i b _ hi (List.prefix_iff_getElem?.mp hpre i hlt)

/-- A state from which bytes are taken in order. -/
class ByteSource (σ : Type) where
  Consumes : σ → Bytes → σ → Prop
  consumes_nil {s t : σ} : Consumes s [] t ↔ t = s
  consumes_append {s t : σ} {u v : Bytes} :
    Consumes s (u ++ v) t ↔ ∃ m, Consumes s u m ∧ Consumes m v t

abbrev Reader (ε σ α : Type) := StateT σ (Exec ε) α

section
variable {ε σ α β : Type}

def Reader.lift (x : Exec ε α) : Reader ε σ α := fun s => x >>= fun a => .ok (a, s)

theorem Reader.bind_eq_ok {p : Reader ε σ α} {f : α → Reader ε σ β} {s t : σ} {b : β} :
    (p >>= f) s = .ok (b, t) ↔ ∃ a m, p s = .ok (a, m) ∧ f a m = .ok (b, t) := by
  simp only [bind, StateT.bind]
  rw [show ∀ x : Exec ε (α × σ), ∀ g : α × σ → Exec ε (β × σ), Except.bind x g = x >>= g
    from fun _ _ => rfl, Exec.bind_eq_ok]
  simp

@[simp] theorem Reader.pure_eq_ok {a b : α} {s t : σ} :
    (pure a : Reader ε σ α) s = .ok (b, t) ↔ b = a ∧ t = s := by
  show Except.ok (a, s) = .ok (b, t) ↔ b = a ∧ t = s
  rw [Except.ok.injEq, Prod.mk.injEq]
  exact and_congr eq_comm eq_comm

@[simp] theorem Reader.lift_eq_ok {x : Exec ε α} {a : α} {s t : σ} :
    Reader.lift x s = .ok (a, t) ↔ x = .ok a ∧ t = s := by
  simp only [Reader.lift, Exec.bind_eq_ok, Except.ok.injEq, Prod.mk.injEq]
  constructor
  · intro h
    obtain ⟨_, h, rfl, rfl⟩ := h
    exact ⟨h, rfl⟩
  · intro h
    obtain ⟨h, rfl⟩ := h
    exact ⟨a, h, rfl, rfl⟩

/-- The early return of a reader. -/
def Reader.reject (c : Prop) [Decidable c] (e : ε) : Reader ε σ Unit :=
  Reader.lift (Exec.reject c e)

@[simp] theorem Reader.reject_eq_ok {c : Prop} [Decidable c] {e : ε} {u : Unit} {s t : σ} :
    (Reader.reject c e : Reader ε σ Unit) s = .ok (u, t) ↔ ¬ c ∧ t = s := by
  simp [Reader.reject]

def Reader.many (p : Reader ε σ α) : ℕ → Reader ε σ (List α)
  | 0 => pure []
  | n + 1 => do
      let a ← p
      let as ← Reader.many p n
      pure (a :: as)

/-- A value that is read only when it is announced. -/
def Reader.optional (present : Bool) (p : Reader ε σ α) : Reader ε σ (Option α) :=
  if present then do
    let a ← p
    pure (some a)
  else pure none

/-- The reader panics on no source. -/
def Reader.Safe (p : Reader ε σ α) : Prop := ∀ s, (p s).Safe

theorem Reader.safe_pure {a : α} : Reader.Safe (pure a : Reader ε σ α) := fun _ => Exec.ok_ne_panic

theorem Reader.safe_bind {p : Reader ε σ α} {f : α → Reader ε σ β} (hp : Reader.Safe p)
    (hf : ∀ a, (∃ s t, p s = .ok (a, t)) → Reader.Safe (f a)) : Reader.Safe (p >>= f) := by
  intro s
  apply Exec.safe_bind (hp s)
  intro x hx
  exact hf x.1 ⟨s, x.2, hx⟩ x.2

theorem Reader.safe_lift {x : Exec ε α} (hx : x.Safe) :
    Reader.Safe (Reader.lift x : Reader ε σ α) :=
  fun _ => Exec.safe_bind hx fun _ _ => Exec.ok_ne_panic

theorem Reader.safe_reject {c : Prop} [Decidable c] {e : ε} :
    Reader.Safe (Reader.reject c e : Reader ε σ Unit) := Reader.safe_lift Exec.reject_ne_panic

theorem Reader.safe_many {p : Reader ε σ α} (hp : Reader.Safe p) (n : ℕ) :
    Reader.Safe (Reader.many p n) := by
  induction n with
  | zero => exact Reader.safe_pure
  | succ n ih =>
    apply Reader.safe_bind hp
    intro a _
    exact Reader.safe_bind ih fun _ _ => Reader.safe_pure

theorem Reader.safe_optional {p : Reader ε σ α} (hp : Reader.Safe p) (present : Bool) :
    Reader.Safe (Reader.optional present p) := by
  cases present with
  | false => exact Reader.safe_pure
  | true => exact Reader.safe_bind hp fun _ _ => Reader.safe_pure

variable [ByteSource σ]

/-- The format `cs` stands next in `s`, and `t` is what is left. -/
def Reads (s : σ) (cs : List Cell) (t : σ) : Prop :=
  ∃ w, Matches cs w ∧ ByteSource.Consumes s w t

@[simp] theorem reads_nil {s t : σ} : Reads s [] t ↔ t = s := by
  simp [Reads, Matches, ByteSource.consumes_nil]

theorem reads_append {s t : σ} {cs ds : List Cell} :
    Reads s (cs ++ ds) t ↔ ∃ m, Reads s cs m ∧ Reads m ds t := by
  simp only [Reads, matches_append]
  constructor
  · intro h
    obtain ⟨_, ⟨u, v, hu, hv, rfl⟩, h⟩ := h
    obtain ⟨m, hm, ht⟩ := ByteSource.consumes_append.mp h
    exact ⟨m, ⟨u, hu, hm⟩, v, hv, ht⟩
  · intro h
    obtain ⟨m, ⟨u, hu, hm⟩, v, hv, ht⟩ := h
    exact ⟨u ++ v, ⟨u, v, hu, hv, rfl⟩, ByteSource.consumes_append.mpr ⟨m, hm, ht⟩⟩

@[simp] theorem reads_fixed {s t : σ} {w : Bytes} :
    Reads s (fixed w) t ↔ ByteSource.Consumes s w t := by
  simp [Reads]

theorem reads_truth {s t : σ} {b : Bool} :
    Reads s [.truth b] t ↔ ∃ x : UInt8, b = decide (x ≠ 0) ∧ ByteSource.Consumes s [x] t := by
  constructor
  · intro h
    obtain ⟨w, hw, h⟩ := h
    cases hw with
    | cons hx htail =>
      cases htail
      exact ⟨_, hx, h⟩
  · intro h
    obtain ⟨x, hx, h⟩ := h
    exact ⟨[x], .cons hx .nil, h⟩

/-- `p` returns `a` exactly when `a` is valid and its format stands next. -/
def Recognises (p : Reader ε σ α) (valid : α → Prop) (format : α → List Cell) : Prop :=
  ∀ s a t, p s = .ok (a, t) ↔ valid a ∧ Reads s (format a) t

theorem Recognises.congr {p : Reader ε σ α} {P Q : α → Prop} {F G : α → List Cell}
    (h : Recognises p P F) (hv : ∀ a, Q a ↔ P a) (hf : ∀ a, P a → G a = F a) :
    Recognises p Q G := by
  intro s a t
  rw [h s a t, hv]
  constructor
  · intro h
    obtain ⟨ha, hr⟩ := h
    exact ⟨ha, by rwa [hf a ha]⟩
  · intro h
    obtain ⟨ha, hr⟩ := h
    exact ⟨ha, by rwa [← hf a ha]⟩

/-- The source determines the valid value whose format stands next in it. -/
def Unambiguous (σ : Type) [ByteSource σ] (valid : α → Prop) (format : α → List Cell) : Prop :=
  ∀ (s : σ) a b t u, valid a → valid b → Reads s (format a) t → Reads s (format b) u →
    a = b ∧ t = u

theorem Recognises.unambiguous {p : Reader ε σ α} {P : α → Prop} {F : α → List Cell}
    (h : Recognises p P F) : Unambiguous σ P F := by
  intro s a b t u ha hb hra hrb
  have hpa := (h s a t).mpr ⟨ha, hra⟩
  have hpb := (h s b u).mpr ⟨hb, hrb⟩
  rw [hpa] at hpb
  cases hpb
  exact ⟨rfl, rfl⟩

/-- Two readings of one source that begin with the same kind of field agree on it, and go on
from the same place. -/
theorem Unambiguous.peel {P : α → Prop} {F : α → List Cell} (h : Unambiguous σ P F) {a b : α}
    (ha : P a) (hb : P b) {cs ds : List Cell} {s t u : σ} (hra : Reads s (F a ++ cs) t)
    (hrb : Reads s (F b ++ ds) u) : a = b ∧ ∃ m, Reads m cs t ∧ Reads m ds u := by
  obtain ⟨m, hm, ht⟩ := reads_append.mp hra
  obtain ⟨n, hn, hu⟩ := reads_append.mp hrb
  obtain ⟨hab, rfl⟩ := h s a b m n ha hb hm hn
  exact ⟨hab, m, ht, hu⟩

theorem Recognises.lift {x : Exec ε α} : Recognises (σ := σ) (Reader.lift x)
    (fun a => x = .ok a) (fun _ => []) := by
  intro s a t
  simp

theorem Recognises.many {p : Reader ε σ α} {P : α → Prop} {F : α → List Cell}
    (h : Recognises p P F) (n : ℕ) :
    Recognises (Reader.many p n) (fun as => as.length = n ∧ ∀ a ∈ as, P a)
      (fun as => as.flatMap F) := by
  induction n with
  | zero =>
    intro s as t
    simp only [Reader.many, Reader.pure_eq_ok, List.length_eq_zero_iff]
    constructor
    · intro h
      obtain ⟨rfl, rfl⟩ := h
      simp
    · intro h
      obtain ⟨⟨rfl, -⟩, hr⟩ := h
      exact ⟨rfl, by simpa using hr⟩
  | succ n ih =>
    intro s as t
    simp only [Reader.many, Reader.bind_eq_ok, Reader.pure_eq_ok, h s, ih _]
    constructor
    · intro h
      obtain ⟨a, m, ⟨ha, hm⟩, as, k, ⟨⟨hlen, has⟩, hk⟩, rfl, rfl⟩ := h
      refine ⟨⟨by simp [hlen], by simpa [ha] using has⟩, ?_⟩
      rw [List.flatMap_cons, reads_append]
      exact ⟨m, hm, hk⟩
    · intro h
      obtain ⟨⟨hlen, has⟩, hr⟩ := h
      cases as with
      | nil => simp at hlen
      | cons a as =>
        rw [List.flatMap_cons, reads_append] at hr
        obtain ⟨m, hm, ht⟩ := hr
        have hall := List.forall_mem_cons.mp has
        exact ⟨a, m, ⟨hall.1, hm⟩, as, t, ⟨⟨by simpa using hlen, hall.2⟩, ht⟩, rfl, rfl⟩

theorem Recognises.optional {p : Reader ε σ α} {P : α → Prop} {F : α → List Cell}
    (h : Recognises p P F) (present : Bool) : Recognises (Reader.optional present p)
      (fun o => o.isSome = present ∧ ∀ a, o = some a → P a) (fun o => o.elim [] F) := by
  intro s o t
  cases present with
  | false =>
    simp only [Reader.optional, Bool.false_eq_true, if_false, Reader.pure_eq_ok,
      Option.isSome_eq_false_iff, Option.isNone_iff_eq_none]
    constructor
    · intro h
      obtain ⟨rfl, rfl⟩ := h
      simp
    · intro h
      obtain ⟨⟨rfl, -⟩, hr⟩ := h
      exact ⟨rfl, by simpa using hr⟩
  | true =>
    simp only [Reader.optional, if_true, Reader.bind_eq_ok, Reader.pure_eq_ok, h s]
    constructor
    · intro h
      obtain ⟨a, m, ⟨ha, hr⟩, rfl, rfl⟩ := h
      exact ⟨⟨rfl, by simpa using ha⟩, hr⟩
    · intro h
      obtain ⟨⟨hsome, ha⟩, hr⟩ := h
      cases o with
      | none => cases hsome
      | some a => exact ⟨a, t, ⟨ha a rfl, hr⟩, rfl, rfl⟩

end
end Hurray.Base
