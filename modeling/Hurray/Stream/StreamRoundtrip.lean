import Hurray.Stream.ReadDriver
import Hurray.Stream.WriteDriver

/-!
What the reader makes of the bytes of the writer. The bytes of one tensor take a
reader that is at a boundary to the next boundary with that tensor delivered, and
a stream is a run over such stretches.
-/
namespace Hurray.Stream
open Hurray.Base Hurray.Core Hurray.Descriptor StateTransition

/-- The allocator grants the request whatever it has granted before. -/
def Grants (A : Type) [DestinationAlloc A] (request : DestinationRequest) : Prop :=
  ∀ a : A, ∃ mem a', DestinationAlloc.allocate request a = (.ok mem, a') ∧
    mem.length = request.byteSize.toNat

/-- The tensor survives its own encoding, has payloads of the declared sizes and lies within the
limits of a reader. -/
structure Readable (A : Type) [DestinationAlloc A] (options : StreamReaderOptions)
    (t : StreamTensor) : Prop where
  roundTrips : ∃ e, encode t.descriptor = .ok e ∧ decode e = .ok t.descriptor ∧
    e.length ≤ options.maxDescriptorBytes.toNat
  sized : t.descriptor.buffers.map (fun h => h.byteSize.toNat) = t.buffers.map List.length
  within : ∀ h ∈ t.descriptor.buffers, h.byteSize ≤ options.maxBufferBytes
  synced : options.enforceCrossMachineSync = true →
    ∀ h ∈ t.descriptor.buffers, h.syncMode = .producerSynced
  granted : ∀ i h, t.descriptor.buffers[i]? = some h → Grants A ⟨i, h.byteSize, h.alignment⟩

/-- The default allocator grants every buffer that fits the address space. -/
theorem systemDestinations_grants {h : BufferHandle} (index : ℕ)
    (hsize : h.byteSize.toNat + (h.alignment.toNat - 1) ≤ ISIZE_MAX) :
    Grants SystemDestinations ⟨index, h.byteSize, h.alignment⟩ := by
  intro a
  by_cases hzero : h.byteSize = 0
  · refine ⟨[], a, ?_, by simp [hzero]⟩
    simp [DestinationAlloc.allocate, alignedZeroed, hzero, Exec.orFail]
  · refine ⟨List.replicate h.byteSize.toNat 0, a, ?_, List.length_replicate⟩
    simp [DestinationAlloc.allocate, alignedZeroed, hzero, h.alignment_pow, hsize, Exec.orFail]

/-! ### The bytes of a descriptor -/

section Descriptor
variable {d : TensorDescriptor} {e : Bytes}

theorem prefix_le_encode (h : encode d = .ok e) : PREFIX_LEN ≤ e.length := by
  obtain ⟨-, rfl⟩ := encode_eq_ok_iff.mp h
  rw [length_wireBytes, length_descriptorCells, PREFIX_LEN]
  omega

theorem lengthField_encode (h : encode d = .ok e) : lengthField e = e.length := by
  obtain ⟨henc, rfl⟩ := encode_eq_ok_iff.mp h
  rw [lengthField_wireBytes, length_wireBytes, encodedLength_toNat henc]

/-- The length is known from the prefix on. -/
theorem lengthField_take (h : encode d = .ok e) : lengthField (e.take PREFIX_LEN) = e.length := by
  rw [← lengthField_encode h, lengthField, lengthField, PREFIX_LEN, List.drop_take, List.take_take]
  rfl

end Descriptor

/-! ### The phases of one tensor -/

namespace StreamReaderCore
variable {A : Type} {chunk : ℕ → ℕ} {options : StreamReaderOptions} {d : TensorDescriptor}
  {e : Bytes}

/-- The core of a boundary with a full prefix, a full descriptor and what is in between. -/
theorem filledWith_prefix (a : A) (h : PREFIX_LEN ≤ e.length) :
    (withDestinations options a).filledWith (e.take PREFIX_LEN) =
      { withDestinations options a with staging := e.take PREFIX_LEN, filled := PREFIX_LEN } := by
  have hlen : (e.take PREFIX_LEN).length = PREFIX_LEN := List.length_take_of_le h
  have hover : overwrite (List.replicate PREFIX_LEN 0) 0 (e.take PREFIX_LEN) = e.take PREFIX_LEN := by
    rw [overwrite_full (by rw [List.length_replicate, hlen, Nat.zero_add])]
    rfl
  simp [filledWith, fillDst, withDestinations, hover, hlen]

theorem beginDescriptor_filled (a : A) (henc : encode d = .ok e)
    (hlimit : e.length ≤ options.maxDescriptorBytes.toNat) :
    ({ withDestinations options a with staging := e.take PREFIX_LEN, filled := PREFIX_LEN } :
        StreamReaderCore A).beginDescriptor =
      (.ok (), { withDestinations options a with
        staging := resize (e.take PREFIX_LEN) e.length, target := e.length, filled := PREFIX_LEN,
        state := .descriptor }) := by
  have hlong := prefix_le_encode henc
  unfold beginDescriptor
  dsimp only
  rw [lengthField_take henc, if_neg (Nat.not_lt.mpr hlong)]
  exact if_neg (Nat.not_lt.mpr hlimit)

theorem resize_prefix (h : PREFIX_LEN ≤ e.length) :
    overwrite (resize (e.take PREFIX_LEN) e.length) PREFIX_LEN (e.drop PREFIX_LEN) = e ∧
      (resize (e.take PREFIX_LEN) e.length).length = e.length := by
  have hlen : (e.take PREFIX_LEN).length = PREFIX_LEN := List.length_take_of_le h
  have hresize : resize (e.take PREFIX_LEN) e.length =
      e.take PREFIX_LEN ++ List.replicate (e.length - PREFIX_LEN) 0 := by
    rw [resize, hlen, List.take_of_length_le (by rw [hlen]; exact h)]
  have htotal : (resize (e.take PREFIX_LEN) e.length).length = e.length := by
    rw [hresize, List.length_append, hlen, List.length_replicate]
    omega
  refine ⟨?_, htotal⟩
  rw [overwrite_full (by rw [htotal, List.length_drop]; omega), hresize, List.take_left' hlen,
    List.take_append_drop]

variable [DestinationAlloc A]

open ReadDriver

/-- The next buffer, or the end of the tensor. -/
def proceed (c : StreamReaderCore A) (d : TensorDescriptor) (index : ℕ) :
    Result Unit × StreamReaderCore A :=
  if index < d.buffers.length then c.beginBuffer index else c.completeTensor

theorem beginBuffer_granted {c : StreamReaderCore A} {p : Pending} {index : ℕ} {h : BufferHandle}
    (hp : c.pending = some p) (hh : p.descriptor.buffers[index]? = some h)
    (hsync : c.options.enforceCrossMachineSync = true → h.syncMode = .producerSynced)
    (hsize : h.byteSize ≤ c.options.maxBufferBytes)
    (hgrant : Grants A ⟨index, h.byteSize, h.alignment⟩) :
    ∃ mem a, mem.length = h.byteSize.toNat ∧ c.beginBuffer index =
      (.ok (), { c with destinations := a, pending := some { p with dest := some mem },
                        target := h.byteSize.toNat, filled := 0, state := .buffer index }) := by
  obtain ⟨mem, a, halloc, hlen⟩ := hgrant c.destinations
  refine ⟨mem, a, hlen, ?_⟩
  unfold beginBuffer bufferHandle
  rw [hp, Option.bind_some, hh]
  dsimp only
  rw [if_neg (by tauto), if_neg (UInt64.not_lt.mpr hsize), halloc]

/-- The payloads of a tensor, from any of its buffers on. -/
theorem consumes_buffers (chunk : ℕ → ℕ) {c : StreamReaderCore A} (done bufs : List Bytes)
    (hoptions : c.options = options) (hpending : c.pending = some ⟨d, done, none⟩)
    (hread : Readable A options ⟨d, done ++ bufs⟩) :
    ∃ next ready a, c.proceed d done.length = (.ok (), next) ∧ ¬ next.AtBoundary ∧
      Consumes chunk next bufs.flatten ready ∧ ready.state = .tensorReady ∧
      ready.takeTensor = (some ⟨d, done ++ bufs⟩, withDestinations options a) := by
  induction bufs generalizing c done with
  | nil =>
    have hcount : d.buffers.length = done.length := by
      simpa using congrArg List.length hread.sized
    refine ⟨{ c with pending := none, tensor := some ⟨d, done⟩, state := .tensorReady }, _,
      c.destinations, ?_, ?_, consumes_of_step_eq rfl, rfl, ?_⟩
    · rw [proceed, if_neg (by omega), completeTensor, hpending]
    · intro hb
      cases hb.1
    · simp [takeTensor, resetToPrefix, withDestinations, hoptions]
  | cons b bufs ih =>
    have hcount : d.buffers.length = done.length + (bufs.length + 1) := by
      simpa using congrArg List.length hread.sized
    obtain ⟨h, hh, hsize⟩ : ∃ h, d.buffers[done.length]? = some h ∧ h.byteSize.toNat = b.length := by
      have hget := congrArg (fun l : List ℕ => l[done.length]?) hread.sized
      simpa using hget
    have hmem : h ∈ d.buffers := List.mem_of_getElem? hh
    obtain ⟨mem, a, hlen, hbegin⟩ := beginBuffer_granted hpending hh
      (by rw [hoptions]; exact fun hx => hread.synced hx h hmem)
      (by rw [hoptions]; exact hread.within h hmem) (hread.granted _ h hh)
    obtain ⟨first, hfirst⟩ : ∃ first : StreamReaderCore A, first =
        { c with destinations := a, pending := some ⟨d, done, some mem⟩,
                 target := h.byteSize.toNat, filled := 0, state := .buffer done.length } := ⟨_, rfl⟩
    have hfull : first.filledWith b = { first with pending := some ⟨d, done, some b⟩,
                                                   filled := b.length } := by
      subst hfirst
      have hover : overwrite mem 0 b = b := by
        rw [overwrite_full (by omega)]
        rfl
      simp [filledWith, fillDst, hover]
    have hcons : Consumes chunk first b (first.filledWith b) := by
      subst hfirst
      refine consumes_fill ⟨_, mem, rfl, rfl, hlen.ge⟩ (Nat.zero_le _) ?_
      simp [remaining, hsize]
    obtain ⟨next, ready, a', hproceed, hnext, hrest, hready, htake⟩ := ih (done ++ [b])
      (c := { first with pending := some ⟨d, done ++ [b], none⟩, filled := b.length })
      (by rw [hfirst]; exact hoptions) rfl
      (by rw [List.append_assoc, List.singleton_append]; exact hread)
    have hstep : (first.filledWith b).step = next.step := by
      refine step_buffer (u := ()) done.length ?_ ?_ ?_
      · rw [hfull, hfirst]
      · rw [hfull, hfirst]
        simp [remaining, hsize]
      · rw [hfull]
        simpa [finishBuffer, proceed] using hproceed
    have hboundary : ¬ first.AtBoundary ∧ ¬ (first.filledWith b).AtBoundary := by
      rw [hfull, hfirst]
      exact ⟨fun hb => (by cases hb.1), fun hb => (by cases hb.1)⟩
    refine ⟨first, ready, a', ?_, hboundary.1, ?_, hready, ?_⟩
    · rw [proceed, if_pos (by omega), hbegin, hfirst]
    · rw [List.flatten_cons]
      refine hcons.trans hboundary.2 ?_
      exact (consumes_of_step_eq hstep).trans hnext hrest
    · rw [htake, List.append_assoc, List.singleton_append]

/-- One tensor, from a boundary to the next. -/
theorem consumes_tensor (chunk : ℕ → ℕ) {t : StreamTensor} {w : Bytes} (a : A)
    (hread : Readable A options t)
    (hw : t.bytes = some w) :
    ∃ ready a', Consumes chunk (withDestinations options a) w ready ∧
      ready.state = .tensorReady ∧ ready.takeTensor = (some t, withDestinations options a') := by
  obtain ⟨e, henc, rfl⟩ := StreamTensor.bytes_eq_some.mp hw
  obtain ⟨e', henc', hdec, hlimit⟩ := hread.roundTrips
  obtain rfl : e = e' := by
    rw [henc] at henc'
    exact Except.ok.inj henc'
  have hlong := prefix_le_encode henc
  obtain ⟨hover, htotal⟩ := resize_prefix hlong
  -- the prefix
  have hprefix : Consumes chunk (withDestinations options a) (e.take PREFIX_LEN)
      { withDestinations options a with staging := e.take PREFIX_LEN, filled := PREFIX_LEN } := by
    rw [← filledWith_prefix a hlong]
    refine consumes_fill (le_of_eq rfl) (Nat.zero_le _) ?_
    rw [List.length_take_of_le hlong]
    rfl
  -- the rest of the descriptor
  obtain ⟨second, hsecond⟩ : ∃ second : StreamReaderCore A, second =
      { withDestinations options a with staging := resize (e.take PREFIX_LEN) e.length,
                                        target := e.length, filled := PREFIX_LEN,
                                        state := .descriptor } := ⟨_, rfl⟩
  have hfull : second.filledWith (e.drop PREFIX_LEN) =
      { second with staging := e, filled := e.length } := by
    have hfilled : PREFIX_LEN + (e.drop PREFIX_LEN).length = e.length := by
      rw [List.length_drop]
      omega
    subst hsecond
    simp only [filledWith, fillDst, hover, hfilled]
  have hdescriptor : Consumes chunk second (e.drop PREFIX_LEN)
      { second with staging := e, filled := e.length } := by
    rw [← hfull]
    subst hsecond
    refine consumes_fill htotal.ge hlong ?_
    rw [List.length_drop]
    rfl
  -- the buffers
  obtain ⟨next, ready, a', hproceed, hnext, hrest, hready, htake⟩ :=
    consumes_buffers chunk [] t.buffers (d := t.descriptor)
      (c := { second with staging := e, filled := e.length, pending := some ⟨t.descriptor, [], none⟩ })
      (by rw [hsecond]; rfl) rfl hread
  have hstep₁ : ({ withDestinations options a with
      staging := e.take PREFIX_LEN, filled := PREFIX_LEN } : StreamReaderCore A).step = second.step := by
    rw [hsecond]
    exact step_descriptorPrefix rfl (Nat.sub_self _) (beginDescriptor_filled a henc hlimit)
  have hstep₂ : ({ second with staging := e, filled := e.length } : StreamReaderCore A).step =
      next.step := by
    refine step_descriptor (u := ()) (by rw [hsecond]) (by rw [hsecond]; simp [remaining]) ?_
    simp only [decodeDescriptor, hdec, Exec.mapError]
    rw [← hproceed, proceed, List.length_nil]
    by_cases hzero : t.descriptor.buffers.length = 0
    · rw [if_pos hzero, if_neg (by rw [hzero]; exact Nat.lt_irrefl 0)]
    · rw [if_neg hzero, if_pos (Nat.pos_of_ne_zero hzero)]
  refine ⟨ready, a', ?_, hready, htake⟩
  have hsplit : e ++ t.buffers.flatten = e.take PREFIX_LEN ++
      ([] ++ (e.drop PREFIX_LEN ++ ([] ++ t.buffers.flatten))) := by
    rw [List.nil_append, List.nil_append, ← List.append_assoc, List.take_append_drop]
  rw [hsplit]
  refine hprefix.trans (fun hb => absurd hb.2 (Nat.succ_ne_zero 9)) ?_
  refine (consumes_of_step_eq hstep₁).trans (fun hb => ?_) ?_
  · rw [hsecond] at hb
    cases hb.1
  refine hdescriptor.trans (fun hb => ?_) ((consumes_of_step_eq hstep₂).trans hnext hrest)
  rw [hsecond] at hb
  cases hb.1

end StreamReaderCore

/-! ### Streams -/

section Streams
variable {A : Type} [DestinationAlloc A] {accept chunk : ℕ → ℕ} {options : StreamReaderOptions}
  {ts : List StreamTensor} {b : Bytes}

open ReadDriver StreamReaderCore

/-- Whole tensors are delivered one after the other. -/
theorem leads_of_tensors (chunk : ℕ → ℕ) (hread : ∀ t ∈ ts, Readable A options t)
    (hb : bytesOf ts = some b) (a : A) (tail : Bytes) (taken : List StreamTensor) :
    ∃ a', Leads chunk (withDestinations options a) (b ++ tail) taken
      (withDestinations options a') tail (taken ++ ts) := by
  induction ts generalizing a b taken with
  | nil =>
    cases hb
    exact ⟨a, fun _ _ hend => by simpa using hend⟩
  | cons t ts ih =>
    obtain ⟨w, hw, bs, hbs, rfl⟩ := bytesOf_cons_eq_some.mp hb
    obtain ⟨ready, a₁, hcons, hready, htake⟩ := consumes_tensor chunk a
      (hread t List.mem_cons_self) hw
    obtain ⟨a₂, hrest⟩ := ih (fun u hu => hread u (List.mem_cons_of_mem t hu)) hbs a₁
      (taken ++ [t])
    refine ⟨a₂, ?_⟩
    intro final outcome hend
    rw [List.append_assoc]
    apply hcons.whole
    apply leads_of_tensorReady hready htake
    apply hrest
    simpa using hend

/-- The end of a stream after whole tensors. -/
theorem ends_of_tensors (hread : ∀ t ∈ ts, Readable A options t) (hb : bytesOf ts = some b) (a : A) :
    Ends chunk (start (withDestinations options a) b) ts (.ok ()) := by
  obtain ⟨a', hleads⟩ := leads_of_tensors chunk hread hb a [] []
  rw [List.append_nil] at hleads
  refine hleads _ _ (fun calls => ?_) 0
  exact ends_atBoundary (c := withDestinations options a') (Nat.succ_pos 9) ⟨rfl, rfl⟩ _ calls

/-- The end of a stream inside of a tensor. -/
theorem ends_of_part {t : StreamTensor} {w part : Bytes} (hread : ∀ u ∈ ts, Readable A options u)
    (hb : bytesOf ts = some b) (ht : Readable A options t) (hw : t.bytes = some w)
    (hpart : part <+: w) (hne : part ≠ []) (hlt : part.length < w.length) (a : A) :
    Ends chunk (start (withDestinations options a) (b ++ part)) ts (Exec.fail .unexpectedEof) := by
  obtain ⟨a', hleads⟩ := leads_of_tensors chunk hread hb a part []
  obtain ⟨ready, a₁, hcons, -, -⟩ := consumes_tensor chunk a' ht hw
  exact hleads _ _ (hcons.torn part hpart hlt (fun hnil => absurd hnil hne) ts) 0

/-- Where the first `i` tensors end. -/
def boundary (ts : List StreamTensor) (i : ℕ) : ℕ := ((bytesOf (ts.take i)).elim 0 List.length)

theorem boundary_append {pre : List StreamTensor} (post : List StreamTensor) (hb : bytesOf pre = some b) :
    boundary (pre ++ post) pre.length = b.length := by
  rw [boundary, List.take_left, hb, Option.elim_some]

theorem boundary_cons {t : StreamTensor} {w : Bytes} (hw : t.bytes = some w)
    (hb : bytesOf ts = some b) (i : ℕ) :
    boundary (t :: ts) (i + 1) = w.length + boundary ts i := by
  rw [← List.take_append_drop i ts, bytesOf_append] at hb
  obtain ⟨c, hc, -⟩ := Option.bind_eq_some_iff.mp hb
  have hcons : bytesOf (t :: ts.take i) = some (w ++ c) :=
    bytesOf_cons_eq_some.mpr ⟨w, hw, c, hc, rfl⟩
  rw [boundary, boundary, List.take_succ_cons, hcons, hc, Option.elim_some, Option.elim_some,
    List.length_append]

/-- A cut that is no boundary lies inside of one tensor. -/
theorem exists_cut {n : ℕ} (hb : bytesOf ts = some b) (hn : n < b.length)
    (hboundary : ∀ i, n ≠ boundary ts i) :
    ∃ pre t post c w part, ts = pre ++ t :: post ∧ bytesOf pre = some c ∧ t.bytes = some w ∧
      b.take n = c ++ part ∧ part <+: w ∧ part ≠ [] ∧ part.length < w.length ∧
      n = c.length + part.length := by
  induction ts generalizing b n with
  | nil =>
    cases hb
    exact absurd hn (Nat.not_lt_zero n)
  | cons t ts ih =>
    obtain ⟨w, hw, bs, hbs, rfl⟩ := bytesOf_cons_eq_some.mp hb
    rw [List.length_append] at hn
    by_cases hlt : n < w.length
    · refine ⟨[], t, ts, [], w, w.take n, rfl, rfl, hw, ?_, List.take_prefix n w, ?_, ?_, ?_⟩
      · rw [List.take_append_of_le_length hlt.le, List.nil_append]
      · have hzero : n ≠ 0 := hboundary 0
        rw [Ne, List.take_eq_nil_iff]
        rintro (h | h)
        · exact hzero h
        · rw [h] at hlt
          exact absurd hlt (Nat.not_lt_zero n)
      · rw [List.length_take]
        omega
      · rw [List.length_take, List.length_nil]
        omega
    · have hne : n ≠ w.length := by
        have hone := hboundary 1
        rwa [boundary_cons hw hbs, show boundary ts 0 = 0 from rfl, Nat.add_zero] at hone
      obtain ⟨pre, u, post, c, v, part, rfl, hc, hv, htake, hprefix, hnil, hpart, hlen⟩ :=
        ih (n := n - w.length) hbs (by omega) fun i heq => hboundary (i + 1) (by
          rw [boundary_cons hw hbs]
          omega)
      refine ⟨t :: pre, u, post, w ++ c, v, part, rfl, ?_, hv, ?_, hprefix, hnil, hpart, ?_⟩
      · exact bytesOf_cons_eq_some.mpr ⟨w, hw, c, hc, rfl⟩
      · rw [List.take_append, List.take_of_length_le (by omega), htake, List.append_assoc]
      · rw [List.length_append]
        omega

/-- The end of a stream that was cut at a place that is no boundary. -/
theorem ends_of_cut {n : ℕ} (hread : ∀ t ∈ ts, Readable A options t) (hb : bytesOf ts = some b)
    (hn : n < b.length) (hboundary : ∀ i, n ≠ boundary ts i) (a : A) :
    ∃ i < ts.length, boundary ts i < n ∧ n < boundary ts (i + 1) ∧
      Ends chunk (start (withDestinations options a) (b.take n)) (ts.take i)
        (Exec.fail .unexpectedEof) := by
  obtain ⟨pre, t, post, c, w, part, rfl, hc, hw, htake, hprefix, hnil, hpart, hlen⟩ :=
    exists_cut hb hn hboundary
  have hpos := List.length_pos_iff.mpr hnil
  have hfirst : boundary (pre ++ t :: post) pre.length = c.length := boundary_append _ hc
  have hnext : boundary (pre ++ t :: post) (pre.length + 1) = c.length + w.length := by
    have hsnoc : bytesOf (pre ++ [t]) = some (c ++ w) := by
      rw [bytesOf_append, hc, bytesOf_singleton, hw]
      rfl
    have happend := boundary_append post hsnoc
    rwa [List.append_assoc, List.length_append, List.length_append] at happend
  refine ⟨pre.length, ?_, by omega, by omega, ?_⟩
  · rw [List.length_append, List.length_cons]
    omega
  · rw [htake, List.take_left]
    exact ends_of_part (fun u hu => hread u (List.mem_append_left _ hu)) hc
      (hread t (List.mem_append_right _ List.mem_cons_self)) hw hprefix hnil hpart a

/-- The node of a tensor on its own. -/
def StreamTensor.toNode (t : StreamTensor) : CompositeNode := .tensor t.descriptor t.buffers

/-- The round trip of a stream. The writer ends with the bytes of all tensors sent, whatever the
sink accepts; the reader ends with exactly these tensors, whatever the source returns; and a cut
that is no boundary leaves it with the tensors before the cut and an unexpected end of file. -/
theorem stream_roundTrip {writer : StreamWriterCore} (hwriter : writer.retired = none)
    (hsync : writer.enforceCrossMachineSync = true →
      ∀ t ∈ ts, ∀ h ∈ t.descriptor.buffers, h.syncMode = .producerSynced)
    (hread : ∀ t ∈ ts, Readable A options t) (accept chunk : ℕ → ℕ) (a : A) :
    ∃ w ∈ eval (WriteDriver.round accept) ⟨writer, none, ts.map StreamTensor.toNode, [], 0⟩,
      w.flight = none ∧ w.todo = [] ∧
      Ends chunk (start (withDestinations options a) w.sent) ts (.ok ()) ∧
      ∀ n < w.sent.length, (∀ i, n ≠ boundary ts i) →
        ∃ i < ts.length, boundary ts i < n ∧ n < boundary ts (i + 1) ∧
          Ends chunk (start (withDestinations options a) (w.sent.take n)) (ts.take i)
            (Exec.fail .unexpectedEof) := by
  have htensors : (ts.map StreamTensor.toNode).flatMap CompositeNode.tensors = ts := by
    simp [List.flatMap_map, StreamTensor.toNode, CompositeNode.tensors]
  obtain ⟨b, hb⟩ : ∃ b, bytesOf ts = some b := by
    apply Option.isSome_iff_exists.mp
    apply bytesOf_isSome.mpr
    intro t ht
    obtain ⟨e, henc, -⟩ := (hread t ht).roundTrips
    exact (encode_eq_ok_iff.mp henc).1
  obtain ⟨calls, hreach⟩ := WriteDriver.reaches_all accept
    (d := ⟨writer, none, ts.map StreamTensor.toNode, [], 0⟩) rfl hwriter (by
      intro node hnode
      obtain ⟨t, ht, rfl⟩ := List.mem_map.mp hnode
      exact StreamWriterCore.validateTensor_eq_ok.mpr
        ⟨(hread t ht).sized, fun hx => hsync hx t ht⟩) (htensors.symm ▸ hb)
  refine ⟨_, mem_eval.mpr ⟨hreach, rfl⟩, rfl, rfl, ends_of_tensors hread hb a, ?_⟩
  intro n hn hboundary
  exact ends_of_cut hread hb hn hboundary a

end Streams

theorem readable_workedTensor : Readable SystemDestinations .default workedTensor where
  roundTrips := ⟨(encode workedExample).toOption.getD [], by decide +kernel, by decide +kernel,
    by decide +kernel⟩
  sized := by decide +kernel
  within := by decide +kernel
  synced := by decide +kernel
  granted := by
    intro i h hh
    have hall : ∀ h ∈ workedExample.buffers,
        h.byteSize.toNat + (h.alignment.toNat - 1) ≤ ISIZE_MAX := by decide
    exact systemDestinations_grants i (hall h (List.mem_of_getElem? hh))

/-- Two tensors that are written and read one byte at a time. -/
theorem stream_roundTrip_workedTensor :
    ∃ w ∈ eval (WriteDriver.round fun _ => 0)
        ⟨.new, none, [workedTensor, workedTensor].map StreamTensor.toNode, [], 0⟩,
      w.flight = none ∧ w.todo = [] ∧
      ReadDriver.Ends (fun _ => 0)
        (ReadDriver.start (.withDestinations .default SystemDestinations.mk) w.sent)
        [workedTensor, workedTensor] (.ok ()) ∧
      ∀ n < w.sent.length, (∀ i, n ≠ boundary [workedTensor, workedTensor] i) →
        ∃ i < [workedTensor, workedTensor].length,
          boundary [workedTensor, workedTensor] i < n ∧
          n < boundary [workedTensor, workedTensor] (i + 1) ∧
          ReadDriver.Ends (fun _ => 0)
            (ReadDriver.start (.withDestinations .default SystemDestinations.mk) (w.sent.take n))
            ([workedTensor, workedTensor].take i) (Exec.fail .unexpectedEof) := by
  refine stream_roundTrip rfl (fun h => absurd h Bool.false_ne_true) ?_ _ _ _
  intro t ht
  obtain rfl : t = workedTensor := by simpa using ht
  exact readable_workedTensor

end Hurray.Stream
