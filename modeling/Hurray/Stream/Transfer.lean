import Hurray.Stream.CompositeRoundtrip
import Hurray.Stream.StreamReader
import Hurray.Stream.StreamWriter

/-!
From one end of a stream to the other. The items that a reader returns are those
that the writer was told it had written, whatever happened to the calls on either
side; a torn item at the end is an error and never an item.
-/
namespace Hurray.Stream
open Hurray.Base Hurray.Core Hurray.Descriptor StateTransition

/-! ### What is on the sink -/

namespace WriterSession
variable {core₀ : StreamWriterCore} {s : WriterSession} {log : List WriterEntry} {e : WriterEntry}

theorem succeeded_cons (e : WriterEntry) (log : List WriterEntry) :
    (e.Succeeded ∧ succeeded (e :: log) = e.item :: succeeded log) ∨
      (¬ e.Succeeded ∧ succeeded (e :: log) = succeeded log) := by
  unfold WriterEntry.Succeeded succeeded
  rcases hr : e.result with _ | (f | u)
  · exact .inr ⟨by simp, by simp [hr]⟩
  · exact .inr ⟨by simp, by simp [hr]⟩
  · exact .inl ⟨rfl, by simp [hr]⟩

theorem Logged.tail (h : Logged core₀ (e :: log)) : Logged core₀ log :=
  ⟨fun b hb => h.accepted b (List.mem_cons_of_mem e hb),
    fun b hb => h.whole b (List.mem_cons_of_mem e hb),
    fun b hb => h.part b (List.mem_cons_of_mem e hb), (List.pairwise_cons.mp h.refused).2⟩

/-- Nothing is written by calls that are refused. -/
theorem nothing_of_refused (h : ∀ e ∈ log, e.Refused) :
    succeeded log = [] ∧ log.flatMap WriterEntry.sent = [] := by
  induction log with
  | nil => exact ⟨rfl, rfl⟩
  | cons e log ih =>
    obtain ⟨hsent, -, reason, hresult⟩ := h e List.mem_cons_self
    obtain ⟨hnone, hnil⟩ := ih fun b hb => h b (List.mem_cons_of_mem e hb)
    rcases succeeded_cons e log with ⟨hok, -⟩ | ⟨-, hskip⟩
    · rw [WriterEntry.Succeeded, hresult] at hok
      cases hok
    · exact ⟨hskip.trans hnone, by simp [hsent, hnil]⟩

/-- The sink has the items that succeeded, and after them at most the part of one item. -/
theorem Logged.exists_whole (h : Logged core₀ log) :
    ∃ whole torn, bytesOf ((succeeded log).flatMap CompositeNode.tensors) = some whole ∧
      log.flatMap WriterEntry.sent = whole ++ torn ∧
      (∀ e ∈ log, ¬ e.Succeeded → e.sent ≠ [] → e.sent = torn) ∧
      (torn ≠ [] → ∃ e ∈ log, ¬ e.Succeeded ∧ e.sent = torn) := by
  induction log with
  | nil => exact ⟨[], [], rfl, rfl, by simp, by simp⟩
  | cons e log ih =>
    obtain ⟨whole, torn, hwhole, hsent, hall, hsome⟩ := ih h.tail
    have hsome' : torn ≠ [] → ∃ b ∈ e :: log, ¬ b.Succeeded ∧ b.sent = torn := by
      intro hne
      obtain ⟨b, hb, hrest⟩ := hsome hne
      exact ⟨b, List.mem_cons_of_mem e hb, hrest⟩
    rcases succeeded_cons e log with ⟨hok, hcons⟩ | ⟨hfailed, hskip⟩
    · refine ⟨e.sent ++ whole, torn, ?_, by simp [hsent], ?_, hsome'⟩
      · rw [hcons, List.flatMap_cons, bytesOf_append, h.whole e List.mem_cons_self hok, hwhole]
        rfl
      · rw [List.forall_mem_cons]
        exact ⟨fun hnot => absurd hok hnot, hall⟩
    · by_cases hnil : e.sent = []
      · refine ⟨whole, torn, by rw [hskip, hwhole], by simp [hnil, hsent], ?_, hsome'⟩
        rw [List.forall_mem_cons]
        exact ⟨fun _ hne => absurd hnil hne, hall⟩
      · have hunclean : ¬ e.Clean := by
          rintro (hok | ⟨hsent, -⟩)
          · exact hfailed hok
          · exact hnil hsent
        have hrefused : ∀ b ∈ log, b.Refused := fun b hb =>
          (List.pairwise_cons.mp h.refused).1 b hb hunclean
        obtain ⟨hnone, hnothing⟩ := nothing_of_refused hrefused
        refine ⟨[], e.sent, by rw [hskip, hnone]; rfl, by simp [hnothing], ?_,
          fun _ => ⟨e, List.mem_cons_self, hfailed, rfl⟩⟩
        rw [List.forall_mem_cons]
        exact ⟨fun _ _ => rfl, fun b hb _ hne => absurd (hrefused b hb).1 hne⟩

theorem exists_of_mem_succeeded {item : CompositeNode} (h : item ∈ succeeded log) :
    ∃ e ∈ log, e.Succeeded ∧ e.item = item := by
  obtain ⟨e, he, hitem⟩ := List.mem_filterMap.mp h
  rcases hr : e.result with _ | (f | u)
  · simp [hr] at hitem
  · simp [hr] at hitem
  · exact ⟨e, he, hr, by simpa [hr] using hitem⟩

/-- Something of an item that was not written is on the sink. -/
def Torn (s : WriterSession) : Prop :=
  s.sending ≠ [] ∨ ∃ e ∈ s.log, ¬ e.Succeeded ∧ e.sent ≠ []

/-- The item is one of those that calls were made with. -/
def Submitted (s : WriterSession) (item : CompositeNode) : Prop :=
  (∃ e ∈ s.log, e.item = item) ∨ ∃ f, s.call = some f ∧ f.item = item

/-- A property of the items of all calls. -/
structure Every (P : CompositeNode → Prop) (s : WriterSession) : Prop where
  log : ∀ e ∈ s.log, P e.item
  call : ∀ f, s.call = some f → P f.item

section Every
variable {P : CompositeNode → Prop} {f : Flight}

theorem every_settle {result : Option (Result Unit)} (hlog : ∀ e ∈ s.log, P e.item) (hf : P f.item) :
    Every P (s.settle f result) := by
  refine ⟨?_, by simp [settle]⟩
  intro e he
  rcases List.mem_append.mp he with he | he
  · exact hlog e he
  · obtain rfl := List.mem_singleton.mp he
    exact hf

theorem every_goOn (hlog : ∀ e ∈ s.log, P e.item) (hf : P f.item) : Every P (s.goOn f) := by
  unfold goOn
  split
  · exact every_settle hlog hf
  · exact every_settle hlog hf
  · refine ⟨hlog, ?_⟩
    intro g hg
    obtain rfl := Option.some.inj hg
    exact hf

theorem Every.act {m : WriterMove} (h : Every P s) (hm : ∀ item, m = .write item → P item) :
    Every P (s.act m) := by
  unfold WriterSession.act
  split
  · next item hcall =>
    have hitem := hm item rfl
    unfold write
    split
    · refine ⟨?_, h.call⟩
      intro e he
      rcases List.mem_append.mp he with he | he
      · exact h.log e he
      · obtain rfl := List.mem_singleton.mp he
        exact hitem
    · exact every_goOn h.log hitem
  · next f a hcall =>
    have hf := h.call f hcall
    unfold answer
    split
    · exact h
    · exact every_settle h.log hf
    · split
      · exact every_settle h.log hf
      · have hreport (n : ℕ) : (f.report n).item = f.item := by
          unfold Flight.report
          split <;> rfl
        dsimp only
        split
        · exact every_settle h.log (hreport _ ▸ hf)
        · exact every_goOn h.log (hreport _ ▸ hf)
  · next f hcall => exact every_settle h.log (h.call f hcall)
  · exact h

/-- Only what was submitted is in a session. -/
theorem every_run (core₀ : StreamWriterCore) (moves : List WriterMove) :
    Every (fun item => .write item ∈ moves) (run core₀ moves) := by
  unfold run
  refine List.foldlRecOn moves WriterSession.act ⟨by simp [start], by simp [start]⟩ ?_
  intro s hs m hm
  exact hs.act fun item heq => heq ▸ hm

theorem mem_of_submitted {moves : List WriterMove} {item : CompositeNode}
    (h : (run core₀ moves).Submitted item) : .write item ∈ moves := by
  rcases h with ⟨e, he, rfl⟩ | ⟨f, hf, rfl⟩
  · exact (every_run core₀ moves).log e he
  · exact (every_run core₀ moves).call f hf

end Every

theorem Wired.exists_whole (h : Wired core₀ s) :
    ∃ whole torn, bytesOf ((succeeded s.log).flatMap CompositeNode.tensors) = some whole ∧
      s.sink = whole ++ torn ∧ (torn ≠ [] ↔ s.Torn) ∧
      (torn ≠ [] → ∃ item, s.Submitted item ∧ (∃ op, core₀.submit item = .ok op) ∧
        Part item torn) := by
  obtain ⟨whole, torn, hwhole, hsent, hall, hsome⟩ := h.logged.exists_whole
  cases hcall : s.call with
  | none =>
    have hsending : s.sending = [] := by simp [WriterSession.sending, hcall]
    refine ⟨whole, torn, hwhole, by rw [h.sink, hsent, hsending, List.append_nil], ?_, ?_⟩
    · constructor
      · intro hne
        obtain ⟨e, he, hfailed, rfl⟩ := hsome hne
        exact .inr ⟨e, he, hfailed, hne⟩
      · rintro (hne | ⟨e, he, hfailed, hne⟩)
        · exact absurd hsending hne
        · rw [← hall e he hfailed hne]
          exact hne
    · intro hne
      obtain ⟨e, he, hfailed, rfl⟩ := hsome hne
      exact ⟨e.item, .inl ⟨e, he, rfl⟩, h.logged.accepted e he (.inr hne), h.logged.part e he hfailed⟩
  | some f =>
    obtain ⟨haccepted, hpart, hclean⟩ := h.sending f hcall
    have hsending : s.sending = f.sent := by simp [WriterSession.sending, hcall]
    have hnone : ∀ e ∈ s.log, ¬ e.Succeeded → e.sent = [] := fun e he hfailed =>
      ((hclean e he).resolve_left hfailed).1
    have htorn : torn = [] := by
      by_contra hne
      obtain ⟨e, he, hfailed, rfl⟩ := hsome hne
      exact hne (hnone e he hfailed)
    refine ⟨whole, f.sent, hwhole, by rw [h.sink, hsent, hsending, htorn, List.append_nil], ?_, ?_⟩
    · constructor
      · intro hne
        exact .inl (hsending ▸ hne)
      · rintro (hne | ⟨e, he, hfailed, hne⟩)
        · rwa [hsending] at hne
        · exact absurd (hnone e he hfailed) hne
    · intro _
      exact ⟨f.item, .inr ⟨f, hcall, rfl⟩, haccepted, hpart⟩

end WriterSession

/-! ### What an assembler answers -/

namespace AssemblyRun
variable {s : AssemblyRun} {t : StreamTensor} {ts rest : List StreamTensor}
  {outcome : Result Unit}

open CompositeAssembler StreamContent

theorem feed_cases (s : AssemblyRun) (t : StreamTensor) :
    (∃ a, s.feed t = { s with assembler := a }) ∨
      ∃ r a, s.assembler.push t = (.ok r, a) ∧
        s.feed t = ⟨a, s.accepted ++ [t], s.returned ++ r.toList⟩ := by
  unfold feed
  rcases s.assembler.push t with ⟨e | _ | i, a⟩
  · exact .inl ⟨a, rfl⟩
  · exact .inr ⟨none, a, rfl, by simp⟩
  · exact .inr ⟨some i, a, rfl, rfl⟩

theorem prefix_accepted (s : AssemblyRun) (ts : List StreamTensor) :
    s.accepted <+: (ts.foldl feed s).accepted ∧
      (ts.foldl feed s).accepted.length ≤ s.accepted.length + ts.length := by
  induction ts generalizing s with
  | nil => exact ⟨List.prefix_rfl, le_rfl⟩
  | cons t ts ih =>
    obtain ⟨hstart, hlen⟩ := ih (s.feed t)
    rw [List.foldl_cons, List.length_cons]
    rcases feed_cases s t with ⟨a, hfeed⟩ | ⟨r, a, -, hfeed⟩
    · rw [hfeed] at hstart hlen ⊢
      exact ⟨hstart, by dsimp only at hlen; omega⟩
    · rw [hfeed] at hstart hlen ⊢
      refine ⟨(List.prefix_append _ _).trans hstart, ?_⟩
      simp only [List.length_append, List.length_singleton] at hlen
      omega

/-- A run that accepts every tensor accepts the first. -/
theorem feed_of_accepted (h : ((t :: ts).foldl feed s).accepted = s.accepted ++ t :: ts) :
    ∃ r a, s.assembler.push t = (.ok r, a) ∧
      s.feed t = ⟨a, s.accepted ++ [t], s.returned ++ r.toList⟩ ∧
      (ts.foldl feed (s.feed t)).accepted = (s.feed t).accepted ++ ts := by
  rcases feed_cases s t with ⟨a, hfeed⟩ | ⟨r, a, hpush, hfeed⟩
  · have hlen := (prefix_accepted (s.feed t) ts).2
    rw [List.foldl_cons] at h
    rw [h, hfeed] at hlen
    simp at hlen
  · refine ⟨r, a, hpush, hfeed, ?_⟩
    rw [List.foldl_cons] at h
    rw [h, hfeed]
    simp

/-- What a run returns is what a reader answers. -/
theorem answers_of_accepted (rest : List StreamTensor) (outcome : Result Unit)
    (h : (ts.foldl feed s).accepted = s.accepted ++ ts) :
    ∃ items, (ts.foldl feed s).returned = s.returned ++ items ∧
      ∀ n, (⟨ts ++ rest, outcome, s.assembler⟩ : StreamContent).answers .nextItem
          (items.length + n) = (items.map fun i => .ok (some i)) ++
        (⟨rest, outcome, (ts.foldl feed s).assembler⟩ : StreamContent).answers .nextItem n := by
  induction ts generalizing s with
  | nil => exact ⟨[], by simp, by simp⟩
  | cons t ts ih =>
    obtain ⟨r, a, hpush, hfeed, hrest⟩ := feed_of_accepted h
    obtain ⟨items, hitems, hanswers⟩ := ih hrest
    have hassembler : (s.feed t).assembler = a := by rw [hfeed]
    rw [hassembler] at hanswers
    refine ⟨r.toList ++ items, ?_, ?_⟩
    · rw [List.foldl_cons, hitems, hfeed, List.append_assoc]
    · intro n
      rw [List.foldl_cons]
      cases r with
      | none =>
        have hanswer : (⟨t :: ts ++ rest, outcome, s.assembler⟩ : StreamContent).answer .nextItem =
            (⟨ts ++ rest, outcome, a⟩ : StreamContent).answer .nextItem := by
          simp [answer, answerFrom, ReaderCall.receive, hpush]
        rw [answers_eq_of_answer hanswer]
        simpa using hanswers n
      | some i =>
        have hanswer : (⟨t :: ts ++ rest, outcome, s.assembler⟩ : StreamContent).answer .nextItem =
            (.ok (some i), ⟨ts ++ rest, outcome, a⟩) := by
          simp [answer, answerFrom, ReaderCall.receive, hpush]
        have hlen : (Option.toList (some i) ++ items).length + n = (items.length + n) + 1 := by
          simp
          omega
        rw [hlen, answers, hanswer, hanswers n]
        simp

theorem stack_of_deliver_none {stack stack' : List OpenGroup} {item : StreamItem}
    (h : deliver stack item = (.ok none, stack')) : stack' ≠ [] := by
  induction stack generalizing item with
  | nil => cases h
  | cons top stack ih =>
    obtain ⟨v, -, ⟨-, -, rfl⟩ | ⟨-, -, hrest⟩⟩ := deliver_cons_eq_ok h
    · exact List.cons_ne_nil _ _
    · exact ih hrest

/-- A tensor that returns nothing leaves a group open. -/
theorem stack_of_push_none {a a' : CompositeAssembler} (h : a.push t = (.ok none, a')) :
    a'.stack ≠ [] := by
  cases hv : t.descriptor.layout.isVirtual with
  | true =>
    obtain ⟨c, hc⟩ := layout_of_isVirtual hv
    rcases push_of_virtual (a := a) hc with ⟨e, hpush⟩ | ⟨v, -, hpush⟩
    · rw [hpush] at h
      cases h
    · rw [hpush] at h
      cases h
      exact List.cons_ne_nil _ _
  | false =>
    rw [push_of_not_virtual hv] at h
    obtain ⟨hnone, rfl⟩ := Prod.mk.inj h
    exact stack_of_deliver_none (Prod.ext hnone rfl)

theorem stack_of_silent (hts : ts ≠ []) (h : (ts.foldl feed s).accepted = s.accepted ++ ts)
    (hsilent : (ts.foldl feed s).returned = s.returned) : (ts.foldl feed s).assembler.stack ≠ [] := by
  induction ts generalizing s with
  | nil => exact absurd rfl hts
  | cons t ts ih =>
    obtain ⟨r, a, hpush, hfeed, hrest⟩ := feed_of_accepted h
    obtain ⟨items, hitems, -⟩ := answers_of_accepted [] (.ok ()) hrest
    rw [List.foldl_cons] at hsilent ⊢
    rw [hitems, hfeed, List.append_assoc, List.append_right_eq_self] at hsilent
    obtain ⟨hr, rfl⟩ := List.append_eq_nil_iff.mp hsilent
    obtain rfl : r = none := by simpa using hr
    by_cases hnil : ts = []
    · rw [hnil, List.foldl_nil, hfeed]
      exact stack_of_push_none hpush
    · refine ih hnil hrest ?_
      rw [hitems, List.append_nil]

/-- The tensors of a node that come before its last accept all of them and return nothing, and
leave a group open. -/
theorem take_of_advance {stack : List OpenGroup} {item : StreamItem} {j : ℕ}
    (h : ts.foldl feed s = s.advance stack ts (some item)) (hstack : stack = []) (hj : j < ts.length) :
    ((ts.take j).foldl feed s).accepted = s.accepted ++ ts.take j ∧
      ((ts.take j).foldl feed s).returned = s.returned ∧
      (0 < j → ((ts.take j).foldl feed s).assembler.stack ≠ []) := by
  obtain ⟨p, hp⟩ : ∃ p, p = (ts.take j).foldl feed s := ⟨_, rfl⟩
  have hfold : (ts.drop j).foldl feed p = s.advance stack ts (some item) := by
    rw [hp, ← List.foldl_append, List.take_append_drop, h]
  have hacc : ((ts.drop j).foldl feed p).accepted = s.accepted ++ ts := by rw [hfold]; rfl
  obtain ⟨⟨x, hx⟩, hlen⟩ := prefix_accepted p (ts.drop j)
  obtain ⟨⟨y, hy⟩, hlen'⟩ := prefix_accepted s (ts.take j)
  rw [← hp] at hy hlen' ⊢
  rw [hacc] at hx hlen
  -- what the first part accepts is as long as it is
  have haccepted : p.accepted = s.accepted ++ ts.take j := by
    have hy' : y = ts.take y.length := by
      rw [← hy, List.append_assoc, List.append_cancel_left_eq] at hx
      rw [← hx, List.take_left]
    have hylen : y.length = j := by
      rw [← hy] at hlen hlen'
      simp only [List.length_append, List.length_take, List.length_drop] at hlen hlen'
      omega
    rw [← hy, hy', hylen]
  have hrest : ((ts.drop j).foldl feed p).accepted = p.accepted ++ ts.drop j := by
    rw [hacc, haccepted, List.append_assoc, List.take_append_drop]
  obtain ⟨items, hitems, -⟩ := answers_of_accepted [] (.ok ()) (hp ▸ haccepted)
  obtain ⟨items', hitems', -⟩ := answers_of_accepted [] (.ok ()) hrest
  rw [← hp] at hitems
  have hone : items ++ items' = [item] := by
    rw [hfold, hitems, List.append_assoc] at hitems'
    exact (List.append_cancel_left hitems').symm
  have hnil : items = [] := by
    by_contra hne
    have hnone : items' = [] := by
      have hcount := congrArg List.length hone
      have hpos := List.length_pos_iff.mpr hne
      simp only [List.length_append, List.length_singleton] at hcount
      exact List.length_eq_zero_iff.mp (by omega)
    have hdrop : ts.drop j ≠ [] := by
      simp
      omega
    have hopen := stack_of_silent hdrop hrest (by rw [hitems', hnone, List.append_nil])
    rw [hfold] at hopen
    exact hopen hstack
  refine ⟨haccepted, by rw [hitems, hnil, List.append_nil], ?_⟩
  intro hpos
  rw [hp]
  refine stack_of_silent ?_ (hp ▸ haccepted) ?_
  · intro htake
    have hlen := congrArg List.length htake
    rw [List.length_take, List.length_nil] at hlen
    omega
  · rw [← hp, hitems, hnil, List.append_nil]

end AssemblyRun

namespace StreamContent
variable {call : ReaderCall} {m : StreamContent} {a : CompositeAssembler}

theorem answers_take (call : ReaderCall) (k n : ℕ) (m : StreamContent) :
    (m.answers call (k + n)).take k = m.answers call k := by
  induction k generalizing m with
  | zero => rfl
  | succ k ih =>
    rw [Nat.succ_add]
    simp only [answers, List.take_succ_cons, ih]

/-- Past the last tensor with no group open. -/
theorem answers_end (d n : ℕ) :
    ∀ x ∈ (⟨[], .ok (), .new d⟩ : StreamContent).answers .nextItem n, x = .ok none := by
  induction n with
  | zero => simp [answers]
  | succ n ih =>
    have hanswer : (⟨[], .ok (), .new d⟩ : StreamContent).answer .nextItem =
        (.ok none, ⟨[], .ok (), .new d⟩) := rfl
    rw [answers, hanswer, List.forall_mem_cons]
    exact ⟨rfl, ih⟩

/-- Past the last tensor of a stream that is cut, or with a group open. -/
theorem answers_cut {e : Fault Error} (n : ℕ) :
    ∀ x ∈ (⟨[], .error e, a⟩ : StreamContent).answers .nextItem n, ∃ f, x = .error f := by
  induction n generalizing e with
  | zero => simp [answers]
  | succ n ih =>
    have hanswer : (⟨[], .error e, a⟩ : StreamContent).answer .nextItem =
        (.error e, ⟨[], Exec.fail .coreFailed, a⟩) := rfl
    rw [answers, hanswer, List.forall_mem_cons]
    exact ⟨⟨e, rfl⟩, ih⟩

theorem answers_open (h : a.stack ≠ []) (n : ℕ) :
    ∀ x ∈ (⟨[], .ok (), a⟩ : StreamContent).answers .nextItem n, ∃ f, x = .error f := by
  induction n with
  | zero => simp [answers]
  | succ n ih =>
    obtain ⟨top, stack, hstack⟩ := List.exists_cons_of_ne_nil h
    have hanswer : (⟨[], .ok (), a⟩ : StreamContent).answer .nextItem =
        (Exec.fail (.tornComposite top.memberCount (UInt32.ofNat top.members.length)),
          ⟨[], .ok (), a⟩) := by
      simp [answer, answerFrom, ReaderCall.conclude, CompositeAssembler.finish, hstack, Exec.fail]
    rw [answers, hanswer, List.forall_mem_cons]
    exact ⟨⟨_, rfl⟩, ih⟩

end StreamContent

/-! ### What the reader finds -/

section Reading
variable {A : Type} [DestinationAlloc A] {options : StreamReaderOptions} {node : CompositeNode}
  {b torn : Bytes} {ts ts' : List StreamTensor} {outcome : Result Unit}

open ReadDriver StreamReaderCore

theorem delivers_of_ends (hA : SizedAlloc A) {c : StreamReaderCore A} {w : Bytes} (h : c.Fed w)
    (hends : Ends (fun _ => 0) (.start c b) ts outcome) : c.Delivers b ts outcome := by
  obtain ⟨ts', outcome', hd⟩ := exists_delivers b hA h
  have hends' := hd (fun _ => 0) [] 0
  obtain ⟨rfl, rfl⟩ := hends.unique hends'
  exact hd

/-- Whole tensors are delivered before what follows them. -/
theorem delivers_append (hA : SizedAlloc A) (hread : ∀ t ∈ ts, Readable A options t)
    (hb : bytesOf ts = some b) (torn : Bytes) (a : A) :
    ∃ a' : A, ∀ ts' outcome, (withDestinations options a').Delivers torn ts' outcome →
      (withDestinations options a).Delivers (b ++ torn) (ts ++ ts') outcome := by
  obtain ⟨a', hleads⟩ := leads_of_tensors (fun _ => 0) hread hb a torn []
  refine ⟨a', ?_⟩
  intro ts' outcome hrest
  refine delivers_of_ends hA (fed_start options a) ?_
  refine hleads _ _ ?_ 0
  intro calls
  exact hrest (fun _ => 0) _ calls

/-- The tensors of a part of a node. -/
theorem delivers_part (hA : SizedAlloc A) (hread : ∀ t ∈ node.tensors, Readable A options t)
    (hb : bytesOf node.tensors = some b) (hstart : torn <+: b) (hlt : torn.length < b.length)
    (hne : torn ≠ []) (a : A) : ∃ j < node.tensors.length,
      (withDestinations options a).Delivers torn (node.tensors.take j) (Exec.fail .unexpectedEof) ∨
      0 < j ∧ (withDestinations options a).Delivers torn (node.tensors.take j) (.ok ()) := by
  have htake : b.take torn.length = torn := (List.prefix_iff_eq_take.mp hstart).symm
  by_cases hboundary : ∀ i, torn.length ≠ boundary node.tensors i
  · obtain ⟨i, hi, -, -, hends⟩ := @ends_of_cut A _ (fun _ => 0) _ _ _ _ hread hb hlt hboundary a
    rw [htake] at hends
    exact ⟨i, hi, .inl (delivers_of_ends hA (fed_start options a) hends)⟩
  · push Not at hboundary
    obtain ⟨i, hi⟩ := hboundary
    have hsplit := hb
    rw [← List.take_append_drop i node.tensors, bytesOf_append] at hsplit
    obtain ⟨c, hc, hd⟩ := Option.bind_eq_some_iff.mp hsplit
    obtain ⟨d, -, rfl⟩ := Option.map_eq_some_iff.mp hd
    have hlen : torn.length = c.length := by rw [hi, boundary, hc, Option.elim_some]
    have htorn : torn = c := by rw [← htake, hlen, List.take_left]
    refine ⟨i, ?_, .inr ⟨?_, ?_⟩⟩
    · by_contra hge
      rw [List.take_of_length_le (by omega), hb] at hc
      rw [Option.some.inj hc, hlen] at hlt
      exact absurd hlt (Nat.lt_irrefl _)
    · by_contra hzero
      obtain rfl : i = 0 := by omega
      exact hne (htorn.trans (Option.some.inj hc).symm)
    · rw [htorn]
      exact delivers_of_ends hA (fed_start options a)
        (ends_of_tensors (fun t ht => hread t (List.mem_of_mem_take ht)) hc a)

end Reading

/-! ### The two ends -/

/-- An item that a reader with these limits takes, and whose counts say where it ends. -/
structure Carried (A : Type) [DestinationAlloc A] (options : StreamReaderOptions)
    (item : CompositeNode) : Prop where
  readable : ∀ t ∈ item.tensors, Readable A options t
  counted : item.Counted
  depth : item.depth ≤ options.maxCompositeDepth

section Transfer
variable {A : Type} [DestinationAlloc A] {options : StreamReaderOptions} {core₀ : StreamWriterCore}
  {items : List CompositeNode} {item : CompositeNode} {rest : List StreamTensor}
  {outcome : Result Unit}

open StreamReaderCore StreamContent WriterSession

/-- An accepted item is assembled from its tensors. -/
theorem fold_of_carried (h : Carried A options item) (hsubmit : ∃ op, core₀.submit item = .ok op) :
    item.tensors.foldl AssemblyRun.feed (.start options.maxCompositeDepth) =
      (AssemblyRun.start options.maxCompositeDepth).advance [] item.tensors (some item.toItem) := by
  obtain ⟨op, hop⟩ := hsubmit
  obtain ⟨-, hvalid, -⟩ := StreamWriterCore.submit_eq_ok.mp hop
  refine AssemblyRun.feeds_of_counted h.counted hvalid (.start options.maxCompositeDepth) _ _ ?_ rfl
  simpa [AssemblyRun.start, CompositeAssembler.new] using h.depth

/-- Whole items are answered one after the other. -/
theorem answers_of_items
    (h : ∀ i ∈ items, Carried A options i ∧ ∃ op, core₀.submit i = .ok op) (n : ℕ) :
    (⟨items.flatMap CompositeNode.tensors ++ rest, outcome, .new options.maxCompositeDepth⟩ :
        StreamContent).answers .nextItem (items.length + n) =
      (items.map fun i => .ok (some i.toItem)) ++
        (⟨rest, outcome, .new options.maxCompositeDepth⟩ : StreamContent).answers .nextItem n := by
  induction items with
  | nil => simp
  | cons i items ih =>
    obtain ⟨⟨hcarried, hsubmit⟩, htail⟩ := List.forall_mem_cons.mp h
    have hfold := fold_of_carried hcarried hsubmit
    have haccepted : (i.tensors.foldl AssemblyRun.feed (.start options.maxCompositeDepth)).accepted =
        (AssemblyRun.start options.maxCompositeDepth).accepted ++ i.tensors := by
      rw [hfold]
      rfl
    obtain ⟨found, hfound, hanswers⟩ := AssemblyRun.answers_of_accepted
      (items.flatMap CompositeNode.tensors ++ rest) outcome haccepted
    rw [hfold] at hfound hanswers
    obtain rfl : found = [i.toItem] := by
      simpa [AssemblyRun.advance, AssemblyRun.start] using hfound.symm
    have hfirst := hanswers (items.length + n)
    rw [List.flatMap_cons, List.append_assoc]
    rw [show (i :: items).length + n = [i.toItem].length + (items.length + n) by simp; omega]
    refine hfirst.trans ?_
    rw [show ((AssemblyRun.start options.maxCompositeDepth).advance [] i.tensors
      (some i.toItem)).assembler = .new options.maxCompositeDepth from rfl, ih htail]
    simp

/-- A part of an item is answered by errors. -/
theorem answers_of_part (h : Carried A options item) (hsubmit : ∃ op, core₀.submit item = .ok op)
    {j n : ℕ} (hj : j < item.tensors.length) (hcut : (∃ e, outcome = .error e) ∨ 0 < j ∧ outcome = .ok ()) :
    ∀ x ∈ (⟨item.tensors.take j, outcome, .new options.maxCompositeDepth⟩ :
      StreamContent).answers .nextItem n, ∃ e, x = .error e := by
  obtain ⟨haccepted, hsilent, hopen⟩ := AssemblyRun.take_of_advance (fold_of_carried h hsubmit) rfl hj
  obtain ⟨found, hfound, hanswers⟩ := AssemblyRun.answers_of_accepted [] outcome haccepted
  rw [hsilent] at hfound
  obtain rfl : found = [] := (List.append_right_eq_self.mp hfound.symm)
  have hall := hanswers n
  rw [List.append_nil, List.map_nil, List.nil_append, List.length_nil, Nat.zero_add] at hall
  rw [show (AssemblyRun.start options.maxCompositeDepth).assembler = .new options.maxCompositeDepth
    from rfl] at hall
  rw [hall]
  rcases hcut with ⟨e, rfl⟩ | ⟨hpos, rfl⟩
  · exact answers_cut n
  · exact answers_open (hopen hpos) n

/-- What a reader with these limits makes of what a writer has put on its sink. -/
theorem answers_of_sink (hA : SizedAlloc A) {s : WriterSession} (h : Wired core₀ s)
    (hcarried : ∀ item, s.Submitted item → ∀ op, core₀.submit item = .ok op → Carried A options item)
    (a : A) : ∃ ts outcome, (withDestinations options a).Delivers s.sink ts outcome ∧
      ∀ n, ∃ tail, (⟨ts, outcome, .new options.maxCompositeDepth⟩ : StreamContent).answers .nextItem
          ((succeeded s.log).length + n) =
          ((succeeded s.log).map fun i => .ok (some i.toItem)) ++ tail ∧
        ∀ x ∈ tail, (s.Torn → ∃ e, x = .error e) ∧ (¬ s.Torn → x = .ok none) := by
  obtain ⟨whole, torn, hwhole, hsink, htorn, hpart⟩ := h.exists_whole
  have hitems : ∀ i ∈ succeeded s.log, Carried A options i ∧ ∃ op, core₀.submit i = .ok op := by
    intro i hi
    obtain ⟨e, he, hok, rfl⟩ := exists_of_mem_succeeded hi
    obtain ⟨op, hop⟩ := h.logged.accepted e he (.inl hok)
    exact ⟨hcarried e.item (.inl ⟨e, he, rfl⟩) op hop, op, hop⟩
  have hread : ∀ t ∈ (succeeded s.log).flatMap CompositeNode.tensors, Readable A options t := by
    intro t ht
    obtain ⟨i, hi, ht⟩ := List.mem_flatMap.mp ht
    exact (hitems i hi).1.readable t ht
  obtain ⟨a', hrest⟩ := delivers_append hA hread hwhole torn a
  rw [hsink]
  by_cases hnil : torn = []
  · have hwell : ¬ s.Torn := fun ht => htorn.mpr ht hnil
    have hend : (withDestinations options a').Delivers torn [] (.ok ()) := by
      rw [hnil]
      exact delivers_atBoundary (Nat.succ_pos 9) ⟨rfl, rfl⟩
    refine ⟨_, _, hrest _ _ hend, ?_⟩
    intro n
    refine ⟨_, answers_of_items hitems n, ?_⟩
    intro x hx
    exact ⟨fun ht => absurd ht hwell, fun _ => answers_end _ n x hx⟩
  · obtain ⟨item, hitem, ⟨op, hop⟩, hpart⟩ := hpart hnil
    have hcarry := hcarried item hitem op hop
    have hsubmit : ∃ op, core₀.submit item = .ok op := ⟨op, hop⟩
    obtain ⟨b, hb⟩ : ∃ b, bytesOf item.tensors = some b := by
      apply Option.isSome_iff_exists.mp
      apply bytesOf_isSome.mpr
      intro t ht
      obtain ⟨e, henc, -⟩ := (hcarry.readable t ht).roundTrips
      exact (encode_eq_ok_iff.mp henc).1
    obtain ⟨hstart, hlt⟩ := hpart.2 b hb
    have ht : s.Torn := htorn.mp hnil
    obtain ⟨j, hj, hd | ⟨hpos, hd⟩⟩ := delivers_part hA hcarry.readable hb hstart hlt hnil a'
    · refine ⟨_, _, hrest _ _ hd, ?_⟩
      intro n
      refine ⟨_, answers_of_items hitems n, ?_⟩
      intro x hx
      exact ⟨fun _ => answers_of_part hcarry hsubmit hj (.inl ⟨_, rfl⟩) x hx, fun hwell => absurd ht hwell⟩
    · refine ⟨_, _, hrest _ _ hd, ?_⟩
      intro n
      refine ⟨_, answers_of_items hitems n, ?_⟩
      intro x hx
      exact ⟨fun _ => answers_of_part hcarry hsubmit hj (.inr ⟨hpos, rfl⟩) x hx,
        fun hwell => absurd ht hwell⟩

/-- The answers so far, when all answers start with those of the items. -/
theorem getElem?_of_answers {m : StreamContent} {P : Answer → Prop} {answered : List Answer}
    (hanswered : answered = m.answers .nextItem answered.length)
    (h : ∀ n, ∃ tail, m.answers .nextItem (items.length + n) =
        (items.map fun i => .ok (some i.toItem)) ++ tail ∧ ∀ x ∈ tail, P x)
    {i : ℕ} {x : Answer} (hx : answered[i]? = some x) :
    (∀ item, items[i]? = some item → x = .ok (some item.toItem)) ∧ (items.length ≤ i → P x) := by
  obtain ⟨tail, htail, hend⟩ := h answered.length
  have hlt : i < answered.length := (List.getElem?_eq_some_iff.mp hx).1
  have hlong : (items.map fun i => .ok (some i.toItem)) ++ tail =
      m.answers .nextItem (answered.length + items.length) := by
    rw [← htail, Nat.add_comm]
  have hget : ((items.map fun i => (.ok (some i.toItem) : Answer)) ++ tail)[i]? = some x := by
    rw [hlong, ← hx, ← List.getElem?_take_of_lt hlt, answers_take, ← hanswered]
  refine ⟨?_, ?_⟩
  · intro item hitem
    have hi := (List.getElem?_eq_some_iff.mp hitem).1
    rw [List.getElem?_append_left (by simpa using hi), List.getElem?_map, hitem] at hget
    exact (Option.some.inj hget).symm
  · intro hi
    rw [List.getElem?_append_right (by simpa using hi)] at hget
    exact hend x (List.mem_of_getElem? hget)

/-- Whatever becomes of the calls on a writer and on a reader of its sink: the reader is answered
with the items that the writer wrote, in order and each once. After them come errors if something
of an unwritten item is on the sink, and else the end of the stream. -/
theorem transfer (hfresh : core₀.retired = none) (hA : LawfulAlloc A) (writes : List WriterMove)
    (hcarried : ∀ item, .write item ∈ writes → ∀ op, core₀.submit item = .ok op →
      Carried A options item)
    (a : A) (moves : List ReaderMove) :
    let s := WriterSession.run core₀ writes
    let r := (ReaderSession.start options a s.sink).run .nextItem moves
    (∀ i x, r.answered[i]? = some x →
      (∀ item, (succeeded s.log)[i]? = some item → x = .ok (some item.toItem)) ∧
      ((succeeded s.log).length ≤ i → (s.Torn → ∃ e, x = .error e) ∧ (¬ s.Torn → x = .ok none))) ∧
    ∀ chunk, r.Answers .nextItem chunk := by
  intro s r
  have hsized : SizedAlloc A := sizedAlloc_of_lawful hA
  obtain ⟨ts, outcome, hd, hanswers⟩ := answers_of_sink hsized (sound_run hfresh writes).wired
    (fun item hitem => hcarried item (mem_of_submitted hitem)) a
  have hstart : ReaderSession.Tracks .nextItem ⟨ts, outcome, .new options.maxCompositeDepth⟩
      (.start options a s.sink) := ReaderSession.tracks_start hd
  have htracks := hstart.run hsized moves
  refine ⟨?_, fun chunk => ReaderSession.exists_answer hsized htracks⟩
  obtain ⟨m, -, hn⟩ := htracks.answers
  have hanswered := hn 0
  rw [Nat.add_zero, StreamContent.answers, List.append_nil] at hanswered
  intro i x hx
  exact getElem?_of_answers hanswered.symm hanswers hx

theorem carried_workedTensor : Carried SystemDestinations .default workedTensor.toNode := by
  refine ⟨?_, ?_, ?_⟩
  · intro t ht
    obtain rfl : t = workedTensor := by
      simpa [StreamTensor.toNode, CompositeNode.tensors] using ht
    exact readable_workedTensor
  · simp [StreamTensor.toNode, CompositeNode.Counted, workedTensor]
    decide
  · simp [StreamTensor.toNode, CompositeNode.depth]

/-- One tensor that is written one byte at a time up to its third byte, and read by a reader whose
source is interrupted. -/
theorem transfer_workedTensor :
    let s := WriterSession.run .new
      [.write workedTensor.toNode, .sink (.wrote 1), .sink .interrupted, .sink (.wrote 2), .drop]
    let r := (ReaderSession.start .default SystemDestinations.mk s.sink).run .nextItem
      [.call, .turn, .source .interrupted, .source (.read 0), .drop, .call]
    (∀ i x, r.answered[i]? = some x →
      (∀ item, (succeeded s.log)[i]? = some item → x = .ok (some item.toItem)) ∧
      ((succeeded s.log).length ≤ i → (s.Torn → ∃ e, x = .error e) ∧ (¬ s.Torn → x = .ok none))) ∧
    ∀ chunk, r.Answers .nextItem chunk := by
  refine transfer rfl lawfulAlloc_systemDestinations _ ?_ .mk _
  intro item hitem op _
  obtain rfl : item = workedTensor.toNode := by simpa using hitem
  exact carried_workedTensor

end Transfer
end Hurray.Stream
