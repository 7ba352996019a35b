import Mathlib.Data.List.Count
import Lwt.Stream.Ends

/-!
# Reads of a closed stream

Once a stream is closed its queue does not change any more, and a read goes on through the
elements that are there until it has what it asks for or meets the end marker.  The `budget` of a
read bounds the number of steps that it still makes, whatever happens in between.
-/

namespace Lwt

open Table Transition

variable {α : Type}

namespace Streams

variable {m m' : Streams α} {i j : ℕ}

/-! ## What is left to do -/

/-- The number of steps that the read makes at most, if it does not wait. -/
def progress (m : Streams α) (r : Read α) : ℕ :=
  match r.status with
  | .running call => 2 * (m.elements.length - m.position r.reader call) + 1
  | .testing _ call => 2 * (m.elements.length - m.position r.reader call)
  | _ => 0

/-- The same for the read with the number `j`, also before it begins. -/
def budget (m : Streams α) (j : ℕ) : ℕ :=
  match m.reads[j]? with
  | some r => m.progress r
  | none => 2 * m.elements.length + 1

theorem progress_le (m : Streams α) (r : Read α) : m.progress r ≤ 2 * m.elements.length + 1 := by
  unfold progress
  split <;> omega

theorem budget_le (m : Streams α) (j : ℕ) : m.budget j ≤ 2 * m.elements.length + 1 := by
  unfold budget
  split
  · exact progress_le m _
  · exact le_rfl

/-- The heads go on, so that nothing becomes more. -/
theorem progress_anti {r : Read α} (hdata : m'.data = m.data)
    (hnode : m.node r.reader ≤ m'.node r.reader) : m'.progress r ≤ m.progress r := by
  have helements : m'.elements = m.elements := by rw [elements, elements, hdata]
  have hposition : ∀ call, m.position r.reader call ≤ m'.position r.reader call := by
    intro call
    unfold position
    cases call.node? with
    | none => exact hnode
    | some n => exact le_rfl
  unfold progress
  rw [helements]
  split
  · rename_i call _
    have := hposition call
    omega
  · rename_i call _
    have := hposition call
    omega
  · exact le_rfl

/-- A turn of a read of a stream that has ended. -/
theorem doTurn_progress {r : Read α} {call : Call α} {t : Turn α} (reply : Reply α)
    (hr : m.reads[i]? = some r) (ht : m.TurnPlaced r.reader call t)
    (hfeeds : t.feeds = false) : ∃ m' r', m.doTurn i r.reader call reply t = some m' ∧
      m'.reads[i]? = some r' ∧ r'.status.waitsFor = none ∧ (m'.data = m.data →
        m'.progress r' < 2 * (m.elements.length - m.position r.reader call) + 1 ∧
          (m.position r.reader call < m.elements.length → (∀ x, t ≠ .test x) →
            m'.progress r' < 2 * (m.elements.length - m.position r.reader call))) := by
  -- What has become of the read.
  have hmodify : ∀ {q : Streams α} {f : Read α → Read α}, q.reads = m.reads →
      (q.reads.modify i f)[i]? = some (f r) := fun hq => by
    rw [hq, List.getElem?_modify_eq, hr]
    rfl
  cases t with
  | feed next | feedAvailable next acc => cases hfeeds
  | test x =>
    refine ⟨_, _, rfl, hmodify rfl, rfl, fun _ => ⟨?_, fun _ htest => absurd rfl (htest x)⟩⟩
    exact Nat.lt_succ_self _
  | «return» a | empty =>
    exact ⟨_, _, rfl, hmodify rfl, rfl, fun _ => ⟨Nat.succ_pos _, fun hlt _ =>
      Nat.mul_pos Nat.two_pos (Nat.sub_pos_of_lt hlt)⟩⟩
  | pass node x removes next =>
    obtain ⟨rfl, hnode, -, -, hnext⟩ := ht
    have hreads : (if removes = true then m.consume r.reader (m.position r.reader call)
        else m).reads = m.reads := by
      split
      · exact consume_reads _ _
      · rfl
    refine ⟨_, _, rfl, hmodify hreads, ?_, fun hdata => ?_⟩
    · cases next <;> rfl
    · cases next with
      | inr a => exact ⟨Nat.succ_pos _, fun hlt _ =>
        Nat.mul_pos Nat.two_pos (Nat.sub_pos_of_lt hlt)⟩
      | inl c =>
        obtain ⟨hc, -⟩ := hnext c rfl
        have hprogress : ∀ {q : Streams α} {r' : Read α}, q.data = m.data →
            r'.status = .running c →
            q.progress r' = 2 * (m.elements.length - (m.position r.reader call + 1)) + 1 := by
          intro q r' hq hst
          simp only [progress, hst, elements, hq, position, hc, Option.getD_some]
        rw [hprogress hdata rfl]
        omega

theorem tested_ne_test (call : Call α) (x y : α) : call.tested x ≠ .test y := by
  cases call with
  | getWhileRec node acc f | getWhileSRec node acc f =>
    simp only [Call.tested]
    split <;> simp
  | _ => simp [Call.tested]

/-! ## Steps and runs -/

/-- The read `j` does not wait. -/
def Quick (m : Streams α) (j : ℕ) : Prop := ∀ r, m.reads[j]? = some r → r.status.waitsFor = none

theorem WellEnded.own_step {a : Step α} (h : WellEnded m) (hclosed : m.closed = true)
    (hquick : Quick m j) (ha : a.read? = some j) (hstep : m.step a = some m')
    (hdata : m'.data = m.data) : Quick m' j ∧ m'.budget j < m.budget j := by
  have hp := h.closes.placed
  -- the stream has ended: its last node is behind the elements
  have hnotLast : ¬ m.last ≤ m.elements.length := fun hlast => by
    have hopen := h.closes.not_ended hlast
    simp [ended, hclosed] at hopen
  have hread : ∀ {r r' : Read α}, m.reads[j]? = some r → m'.reads[j]? = some r' →
      r'.status.waitsFor = none → m'.progress r' < m.progress r →
      Quick m' j ∧ m'.budget j < m.budget j := by
    intro r r' hr hr' hwaits hlt
    refine ⟨fun q hq => ?_, ?_⟩
    · obtain rfl := Option.some.inj (hr'.symm.trans hq)
      exact hwaits
    · rw [budget, budget, hr, hr']
      exact hlt
  cases a with
  | turn i reply =>
    obtain rfl := Option.some.inj ha
    simp only [Streams.step] at hstep
    split at hstep
    · rename_i reader op start taken call hr
      have hmem := List.mem_of_getElem? hr
      have hlt := hp.readers _ hmem
      have hcall : m.CallPlaced reader call := hp.reads _ hmem
      have hfeeds : (m.turnOf reader call).feeds = false := by
        rw [← Bool.not_eq_true]
        exact fun hfeeds => hnotLast (hp.last_le hlt hcall hfeeds)
      obtain ⟨q, r', hq, hr', hwaits, hless⟩ := doTurn_progress reply hr
        (turn_placed hcall (hp.node_le hlt)) hfeeds
      obtain rfl := Option.some.inj (hq.symm.trans hstep)
      exact hread hr hr' hwaits (hless hdata).1
    · cases hstep
  | answer i raises =>
    obtain rfl := Option.some.inj ha
    simp only [Streams.step] at hstep
    split at hstep
    · rename_i reader op start taken x call hr
      obtain ⟨hcall, htests, hx⟩ := hp.reads _ (List.mem_of_getElem? hr)
      have hlt := (List.getElem?_eq_some_iff.mp hx).1
      split at hstep
      · obtain rfl := Option.some.inj hstep
        have hfailed : (m.setStatus i .failed).reads[i]? =
            some ⟨reader, op, start, taken, .failed⟩ := by
          rw [setStatus, List.getElem?_modify_eq, hr]
          rfl
        exact hread hr hfailed rfl (Nat.mul_pos Nat.two_pos (Nat.sub_pos_of_lt hlt))
      · obtain ⟨q, r', hq, hr', hwaits, hless⟩ := doTurn_progress .later hr
          (tested_placed hcall htests hx) (tested_feeds call x)
        obtain rfl := Option.some.inj (hq.symm.trans hstep)
        exact hread hr hr' hwaits ((hless hdata).2 hlt (tested_ne_test call x))
    · cases hstep
  | resume i =>
    obtain rfl := Option.some.inj ha
    simp only [Streams.step] at hstep
    split at hstep
    -- the read waits for nothing
    · rename_i hr
      cases hquick _ hr
    · cases hstep
  | cancel i =>
    obtain rfl := Option.some.inj ha
    simp only [Streams.step] at hstep
    split at hstep
    · rename_i hr
      cases hquick _ hr
    · cases hstep
  | _ => cases ha

theorem Quick.untouched (hp : Placed m) (hquick : Quick m j) (hdata : m'.data = m.data)
    (hgrows : Grows m m') (hreads : m'.reads[j]? = m.reads[j]?) :
    Quick m' j ∧ m'.budget j ≤ m.budget j := by
  refine ⟨fun r hr => hquick r (hreads ▸ hr), ?_⟩
  rw [budget, budget, hreads]
  cases hr : m.reads[j]? with
  | none => simp [elements, hdata]
  | some r => exact progress_anti hdata (hgrows.nodes _ (hp.readers r (List.mem_of_getElem? hr)))

theorem Quick.other_step {a : Step α} (hp : Placed m) (hquick : Quick m j) (ha : a.read? ≠ some j)
    (hstep : m.step a = some m') (hdata : m'.data = m.data) :
    Quick m' j ∧ m'.budget j ≤ m.budget j := by
  have hsame := hquick.untouched hp hdata ((hp.happens hstep).2.grows hp)
  rcases step_reads hstep with ⟨reader, op, hreads⟩ | ⟨i, f, hi, hreads⟩ | hreads
  · rcases Nat.lt_trichotomy j m.reads.length with hlt | rfl | hgt
    · exact hsame (by rw [hreads, List.getElem?_append_left hlt])
    · have hnew : m'.reads[m.reads.length]? =
          some ⟨reader, op, m.node reader, [], .running (op.call (m.node reader))⟩ := by
        rw [hreads, List.getElem?_concat_length]
      refine ⟨fun r hr => ?_, ?_⟩
      · cases hnew.symm.trans hr
        rfl
      · have hnone : m.reads[m.reads.length]? = none := List.getElem?_eq_none le_rfl
        rw [budget, budget, hnew, hnone]
        have hle := progress_le m' ⟨reader, op, m.node reader, [],
          .running (op.call (m.node reader))⟩
        rwa [elements, hdata] at hle
    · refine hsame ?_
      rw [List.getElem?_eq_none hgt.le, List.getElem?_eq_none]
      rw [hreads, List.length_append, List.length_singleton]
      exact hgt
  · refine hsame ?_
    rw [hreads, List.getElem?_modify_ne _ _ fun hij : i = j => ha (hij ▸ hi)]
  · exact hsame (by rw [hreads])

theorem WellEnded.not_feeds {r : Read α} {call : Call α} (h : WellEnded m)
    (hclosed : m.closed = true) (hr : r ∈ m.reads) (hst : r.status = .running call) :
    (m.turnOf r.reader call).feeds = false := by
  have hp := h.closes.placed
  have hcall := hp.reads r hr
  rw [hst] at hcall
  rw [← Bool.not_eq_true]
  intro hfeeds
  have hopen := h.closes.not_ended (hp.last_le (hp.readers r hr) hcall hfeeds)
  simp [ended, hclosed] at hopen

end Streams

/-! ## Runs -/

namespace Feeding

open Streams

variable {c c' : Feeding α} {a : Step α} {j : ℕ}

/-- The read that the step is a step of, if it is not one that waits for a call to return. -/
def Step.read? : Step α → Option ℕ
  | .step a => a.read?
  | _ => none

/-- A step of a closed stream, and what it does to a read that neither waits nor calls. -/
theorem Good.budget_step (h : Good c) (hclosed : c.streams.closed = true)
    (hquick : Quick c.streams j) (hj : c.calling j = false) (hapart : c.Apart a)
    (hstep : c.step a = some c') :
    Quick c'.streams j ∧ c'.calling j = false ∧
      (if a.read? = some j then 1 else 0) + c'.streams.budget j ≤ c.streams.budget j := by
  have hp := h.streams.closes.placed
  have hended : c.streams.ended = true := by simp [ended, hclosed]
  have hdata := (h.data_eq_iff hended hstep).mpr hapart
  cases step_cases hstep with
  | own a m hcalls hcalling hresult hm =>
    by_cases ha : a.read? = some j
    · obtain ⟨hquick', hless⟩ := h.streams.own_step hclosed hquick ha hm hdata
      refine ⟨hquick', hj, ?_⟩
      rw [Step.read?, if_pos ha]
      exact Nat.one_add_le_iff.mpr hless
    · obtain ⟨hquick', hle⟩ := hquick.other_step hp ha hm hdata
      refine ⟨hquick', hj, ?_⟩
      rw [Step.read?, if_neg ha, Nat.zero_add]
      exact hle
  | threadEnds k reply m hm =>
    have happends := (results_threadEnds hm).2.appends
    obtain ⟨hquick', hle⟩ := hquick.untouched hp hdata happends.grows (by rw [happends.reads])
    exact ⟨hquick', hj, by simpa [Step.read?, Streams.Step.read?] using hle⟩
  | call i r call hr hst hfeeds =>
    have hnot := h.streams.not_feeds hclosed (List.mem_of_getElem? hr) hst
    simp [hfeeds] at hnot
  | «return» reply i t calls q fed hcalls hq =>
    obtain ⟨f, hf⟩ := q.afterFeed_eq i fed t
    have happends := (results_returned hq).2.appends
    obtain ⟨hne, hcalls'⟩ : i ≠ j ∧ Feeding.calling ⟨q.afterFeed i fed t, calls⟩ j = false := by
      simpa [calling, hcalls] using hj
    have hgrows : Streams.Grows q (q.afterFeed i fed t) := by
      rw [hf]
      exact ⟨List.prefix_refl _, fun i hi => hi, le_rfl, fun i _ => le_rfl⟩
    have hreads : (q.afterFeed i fed t).reads[j]? = c.streams.reads[j]? := by
      rw [hf, List.getElem?_modify_ne _ _ hne, happends.reads]
    obtain ⟨hquick', hle⟩ := hquick.untouched hp hdata (happends.grows.trans hgrows) hreads
    exact ⟨hquick', hcalls', by simpa [Step.read?] using hle⟩

/-- In a run of a closed stream, a read that does not wait makes no more steps than its budget. -/
theorem Good.run {labels : List (Step α)} (h : Good c) (hclosed : c.streams.closed = true)
    (hquick : Quick c.streams j) (hj : c.calling j = false)
    (hrun : replay (checked Feeding.step fun c a => decide (c.Apart a)) c labels = some c') :
    Good c' ∧ c'.streams.closed = true ∧ Quick c'.streams j ∧ c'.calling j = false ∧
      labels.countP (fun a => a.read? = some j) + c'.streams.budget j ≤ c.streams.budget j := by
  induction labels generalizing c with
  | nil =>
    obtain rfl : c = c' := by simpa [replay] using hrun
    exact ⟨h, hclosed, hquick, hj, by simp⟩
  | cons a labels ih =>
    obtain ⟨d, hd, hrest⟩ := Option.bind_eq_some_iff.mp hrun
    obtain ⟨hapart, hstep⟩ : c.Apart a ∧ c.step a = some d := by simpa [checked] using hd
    obtain ⟨hquick', hj', hless⟩ := h.budget_step hclosed hquick hj hapart hstep
    obtain ⟨hgood, hc', hq', hj'', hle⟩ := ih (h.step hapart hstep)
      (h.closed_stays hclosed hstep) hquick' hj' hrest
    refine ⟨hgood, hc', hq', hj'', ?_⟩
    rw [List.countP_cons]
    by_cases ha : a.read? = some j <;> simp [ha] at hless ⊢ <;> omega

/-- A read of a closed stream that has not ended can go on, if it does not wait. -/
theorem Good.can_go_on {r : Read α} (h : Good c) (hclosed : c.streams.closed = true)
    (hj : c.calling j = false) (hr : c.streams.reads[j]? = some r)
    (hquick : r.status.waitsFor = none) (hended : r.ended = false) :
    (∀ reply, (c.step (.step (.turn j reply))).isSome = true) ∨
      ∀ raises, (c.step (.step (.answer j raises))).isSome = true := by
  have hp := h.streams.closes.placed
  have hmem := List.mem_of_getElem? hr
  obtain ⟨reader, op, start, taken, status⟩ := r
  cases status with
  | running call =>
    refine .inl fun reply => ?_
    have hfeeds := h.streams.not_feeds hclosed hmem rfl
    obtain ⟨q, -, hq, -⟩ := doTurn_progress reply hr
      (turn_placed (hp.reads _ hmem) (hp.node_le (hp.readers _ hmem))) hfeeds
    have hadmits : c.admits (.turn j reply) = true := by
      simp [admits, Streams.calls, hr, hfeeds, Streams.Step.read?, hj]
    simp only [Feeding.step, hadmits, if_true, Option.isSome_map, Streams.step, hr]
    exact Option.isSome_iff_exists.mpr ⟨q, hq⟩
  | testing x call =>
    refine .inr fun raises => ?_
    obtain ⟨hcall, htests, hx⟩ := hp.reads _ hmem
    obtain ⟨q, -, hq, -⟩ := doTurn_progress .later hr
      (tested_placed hcall htests hx) (tested_feeds call x)
    have hadmits : c.admits (.answer j raises) = true := by
      simp [admits, Streams.calls, Streams.Step.read?, hj]
    simp only [Feeding.step, hadmits, if_true, Option.isSome_map, Streams.step, hr]
    split
    · rfl
    · exact Option.isSome_iff_exists.mpr ⟨q, hq⟩
  | waiting k call => cases hquick
  | returned a | empty | failed => cases hended

/-- In every run of a stream in which nothing is pushed while `push None` is waking the readers, and
the source gives nothing behind the end marker: the end marker is the last thing in the queue, and
the next step keeps it so if and only if it meets the condition as well; once the call that has
enqueued it is over, a push raises `Closed`; `Lwt.wakeup close` finds `closed` not resolved and
resolves it for good; and once the stream is closed, a read that begins never waits, can always go
on, and ends after a bounded number of steps. -/
theorem stream_ends_once {m : Streams α} (hinit : Initial m)
    (hreach : Reach step Apart (init m) c) :
    (c.streams.data = c.streams.elements.map some ∨
      c.streams.data = c.streams.elements.map some ++ [none]) ∧
    (none ∈ c.streams.data → ∀ a c', c.step a = some c' →
      (c'.streams.data = c.streams.data ↔ c.Apart a)) ∧
    (none ∈ c.streams.data → c.streams.closing = 0 → c.streams.closed = true ∧
      (∀ x, c.streams.push x = none) ∧ (∀ x, c.streams.pushBounded x = none) ∧
      ∀ info, c.streams.source = .pushBounded info → info.closed = true) ∧
    (none ∈ c.streams.data →
      c.streams.closed = true ∨ (c.step (.step .wakeupClose)).isSome = true) ∧
    (∀ a c', c.step a = some c' →
      (c.resolvesClose a = true → c.Apart a →
        c.streams.closed = false ∧ c'.streams.closed = true) ∧
      (c.streams.closed = true → c'.streams.closed = true)) ∧
    (c.streams.closed = true → ∀ labels c',
      replay (checked step fun c a => decide (c.Apart a)) c labels = some c' →
      ∀ j r, c.streams.reads.length ≤ j → c'.streams.reads[j]? = some r →
        r.status.waitsFor = none ∧
        labels.countP (fun a => a.read? = some j) ≤ 2 * c.streams.elements.length + 1 ∧
        (r.ended = true ∨ (∀ reply, (c'.step (.step (.turn j reply))).isSome = true) ∨
          ∀ raises, (c'.step (.step (.answer j raises))).isSome = true)) := by
  have h : Good c := hreach.invariant (good_init hinit) fun _ _ _ hq hapart hstep =>
    hq.step hapart hstep
  have hc := h.streams.closes
  refine ⟨?_, fun hmem a c' hstep => h.data_eq_iff (hc.none_mem.mp hmem) hstep,
    fun hmem hclosing => ?_, fun hmem => ?_, fun a c' hstep =>
      ⟨fun hresolves hapart => h.resolvesClose hresolves hapart hstep,
        fun hclosed => h.closed_stays hclosed hstep⟩, ?_⟩
  · have hdata := hc.data
    cases hended : c.streams.ended with
    | false => exact .inl (by simpa [hended] using hdata)
    | true => exact .inr (by simpa [hended] using hdata)
  · have hclosed : c.streams.closed = true := by
      have hended := hc.none_mem.mp hmem
      simpa [ended, hclosing] using hended
    have hbounded : ∀ info, c.streams.source = .pushBounded info → info.closed = true := by
      intro info hsource
      rcases h.streams with ⟨waiting, hpush, -⟩ | hfrom | ⟨info', l, hcounted⟩
      · simp [hpush] at hsource
      · rcases hfrom.source with hfrom | hfrom <;> simp [hfrom] at hsource
      · cases hcounted.source.symm.trans hsource
        exact hcounted.closed.symm.trans hclosed
    refine ⟨hclosed, fun x => ?_, fun x => ?_, hbounded⟩
    · unfold Streams.push
      split
      · rw [if_pos hclosed]
      · rfl
    · unfold Streams.pushBounded
      split
      · rename_i info hsource
        simp [hbounded info hsource]
      · rfl
  · have hended := hc.none_mem.mp hmem
    cases hclosed : c.streams.closed with
    | true => exact .inl rfl
    | false =>
      have hclosing : c.streams.closing ≠ 0 := by
        simpa [ended, hclosed, Nat.pos_iff_ne_zero] using hended
      simp [Feeding.step, admits, Streams.calls, Streams.Step.read?, Streams.step,
        Streams.wakeupClose, hclosing]
  · intro hclosed labels c' hrun j r hj hr
    have hquick : Quick c.streams j := fun r' hr' => by simp [List.getElem?_eq_none hj] at hr'
    -- a read that has not begun does not wait for a call
    have hcalling : c.calling j = false := by
      rw [← Bool.not_eq_true]
      intro hcalling
      obtain ⟨e, he, heq⟩ := List.any_eq_true.mp hcalling
      obtain ⟨r', next, hr', -⟩ := h.calls e he
      rw [beq_iff_eq.mp heq, List.getElem?_eq_none hj] at hr'
      cases hr'
    obtain ⟨h', hclosed', hquick', hj', hle⟩ := h.run hclosed hquick hcalling hrun
    refine ⟨hquick' r hr, ?_, ?_⟩
    · exact (Nat.le_of_add_right_le hle).trans (c.streams.budget_le j)
    · cases hended : r.ended with
      | true => exact .inl rfl
      | false => exact .inr (h'.can_go_on hclosed' hj' hr (hquick' r hr) hended)

/-- A reader that `push None` wakes calls `push None` again, and both calls come to their end. -/
def pushNoneTwice : List (Step ℕ) :=
  [.step (.start 0 .get), .step (.turn 0 .later), .step (.push none), .step (.resume 0),
    .step (.turn 0 .later), .step (.push none), .step .wakeupClose]

/-- There are two end markers in the queue, and the first `push None` is about to resolve
`closed` a second time, for which `Lwt.wakeup` raises `Invalid_argument`. -/
theorem push_none_twice : ∃ c : Feeding ℕ, Reach step (fun _ _ => True) (init create) c ∧
    c.streams.data = [none, none] ∧ c.streams.closed = true ∧
      c.resolvesClose (.step .wakeupClose) = true ∧
      (c.step (.step .wakeupClose)).isSome = true := by
  obtain ⟨c, hc⟩ : ∃ c, replay step (init create) pushNoneTwice = some c := ⟨_, rfl⟩
  refine ⟨c, reach_of_replay _ hc, ?_⟩
  cases hc.symm.trans rfl
  exact ⟨rfl, rfl, rfl, rfl⟩

/-- The function of a `from_direct` reads its own stream, and calls itself so: the inner call gives
the end marker, and the outer one an element behind it. -/
theorem element_behind_end_marker : ∃ c : Feeding ℕ,
    Reach step (fun _ _ => True) (init fromDirect) c ∧ c.streams.data = [none, some 5] := by
  obtain ⟨c, hc⟩ : ∃ c, replay step (init fromDirect) [.step (.start 0 .get), .call 0,
      .step (.start 0 .get), .call 1, .return (.gives none), .return (.gives (some 5))] =
        some c := ⟨_, rfl⟩
  refine ⟨c, reach_of_replay _ hc, ?_⟩
  cases hc.symm.trans rfl
  rfl

/-- A stream with one element is closed; a `to_list` begun after that ends in two turns. -/
theorem stream_ends_once_toList : ∃ c c' : Feeding ℕ, Reach step Apart (init create) c ∧
    c.streams.data = [some 5, none] ∧ c.streams.closed = true ∧
      c.streams.push (some 6) = none ∧
      replay (checked step fun c a => decide (c.Apart a)) c
        [.step (.start 0 .toList), .step (.turn 0 .later), .step (.turn 0 .later)] = some c' ∧
      ∃ r, c'.streams.reads[0]? = some r ∧ r.status.waitsFor = none ∧ r.ended = true := by
  obtain ⟨c, hc⟩ : ∃ c, replay (checked step fun c a => decide (c.Apart a)) (init create)
      [.step (.push (some 5)), .step (.push (none : Option ℕ)), .step .wakeupClose] = some c :=
    ⟨_, rfl⟩
  have hreach : Reach step Apart (init create) c :=
    (reach_of_checked _ hc).mono fun _ _ hapart => of_decide_eq_true hapart
  obtain ⟨-, -, hpush, -, -, hreads⟩ := stream_ends_once (.inr (.inr (.inl rfl))) hreach
  have hdata : c.streams.data = [some 5, none] := by
    cases hc.symm.trans rfl
    rfl
  have hraises := (hpush (by rw [hdata]; exact List.mem_cons_of_mem _ List.mem_cons_self)
    (by obtain rfl := Option.some.inj (hc.symm.trans rfl); rfl)).2.1 (some 6)
  cases hc.symm.trans rfl
  exact ⟨_, _, hreach, rfl, rfl, hraises, rfl, _, rfl,
    (hreads rfl [.step (.start 0 .toList), .step (.turn 0 .later), .step (.turn 0 .later)] _ rfl 0 _
      (Nat.zero_le _) rfl).1, rfl⟩

end Feeding

end Lwt
