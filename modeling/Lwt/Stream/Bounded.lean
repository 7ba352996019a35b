import Lwt.Stream.Positions

/-!
# Bounded push streams

Everything that a step does to a bounded push stream (`BoundedHappens`), and what holds of its
queue in every run: `pushb_count` is the number of elements from `s.node` on, and an element is
pending only while the stream is open and holds at least `pushb_size` elements.
-/

namespace Lwt

open Table Transition

variable {α : Type}

namespace Streams

variable {m m' : Streams α} {info : PushBounded α} {i j k : ℕ} {x : α}

/-! ## Steps -/

/-- The head of the only reader goes on. -/
def advance (m : Streams α) : Streams α := { m with nodes := m.nodes.set 0 (m.node 0 + 1) }

def setInfo (m : Streams α) (info : PushBounded α) : Streams α :=
  { m with source := .pushBounded info }

def setReads (m : Streams α) (l : List (Read α)) : Streams α := { m with reads := l }

/-- What a step does to a bounded push stream. -/
inductive BoundedHappens (m : Streams α) (info : PushBounded α) (a : Step α) :
    Streams α → Prop
  | reads (l : List (Read α)) : a.isSource = false → m.consumes a = false →
      SameWaits m (m.setReads l) → BoundedHappens m info a (m.setReads l)
  | feed (i : ℕ) (r : Read α) (next : Call α) (status : ReadStatus α) : a.isSource = false →
      m.consumes a = false → m.reads[i]? = some r → m.position r.reader next = m.last →
      (status.waitsFor = none ∨
        m.signals[m.signal]? = some .sleeping ∧ status = .waiting m.signal next) →
      BoundedHappens m info a ((m.setInfo { info with waiting := true }).setStatus i status)
  | consume (l : List (Read α)) (x : α) : m.consumes a = true → SameWaits m (m.setReads l) →
      m.elements[m.node 0]? = some x → info.pending = none →
      BoundedHappens m info a ((m.advance.setInfo { info with count := info.count - 1 }).setReads l)
  | handOver (l : List (Read α)) (x y : α) : m.consumes a = true → SameWaits m (m.setReads l) →
      m.elements[m.node 0]? = some x → info.pending = some y →
      BoundedHappens m info a ((m.advance.notifyPusher info).setReads l)
  | block (x : α) : a = .pushBounded x → info.closed = false → info.pending = none →
      info.size ≤ info.count →
      BoundedHappens m info a { m.setInfo { info with pending := some x } with
        pushWaiters := m.pushWaiters.set info.pushWaiter .sleeping }
  | enter (x : α) : a = .pushBounded x → info.closed = false → info.pending = none →
      info.count < info.size → info.waiting = false →
      BoundedHappens m info a ((m.enqueue (some x)).setInfo { info with count := info.count + 1 })
  | enterSignal (x : α) : a = .pushBounded x → info.closed = false → info.pending = none →
      info.count < info.size → info.waiting = true →
      BoundedHappens m info a ((m.enqueue (some x)).sendSignal.setInfo
        { info with count := info.count + 1, waiting := false })
  | resize (size : ℤ) : a = .resize size → (info.pending.isSome = true → size ≤ info.count) →
      BoundedHappens m info a (m.setInfo { info with size := size })
  | resizeOver (size : ℤ) (y : α) : a = .resize size → info.count < size →
      info.pending = some y →
      BoundedHappens m info a (m.notifyPusher { info with size := size, count := info.count + 1 })
  | closed : a = .closeBounded → info.closed = true → BoundedHappens m info a m
  | close (signals : List Signal) (waiters : List PushWaiter) : a = .closeBounded →
      info.closed = false →
      signals = (if info.waiting then m.signals.set m.signal .fulfilled else m.signals) →
      waiters = (if info.pending.isSome then m.pushWaiters.modify info.pushWaiter fun waiter =>
        if waiter = .sleeping then .rejected else waiter else m.pushWaiters) →
      BoundedHappens m info a { (m.enqueue none).setInfo
          { info with closed := true, pending := none, waiting := false } with
        signals := signals, pushWaiters := waiters, closed := true }
  | cancelPush (j : ℕ) : a = .cancelPush j → m.pushWaiters[j]? = some .sleeping →
      BoundedHappens m info a { m with pushWaiters := m.pushWaiters.set j .canceled }
  | runPushCallbacks (j : ℕ) : a = .runPushCallbacks j → m.pushWaiters[j]? = some .canceled →
      BoundedHappens m info a
        { m.setInfo { info with pending := none, pushWaiter := m.pushWaiters.length } with
          pushWaiters := m.pushWaiters.set j .rejected ++ [.unused] }

/-- The stream is a bounded push stream, which has no clones and whose end is marked and
signalled by one call. -/
structure IsBounded (m : Streams α) (info : PushBounded α) : Prop where
  source : m.source = .pushBounded info
  nodes : m.nodes.length = 1
  closing : m.closing = 0
  placed : Placed m

theorem sameWaits_modify {f : Read α → Read α} (hf : ∀ r, (f r).status.waitsFor = none) :
    SameWaits m (m.setReads (m.reads.modify i f)) := by
  intro j r w hr hw
  simp only [setReads, List.getElem?_modify] at hr
  obtain ⟨r₀, hr₀, rfl⟩ := Option.map_eq_some_iff.mp hr
  by_cases hij : i = j
  · rw [if_pos hij, hf] at hw
    cases hw
  · rw [if_neg hij] at hw ⊢
    exact ⟨r₀, hr₀, rfl, hw⟩

theorem await_eq_waits (h : m.await i = .waits k) : m.signals[i]? = some .sleeping ∧ k = i := by
  unfold await at h
  split at h
  · rename_i hsleeping
    cases h
    exact ⟨hsleeping, rfl⟩
  · cases h
  · cases h

theorem IsBounded.notSource {a : Step α} (h : IsBounded m info) (ha : a.isSource = false)
    (hhappens : Happens m a m') : BoundedHappens m info a m' := by
  have hsource := h.source
  cases hhappens with
  | reads l hnot heq hsame =>
    subst heq
    exact .reads l ha hnot hsame
  | clone reader hlt hbounded heq => simp [hsource, Source.isPushBounded] at hbounded
  | feed reply q fed i r next status hnot hq hr hposition _ heq hstatus =>
    subst heq
    simp only [Streams.feed, hsource, Option.some.injEq, Prod.mk.injEq] at hq
    obtain ⟨rfl, hfed⟩ := hq
    refine .feed i r next status ha hnot hr hposition ?_
    rcases hstatus with hstatus | ⟨k, rfl, rfl⟩
    · exact .inl hstatus
    · obtain ⟨hsleeping, rfl⟩ := await_eq_waits hfed
      exact .inr ⟨hsleeping, rfl⟩
  | pass i r node x removes status hr hlt hstatus hconsumes hx heq =>
    subst heq
    have hwaits : SameWaits m (m.setReads (m.reads.modify i fun r =>
        { r with status := status, taken := r.taken ++ [x] })) :=
      sameWaits_modify fun _ => hstatus
    have hreader : r.reader = 0 := by
      have := h.nodes
      omega
    by_cases hhead : removes = true ∧ node = m.node r.reader
    · obtain ⟨rfl, rfl⟩ := hhead
      have hx := hx rfl rfl
      have hconsumes : m.consumes a = true := by simp [hconsumes]
      rw [hreader] at hx
      simp only [Streams.consume, if_true, hsource, hreader]
      split
      · rename_i hpending
        exact .consume _ x hconsumes hwaits hx hpending
      · rename_i y hpending
        exact .handOver _ x y hconsumes hwaits hx hpending
    · have hsame : (if removes = true then m.consume r.reader node else m) = m := by
        split
        · rename_i hremoves
          rw [Streams.consume, if_neg fun heq => hhead ⟨hremoves, heq⟩]
        · rfl
      rw [hsame]
      refine .reads _ ha ?_ hwaits
      rw [hconsumes, Bool.and_eq_false_iff, decide_eq_false_iff_not, ← Bool.not_eq_true]
      exact not_and_or.mp hhead
  | source hsource' happends => simp [ha] at hsource'

theorem IsBounded.happens {a : Step α} (h : IsBounded m info) (hstep : m.step a = some m') :
    BoundedHappens m info a m' := by
  have hsource := h.source
  cases ha : a.isSource with
  | false => exact h.notSource ha (h.placed.happens hstep).2
  | true =>
    -- of the steps of a source only those of a bounded push are possible
    cases a with
    | result k reply => simp [Streams.step, result, hsource, Source.isFrom] at hstep
    | push x => simp [Streams.step, push, hsource] at hstep
    | wakeupClose => simp [Streams.step, wakeupClose, h.closing] at hstep
    | pushBounded x =>
      simp only [Streams.step, Streams.pushBounded, hsource, Bool.or_eq_true] at hstep
      split at hstep
      · cases hstep
      · rename_i hopen
        obtain ⟨hclosed, hpending⟩ := not_or.mp hopen
        have hclosed : info.closed = false := by simpa using hclosed
        have hpending : info.pending = none := by simpa using hpending
        split at hstep
        · rename_i hcount
          cases hstep
          exact .block x rfl hclosed hpending hcount
        · rename_i hcount
          have hcount := not_le.mp hcount
          split at hstep
          · rename_i hwaiting
            cases hstep
            exact .enterSignal x rfl hclosed hpending hcount hwaiting
          · rename_i hwaiting
            cases hstep
            exact .enter x rfl hclosed hpending hcount (by simpa using hwaiting)
    | resize size =>
      simp only [Streams.step, Streams.resize, hsource, Bool.and_eq_true, decide_eq_true_eq]
        at hstep
      split at hstep
      · rename_i hover
        obtain ⟨y, hy⟩ := Option.isSome_iff_exists.mp hover.2
        cases hstep
        exact .resizeOver size y rfl hover.1 hy
      · rename_i hover
        cases hstep
        exact .resize size rfl fun hpending => not_lt.mp fun hlt => hover ⟨hlt, hpending⟩
    | closeBounded =>
      simp only [Streams.step, Streams.closeBounded, hsource] at hstep
      split at hstep
      · rename_i hclosed
        cases hstep
        exact .closed rfl hclosed
      · rename_i hclosed
        cases hstep
        have hclose : BoundedHappens m info .closeBounded _ :=
          .close _ _ rfl (by simpa using hclosed) rfl rfl
        split
        · rename_i hwaiting
          rw [if_pos hwaiting] at hclose
          exact hclose
        · rename_i hwaiting
          rw [if_neg hwaiting] at hclose
          exact hclose
    | cancelPush j =>
      simp only [Streams.step, Streams.cancelPush] at hstep
      split at hstep
      · rename_i hj
        cases hstep
        exact .cancelPush j rfl hj
      · cases hstep
    | runPushCallbacks j =>
      simp only [Streams.step, Streams.runPushCallbacks, hsource] at hstep
      split at hstep
      · rename_i hj
        cases hstep
        exact .runPushCallbacks j rfl hj
      · cases hstep
    | clone _ | start _ _ | turn _ _ | resume _ | answer _ _ | cancel _ => cases ha

/-! ## The queue -/

/-- The elements in the queue, from `s.node` to the last node. -/
def held (m : Streams α) : List α := (m.data.drop (m.node 0)).filterMap id

/-- The method `blocked`. -/
def blocked (m : Streams α) : Bool :=
  match m.source with
  | .pushBounded info => info.pending.isSome
  | _ => false

/-- The queue of a bounded push stream: its elements and, once it is closed, the end marker. -/
structure Counted (m : Streams α) (info : PushBounded α) (l : List α) : Prop
    extends IsBounded m info where
  data : m.data = l.map some ++ if info.closed = true then [none] else []
  count : info.count + m.node 0 = l.length
  pending : info.pending ≠ none → info.size ≤ info.count ∧ info.closed = false
  closed : m.closed = info.closed

theorem elements_map_append (l : List α) (data : List (Option α)) :
    Lwt.elements (l.map some ++ data) = l ++ Lwt.elements data := by
  induction l with
  | nil => rfl
  | cons x l ih => simp [Lwt.elements, ih]

variable {l : List α}

theorem Counted.elements_eq (h : Counted m info l) : m.elements = l := by
  rw [Streams.elements, h.data, elements_map_append]
  split <;> simp [Lwt.elements]

theorem Counted.node_le (h : Counted m info l) : m.node 0 ≤ l.length := by
  have hlt : 0 < m.nodes.length := h.nodes.symm ▸ Nat.zero_lt_one
  have hle := h.placed.node_le hlt
  rwa [h.elements_eq] at hle

theorem Counted.held_eq (h : Counted m info l) : m.held = l.drop (m.node 0) := by
  rw [held, h.data, List.drop_append_of_le_length (by simpa using h.node_le), ← List.map_drop,
    List.filterMap_append, List.filterMap_map]
  split <;> simp

theorem Counted.count_eq (h : Counted m info l) : info.count = m.held.length := by
  have hcount := h.count
  have hle := h.node_le
  rw [h.held_eq, List.length_drop]
  omega

theorem node_congr {reader : ℕ} (hlt : reader < m.nodes.length) (hnodes : m'.nodes = m.nodes) :
    m'.node reader = m.node reader := by
  rw [Streams.node, Streams.node, hnodes, List.getElem?_eq_getElem hlt]
  rfl

theorem node_advance (hnodes : m.nodes.length = 1) : m.advance.node 0 = m.node 0 + 1 :=
  node_set_self (hnodes.symm ▸ Nat.zero_lt_one)

theorem counted_createBounded (size : ℤ) :
    Counted (createBounded size : Streams α) ⟨false, size, 0, none, false, 0⟩ [] where
  source := rfl
  nodes := rfl
  closing := rfl
  placed := placed_fromSource _ _
  data := rfl
  count := rfl
  pending := fun h => absurd rfl h
  closed := rfl

private theorem data_enqueue {data : List (Option α)} (hopen : info.closed = false)
    (hdata : data = l.map some ++ if info.closed = true then [none] else []) (x : α) :
    data ++ [some x] = (l ++ [x]).map some ++ if info.closed = true then [none] else [] := by
  simp [hdata, hopen]

theorem Counted.step {a : Step α} (h : Counted m info l) (hstep : m.step a = some m') :
    ∃ info' l', Counted m' info' l' := by
  have hplaced := (h.placed.happens hstep).1
  have hlength : m.advance.nodes.length = 1 := (List.length_set ..).trans h.nodes
  have hcount := h.count
  -- the position of the reader stays, or goes one element further
  have hstay : ∀ {q : Streams α} {c : ℤ} {n : ℕ}, q.nodes = m.nodes → c + m.node 0 = n →
      c + q.node 0 = n := fun hnodes hc => by
    rw [node_congr (h.nodes.symm ▸ Nat.zero_lt_one) hnodes, hc]
  have hmove : ∀ {q : Streams α} {c : ℤ} {n : ℕ}, q.nodes = m.advance.nodes →
      c + (m.node 0 + 1 : ℕ) = n → c + q.node 0 = n := fun hnodes hc => by
    rw [node_congr (hlength.symm ▸ Nat.zero_lt_one) hnodes, node_advance h.nodes, hc]
  cases h.happens hstep with
  | reads reads _ _ _ =>
    exact ⟨info, l, ⟨h.source, h.nodes, h.closing, hplaced⟩, h.data, h.count, h.pending, h.closed⟩
  | feed i r next status _ _ _ _ _ =>
    exact ⟨_, l, ⟨rfl, h.nodes, h.closing, hplaced⟩, h.data, h.count, h.pending, h.closed⟩
  | consume reads x _ _ _ hpending =>
    refine ⟨_, l, ⟨rfl, hlength, h.closing, hplaced⟩, h.data, ?_,
      fun hne => absurd hpending hne, h.closed⟩
    refine hmove rfl ?_
    dsimp only
    omega
  | handOver reads x y _ _ _ hpending =>
    -- the waiting element enters behind the one that is taken
    have hopen := (h.pending (by simp [hpending])).2
    refine ⟨_, l ++ [y], ⟨rfl, hlength, h.closing, hplaced⟩, ?_, ?_, fun hne => absurd rfl hne,
      h.closed⟩
    · refine Eq.trans ?_ (data_enqueue hopen h.data y)
      rw [← hpending]
      rfl
    · refine hmove rfl ?_
      rw [List.length_append, List.length_singleton]
      dsimp only
      omega
  | block x _ hopen _ hsize =>
    exact ⟨_, l, ⟨rfl, h.nodes, h.closing, hplaced⟩, h.data, h.count, fun _ => ⟨hsize, hopen⟩,
      h.closed⟩
  | enter x _ hopen hpending _ _ | enterSignal x _ hopen hpending _ _ =>
    refine ⟨_, l ++ [x], ⟨rfl, h.nodes, h.closing, hplaced⟩, data_enqueue hopen h.data x, ?_,
      fun hne => absurd hpending hne, h.closed⟩
    refine hstay rfl ?_
    rw [List.length_append, List.length_singleton]
    dsimp only
    omega
  | resize size _ hsize =>
    refine ⟨_, l, ⟨rfl, h.nodes, h.closing, hplaced⟩, h.data, h.count, fun hne => ?_, h.closed⟩
    exact ⟨hsize (Option.isSome_iff_ne_none.mpr hne), (h.pending hne).2⟩
  | resizeOver size y _ _ hpending =>
    have hopen := (h.pending (by simp [hpending])).2
    refine ⟨_, l ++ [y], ⟨rfl, h.nodes, h.closing, hplaced⟩, ?_, ?_, fun hne => absurd rfl hne,
      h.closed⟩
    · refine Eq.trans ?_ (data_enqueue hopen h.data y)
      rw [← hpending]
      rfl
    · refine hstay rfl ?_
      rw [List.length_append, List.length_singleton]
      dsimp only
      omega
  | closed _ _ => exact ⟨info, l, h⟩
  | close signals waiters _ hopen _ _ =>
    refine ⟨_, l, ⟨rfl, h.nodes, h.closing, hplaced⟩, ?_, hstay rfl hcount,
      fun hne => absurd rfl hne, rfl⟩
    -- `close` puts the end behind the elements, and drops the waiting one
    have hdata : m.data = l.map some := by simp [h.data, hopen]
    simp [setInfo, enqueue, hdata]
  | cancelPush j _ _ =>
    exact ⟨info, l, ⟨h.source, h.nodes, h.closing, hplaced⟩, h.data, h.count, h.pending, h.closed⟩
  | runPushCallbacks j _ _ =>
    exact ⟨_, l, ⟨rfl, h.nodes, h.closing, hplaced⟩, h.data, h.count, fun hne => absurd rfl hne,
      h.closed⟩

theorem reach_counted {ok : Streams α → Step α → Prop} {size : ℤ}
    (hreach : Reach step ok (createBounded size) m) : ∃ info l, Counted m info l :=
  hreach.invariant (P := fun m => ∃ info l, Counted m info l)
    ⟨_, _, counted_createBounded size⟩ fun _ _ _ hcounted _ hstep => by
      obtain ⟨info, l, h⟩ := hcounted
      exact h.step hstep

/-- In every run of a bounded push stream the counter is the number of elements in the queue, an
element is pending only while the stream is open and full, and a push to an open stream with no
pending element blocks if and only if the queue holds at least `size` elements. -/
theorem bounded_count {size : ℤ} (hreach : Reach step (fun _ _ => True) (createBounded size) m) :
    ∃ info, m.source = .pushBounded info ∧ info.count = m.held.length ∧
      (info.pending ≠ none → info.count ≥ info.size ∧ info.closed = false ∧ m.closed = false) ∧
      ∀ x, (m.pushBounded x = none ↔ info.closed = true ∨ info.pending ≠ none) ∧
        ∀ m', m.pushBounded x = some m' →
          (m'.blocked = true ↔ info.size ≤ m.held.length) ∧
          m'.data = if m'.blocked then m.data else m.data ++ [some x] := by
  obtain ⟨info, l, h⟩ := reach_counted hreach
  have hcount := h.count_eq
  refine ⟨info, h.source, hcount, fun hne => ⟨(h.pending hne).1, (h.pending hne).2,
    h.closed.trans (h.pending hne).2⟩, fun x => ⟨?_, fun m' hpush => ?_⟩⟩
  · simp only [pushBounded, h.source, ← Option.isSome_iff_ne_none, ← Bool.or_eq_true]
    split
    · simp [*]
    · rename_i hopen
      simp only [hopen]
      split
      · simp
      · split <;> simp
  · cases h.happens (a := .pushBounded x) hpush with
    | block y hx _ _ hsize =>
      cases hx
      exact ⟨⟨fun _ => hcount ▸ hsize, fun _ => rfl⟩, rfl⟩
    | enter y hx _ hpending hsize _ | enterSignal y hx _ hpending hsize _ =>
      cases hx
      have hblocked : info.pending.isSome = false := by simp [hpending]
      simp only [blocked, setInfo, hblocked]
      exact ⟨⟨fun hfalse => (by cases hfalse), fun hle =>
        absurd (hcount ▸ hle) (not_le.mpr hsize)⟩,
        rfl⟩
    | reads _ ha _ _ => simp [Step.isSource] at ha
    | feed _ _ _ _ ha _ _ _ _ => simp [Step.isSource] at ha
    | consume _ _ ha _ _ _ | handOver _ _ _ ha _ _ _ => simp [consumes] at ha
    | resize _ ha _ | resizeOver _ _ ha _ _ | closed ha _ | close _ _ ha _ _ _ | cancelPush _ ha _
    | runPushCallbacks _ ha _ => cases ha

/-- A push to a stream of size 1 that holds the element 7 blocks. -/
theorem bounded_count_full : ∃ m : Streams ℕ,
    Reach step (fun _ _ => True) (createBounded 1) m ∧ m.held = [7] ∧
      ∃ m', m.pushBounded 8 = some m' ∧ m'.blocked = true ∧ m'.data = m.data := by
  obtain ⟨m, hm⟩ : ∃ m, replay step (createBounded (α := ℕ) 1) [.pushBounded 7] = some m := ⟨_, rfl⟩
  have hreach := reach_of_replay _ hm
  obtain ⟨info, hsource, -, -, hpush⟩ := bounded_count hreach
  cases hm.symm.trans rfl
  cases hsource
  obtain ⟨m', hm'⟩ : ∃ m', Streams.pushBounded _ 8 = some m' :=
    Option.ne_none_iff_exists'.mp fun hnone => by simpa using (hpush 8).1.mp hnone
  obtain ⟨hblocked, hdata⟩ := (hpush 8).2 m' hm'
  have hfull := hblocked.mpr (by decide)
  rw [hfull, if_pos rfl] at hdata
  exact ⟨_, hreach, rfl, m', hm', hfull, hdata⟩

end Streams

end Lwt
