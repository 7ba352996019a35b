import Lwt.Stream.Bounded

/-!
# Signals to blocked readers

A reader at the end of the queue of a push stream waits for the current signal.  A push and a
`close` send it if `push_waiting` is set; `notify_pusher` appends the pending element of a blocked
push without looking at `pushb_waiting`.  As long as no reader is blocked when that happens
(`Heard`), every blocked reader waits for the current signal at the last node (`Signalled`).
-/

namespace Lwt

open Table Transition

variable {α : Type}

namespace Streams

variable {m m' : Streams α} {i k : ℕ}

/-! ## The steps of a push stream -/

/-- What a step does to the stream of `create`. -/
inductive PushHappens (m : Streams α) (waiting : Bool) (a : Step α) : Streams α → Prop
  | reads (l : List (Read α)) : SameWaits m (m.setReads l) → PushHappens m waiting a (m.setReads l)
  | clone (reader : ℕ) : reader < m.nodes.length →
      PushHappens m waiting a { m with nodes := m.nodes ++ [m.node reader] }
  | feed (i : ℕ) (r : Read α) (next : Call α) (status : ReadStatus α) :
      m.reads[i]? = some r → m.position r.reader next = m.last →
      (status.waitsFor = none ∨
        m.signals[m.signal]? = some .sleeping ∧ status = .waiting m.signal next) →
      PushHappens m waiting a ({ m with source := .push true }.setStatus i status)
  | consume (l : List (Read α)) (reader : ℕ) (x : α) : SameWaits m (m.setReads l) →
      reader < m.nodes.length → m.elements[m.node reader]? = some x →
      PushHappens m waiting a { m with
        nodes := m.nodes.set reader (m.node reader + 1), reads := l }
  | push (x : Option α) : a = .push x → m.closed = false → waiting = false →
      PushHappens m waiting a { m.enqueue x with
        closing := m.closing + if x.isNone then 1 else 0 }
  | pushSignal (x : Option α) : a = .push x → m.closed = false → waiting = true →
      PushHappens m waiting a { (m.enqueue x).sendSignal with
        source := .push false, closing := m.closing + if x.isNone then 1 else 0 }
  | wakeupClose : a = .wakeupClose → 0 < m.closing →
      PushHappens m waiting a { m with closing := m.closing - 1, closed := true }
  | cancelPush (waiters : List PushWaiter) :
      PushHappens m waiting a { m with pushWaiters := waiters }

theorem Placed.pushHappens {a : Step α} {waiting : Bool} (hp : Placed m)
    (hsource : m.source = .push waiting)
    (hstep : m.step a = some m') : PushHappens m waiting a m' := by
  cases (hp.happens hstep).2 with
  | reads l _ heq hsame =>
    subst heq
    exact .reads l hsame
  | clone reader hlt _ heq =>
    subst heq
    exact .clone reader hlt
  | feed reply q fed i r next status _ hq hr hposition _ heq hstatus =>
    subst heq
    simp only [Streams.feed, hsource, Option.some.injEq, Prod.mk.injEq] at hq
    obtain ⟨rfl, hfed⟩ := hq
    refine .feed i r next status hr hposition ?_
    rcases hstatus with hstatus | ⟨k, rfl, rfl⟩
    · exact .inl hstatus
    · obtain ⟨hsleeping, rfl⟩ := await_eq_waits hfed
      exact .inr ⟨hsleeping, rfl⟩
  | pass i r node x removes status hr hlt hstatus _ hx heq =>
    subst heq
    have hwaits : SameWaits m (m.setReads (m.reads.modify i fun r =>
        { r with status := status, taken := r.taken ++ [x] })) :=
      sameWaits_modify fun _ => hstatus
    split
    · rename_i hremoves
      unfold Streams.consume
      split
      -- the node is the head: the element is removed
      · rename_i heq
        subst heq
        simp only [hsource]
        have hhappens : PushHappens m waiting a _ :=
          .consume _ r.reader x hwaits hlt (hx hremoves rfl)
        rw [hsource] at hhappens
        exact hhappens
      · exact .reads _ hwaits
    · exact .reads _ hwaits
  | source ha happends =>
    cases a with
    | result k reply => simp [Streams.step, result, hsource, Source.isFrom] at hstep
    | push x =>
      simp only [Streams.step, Streams.push, hsource] at hstep
      split at hstep
      · cases hstep
      · rename_i hclosed
        have hclosed : m.closed = false := by simpa using hclosed
        cases hstep
        -- a reader waits, and gets the current signal
        split
        · rename_i hwaiting
          exact .pushSignal x rfl hclosed hwaiting
        · rename_i hwaiting
          exact .push x rfl hclosed (by simpa using hwaiting)
    | wakeupClose =>
      simp only [Streams.step, Streams.wakeupClose] at hstep
      split at hstep
      · cases hstep
      · rename_i hclosing
        cases hstep
        exact .wakeupClose rfl (Nat.pos_of_ne_zero hclosing)
    | pushBounded x => simp [Streams.step, pushBounded, hsource] at hstep
    | resize size => simp [Streams.step, resize, hsource] at hstep
    | closeBounded => simp [Streams.step, closeBounded, hsource] at hstep
    | cancelPush j =>
      simp only [Streams.step, Streams.cancelPush] at hstep
      split at hstep
      · cases hstep
        exact .cancelPush _
      · cases hstep
    | runPushCallbacks j => simp [Streams.step, runPushCallbacks, hsource] at hstep
    | clone _ | start _ _ | turn _ _ | resume _ | answer _ _ | cancel _ => cases ha

/-! ## Blocked readers -/

/-- `push_waiting` or `pushb_waiting`. -/
def waiting (m : Streams α) : Bool :=
  match m.source with
  | .push waiting => waiting
  | .pushBounded info => info.waiting
  | _ => false

/-- The read is blocked in `feed`. -/
def isBlocked (m : Streams α) (r : Read α) : Bool :=
  match r.status with
  | .waiting k _ => decide (m.signals[k]? = some .sleeping)
  | _ => false

/-- The step moves the pending element of a blocked push into the queue. -/
def handsOver (m : Streams α) (a : Step α) : Bool :=
  match m.source, a with
  | .pushBounded info, .resize size => info.pending.isSome && decide (info.count < size)
  | .pushBounded info, a => info.pending.isSome && m.consumes a
  | _, _ => false

/-- No reader is blocked when the pending element of a push is moved into the queue. -/
def Heard (m : Streams α) (a : Step α) : Prop :=
  m.handsOver a = true → ∀ r ∈ m.reads, m.isBlocked r = false

/-- The step resolves the promise of every blocked reader. -/
def WakesReaders (m m' : Streams α) : Prop :=
  ∀ (i : ℕ) r k call, m.reads[i]? = some r → r.status = .waiting k call →
    m.signals[k]? = some .sleeping → m'.reads[i]? = some r ∧ m'.signals[k]? = some .fulfilled

/-- A blocked reader waits for the current signal, at the last node. -/
structure Signalled (m : Streams α) : Prop where
  signal_lt : m.signal < m.signals.length
  waits : ∀ r ∈ m.reads, ∀ k call, r.status = .waiting k call → k < m.signals.length
  blocked : ∀ r ∈ m.reads, ∀ k call, r.status = .waiting k call → m.signals[k]? = some .sleeping →
    k = m.signal ∧ m.waiting = true ∧ m.position r.reader call = m.last

theorem waitsFor_eq_some {status : ReadStatus α} {call : Call α} :
    status.waitsFor = some (k, call) ↔ status = .waiting k call := by
  cases status <;> simp [ReadStatus.waitsFor]

theorem SameWaits.mem (h : SameWaits m m') {r : Read α} {call : Call α} (hr : r ∈ m'.reads)
    (hst : r.status = .waiting k call) :
    ∃ r' ∈ m.reads, r'.reader = r.reader ∧ r'.status = .waiting k call := by
  obtain ⟨i, hi⟩ := List.getElem?_of_mem hr
  obtain ⟨r', hr', hreader, hst'⟩ := h i r (k, call) hi (waitsFor_eq_some.mpr hst)
  exact ⟨r', List.mem_of_getElem? hr', hreader, waitsFor_eq_some.mp hst'⟩

/-- A step that appends nothing and sends no signal. -/
theorem Signalled.keep (h : Signalled m) (hp : Placed m) (hsame : SameWaits m m')
    (hsignals : m'.signals = m.signals) (hsignal : m'.signal = m.signal)
    (hwaiting : m.waiting = true → m'.waiting = true) (hlast : m'.last = m.last)
    (hnode : ∀ reader < m.nodes.length, m.node reader = m.last → m'.node reader = m.last) :
    Signalled m' := by
  refine ⟨by rw [hsignals, hsignal]; exact h.signal_lt, fun r hr k call hst => ?_,
    fun r hr k call hst hk => ?_⟩
  · obtain ⟨r', hr', -, hst'⟩ := hsame.mem hr hst
    rw [hsignals]
    exact h.waits r' hr' k call hst'
  · obtain ⟨r', hr', hreader, hst'⟩ := hsame.mem hr hst
    rw [hsignals] at hk
    obtain ⟨hkey, hflag, hposition⟩ := h.blocked r' hr' k call hst' hk
    refine ⟨hkey.trans hsignal.symm, hwaiting hflag, ?_⟩
    rw [hlast, ← hposition, ← hreader]
    unfold position
    cases hcall : call.node? with
    | some n => rfl
    | none =>
      have hhead : m.node r'.reader = m.last := by
        rw [← hposition, position, hcall, Option.getD_none]
      rw [Option.getD_none, Option.getD_none, hhead]
      exact hnode r'.reader (hp.readers r' hr') hhead

theorem Signalled.wake (h : Signalled m) (hsame : SameWaits m m')
    (hlength : m.signals.length ≤ m'.signals.length) (hsignal : m'.signal < m'.signals.length)
    (hwake : ∀ k < m.signals.length, m'.signals[k]? = some .sleeping →
      m.signals[k]? = some .sleeping ∧ k ≠ m.signal) : Signalled m' := by
  refine ⟨hsignal, fun r hr k call hst => ?_, fun r hr k call hst hk => ?_⟩
  · obtain ⟨r', hr', -, hst'⟩ := hsame.mem hr hst
    exact (h.waits r' hr' k call hst').trans_le hlength
  · obtain ⟨r', hr', -, hst'⟩ := hsame.mem hr hst
    obtain ⟨hk', hne⟩ := hwake k (h.waits r' hr' k call hst') hk
    exact absurd (h.blocked r' hr' k call hst' hk').1 hne

theorem Signalled.quiet (h : Signalled m) (hsame : SameWaits m m')
    (hsignals : m'.signals = m.signals) (hsignal : m'.signal = m.signal)
    (hquiet : ∀ r ∈ m.reads, m.isBlocked r = false) : Signalled m' := by
  refine ⟨by rw [hsignals, hsignal]; exact h.signal_lt, fun r hr k call hst => ?_,
    fun r hr k call hst hk => ?_⟩
  · obtain ⟨r', hr', -, hst'⟩ := hsame.mem hr hst
    rw [hsignals]
    exact h.waits r' hr' k call hst'
  · obtain ⟨r', hr', -, hst'⟩ := hsame.mem hr hst
    have hblocked := hquiet r' hr'
    rw [hsignals] at hk
    simp [isBlocked, hst', hk] at hblocked

theorem Signalled.not_blocked (h : Signalled m) (hwaiting : m.waiting = false) :
    ∀ r ∈ m.reads, m.isBlocked r = false := by
  intro r hr
  unfold isBlocked
  split
  · rename_i k call hst
    refine decide_eq_false fun hk => ?_
    have hflag := (h.blocked r hr k call hst hk).2.1
    simp [hwaiting] at hflag
  · rfl

theorem SameWaits.of_reads (hreads : m'.reads = m.reads) : SameWaits m m' :=
  fun _ r _ hr hw => ⟨r, hreads ▸ hr, rfl, hw⟩

/-- `feed` makes a reader wait at the last node for the current signal. -/
theorem Signalled.feed {q : Streams α} {r : Read α} {next : Call α} {status : ReadStatus α}
    (h : Signalled m) (hp : Placed m) (hsignals : q.signals = m.signals)
    (hsignal : q.signal = m.signal) (hreads : q.reads = m.reads) (hdata : q.data = m.data)
    (hnodes : q.nodes = m.nodes) (hwaiting : q.waiting = true) (hr : m.reads[i]? = some r)
    (hposition : m.position r.reader next = m.last)
    (hstatus : status.waitsFor = none ∨
      m.signals[m.signal]? = some .sleeping ∧ status = .waiting m.signal next) :
    Signalled (q.setStatus i status) := by
  have hlast : q.last = m.last := by rw [last, last, hdata]
  have hnode : ∀ reader, q.node reader = m.node reader := fun reader => by
    rw [Streams.node, Streams.node, hnodes, hlast]
  have hq : Signalled q := h.keep hp (.of_reads hreads) hsignals hsignal (fun _ => hwaiting) hlast
    fun reader _ hhead => (hnode reader).trans hhead
  -- The read itself, or one that has waited before.
  have hback : ∀ r' ∈ (q.setStatus i status).reads, ∀ k call, r'.status = .waiting k call →
      r' ∈ q.reads ∨ r' = { r with status := status } ∧ k = m.signal ∧ call = next := by
    intro r' hr' k call hst
    obtain ⟨j, hj⟩ := List.getElem?_of_mem hr'
    rw [setStatus, List.getElem?_modify] at hj
    obtain ⟨r₀, hr₀, rfl⟩ := Option.map_eq_some_iff.mp hj
    by_cases hij : i = j
    · subst hij
      rw [hreads] at hr₀
      cases hr.symm.trans hr₀
      rw [if_pos rfl] at hst ⊢
      rcases hstatus with hstatus | ⟨-, rfl⟩
      · rw [waitsFor_eq_some.mpr hst] at hstatus
        cases hstatus
      · cases hst
        exact .inr ⟨rfl, rfl, rfl⟩
    · rw [if_neg hij] at hst ⊢
      exact .inl (List.mem_of_getElem? hr₀)
  refine ⟨hq.signal_lt, fun r' hr' k call hst => ?_, fun r' hr' k call hst hk => ?_⟩
  · rcases hback r' hr' k call hst with hmem | ⟨-, rfl, -⟩
    · exact hq.waits r' hmem k call hst
    · exact hsignal ▸ hq.signal_lt
  · rcases hback r' hr' k call hst with hmem | ⟨rfl, rfl, rfl⟩
    · exact hq.blocked r' hmem k call hst hk
    · have hposition' : q.position r.reader call = q.last := by
        rw [hlast, ← hposition, position, position, hnode]
      exact ⟨hsignal.symm, hwaiting, hposition'⟩

/-! ## Steps and runs -/

private theorem getElem?_sendSignal (h : Signalled m) (hk : k < m.signals.length)
    (hsleeping : (m.signals.set m.signal .fulfilled ++ [.sleeping])[k]? = some .sleeping) :
    m.signals[k]? = some .sleeping ∧ k ≠ m.signal := by
  rw [List.getElem?_append_left (by simpa using hk)] at hsleeping
  have hne : k ≠ m.signal := by
    rintro rfl
    simp [List.getElem?_set_self h.signal_lt] at hsleeping
  rw [List.getElem?_set_ne hne.symm] at hsleeping
  exact ⟨hsleeping, hne⟩

private theorem getElem?_setSignal (h : Signalled m)
    (hsleeping : (m.signals.set m.signal .fulfilled)[k]? = some .sleeping) :
    m.signals[k]? = some .sleeping ∧ k ≠ m.signal := by
  have hne : k ≠ m.signal := by
    rintro rfl
    simp [List.getElem?_set_self h.signal_lt] at hsleeping
  rw [List.getElem?_set_ne hne.symm] at hsleeping
  exact ⟨hsleeping, hne⟩

private theorem node_advance_last {reader : ℕ} {x : α} (hx : m.elements[m.node reader]? = some x)
    {n : ℕ} (hlast : m.node n = m.last) :
    ({ m with nodes := m.nodes.set reader (m.node reader + 1) } : Streams α).node n = m.last := by
  have hne : reader ≠ n := by
    rintro rfl
    have hlt := (List.getElem?_eq_some_iff.mp hx).1
    have hle : m.elements.length ≤ m.last := length_elements_le m.data
    omega
  rw [node_set_ne hne, hlast]

theorem handsOver_eq_false {info : PushBounded α} {a : Step α}
    (hsource : m.source = .pushBounded info)
    (hpending : info.pending = none) : m.handsOver a = false := by
  unfold handsOver
  split <;> simp_all

theorem Signalled.push_step {a : Step α} {waiting : Bool} (h : Signalled m) (hp : Placed m)
    (hsource : m.source = .push waiting) (hstep : m.step a = some m') :
    Signalled m' ∧ (m.data.length < m'.data.length → WakesReaders m m') := by
  have hflag : m.waiting = waiting := by rw [Streams.waiting, hsource]
  cases hp.pushHappens hsource hstep with
  | reads l hsame =>
    exact ⟨h.keep hp hsame rfl rfl id rfl fun _ _ hlast => hlast, fun hlt =>
      absurd hlt (lt_irrefl _)⟩
  | clone reader hlt =>
    refine ⟨h.keep hp (.of_reads rfl) rfl rfl id rfl fun n hn hlast => ?_,
      fun hlt => absurd hlt (lt_irrefl _)⟩
    rw [← hlast]
    simp [Streams.node, List.getElem?_append_left hn, List.getElem?_eq_getElem hn]
  | feed i r next status hr hposition hstatus =>
    exact ⟨h.feed hp rfl rfl rfl rfl rfl rfl hr hposition hstatus,
      fun hlt => absurd hlt (lt_irrefl _)⟩
  | consume l reader x hsame hlt hx =>
    exact ⟨h.keep hp hsame rfl rfl id rfl fun n _ hlast => node_advance_last hx hlast,
      fun hlt => absurd hlt (lt_irrefl _)⟩
  | push x _ _ hwaiting =>
    have hquiet := h.not_blocked (hflag.trans hwaiting)
    refine ⟨h.quiet (.of_reads rfl) rfl rfl hquiet, fun _ i r k call hr hst hk => ?_⟩
    have hblocked := hquiet r (List.mem_of_getElem? hr)
    simp [isBlocked, hst, hk] at hblocked
  | pushSignal x _ _ hwaiting =>
    have hlength : m.signals.length < (m.signals.set m.signal .fulfilled ++
      [Signal.sleeping]).length := by
      simp
    refine ⟨h.wake (.of_reads rfl) hlength.le hlength fun k hk hsleeping =>
      getElem?_sendSignal h hk hsleeping, fun _ i r k call hr hst hk => ⟨hr, ?_⟩⟩
    obtain ⟨rfl, -, -⟩ := h.blocked r (List.mem_of_getElem? hr) k call hst hk
    simp [sendSignal, enqueue, List.getElem?_append_left, h.signal_lt]
  | wakeupClose _ _ =>
    exact ⟨h.keep hp (.of_reads rfl) rfl rfl id rfl fun _ _ hlast => hlast,
      fun hlt => absurd hlt (lt_irrefl _)⟩
  | cancelPush waiters =>
    exact ⟨h.keep hp (.of_reads rfl) rfl rfl id rfl fun _ _ hlast => hlast,
      fun hlt => absurd hlt (lt_irrefl _)⟩

/-- A step of a bounded stream wakes the blocked readers when it appends something, if and only
if it is `Heard`. -/
theorem Signalled.bounded_step {a : Step α} {info : PushBounded α} (h : Signalled m)
    (hb : IsBounded m info) (hstep : m.step a = some m') :
    (m.Heard a → Signalled m') ∧
      (m.data.length < m'.data.length → (WakesReaders m m' ↔ m.Heard a)) := by
  have hp := hb.placed
  have hflag : m.waiting = info.waiting := by rw [Streams.waiting, hb.source]
  -- The pending element is moved into the queue.
  have hover : ∀ {q : Streams α}, m.handsOver a = true → SameWaits m q →
      q.signals = m.signals → q.signal = m.signal →
      (m.Heard a → Signalled q) ∧
        (m.data.length < q.data.length → (WakesReaders m q ↔ m.Heard a)) := by
    intro q hhands hsame hsignals hsignal
    refine ⟨fun hheard => h.quiet hsame hsignals hsignal (hheard hhands), fun _ => ⟨?_, ?_⟩⟩
    · intro hwakes _ r hr
      unfold isBlocked
      split
      · rename_i k call hst
        refine decide_eq_false fun hk => ?_
        obtain ⟨i, hi⟩ := List.getElem?_of_mem hr
        have hfulfilled := (hwakes i r k call hi hst hk).2
        rw [hsignals, hk] at hfulfilled
        cases hfulfilled
      · rfl
    · intro hheard i r k call hr hst hk
      have hblocked := hheard hhands r (List.mem_of_getElem? hr)
      simp [isBlocked, hst, hk] at hblocked
  have hquiet : ∀ {q : Streams α}, info.waiting = false → SameWaits m q →
      q.signals = m.signals → q.signal = m.signal →
      (m.Heard a → Signalled q) ∧
        (m.data.length < q.data.length → (WakesReaders m q ↔ m.Heard a)) := by
    intro q hwaiting hsame hsignals hsignal
    have hnone := h.not_blocked (hflag.trans hwaiting)
    refine ⟨fun _ => h.quiet hsame hsignals hsignal hnone, fun _ => ⟨fun _ _ => hnone, ?_⟩⟩
    intro _ i r k call hr hst hk
    have hblocked := hnone r (List.mem_of_getElem? hr)
    simp [isBlocked, hst, hk] at hblocked
  have hstill : ∀ {q : Streams α}, Signalled q → q.data = m.data →
      (m.Heard a → Signalled q) ∧
        (m.data.length < q.data.length → (WakesReaders m q ↔ m.Heard a)) := by
    intro q hq hdata
    refine ⟨fun _ => hq, fun hlt => ?_⟩
    rw [hdata] at hlt
    exact absurd hlt (lt_irrefl _)
  cases hb.happens hstep with
  | reads l _ _ hsame => exact hstill (h.keep hp hsame rfl rfl id rfl fun _ _ hlast => hlast) rfl
  | feed i r next status _ _ hr hposition hstatus =>
    exact hstill (h.feed hp rfl rfl rfl rfl rfl rfl hr hposition hstatus) rfl
  | consume l x _ hsame hx hpending =>
    exact hstill (h.keep hp hsame rfl rfl (fun hw => hflag ▸ hw) rfl
      fun n _ hlast => node_advance_last hx hlast) rfl
  | handOver l x y hconsumes hsame hx hpending =>
    refine hover ?_ hsame rfl rfl
    cases a with
    | resize size => simp [consumes] at hconsumes
    | _ => simp [handsOver, hb.source, hpending, hconsumes]
  | block x _ _ _ _ =>
    exact hstill (h.keep hp (.of_reads rfl) rfl rfl (fun hw => hflag ▸ hw) rfl
      fun _ _ hlast => hlast) rfl
  | enter x _ _ _ _ hwaiting => exact hquiet hwaiting (.of_reads rfl) rfl rfl
  | enterSignal x ha _ _ _ hwaiting =>
    have hlength : m.signals.length <
        (m.signals.set m.signal .fulfilled ++ [Signal.sleeping]).length := by
      simp
    have hheard : m.Heard a := fun hhands => by
      subst ha
      simp [handsOver, hb.source, consumes] at hhands
    refine ⟨fun _ => h.wake (.of_reads rfl) hlength.le hlength fun k hk hsleeping =>
      getElem?_sendSignal h hk hsleeping, fun _ => ⟨fun _ => hheard, ?_⟩⟩
    intro _ i r k call hr hst hk
    obtain ⟨rfl, -, -⟩ := h.blocked r (List.mem_of_getElem? hr) k call hst hk
    exact ⟨hr, by simp [setInfo, sendSignal, enqueue, List.getElem?_append_left, h.signal_lt]⟩
  | resize size _ _ =>
    exact hstill (h.keep hp (.of_reads rfl) rfl rfl (fun hw => hflag ▸ hw) rfl
      fun _ _ hlast => hlast) rfl
  | resizeOver size y ha hcount hpending =>
    refine hover ?_ (.of_reads rfl) rfl rfl
    subst ha
    simp [handsOver, hb.source, hpending, hcount]
  | closed _ _ => exact hstill h rfl
  | close signals waiters ha _ hsignals _ =>
    have hheard : m.Heard a := fun hhands => by
      subst ha
      simp [handsOver, hb.source, consumes] at hhands
    subst hsignals
    cases hwaiting : info.waiting with
    | false => exact hquiet hwaiting (.of_reads rfl) rfl rfl
    | true =>
      have hlength : m.signals.length ≤ (m.signals.set m.signal Signal.fulfilled).length :=
        (List.length_set ..).ge
      refine ⟨fun _ => h.wake (.of_reads rfl) hlength (h.signal_lt.trans_le hlength)
        fun k _ hsleeping => getElem?_setSignal h hsleeping, fun _ => ⟨fun _ => hheard, ?_⟩⟩
      intro _ i r k call hr hst hk
      obtain ⟨rfl, -, -⟩ := h.blocked r (List.mem_of_getElem? hr) k call hst hk
      exact ⟨hr, List.getElem?_set_self h.signal_lt⟩
  | cancelPush j _ _ =>
    exact hstill (h.keep hp (.of_reads rfl) rfl rfl id rfl fun _ _ hlast => hlast) rfl
  | runPushCallbacks j _ _ =>
    exact hstill (h.keep hp (.of_reads rfl) rfl rfl (fun hw => hflag ▸ hw) rfl
      fun _ _ hlast => hlast) rfl

theorem PushHappens.source_eq {a : Step α} {waiting : Bool} (h : PushHappens m waiting a m')
    (hsource : m.source = .push waiting) : ∃ waiting', m'.source = .push waiting' := by
  cases h with
  | feed _ _ _ _ _ _ _ => exact ⟨true, rfl⟩
  | pushSignal _ _ _ _ => exact ⟨false, rfl⟩
  | reads _ _ | clone _ _ | consume _ _ _ _ _ _ | push _ _ _ _ | wakeupClose _ _ | cancelPush _ =>
    exact ⟨waiting, hsource⟩

/-- A push stream, bounded or not, whose blocked readers wait for the current signal. -/
def PushSignalled (m : Streams α) : Prop :=
  Signalled m ∧ ((∃ waiting, m.source = .push waiting ∧ Placed m) ∨ ∃ info l, Counted m info l)

theorem signalled_fromSource (source : Source α) (signal : Signal) :
    Signalled (fromSource source signal) :=
  ⟨Nat.zero_lt_one, by simp [fromSource], by simp [fromSource]⟩

theorem PushSignalled.step {a : Step α} (h : PushSignalled m) (hstep : m.step a = some m') :
    (m.Heard a → PushSignalled m') ∧
      (m.data.length < m'.data.length → (WakesReaders m m' ↔ m.Heard a)) := by
  obtain ⟨hsignalled, ⟨waiting, hsource, hp⟩ | ⟨info, l, hc⟩⟩ := h
  · obtain ⟨hnext, hwakes⟩ := hsignalled.push_step hp hsource hstep
    obtain ⟨waiting', hsource'⟩ := (hp.pushHappens hsource hstep).source_eq hsource
    have hheard : m.Heard a := fun hhands => by simp [handsOver, hsource] at hhands
    exact ⟨fun _ => ⟨hnext, .inl ⟨waiting', hsource', (hp.happens hstep).1⟩⟩,
      fun hlt => ⟨fun _ => hheard, fun _ => hwakes hlt⟩⟩
  · obtain ⟨hnext, hwakes⟩ := hsignalled.bounded_step hc.toIsBounded hstep
    exact ⟨fun hheard => ⟨hnext hheard, .inr (hc.step hstep)⟩, hwakes⟩

/-- In every run of a push stream in which no reader is blocked when a pending element is moved
into the queue, a reader that waits at a node that is no longer the last one is being woken; and
a step that appends something wakes every blocked reader, if and only if it is such a step. -/
theorem readers_are_woken {init : Streams α}
    (hinit : init = create ∨ ∃ size, init = createBounded size)
    (hreach : Reach step Heard init m) :
    (∀ (i : ℕ) r k call, m.reads[i]? = some r → r.status = .waiting k call →
      m.position r.reader call ≠ m.last → (m.step (.resume i)).isSome = true) ∧
    ∀ a m', m.step a = some m' → m.data.length < m'.data.length →
      (WakesReaders m m' ↔ m.Heard a) := by
  have hstart : PushSignalled init := by
    rcases hinit with rfl | ⟨size, rfl⟩
    · exact ⟨signalled_fromSource _ _, .inl ⟨false, rfl, placed_fromSource _ _⟩⟩
    · exact ⟨signalled_fromSource _ _, .inr ⟨_, _, counted_createBounded size⟩⟩
  have h : PushSignalled m := hreach.invariant hstart fun _ _ _ hq hheard hstep =>
    (hq.step hstep).1 hheard
  refine ⟨fun i r k call hr hst hposition => ?_, fun a m' hstep => (h.step hstep).2⟩
  obtain ⟨reader, op, start, taken, status⟩ := r
  obtain rfl : status = .waiting k call := hst
  have hk := h.1.waits _ (List.mem_of_getElem? hr) k call rfl
  have hsleeping : m.signals[k]? ≠ some .sleeping := fun hsleeping =>
    hposition (h.1.blocked _ (List.mem_of_getElem? hr) k call rfl hsleeping).2.2
  simp only [Streams.step, hr]
  cases hsignal : m.signals[k]? with
  | none => exact absurd (List.getElem?_eq_none_iff.mp hsignal) (not_le.mpr hk)
  | some signal =>
    cases signal with
    | sleeping => exact absurd hsignal hsleeping
    | fulfilled | rejected => rfl

/-- A `npeek 2` waits behind the first element of a full stream, a push waits as well, and a `get`
makes room for its element. -/
def npeekBeforeGet : List (Step ℕ) :=
  [.pushBounded 1, .start 0 (.npeek 2), .turn 0 .later, .turn 0 .later, .pushBounded 2,
    .start 0 .get, .turn 1 .later]

/-- The element is in the queue, and the `npeek` is still blocked. -/
theorem npeek_not_woken : ∃ m : Streams ℕ, Reach step (fun _ _ => True) (createBounded 1) m ∧
    ∃ r ∈ m.reads, ∃ k call, r.status = .waiting k call ∧ m.signals[k]? = some .sleeping ∧
      m.position r.reader call ≠ m.last ∧ m.nodeData (m.position r.reader call) = some 2 := by
  obtain ⟨m, hm⟩ : ∃ m, replay step (createBounded 1) npeekBeforeGet = some m := ⟨_, rfl⟩
  refine ⟨m, reach_of_replay _ hm, ?_⟩
  cases hm.symm.trans rfl
  exact ⟨_, List.mem_cons_self, 0, _, rfl, rfl, by decide, rfl⟩

/-- A push wakes a `get` that is blocked. -/
theorem readers_are_woken_get : ∃ m m' : Streams ℕ, Reach step Heard create m ∧
    m.step (.push (some 5)) = some m' ∧ WakesReaders m m' ∧
      (∃ r ∈ m.reads, m.isBlocked r = true) := by
  have hheard : ∀ {q : Streams ℕ} {a : Step ℕ} {waiting : Bool}, q.source = .push waiting →
      q.Heard a := fun hsource hhands => by simp [handsOver, hsource] at hhands
  obtain ⟨m₁, h₁⟩ : ∃ m₁, step (create (α := ℕ)) (.start 0 .get) = some m₁ := ⟨_, rfl⟩
  obtain ⟨m₂, h₂⟩ : ∃ m₂, step m₁ (.turn 0 .later) = some m₂ := by
    cases h₁.symm.trans rfl
    exact ⟨_, rfl⟩
  have hreach : Reach step Heard create m₂ := by
    refine .tail _ (.tail _ .refl (hheard rfl) h₁) ?_ h₂
    cases h₁.symm.trans rfl
    exact hheard rfl
  have hwoken := (readers_are_woken (.inl rfl) hreach).2
  cases h₁.symm.trans rfl
  cases h₂.symm.trans rfl
  exact ⟨_, _, hreach, rfl, (hwoken (.push (some 5)) _ rfl (by decide)).mpr (hheard rfl), _,
    List.mem_singleton_self _, rfl⟩

end Streams

end Lwt
