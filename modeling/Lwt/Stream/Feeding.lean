import Lwt.Stream.Signals

/-!
# The function that feeds a stream

The function of a `from` or `from_direct` is called in the middle of `feed`, and may read the stream
that it is to feed: such a read finds the queue as it was, and may call the function again.  Here
the calls of the function that have not returned are a stack, and whatever happens to the stream may
happen while they are under way.  A turn of `Streams.step` that calls the function is a call that
returns at once (`replay_of_step`).
-/

namespace Lwt

open Transition

variable {α : Type}

/-- The turn calls `feed`. -/
def Turn.feeds : Turn α → Bool
  | .feed _ | .feedAvailable _ _ => true
  | _ => false

/-- The read that the step is a step of. -/
def Streams.Step.read? : Streams.Step α → Option ℕ
  | .turn i _ | .resume i | .answer i _ | .cancel i => some i
  | _ => none

/-- The function gives an element or the end marker. -/
def Reply.isResult : Reply α → Bool
  | .gives _ => true
  | _ => false

namespace Streams

variable {m m' q : Streams α} {i k reader : ℕ} {reply : Reply α} {fed : Fed} {t : Turn α}

/-- The function of the source is called by `feed`. -/
def callsSource (m : Streams α) : Bool :=
  match m.source with
  | .fromCreate => decide (m.signals[m.signal]? ≠ some .sleeping)
  | .fromDirect => true
  | _ => false

/-- The step calls the function of the source. -/
def calls (m : Streams α) : Step α → Bool
  | .turn i _ => (m.reads[i]?).any fun r =>
    match r.status with
    | .running call => (m.turnOf r.reader call).feeds && m.callsSource
    | _ => false
  | _ => false

/-! ## The two halves of `feed` -/

/-- What follows in `feed s` when the function of the source has returned.  A second
`Lwt.wakeup s.close ()` raises `Invalid_argument`. -/
def returned (m : Streams α) (reply : Reply α) : Option (Streams α × Fed) :=
  match m.source with
  | .fromCreate =>
    match reply with
    | .later => some (m.addThread .sleeping, .waits m.signals.length)
    | .gives x =>
      if x.isNone && m.closed then some ((m.enqueue x).addThread .rejected, .fails)
      else some ((m.addResult x).addThread .fulfilled, .ready)
    | .raises => some (m.addThread .rejected, .fails)
  | .fromDirect =>
    match reply with
    | .later => none
    | .gives x =>
      if x.isNone && m.closed then some (m.enqueue x, .fails) else some (m.addResult x, .ready)
    | .raises => some (m, .fails)
  | _ => none

/-- The thread `k` of a `from` ends, with the same exception for a second end marker. -/
def threadEnds (m : Streams α) (k : ℕ) (reply : Reply α) : Option (Streams α) :=
  if m.source.isFrom ∧ m.signals[k]? = some .sleeping then
    match reply with
    | .later => none
    | .gives x =>
      if x.isNone && m.closed then some ((m.enqueue x).setSignal k .rejected)
      else some ((m.addResult x).setSignal k .fulfilled)
    | .raises => some (m.setSignal k .rejected)
  else none

/-- The read `i`, which has called `feed` in the turn `t`, goes on. -/
def afterFeed (m : Streams α) (i : ℕ) (fed : Fed) : Turn α → Streams α
  | .feed next =>
    match fed with
    | .waits k => m.setStatus i (.waiting k next)
    | .ready => m.setStatus i (.running next)
    | .fails => m.setStatus i .failed
  | .feedAvailable next acc =>
    match fed with
    | .waits _ => m.setStatus i (.returned (.list acc))
    | .ready => m.setStatus i (.running next)
    | .fails => m.setStatus i .failed
  | _ => m

theorem doTurn_eq {call : Call α} (ht : t.feeds = true) : m.doTurn i reader call reply t =
    (m.feed reply).map fun p => p.1.afterFeed i p.2 t := by
  cases t with
  | feed next | feedAvailable next acc =>
    refine congrArg (Option.map · (m.feed reply)) (funext ?_)
    rintro ⟨q, fed⟩
    cases fed <;> rfl
  | _ => cases ht

/-- As long as the stream is open, `feed` is the call of the function with what follows. -/
theorem feed_eq_returned (hcalls : m.callsSource = true) (hopen : m.closed = false) :
    m.feed reply = m.returned reply := by
  unfold callsSource at hcalls
  unfold feed returned
  split at hcalls
  · rename_i hsource
    cases reply <;> simp [hsource, of_decide_eq_true hcalls, hopen]
  · rename_i hsource
    cases reply <;> simp [hsource, hopen]
  · cases hcalls

theorem threadEnds_eq_result (hopen : m.closed = false) :
    m.threadEnds k reply = m.result k reply := by
  unfold threadEnds result
  cases reply <;> simp [hopen]

/-- What a reply of the source does to the queue. -/
inductive Results (m : Streams α) : Reply α → Streams α → Prop
  | gives (x : Option α) (q : Streams α) (happends : Appends m q) (hdata : q.data = m.data ++ [x])
      (hclosed : q.closed = (m.closed || x.isNone)) (hclosing : q.closing = m.closing)
      (hsource : q.source = m.source) : Results m (.gives x) q
  | none (reply : Reply α) (q : Streams α) (hreply : reply.isResult = false)
      (happends : Appends m q) (hdata : q.data = m.data) (hclosed : q.closed = m.closed)
      (hclosing : q.closing = m.closing) (hsource : q.source = m.source) : Results m reply q

theorem results_enqueue {x : Option α} (hdata : q.data = m.data ++ [x])
    (hclosed : q.closed = (m.closed || x.isNone)) (hclosing : q.closing = m.closing)
    (hsource : q.source = m.source) (hnodes : q.nodes = m.nodes) (hreads : q.reads = m.reads) :
    Results m (.gives x) q :=
  .gives x q (appends_of_data ⟨_, hdata.symm⟩ hnodes hreads) hdata hclosed hclosing hsource

theorem results_none (hreply : reply.isResult = false) (hdata : q.data = m.data)
    (hclosed : q.closed = m.closed) (hclosing : q.closing = m.closing)
    (hsource : q.source = m.source) (hnodes : q.nodes = m.nodes) (hreads : q.reads = m.reads) :
    Results m reply q :=
  .none reply q hreply (appends_of_data ⟨[], by simp [hdata]⟩ hnodes hreads) hdata hclosed
    hclosing hsource

/-- An end marker behind another one changes nothing of `closed`. -/
private theorem closed_again {x : Option α} (h : (x.isNone && m.closed) = true) :
    m.closed = (m.closed || x.isNone) := by
  simp [(Bool.and_eq_true_iff.mp h).2]

theorem results_returned (h : m.returned reply = some (q, fed)) :
    (m.source = .fromCreate ∨ m.source = .fromDirect) ∧ Results m reply q := by
  unfold returned at h
  split at h
  · rename_i hsource
    refine ⟨.inl hsource, ?_⟩
    split at h
    · obtain ⟨rfl, -⟩ := Prod.mk.inj (Option.some.inj h)
      exact results_none rfl rfl rfl rfl rfl rfl rfl
    · split at h <;> obtain ⟨rfl, -⟩ := Prod.mk.inj (Option.some.inj h)
      · rename_i hagain
        exact results_enqueue rfl (closed_again hagain) rfl rfl rfl rfl
      · exact results_enqueue rfl rfl rfl rfl rfl rfl
    · obtain ⟨rfl, -⟩ := Prod.mk.inj (Option.some.inj h)
      exact results_none rfl rfl rfl rfl rfl rfl rfl
  · rename_i hsource
    refine ⟨.inr hsource, ?_⟩
    split at h
    · cases h
    · split at h <;> obtain ⟨rfl, -⟩ := Prod.mk.inj (Option.some.inj h)
      · rename_i hagain
        exact results_enqueue rfl (closed_again hagain) rfl rfl rfl rfl
      · exact results_enqueue rfl rfl rfl rfl rfl rfl
    · obtain ⟨rfl, -⟩ := Prod.mk.inj (Option.some.inj h)
      exact results_none rfl rfl rfl rfl rfl rfl rfl
  · cases h

theorem results_threadEnds (h : m.threadEnds k reply = some m') :
    m.source = .fromCreate ∧ Results m reply m' := by
  unfold threadEnds at h
  split at h
  · rename_i hk
    refine ⟨?_, ?_⟩
    · cases hsource : m.source with
      | fromCreate => rfl
      | _ => simp [hsource, Source.isFrom] at hk
    · split at h
      · cases h
      · split at h <;> cases h
        · rename_i hagain
          exact results_enqueue rfl (closed_again hagain) rfl rfl rfl rfl
        · exact results_enqueue rfl rfl rfl rfl rfl rfl
      · cases h
        exact results_none rfl rfl rfl rfl rfl rfl rfl
  · cases h

theorem afterFeed_eq (m : Streams α) (i : ℕ) (fed : Fed) (t : Turn α) :
    ∃ f, m.afterFeed i fed t = { m with reads := m.reads.modify i f } := by
  cases t with
  | feed next | feedAvailable next acc => cases fed <;> exact ⟨_, rfl⟩
  | _ => exact ⟨id, by rw [List.modify_id]; rfl⟩

end Streams

/-! ## Calls that are under way -/

/-- A stream and the calls of the function of its source that have not returned, the last one first:
each with the number of the read that has called `feed` and the turn that is to go on. -/
structure Feeding (α : Type) where
  streams : Streams α
  calls : List (ℕ × Turn α)

namespace Feeding

open Streams

inductive Step (α : Type)
  | step (a : Streams.Step α)
  /-- the read `i` calls `feed`, which calls the function of the source -/
  | call (i : ℕ)
  /-- the function returns to the last of its calls -/
  | return (reply : Reply α)

def init (m : Streams α) : Feeding α := ⟨m, []⟩

/-- The read `i` waits for a call of the function to return. -/
def calling (c : Feeding α) (i : ℕ) : Bool := c.calls.any fun e => e.1 == i

def call (c : Feeding α) (i : ℕ) : Option (Feeding α) :=
  (c.streams.reads[i]?).bind fun r =>
    match r.status with
    | .running call =>
      let t := c.streams.turnOf r.reader call
      if t.feeds ∧ c.streams.callsSource ∧ c.calling i = false then
        some { c with calls := (i, t) :: c.calls }
      else none
    | _ => none

def «return» (c : Feeding α) (reply : Reply α) : Option (Feeding α) :=
  match c.calls with
  | (i, t) :: calls =>
    (c.streams.returned reply).map fun p => ⟨p.1.afterFeed i p.2 t, calls⟩
  | [] => none

/-- A step that does not call the function, of another read than those that wait for a call. -/
def admits (c : Feeding α) (a : Streams.Step α) : Bool :=
  !c.streams.calls a && a.read?.all fun i => !c.calling i

def step (c : Feeding α) : Step α → Option (Feeding α)
  | .step (.result k reply) => (c.streams.threadEnds k reply).map fun m => { c with streams := m }
  | .step a => if c.admits a then (c.streams.step a).map fun m => { c with streams := m } else none
  | .call i => c.call i
  | .return reply => c.return reply

variable {c c' : Feeding α} {i : ℕ} {reply : Reply α}

theorem call_eq_some (h : c.call i = some c') : ∃ r call, c.streams.reads[i]? = some r ∧
    r.status = .running call ∧ (c.streams.turnOf r.reader call).feeds = true ∧
      c.streams.callsSource = true ∧ c.calling i = false ∧
        c' = { c with calls := (i, c.streams.turnOf r.reader call) :: c.calls } := by
  obtain ⟨r, hr, h⟩ := Option.bind_eq_some_iff.mp h
  split at h
  · rename_i call hst
    dsimp only at h
    split at h
    · rename_i hif
      exact ⟨r, call, hr, hst, hif.1, hif.2.1, hif.2.2, (Option.some.inj h).symm⟩
    · cases h
  · cases h

theorem return_eq_some (h : c.return reply = some c') : ∃ i t calls q fed,
    c.calls = (i, t) :: calls ∧ c.streams.returned reply = some (q, fed) ∧
      c' = ⟨q.afterFeed i fed t, calls⟩ := by
  unfold Feeding.return at h
  split at h
  · rename_i i t calls hcalls
    obtain ⟨⟨q, fed⟩, hq, rfl⟩ := Option.map_eq_some_iff.mp h
    exact ⟨i, t, calls, q, fed, hcalls, hq, rfl⟩
  · cases h

/-- What the steps do. -/
inductive Stepped (c : Feeding α) : Step α → Feeding α → Prop
  | own (a : Streams.Step α) (m : Streams α) (hcalls : c.streams.calls a = false)
      (hcalling : ∀ i, a.read? = some i → c.calling i = false)
      (hresult : ∀ k reply, a ≠ .result k reply) (hm : c.streams.step a = some m) :
      Stepped c (.step a) { c with streams := m }
  | threadEnds (k : ℕ) (reply : Reply α) (m : Streams α)
      (hm : c.streams.threadEnds k reply = some m) :
      Stepped c (.step (.result k reply)) { c with streams := m }
  | call (i : ℕ) (r : Read α) (call : Call α) (hr : c.streams.reads[i]? = some r)
      (hst : r.status = .running call) (hfeeds : (c.streams.turnOf r.reader call).feeds = true)
      (hsource : c.streams.callsSource = true) (hcalling : c.calling i = false) :
      Stepped c (.call i) { c with calls := (i, c.streams.turnOf r.reader call) :: c.calls }
  | return (reply : Reply α) (i : ℕ) (t : Turn α) (calls : List (ℕ × Turn α)) (q : Streams α)
      (fed : Fed) (hcalls : c.calls = (i, t) :: calls)
      (hq : c.streams.returned reply = some (q, fed)) :
      Stepped c (.return reply) ⟨q.afterFeed i fed t, calls⟩

theorem step_cases {a : Step α} (h : c.step a = some c') : Stepped c a c' := by
  cases a with
  | call i =>
    obtain ⟨r, call, hr, hst, hfeeds, hsource, hcalling, rfl⟩ := call_eq_some h
    exact .call i r call hr hst hfeeds hsource hcalling
  | «return» reply =>
    obtain ⟨i, t, calls, q, fed, hcalls, hq, rfl⟩ := return_eq_some h
    exact .return reply i t calls q fed hcalls hq
  | step a =>
    have hown : (if c.admits a then (c.streams.step a).map fun m => { c with streams := m }
        else none) = some c' → (∀ k reply, a ≠ .result k reply) → Stepped c (.step a) c' := by
      intro h hresult
      split at h
      · rename_i hadmits
        obtain ⟨m, hm, rfl⟩ := Option.map_eq_some_iff.mp h
        obtain ⟨hcalls, hcalling⟩ := Bool.and_eq_true_iff.mp hadmits
        refine .own a m (by simpa using hcalls) ?_ hresult hm
        intro i hi
        simpa [hi] using hcalling
      · cases h
    cases a with
    | result k reply =>
      obtain ⟨m, hm, rfl⟩ := Option.map_eq_some_iff.mp h
      exact .threadEnds k reply m hm
    | _ => exact hown h (by simp)

/-- A turn that calls the function of an open stream is a call that returns at once. -/
theorem step_turn_eq (hopen : c.streams.closed = false) (hcalling : c.calling i = false)
    (hcalls : c.streams.calls (.turn i reply) = true) :
    ((c.streams.step (.turn i reply)).map fun m => { c with streams := m }) =
      (c.step (.call i)).bind fun c' => c'.step (.return reply) := by
  obtain ⟨m, calls⟩ := c
  simp only [Streams.calls, Option.any_eq_true] at hcalls
  obtain ⟨⟨reader, op, start, taken, status⟩, hr, hst⟩ := hcalls
  cases status with
  | running call =>
    obtain ⟨hfeeds, hsource⟩ : (m.turnOf reader call).feeds = true ∧ m.callsSource = true := by
      simpa using hst
    have hcall : Feeding.step ⟨m, calls⟩ (.call i) =
        some ⟨m, (i, m.turnOf reader call) :: calls⟩ := by
      simp [Feeding.step, Feeding.call, hr, hfeeds, hsource, hcalling]
    have hturn : m.step (.turn i reply) =
        (m.returned reply).map fun p => p.1.afterFeed i p.2 (m.turnOf reader call) := by
      simp only [Streams.step, hr]
      rw [doTurn_eq hfeeds, feed_eq_returned hsource hopen]
    rw [hcall, hturn]
    simp only [Feeding.step, Feeding.return, Option.bind_some, Option.map_map]
    rfl
  | _ => cases hst

/-- What happens to an open stream while no call is under way: a step, or a call that returns at
once. -/
theorem replay_of_step {a : Streams.Step α} {m : Streams α} (hopen : c.streams.closed = false)
    (hnone : c.calls = []) (hm : c.streams.step a = some m) :
    ∃ labels, replay Feeding.step c labels = some { c with streams := m } := by
  have hcalling : ∀ i, c.calling i = false := by simp [calling, hnone]
  cases hcalls : c.streams.calls a with
  | true =>
    cases a with
    | turn i reply =>
      refine ⟨[.call i, .return reply], ?_⟩
      have heq := step_turn_eq hopen (hcalling i) hcalls
      rw [hm, Option.map_some] at heq
      obtain ⟨c', hcall, hreturn⟩ := Option.bind_eq_some_iff.mp heq.symm
      simp [replay, hcall, hreturn]
    | _ => cases hcalls
  | false =>
    refine ⟨[.step a], ?_⟩
    have hadmits : c.admits a = true := by simp [admits, hcalls, hcalling]
    cases a with
    | result k reply =>
      have hm' : c.streams.result k reply = some m := hm
      simp [replay, Feeding.step, threadEnds_eq_result hopen, hm']
    | _ => simp only [replay, Feeding.step, hadmits, if_true, hm, Option.map_some,
        Option.bind_some]

end Feeding

end Lwt
