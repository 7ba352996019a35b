import Lwt.Stream.Feeding

/-!
# The end of a stream

The end marker is put in the queue first, and `closed` is resolved afterwards: by the same call for
a result of the source and for the method `close`, and at the end of `push None` for a push stream,
after the readers have been woken.  As long as nothing is pushed in between and no call of the
function of the source gives a result behind the end marker (`Apart`), the end marker is the last
thing in the queue (`Closes`), `closed` is resolved once, and after that every read comes to its
end without waiting.
-/

namespace Lwt

open Table Transition

variable {α : Type}

namespace Streams

variable {m m' q : Streams α} {i k : ℕ}

/-- The end marker is in the queue. -/
def ended (m : Streams α) : Bool := m.closed || decide (0 < m.closing)

def Step.isPush : Step α → Bool
  | .push _ => true
  | _ => false

/-- Nothing is pushed while `push None` is waking the readers. -/
def Apart (m : Streams α) (a : Step α) : Prop := a.isPush = true → m.closing = 0

/-- The step calls `Lwt.wakeup close ()`. -/
def resolvesClose (m : Streams α) : Step α → Bool
  | .wakeupClose => true
  | .closeBounded =>
    match m.source with
    | .pushBounded info => !info.closed
    | _ => false
  | _ => false

/-! ## The invariant -/

/-- The queue: the elements, and the end marker behind them. -/
structure Closes (m : Streams α) : Prop where
  placed : Placed m
  data : m.data = m.elements.map some ++ if m.ended then [none] else []
  once : 0 < m.closing → m.closing = 1 ∧ m.closed = false

theorem Closes.not_ended (h : Closes m) (hlast : m.last ≤ m.elements.length) : m.ended = false := by
  have hdata := congrArg List.length h.data
  by_contra hended
  rw [Bool.not_eq_false] at hended
  rw [hended, if_pos rfl, List.length_append, List.length_map, List.length_singleton] at hdata
  rw [last, hdata] at hlast
  exact absurd hlast (Nat.not_succ_le_self _)

theorem ended_eq_false : m.ended = false ↔ m.closed = false ∧ m.closing = 0 := by
  simp [ended]

/-- Nothing happens to the queue and its source. -/
structure SameQueue (m m' : Streams α) : Prop where
  data : m'.data = m.data
  closed : m'.closed = m.closed
  closing : m'.closing = m.closing
  signals : m'.signals = m.signals
  signal : m'.signal = m.signal
  source : m'.source = m.source

theorem Closes.same (h : Closes m) (hp : Placed m') (hdata : m'.data = m.data)
    (hclosed : m'.closed = m.closed) (hclosing : m'.closing = m.closing) : Closes m' where
  placed := hp
  data := by
    rw [elements, ended, hdata, hclosed, hclosing]
    exact h.data
  once := by
    rw [hclosing, hclosed]
    exact h.once

theorem Closes.append (h : Closes m) (hp : Placed m') (hopen : m.ended = false) {x : Option α}
    (hdata : m'.data = m.data ++ [x]) (hended : m'.ended = x.isNone)
    (honce : 0 < m'.closing → m'.closing = 1 ∧ m'.closed = false) : Closes m' where
  placed := hp
  once := honce
  data := by
    obtain ⟨l, hl⟩ : ∃ l : List α, m.data = l.map some := ⟨_, by simpa [hopen] using h.data⟩
    cases x with
    | none => simp [elements, hended, hdata, hl, elements_map_append, Lwt.elements]
    | some x => simp [elements, hended, hdata, hl, elements_map_append, Lwt.elements]

theorem closes_fromSource (source : Source α) (signal : Signal) :
    Closes (fromSource source signal) where
  placed := placed_fromSource source signal
  data := rfl
  once := fun h => absurd h (lt_irrefl 0)

theorem Counted.closes {info : PushBounded α} {l : List α} (h : Counted m info l) : Closes m where
  placed := h.placed
  data := by
    rw [h.elements_eq, ended, h.closed, h.closing]
    simpa using h.data
  once := fun hlt => absurd h.closing hlt.ne'

/-! ## The source of a `from` or `from_direct` -/

theorem doTurn_same {reader : ℕ} {call : Call α} {reply : Reply α} {t : Turn α}
    (hbounded : m.source.isPushBounded = false) (hfeeds : t.feeds = false)
    (h : m.doTurn i reader call reply t = some m') : SameQueue m m' := by
  cases t with
  | feed next | feedAvailable next acc => cases hfeeds
  | pass node x removes next =>
    cases h
    have hconsume : SameQueue m (m.consume reader node) := by
      unfold Streams.consume
      split
      · dsimp only
        split
        · rename_i hinfo
          simp [hinfo, Source.isPushBounded] at hbounded
        · exact ⟨rfl, rfl, rfl, rfl, rfl, rfl⟩
      · exact ⟨rfl, rfl, rfl, rfl, rfl, rfl⟩
    split
    · exact ⟨hconsume.data, hconsume.closed, hconsume.closing, hconsume.signals,
        hconsume.signal, hconsume.source⟩
    · exact ⟨rfl, rfl, rfl, rfl, rfl, rfl⟩
  | test x | «return» a | empty =>
    cases h
    exact ⟨rfl, rfl, rfl, rfl, rfl, rfl⟩

theorem doTurn_feeds {reader : ℕ} {call : Call α} {reply : Reply α} {t : Turn α}
    (hfeeds : t.feeds = true) (h : m.doTurn i reader call reply t = some m') :
    ∃ q fed status, m.feed reply = some (q, fed) ∧ m' = q.setStatus i status := by
  cases t with
  | feed next | feedAvailable next acc =>
    obtain ⟨⟨q, fed⟩, hq, rfl⟩ := Option.map_eq_some_iff.mp h
    cases fed <;> exact ⟨q, _, _, hq, rfl⟩
  | _ => cases hfeeds

theorem tested_feeds (call : Call α) (x : α) : (call.tested x).feeds = false := by
  cases call with
  | getWhileRec node acc f | getWhileSRec node acc f =>
    simp only [Call.tested]
    split <;> rfl
  | _ => rfl

/-- A stream of `from` or `from_direct`. -/
structure FromCloses (m : Streams α) : Prop extends Closes m where
  source : m.source = .fromCreate ∨ m.source = .fromDirect
  closing : m.closing = 0

theorem FromCloses.ended_eq (h : FromCloses m) : m.ended = m.closed := by
  simp [ended, h.closing]

theorem FromCloses.of_same (h : FromCloses m) (hp : Placed m') (hdata : m'.data = m.data)
    (hclosed : m'.closed = m.closed) (hclosing : m'.closing = m.closing)
    (hsource : m'.source = m.source) : FromCloses m' where
  toCloses := h.toCloses.same hp hdata hclosed hclosing
  source := hsource ▸ h.source
  closing := hclosing.trans h.closing

theorem FromCloses.results {reply : Reply α} (h : FromCloses m)
    (hopen : reply.isResult = true → m.ended = false) (hq : Results m reply q) : FromCloses q := by
  cases hq with
  | gives x _ happends hdata hclosed hclosing hsource =>
    have hclosed' : m.closed = false := h.ended_eq ▸ hopen rfl
    refine ⟨h.toCloses.append (happends.placed h.placed) (hopen rfl) hdata ?_ fun hlt => ?_,
      hsource ▸ h.source, hclosing.trans h.closing⟩
    · rw [ended, hclosed, hclosing, h.closing, hclosed']
      simp
    · rw [hclosing, h.closing] at hlt
      cases hlt
  | none _ _ hreply happends hdata hclosed hclosing hsource =>
    exact h.of_same (happends.placed h.placed) hdata hclosed hclosing hsource

theorem FromCloses.plain {a : Step α} (h : FromCloses m) (hcalls : m.calls a = false)
    (hresult : ∀ k reply, a ≠ .result k reply) (hstep : m.step a = some m') : SameQueue m m' := by
  have hbounded : m.source.isPushBounded = false := by
    rcases h.source with hsource | hsource <;> rw [hsource] <;> rfl
  cases step_cases hstep with
  | clone reader _ _ _ heq | start reader op _ _ heq =>
    subst heq
    exact ⟨rfl, rfl, rfl, rfl, rfl, rfl⟩
  | turn i reply r call ha hr hst hturn =>
    have hcalls : ((m.turnOf r.reader call).feeds && m.callsSource) = false := by
      simpa [ha, calls, hr, hst] using hcalls
    cases hfeeds : (m.turnOf r.reader call).feeds with
    | false => exact doTurn_same hbounded hfeeds hturn
    | true =>
      obtain ⟨q, fed, status, hq, rfl⟩ := doTurn_feeds hfeeds hturn
      have hcalls : m.callsSource = false := by simpa [hfeeds] using hcalls
      -- a thread sleeps, and the read waits for it
      rcases h.source with hsource | hsource
      · have hsleeping : m.signals[m.signal]? = some .sleeping := by
          simpa [callsSource, hsource] using hcalls
        simp only [Streams.feed, hsource, hsleeping, if_true] at hq
        obtain ⟨rfl, -⟩ := Prod.mk.inj (Option.some.inj hq)
        exact ⟨rfl, rfl, rfl, rfl, rfl, rfl⟩
      · simp [callsSource, hsource] at hcalls
  | tested i r x call _ _ _ hturn => exact doTurn_same hbounded (tested_feeds call x) hturn
  | resumed i r k call _ _ _ heq | fails i r _ _ _ heq =>
    subst heq
    exact ⟨rfl, rfl, rfl, rfl, rfl, rfl⟩
  | source ha _ =>
    cases a with
    | result k reply => exact absurd rfl (hresult k reply)
    | wakeupClose => simp [Streams.step, Streams.wakeupClose, h.closing] at hstep
    | cancelPush j =>
      simp only [Streams.step, Streams.cancelPush] at hstep
      split at hstep
      · cases hstep
        exact ⟨rfl, rfl, rfl, rfl, rfl, rfl⟩
      · cases hstep
    | push _ | pushBounded _ | resize _ | closeBounded | runPushCallbacks _ =>
      rcases h.source with hsource | hsource <;>
        simp [Streams.step, Streams.push, Streams.pushBounded, Streams.resize,
          Streams.closeBounded, Streams.runPushCallbacks, hsource] at hstep
    | clone _ | start _ _ | turn _ _ | resume _ | answer _ _ | cancel _ => cases ha

/-! ## Push streams -/

theorem Closes.push_step {a : Step α} {waiting : Bool} (h : Closes m)
    (hsource : m.source = .push waiting) (hstep : m.step a = some m') (hapart : m.Apart a) :
    Closes m' := by
  have hp := (h.placed.happens hstep).1
  cases h.placed.pushHappens hsource hstep with
  | reads _ _ | clone _ _ | feed _ _ _ _ _ _ _ | consume _ _ _ _ _ _ | cancelPush _ =>
    exact h.same hp rfl rfl rfl
  | push x ha hclosed _ | pushSignal x ha hclosed _ =>
    have hclosing : m.closing = 0 := hapart (ha ▸ rfl)
    have hopen : m.ended = false := ended_eq_false.mpr ⟨hclosed, hclosing⟩
    refine h.append hp hopen rfl ?_ fun _ => ?_
    · cases x <;> simp [ended, hclosed, hclosing, enqueue, sendSignal]
    · cases x <;> simp_all [enqueue, sendSignal]
  | wakeupClose _ hlt =>
    obtain ⟨hclosing, hclosed⟩ := h.once hlt
    refine ⟨hp, ?_, fun hlt' => ?_⟩
    · have hdata := h.data
      have hended : m.ended = true := by simp [ended, hclosing]
      rw [hended] at hdata
      exact hdata
    · dsimp only at hlt'
      omega

/-! ## Every stream -/

/-- What holds of every stream, whatever its source. -/
def WellEnded (m : Streams α) : Prop :=
  (∃ waiting, m.source = .push waiting ∧ Closes m) ∨ FromCloses m ∨ ∃ info l, Counted m info l

/-- The streams that `lwt_stream.ml` makes, before anything happens to them. -/
def Initial (m : Streams α) : Prop :=
  m = «from» ∨ m = fromDirect ∨ m = create ∨ ∃ size, m = createBounded size

theorem Initial.wellEnded (h : Initial m) : WellEnded m := by
  rcases h with rfl | rfl | rfl | ⟨size, rfl⟩
  · exact .inr (.inl ⟨closes_fromSource _ _, .inl rfl, rfl⟩)
  · exact .inr (.inl ⟨closes_fromSource _ _, .inr rfl, rfl⟩)
  · exact .inl ⟨false, rfl, closes_fromSource _ _⟩
  · exact .inr (.inr ⟨_, _, counted_createBounded size⟩)

theorem WellEnded.closes (h : WellEnded m) : Closes m := by
  rcases h with ⟨_, _, h⟩ | h | ⟨_, _, h⟩
  · exact h
  · exact h.toCloses
  · exact h.closes

theorem WellEnded.fromCloses (h : WellEnded m)
    (hfrom : m.source = .fromCreate ∨ m.source = .fromDirect) : FromCloses m := by
  rcases h with ⟨waiting, hsource, -⟩ | h | ⟨info, l, h⟩
  · rcases hfrom with hfrom | hfrom <;> simp [hsource] at hfrom
  · exact h
  · rcases hfrom with hfrom | hfrom <;> simp [h.source] at hfrom

theorem WellEnded.plain {a : Step α} (h : WellEnded m) (hstep : m.step a = some m')
    (hcalls : m.calls a = false) (hresult : ∀ k reply, a ≠ .result k reply) (hapart : m.Apart a) :
    WellEnded m' := by
  rcases h with ⟨waiting, hsource, h⟩ | h | ⟨info, l, h⟩
  · obtain ⟨waiting', hsource'⟩ := (h.placed.pushHappens hsource hstep).source_eq hsource
    exact .inl ⟨waiting', hsource', h.push_step hsource hstep hapart⟩
  · have hsame := h.plain hcalls hresult hstep
    exact .inr (.inl (h.of_same (h.placed.happens hstep).1 hsame.data hsame.closed hsame.closing
      hsame.source))
  · exact .inr (.inr (h.step hstep))

theorem Closes.none_mem (h : Closes m) : none ∈ m.data ↔ m.ended = true := by
  rw [h.data]
  cases m.ended <;> simp

theorem push_spec {x : Option α} (h : m.push x = some m') :
    m.closed = false ∧ m'.data = m.data ++ [x] := by
  unfold Streams.push at h
  split at h
  · split at h
    · cases h
    · rename_i hclosed
      cases h
      refine ⟨by simpa using hclosed, ?_⟩
      dsimp only
      split <;> rfl
  · cases h

/-- Behind the end marker nothing is enqueued, if and only if nothing is pushed while `push None`
is waking the readers. -/
theorem WellEnded.data_eq_iff {a : Step α} (h : WellEnded m) (hended : m.ended = true)
    (hstep : m.step a = some m') (hcalls : m.calls a = false)
    (hresult : ∀ k reply, a ≠ .result k reply) : m'.data = m.data ↔ m.Apart a := by
  cases ha : a.isPush with
  | true =>
    cases a with
    | push x =>
      obtain ⟨hclosed, hdata⟩ := push_spec hstep
      have hclosing : 0 < m.closing := by simpa [ended, hclosed] using hended
      refine ⟨fun heq => ?_, fun hapart => absurd (hapart rfl) hclosing.ne'⟩
      simp [hdata] at heq
    | _ => cases ha
  | false =>
    refine ⟨fun _ htrue => by simp [ha] at htrue, fun _ => ?_⟩
    rcases h with ⟨waiting, hsource, h⟩ | h | ⟨info, l, h⟩
    · cases h.placed.pushHappens hsource hstep with
      | push x ha' _ _ | pushSignal x ha' _ _ => simp [ha', Step.isPush] at ha
      | _ => rfl
    · exact (h.plain hcalls hresult hstep).data
    · have hclosed : info.closed = true := by
        rw [← h.closed]
        simpa [ended, h.closing] using hended
      cases h.happens hstep with
      | handOver l x y _ _ _ hpending | resizeOver _ y _ _ hpending =>
        have hopen := (h.pending (by simp [hpending])).2
        simp [hclosed] at hopen
      | enter _ _ hopen _ _ _ | enterSignal _ _ hopen _ _ _ | close _ _ _ hopen _ _ =>
        simp [hclosed] at hopen
      | _ => rfl

theorem WellEnded.closed_stays {a : Step α} (h : WellEnded m) (hclosed : m.closed = true)
    (hstep : m.step a = some m') (hcalls : m.calls a = false)
    (hresult : ∀ k reply, a ≠ .result k reply) : m'.closed = true := by
  rcases h with ⟨waiting, hsource, h⟩ | h | ⟨info, l, h⟩
  · cases h.placed.pushHappens hsource hstep with
    | wakeupClose _ _ => rfl
    | _ => exact hclosed
  · exact (h.plain hcalls hresult hstep).closed.trans hclosed
  · cases h.happens hstep with
    | close _ _ _ _ _ _ => rfl
    | _ => exact hclosed

theorem Placed.last_le {reader : ℕ} {call : Call α} (hp : Placed m) (hlt : reader < m.nodes.length)
    (hcall : m.CallPlaced reader call) (hfeeds : (m.turnOf reader call).feeds = true) :
    m.last ≤ m.elements.length := by
  have ht := turn_placed hcall (hp.node_le hlt)
  generalize m.turnOf reader call = t at ht hfeeds
  cases t with
  | feed next | feedAvailable next acc => exact ht.2 ▸ ht.1.le
  | _ => cases hfeeds

theorem WellEnded.resolvesClose {a : Step α} (h : WellEnded m)
    (hresolves : m.resolvesClose a = true)
    (hstep : m.step a = some m') : m.closed = false ∧ m'.closed = true := by
  cases a with
  | wakeupClose =>
    simp only [Streams.step, Streams.wakeupClose] at hstep
    split at hstep
    · cases hstep
    · rename_i hclosing
      cases hstep
      exact ⟨(h.closes.once (Nat.pos_of_ne_zero hclosing)).2, rfl⟩
  | closeBounded =>
    rcases h with ⟨waiting, hsource, -⟩ | h | ⟨info, l, h⟩
    · simp [Streams.step, Streams.closeBounded, hsource] at hstep
    · rcases h.source with hsource | hsource <;>
        simp [Streams.step, Streams.closeBounded, hsource] at hstep
    · have hopen : info.closed = false := by simpa [Streams.resolvesClose,
        h.source] using hresolves
      cases h.happens hstep with
      | closed _ hclosed => simp [hopen] at hclosed
      | close _ _ _ _ _ _ => exact ⟨h.closed.trans hopen, rfl⟩
      | consume _ _ ha _ _ _ | handOver _ _ _ ha _ _ _ => simp [consumes] at ha
      | reads _ ha _ _ | feed _ _ _ _ ha _ _ _ _ | block _ ha _ _ _ | enter _ ha _ _ _ _
      | enterSignal _ ha _ _ _ _ | resize _ ha _ | resizeOver _ _ ha _ _ | cancelPush _ ha _
      | runPushCallbacks _ ha _ => cases ha
  | _ => cases hresolves

theorem Results.data_eq_iff {reply : Reply α} (h : Results m reply q) (hended : m.ended = true) :
    q.data = m.data ↔ (reply.isResult = true → m.ended = false) := by
  cases h with
  | gives x _ _ hdata => simp [hdata, hended, Reply.isResult]
  | none _ _ hreply _ hdata => simp [hdata, hreply]

theorem Results.closed_stays {reply : Reply α} (h : Results m reply q) (hclosed : m.closed = true) :
    q.closed = true := by
  cases h with
  | gives x _ _ _ heq => simp [heq, hclosed]
  | none _ _ _ _ _ heq => exact heq.trans hclosed

theorem Results.appends {reply : Reply α} (h : Results m reply q) : Appends m q := by
  cases h with
  | gives _ _ happends => exact happends
  | none _ _ _ happends => exact happends

/-! ## The other reads -/

theorem consume_reads (reader node : ℕ) : (m.consume reader node).reads = m.reads := by
  unfold Streams.consume
  split
  · dsimp only
    split
    · split <;> rfl
    · rfl
  · rfl

theorem doTurn_reads {reader : ℕ} {call : Call α} {reply : Reply α} {t : Turn α}
    (h : m.doTurn i reader call reply t = some m') : ∃ f, m'.reads = m.reads.modify i f := by
  cases t with
  | feed next | feedAvailable next acc =>
    obtain ⟨⟨q, fed⟩, hq, rfl⟩ := Option.map_eq_some_iff.mp h
    cases fed <;> exact ⟨_, by rw [← (appends_feed hq).reads]; rfl⟩
  | pass node x removes next =>
    cases h
    refine ⟨_, congrArg (fun reads => List.modify reads i _) ?_⟩
    split
    · exact consume_reads reader node
    · rfl
  | test x | «return» a | empty =>
    cases h
    exact ⟨_, rfl⟩

theorem step_reads {a : Step α} (hstep : m.step a = some m') :
    (∃ reader op, m'.reads = m.reads ++
      [⟨reader, op, m.node reader, [], .running (op.call (m.node reader))⟩]) ∨
    (∃ i f, a.read? = some i ∧ m'.reads = m.reads.modify i f) ∨ m'.reads = m.reads := by
  cases step_cases hstep with
  | clone reader _ _ _ heq =>
    subst heq
    exact .inr (.inr rfl)
  | start reader op _ _ heq =>
    subst heq
    exact .inl ⟨reader, op, rfl⟩
  | turn i reply r call ha _ _ hturn =>
    obtain ⟨f, hf⟩ := doTurn_reads hturn
    exact .inr (.inl ⟨i, f, by rw [ha]; rfl, hf⟩)
  | tested i r x call ha _ _ hturn =>
    obtain ⟨f, hf⟩ := doTurn_reads hturn
    exact .inr (.inl ⟨i, f, by rw [ha]; rfl, hf⟩)
  | resumed i r k call ha _ _ heq =>
    subst heq
    exact .inr (.inl ⟨i, _, by rw [ha]; rfl, rfl⟩)
  | fails i r ha _ _ heq =>
    subst heq
    exact .inr (.inl ⟨i, _, by rcases ha with rfl | rfl | rfl <;> rfl, rfl⟩)
  | source _ happends => exact .inr (.inr happends.reads)

/-- The read that waits for the function of the source goes on at a node that is there. -/
def Waits (m : Streams α) (e : ℕ × Turn α) : Prop :=
  ∃ r next, m.reads[e.1]? = some r ∧ m.CallPlaced r.reader next ∧
    (e.2 = .feed next ∨ ∃ acc, e.2 = .feedAvailable next acc)

theorem Waits.grows {e : ℕ × Turn α} (h : m.Waits e) (hp : Placed m) (hp' : Placed m')
    (hgrows : Grows m m') (hread : m'.reads[e.1]? = m.reads[e.1]?) : m'.Waits e := by
  obtain ⟨r, next, hr, hcall, hturn⟩ := h
  have hlt := hp.readers r (List.mem_of_getElem? hr)
  exact ⟨r, next, hread.trans hr,
    hcall.grows hgrows hlt (hp'.node_le (hlt.trans_le hgrows.readers)), hturn⟩

theorem Placed.afterFeed {t : Turn α} (hp : Placed m) (h : m.Waits (i, t)) (fed : Fed) :
    Placed (m.afterFeed i fed t) := by
  obtain ⟨r, next, hr, hcall, rfl | ⟨acc, rfl⟩⟩ := h <;> cases fed with
  | waits k => exact hp.setStatus hr (by first | exact hcall | trivial)
  | ready => exact hp.setStatus hr hcall
  | fails => exact hp.setStatus hr trivial

end Streams

/-! ## Steps -/

namespace Feeding

open Streams

variable {c c' : Feeding α} {a : Step α}

def Step.isPush : Step α → Bool
  | .step a => a.isPush
  | _ => false

/-- The source gives an element or the end marker. -/
def Step.isResult : Step α → Bool
  | .step (.result _ reply) | .return reply => reply.isResult
  | _ => false

/-- Nothing is pushed while `push None` is waking the readers, and the source gives nothing behind
the end marker. -/
def Apart (c : Feeding α) (a : Step α) : Prop :=
  (a.isPush = true → c.streams.closing = 0) ∧ (a.isResult = true → c.streams.ended = false)

instance (c : Feeding α) (a : Step α) : Decidable (c.Apart a) :=
  inferInstanceAs (Decidable (_ ∧ _))

/-- The step calls `Lwt.wakeup close ()`. -/
def resolvesClose (c : Feeding α) : Step α → Bool
  | .step (.result _ reply) | .return reply =>
    match reply with
    | .gives x => x.isNone
    | _ => false
  | .step a => c.streams.resolvesClose a
  | .call _ => false

/-- What holds in every run: the calls of the function belong to different reads. -/
structure Good (c : Feeding α) : Prop where
  streams : c.streams.WellEnded
  calls : ∀ e ∈ c.calls, c.streams.Waits e
  nodup : (c.calls.map Prod.fst).Nodup

theorem good_init {m : Streams α} (h : Initial m) : Good (init m) :=
  ⟨h.wellEnded, by simp [init], by simp [init]⟩

theorem calling_of_mem {e : ℕ × Turn α} (he : e ∈ c.calls) : c.calling e.1 = true :=
  List.any_eq_true.mpr ⟨e, he, by simp⟩

theorem reads_eq {m : Streams α} {a : Streams.Step α} {j : ℕ} (ha : a.read? ≠ some j)
    (hj : j < c.streams.reads.length) (hm : c.streams.step a = some m) :
    m.reads[j]? = c.streams.reads[j]? := by
  rcases step_reads hm with ⟨reader, op, hreads⟩ | ⟨i, f, hi, hreads⟩ | hreads
  · rw [hreads, List.getElem?_append_left hj]
  · rw [hreads, List.getElem?_modify_ne _ _ fun hij : i = j => ha (hij ▸ hi)]
  · rw [hreads]

theorem Good.step (h : Good c) (hapart : c.Apart a) (hstep : c.step a = some c') : Good c' := by
  have hp := h.streams.closes.placed
  cases step_cases hstep with
  | own a m hcalls hcalling hresult hm =>
    -- a step of a reader moves no read that is in a call
    obtain ⟨hp', hhappens⟩ := hp.happens hm
    refine ⟨h.streams.plain hm hcalls hresult hapart.1, fun e he => ?_, h.nodup⟩
    refine (h.calls e he).grows hp hp' (hhappens.grows hp) (reads_eq (fun hread => ?_) ?_ hm)
    · have hnot := (calling_of_mem he).symm.trans (hcalling e.1 hread)
      cases hnot
    · obtain ⟨r, next, hr, -⟩ := h.calls e he
      exact (List.getElem?_eq_some_iff.mp hr).1
  | threadEnds k reply m hm =>
    obtain ⟨hsource, hresults⟩ := results_threadEnds hm
    have hfrom := (h.streams.fromCloses (.inl hsource)).results hapart.2 hresults
    refine ⟨.inr (.inl hfrom), fun e he => ?_, h.nodup⟩
    exact (h.calls e he).grows hp hfrom.placed hresults.appends.grows
      (by rw [hresults.appends.reads])
  | call i r call hr hst hfeeds hsource hcalling =>
    have hmem := List.mem_of_getElem? hr
    have hcall := hp.reads r hmem
    rw [hst] at hcall
    have ht := turn_placed hcall (hp.node_le (hp.readers r hmem))
    refine ⟨h.streams, fun e he => ?_, ?_⟩
    · rcases List.mem_cons.mp he with rfl | he
      · generalize c.streams.turnOf r.reader call = t at ht hfeeds
        cases t with
        | feed next => exact ⟨r, next, hr, ht.1, .inl rfl⟩
        | feedAvailable next acc => exact ⟨r, next, hr, ht.1, .inr ⟨acc, rfl⟩⟩
        | _ => cases hfeeds
      · exact h.calls e he
    · refine List.nodup_cons.mpr ⟨fun hi => ?_, h.nodup⟩
      obtain ⟨e, he, rfl⟩ := List.mem_map.mp hi
      simp [calling_of_mem he] at hcalling
  | «return» reply i t calls q fed hcalls hq =>
    obtain ⟨hsource, hresults⟩ := results_returned hq
    have hfrom := (h.streams.fromCloses hsource).results hapart.2 hresults
    have hgrows := hresults.appends.grows
    have hwaits : ∀ e ∈ c.calls, q.Waits e := fun e he =>
      (h.calls e he).grows hp hfrom.placed hgrows (by rw [hresults.appends.reads])
    have hplaced := hfrom.placed.afterFeed (hwaits _ (hcalls ▸ List.mem_cons_self)) fed
    have hnodup := h.nodup
    rw [hcalls, List.map_cons, List.nodup_cons] at hnodup
    obtain ⟨f, hf⟩ := q.afterFeed_eq i fed t
    refine ⟨.inr (.inl (hfrom.of_same hplaced ?_ ?_ ?_ ?_)), fun e he => ?_, hnodup.2⟩
    · rw [hf]
    · rw [hf]
    · rw [hf]
    · rw [hf]
    · have hmem : e ∈ calls := he
      -- the other calls belong to other reads
      have hne : i ≠ e.1 := fun heq => hnodup.1 (List.mem_map.mpr ⟨e, hmem, heq.symm⟩)
      refine (hwaits e (hcalls ▸ List.mem_cons_of_mem _ he)).grows hfrom.placed hplaced ?_ ?_
      · rw [hf]
        exact ⟨List.prefix_refl _, fun i hi => hi, le_rfl, fun i _ => le_rfl⟩
      · rw [hf, List.getElem?_modify_ne _ _ hne]

theorem Good.data_eq_iff (h : Good c) (hended : c.streams.ended = true)
    (hstep : c.step a = some c') : c'.streams.data = c.streams.data ↔ c.Apart a := by
  cases step_cases hstep with
  | own a m hcalls hcalling hresult hm =>
    have hnot : Step.isResult (.step a) = false := by
      cases a with
      | result k reply => exact absurd rfl (hresult k reply)
      | _ => rfl
    rw [h.streams.data_eq_iff hended hm hcalls hresult]
    simp only [Apart, hnot, Bool.false_eq_true, false_implies, and_true]
    rfl
  | threadEnds k reply m hm =>
    rw [(results_threadEnds hm).2.data_eq_iff hended]
    simp [Apart, Step.isPush, Step.isResult, Streams.Step.isPush]
  | call i => simp [Apart, Step.isPush, Step.isResult]
  | «return» reply i t calls q fed hcalls hq =>
    obtain ⟨f, hf⟩ := q.afterFeed_eq i fed t
    simp only [hf, (results_returned hq).2.data_eq_iff hended]
    simp [Apart, Step.isPush, Step.isResult]

theorem Good.closed_stays (h : Good c) (hclosed : c.streams.closed = true)
    (hstep : c.step a = some c') : c'.streams.closed = true := by
  cases step_cases hstep with
  | own a m hcalls hcalling hresult hm => exact h.streams.closed_stays hclosed hm hcalls hresult
  | threadEnds k reply m hm => exact (results_threadEnds hm).2.closed_stays hclosed
  | call i => exact hclosed
  | «return» reply i t calls q fed hcalls hq =>
    obtain ⟨f, hf⟩ := q.afterFeed_eq i fed t
    rw [hf]
    exact (results_returned hq).2.closed_stays hclosed

theorem Good.resolvesClose (h : Good c) (hresolves : c.resolvesClose a = true) (hapart : c.Apart a)
    (hstep : c.step a = some c') : c.streams.closed = false ∧ c'.streams.closed = true := by
  -- the source gives the end marker of a stream that has not ended
  have hresults : ∀ {reply : Reply α} {q : Streams α}, Results c.streams reply q →
      (reply.isResult = true → c.streams.ended = false) →
      (match reply with | .gives x => x.isNone | _ => false) = true →
      c.streams.closed = false ∧ q.closed = true := by
    intro reply q hq hopen hnone
    cases hq with
    | gives x _ _ _ hclosed =>
      refine ⟨(ended_eq_false.mp (hopen rfl)).1, ?_⟩
      rw [hclosed, show x.isNone = true from hnone, Bool.or_true]
    | none _ _ hreply =>
      cases reply with
      | gives x => cases hreply
      | _ => cases hnone
  cases step_cases hstep with
  | own a m hcalls hcalling hresult hm =>
    refine h.streams.resolvesClose ?_ hm
    cases a with
    | result k reply => exact absurd rfl (hresult k reply)
    | _ => exact hresolves
  | threadEnds k reply m hm => exact hresults (results_threadEnds hm).2 hapart.2 hresolves
  | call i => cases hresolves
  | «return» reply i t calls q fed hcalls hq =>
    obtain ⟨f, hf⟩ := q.afterFeed_eq i fed t
    obtain ⟨hopen, hclosed⟩ := hresults (results_returned hq).2 hapart.2 hresolves
    exact ⟨hopen, by rw [hf]; exact hclosed⟩

end Feeding

end Lwt
