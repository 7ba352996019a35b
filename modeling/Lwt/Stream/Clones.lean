import Lwt.Stream.Ends

/-!
# Clones, calls of the source, and `parse`

The clones of a stream share its queue and have each their own head.  If the removing reads of each
clone follow one another (`Successive`), what they remove from it are the elements from the node at
which it was cloned to its head, whatever is read from the other clones.  The calls of `from_create`
and the calls of `parse` are logged beside the stream.
-/

namespace Lwt

open Table Transition

variable {α : Type}

namespace Streams

variable {m m' : Streams α} {c o reader : ℕ}

/-! ## Reads of a clone that follow one another -/

/-- A removing read begins when the ones of the same clone before it have ended. -/
def Successive (m : Streams α) : Step α → Prop
  | .start reader op => op.removes = true →
      ∀ r ∈ m.reads, r.reader = reader → r.op.removes = true → r.ended = true
  | _ => True

instance (m : Streams α) (a : Step α) : Decidable (m.Successive a) :=
  match a with
  | .start reader op => inferInstanceAs (Decidable (op.removes = true →
      ∀ r ∈ m.reads, r.reader = reader → r.op.removes = true → r.ended = true))
  | .clone _ | .turn _ _ | .resume _ | .answer _ _ | .cancel _ | .result _ _
  | .push _ | .wakeupClose | .pushBounded _ | .resize _ | .closeBounded | .cancelPush _
  | .runPushCallbacks _ =>
    isTrue trivial

theorem Successive.aloneAt {a : Step α} (h : m.Successive a) : m.AloneAt c a := by
  cases a with
  | start reader op =>
    rintro rfl
    exact h
  | _ => trivial

/-- The removing reads of every clone follow one another. -/
structure Shared (m : Streams α) : Prop extends Sound m where
  placed : Placed m
  serial : ∀ c < m.nodes.length, ∃ o, Serial c o m

theorem shared_fromSource (source : Source α) (signal : Signal) :
    Shared (fromSource source signal) where
  toSound := sound_fromSource source signal
  placed := placed_fromSource source signal
  serial := fun c hc => by
    obtain rfl : c = 0 := by simpa [fromSource] using hc
    exact ⟨0, serial_fromSource source signal⟩

theorem Shared.position_eq {r : Read α} (h : Shared m) (hr : r ∈ m.reads)
    (hremoves : r.op.removes = true) (hended : r.ended = false) :
    r.start + r.taken.length = m.node r.reader := by
  obtain ⟨o, hserial⟩ := h.serial r.reader (h.reads r hr).reader_lt
  obtain ⟨i, hi⟩ := List.getElem?_of_mem hr
  exact (hserial.active i r hi rfl hremoves hended).1

theorem Shared.readsOwn (h : Shared m) (a : Step α) : m.ReadsOwn a := by
  cases a with
  | turn i reply =>
    intro r call hr hst
    have hmem := List.mem_of_getElem? hr
    have hgoing := (h.reads r hmem).status
    have hposition := h.position_eq hmem
    obtain ⟨reader, op, start, taken, status⟩ := r
    obtain rfl : status = .running call := hst
    have hgoing : Going start taken call op := hgoing
    cases op with
    | nget n | getAvailableUpTo n =>
      obtain ⟨-, rfl⟩ := hgoing
      intro _ _
      have heq : start + taken.length = m.node reader := hposition rfl rfl
      rw [heq]
    | peek | isEmpty | get | next =>
      obtain ⟨-, rfl⟩ := hgoing
      trivial
    | npeek n | njunk n | getWhile f | getWhileS f =>
      obtain ⟨-, rfl⟩ := hgoing
      trivial
    | junk =>
      obtain ⟨-, rfl | rfl⟩ := hgoing
      · trivial
      · trivial
    | toList | getAvailable =>
      obtain rfl : call = _ := hgoing
      trivial
  | _ => trivial

theorem Shared.serial_clone (h : Shared m) :
    Serial m.nodes.length (m.node reader) { m with nodes := m.nodes ++ [m.node reader] } := by
  have hnode : ({ m with nodes := m.nodes ++ [m.node reader] } : Streams α).node m.nodes.length =
      m.node reader := by
    rw [Streams.node, List.getElem?_concat_length]
    rfl
  have hnot : ∀ r ∈ m.reads, r.reader ≠ m.nodes.length := fun r hr =>
    (h.reads r hr).reader_lt.ne
  refine ⟨by simp, hnode.ge, ?_, fun i r hr hreader _ _ => ?_⟩
  · rw [hnode, List.drop_eq_nil_of_le (List.length_take_le ..)]
    exact List.flatMap_eq_nil_iff.mpr fun r hr => if_neg fun heq => hnot r hr heq.1
  · exact absurd hreader (hnot r (List.mem_of_getElem? hr))

theorem Shared.serial_step {a : Step α} (h : Shared m) (hsuccessive : m.Successive a)
    (hserial : Serial c o m) (hstep : m.step a = some m') : Serial c o m' :=
  hserial.step h.toSound hsuccessive.aloneAt (h.toSound.moves (h.readsOwn a) hstep)

theorem Shared.step {a : Step α} (h : Shared m) (hsuccessive : m.Successive a)
    (hstep : m.step a = some m') : Shared m' where
  toSound := h.toSound.step (h.readsOwn a) hstep
  placed := (h.placed.happens hstep).1
  serial := by
    intro c hc
    by_cases hlt : c < m.nodes.length
    · obtain ⟨o, hserial⟩ := h.serial c hlt
      exact ⟨o, h.serial_step hsuccessive hserial hstep⟩
    · rcases (h.placed.happens hstep).2.nodes_length with hlength | ⟨reader, rfl⟩
      · exact absurd (hlength ▸ hc) hlt
      · obtain rfl : c = m.nodes.length := by
          rw [List.length_append, List.length_singleton] at hc
          omega
        exact ⟨_, h.serial_clone⟩

/-! ## The threads of `from` -/

/-- What a step does to the threads of a `from`: nothing, a call of the function, or the end of a
thread that sleeps. -/
inductive ThreadStep (m : Streams α) (a : Step α) (m' : Streams α) : Prop
  | still : m.calls a = false → m'.data = m.data → m'.signals = m.signals →
      m'.signal = m.signal → ThreadStep m a m'
  | call (signal : Signal) : m.calls a = true → m.signals[m.signal]? ≠ some .sleeping →
      m'.signals = m.signals ++ [signal] → m'.signal = m.signals.length →
      (signal = .fulfilled ∧ (∃ x, m'.data = m.data ++ [x]) ∨
        signal ≠ .fulfilled ∧ m'.data = m.data) → ThreadStep m a m'
  | result (k : ℕ) (signal : Signal) : m.calls a = false → m.signals[k]? = some .sleeping →
      m'.signals = m.signals.set k signal → m'.signal = m.signal →
      (signal = .fulfilled ∧ (∃ x, m'.data = m.data ++ [x]) ∨
        signal = .rejected ∧ m'.data = m.data) → ThreadStep m a m'

theorem step_threads {a : Step α} (hsource : m.source = .fromCreate)
    (hstep : m.step a = some m') : ThreadStep m a m' ∧ m'.source = .fromCreate := by
  have hbounded : m.source.isPushBounded = false := by rw [hsource]; rfl
  cases step_cases hstep with
  | clone reader ha _ _ heq =>
    subst ha heq
    exact ⟨.still rfl rfl rfl rfl, hsource⟩
  | start reader op ha _ heq =>
    subst ha heq
    exact ⟨.still rfl rfl rfl rfl, hsource⟩
  | turn i reply r call ha hr hst hturn =>
    have hcalls : m.calls a = ((m.turnOf r.reader call).feeds && m.callsSource) := by
      simp [ha, calls, hr, hst]
    -- only a turn that feeds calls the source
    cases hfeeds : (m.turnOf r.reader call).feeds with
    | false =>
      have hsame := doTurn_same hbounded hfeeds hturn
      exact ⟨.still (by simp [hcalls, hfeeds]) hsame.data hsame.signals hsame.signal,
        hsame.source.trans hsource⟩
    | true =>
      obtain ⟨q, fed, status, hq, rfl⟩ := doTurn_feeds hfeeds hturn
      simp only [Streams.feed, hsource] at hq
      split at hq
      -- the thread of the source is asleep, and is waited for
      · rename_i hsleeping
        obtain ⟨rfl, -⟩ := Prod.mk.inj (Option.some.inj hq)
        exact ⟨.still (by simp [hcalls, callsSource, hsource, hsleeping]) rfl rfl rfl, hsource⟩
      · rename_i hawake
        have hcall : m.calls a = true := by simp [hcalls, hfeeds, callsSource, hsource, hawake]
        cases reply with
        | later =>
          obtain ⟨rfl, -⟩ := Prod.mk.inj (Option.some.inj hq)
          exact ⟨.call .sleeping hcall hawake rfl rfl (.inr ⟨by decide, rfl⟩), hsource⟩
        | gives x =>
          obtain ⟨rfl, -⟩ := Prod.mk.inj (Option.some.inj hq)
          exact ⟨.call .fulfilled hcall hawake rfl rfl (.inl ⟨rfl, x, rfl⟩), hsource⟩
        | raises =>
          obtain ⟨rfl, -⟩ := Prod.mk.inj (Option.some.inj hq)
          exact ⟨.call .rejected hcall hawake rfl rfl (.inr ⟨by decide, rfl⟩), hsource⟩
  | tested i r x call ha _ _ hturn =>
    have hsame := doTurn_same hbounded (tested_feeds call x) hturn
    exact ⟨.still (by rw [ha]; rfl) hsame.data hsame.signals hsame.signal,
      hsame.source.trans hsource⟩
  | resumed i r k call ha _ _ heq =>
    subst ha heq
    exact ⟨.still rfl rfl rfl rfl, hsource⟩
  | fails i r ha _ _ heq =>
    subst heq
    exact ⟨.still (by rcases ha with rfl | rfl | rfl <;> rfl) rfl rfl rfl, hsource⟩
  | source ha _ =>
    cases a with
    | result k reply =>
      simp only [Streams.step, Streams.result] at hstep
      split at hstep
      · rename_i hk
        cases reply with
        | later => cases hstep
        | gives x =>
          cases hstep
          exact ⟨.result k .fulfilled rfl hk.2 rfl rfl (.inl ⟨rfl, x, rfl⟩), hsource⟩
        | raises =>
          cases hstep
          exact ⟨.result k .rejected rfl hk.2 rfl rfl (.inr ⟨rfl, rfl⟩), hsource⟩
      · cases hstep
    | wakeupClose =>
      simp only [Streams.step, Streams.wakeupClose] at hstep
      split at hstep
      · cases hstep
      · cases hstep
        exact ⟨.still rfl rfl rfl rfl, hsource⟩
    | cancelPush j =>
      simp only [Streams.step, Streams.cancelPush] at hstep
      split at hstep
      · cases hstep
        exact ⟨.still rfl rfl rfl rfl, hsource⟩
      · cases hstep
    | push _ | pushBounded _ | resize _ | closeBounded | runPushCallbacks _ =>
      simp [Streams.step, Streams.push, Streams.pushBounded, Streams.resize,
        Streams.closeBounded, Streams.runPushCallbacks, hsource] at hstep
    | _ => cases ha

theorem consume_data {node : ℕ} : m.data <+: (m.consume reader node).data := by
  unfold Streams.consume
  split
  · dsimp only
    split
    · split
      · exact List.prefix_refl _
      · exact List.prefix_append _ _
    · exact List.prefix_refl _
  · exact List.prefix_refl _

theorem doTurn_data {i : ℕ} {call : Call α} {reply : Reply α} {t : Turn α}
    (h : m.doTurn i reader call reply t = some m') :
    m.data <+: m'.data ∧ m.nodes.length ≤ m'.nodes.length := by
  cases t with
  | feed next | feedAvailable next acc =>
    obtain ⟨⟨q, fed⟩, hq, rfl⟩ := Option.map_eq_some_iff.mp h
    have hnodes := congrArg List.length (appends_feed hq).nodes
    cases fed <;> exact ⟨(appends_feed hq).data, hnodes.ge⟩
  | pass node x removes next =>
    cases h
    dsimp only
    split
    · exact ⟨consume_data, consume_nodes_length.ge⟩
    · exact ⟨List.prefix_refl _, le_rfl⟩
  | test x | «return» a | empty =>
    cases h
    exact ⟨List.prefix_refl _, le_rfl⟩

/-- The queue grows at its end and no clone goes away, whatever happens. -/
theorem step_data {a : Step α} (hstep : m.step a = some m') :
    m.data <+: m'.data ∧ m.nodes.length ≤ m'.nodes.length := by
  cases step_cases hstep with
  | turn i reply r call _ _ _ hturn => exact doTurn_data hturn
  | tested i r x call _ _ _ hturn => exact doTurn_data hturn
  | source _ happends => exact ⟨happends.data, (congrArg List.length happends.nodes).ge⟩
  | clone reader _ _ _ heq =>
    subst heq
    exact ⟨List.prefix_refl _, by simp⟩
  | start _ _ _ _ heq | resumed _ _ _ _ _ _ _ heq | fails _ _ _ _ _ heq =>
    subst heq
    exact ⟨List.prefix_refl _, le_rfl⟩

end Streams

/-! ## `parse` and the calls of the source -/

/-- A call of `parse`: the clone, the node that it was at, and whether its function is still
running. -/
structure ParseCall where
  reader : ℕ
  node : ℕ
  live : Bool

/-- A stream with its clones.  `calls` logs the calls of the function of a `from`, with the position
of the element that is asked for: the call `k` has the promise `signals[k + 1]`. -/
structure Observed (α : Type) where
  streams : Streams α
  calls : List ℕ
  parses : List ParseCall

namespace Observed

open Streams

variable {s s' : Observed α}

inductive Step (α : Type)
  | step (a : Streams.Step α)
  | parse (reader : ℕ)
  /-- the function of the `parse` with the number `p` ends with a result -/
  | parseReturns (p : ℕ)
  /-- the function of the `parse` with the number `p` fails -/
  | parseFails (p : ℕ)

def init (m : Streams α) : Observed α := ⟨m, [], []⟩

/-- `parse s f`; a bounded push stream is refused. -/
def parse (s : Observed α) (reader : ℕ) : Option (Observed α) :=
  if s.streams.source.isPushBounded then none
  else some { s with parses := s.parses ++ [⟨reader, s.streams.node reader, true⟩] }

/-- The handler of `parse`: `s.node <- node`. -/
def parseFails (s : Observed α) (p : ℕ) : Option (Observed α) :=
  match s.parses[p]? with
  | some ⟨reader, node, true⟩ => some { s with
      streams := { s.streams with nodes := s.streams.nodes.set reader node }
      parses := s.parses.set p ⟨reader, node, false⟩ }
  | _ => none

def step (s : Observed α) : Step α → Option (Observed α)
  | .step a => (s.streams.step a).map fun m => { s with
      streams := m
      calls := if s.streams.calls a then s.calls ++ [s.streams.last] else s.calls }
  | .parse reader => if reader < s.streams.nodes.length then s.parse reader else none
  | .parseReturns p =>
    match s.parses[p]? with
    | some ⟨reader, node, true⟩ => some { s with parses := s.parses.set p ⟨reader, node, false⟩ }
    | _ => none
  | .parseFails p => s.parseFails p

/-- The threads of a `from`, one for each call and the first one: only the current one may sleep,
and a call that has not failed has given its element, or is still to give the next one. -/
structure Threads (s : Observed α) : Prop where
  source : s.streams.source = .fromCreate
  length : s.streams.signals.length = s.calls.length + 1
  current : s.streams.signal + 1 = s.streams.signals.length
  sleeping : ∀ k, s.streams.signals[k]? = some .sleeping → k = s.streams.signal
  calls : ∀ k p : ℕ, s.calls[k]? = some p → s.streams.signals[k + 1]? = some .rejected ∨
    (s.streams.signals[k + 1]? = some .sleeping ∧ p = s.streams.last) ∨ p < s.streams.last

theorem threads_from : Threads (init («from» : Streams α)) where
  source := rfl
  length := rfl
  current := rfl
  sleeping := fun k hk => by cases k <;> simp [init, «from», fromSource] at hk
  calls := fun k p hk => by simp [init] at hk

theorem Threads.of_eq (h : Threads s) (hdata : s'.streams.data = s.streams.data)
    (hsignals : s'.streams.signals = s.streams.signals)
    (hsignal : s'.streams.signal = s.streams.signal)
    (hsource : s'.streams.source = s.streams.source)
    (hcalls : s'.calls = s.calls) : Threads s' := by
  have hlast : s'.streams.last = s.streams.last := by rw [last, last, hdata]
  refine ⟨hsource.trans h.source, ?_, ?_, ?_, ?_⟩
  · rw [hsignals, hcalls, h.length]
  · rw [hsignals, hsignal, h.current]
  · rw [hsignals, hsignal]
    exact h.sleeping
  · rw [hsignals, hcalls, hlast]
    exact h.calls

theorem Threads.none_sleeps (h : Threads s)
    (hawake : s.streams.signals[s.streams.signal]? ≠ some .sleeping) :
    ∀ k : ℕ, s.streams.signals[k]? ≠ some .sleeping :=
  fun k hk => hawake (h.sleeping k hk ▸ hk)

theorem Threads.step {a : Streams.Step α} {m : Streams α} (h : Threads s)
    (hm : s.streams.step a = some m) : Threads { s with
      streams := m, calls := if s.streams.calls a then s.calls ++
        [s.streams.last] else s.calls } := by
  have hlength := h.length
  have hcurrent := h.current
  obtain ⟨hthreads, hsource⟩ := step_threads h.source hm
  cases hthreads with
  | still hcalls hdata hsignals hsignal =>
    exact h.of_eq hdata hsignals hsignal (hsource.trans h.source.symm) (by simp [hcalls])
  | call signal hcalls hawake hsignals hsignal hresult =>
    -- no thread sleeps when the source is called
    have hnone := h.none_sleeps hawake
    have hlast : s.streams.last ≤ m.last := (step_data hm).1.length_le
    rw [if_pos hcalls]
    refine ⟨hsource, ?_, ?_, fun k hk => ?_, fun k p hp => ?_⟩
    · simp [hsignals, hlength]
    · simp [hsignals, hsignal]
    · dsimp only at hk
      rw [hsignals] at hk
      rcases getElem?_append_singleton hk with hk | ⟨rfl, -⟩
      · exact absurd hk (hnone k)
      · exact hsignal.symm
    · dsimp only at hp ⊢
      rw [hsignals]
      rcases getElem?_append_singleton hp with hp | ⟨rfl, rfl⟩
      · have hlt : k + 1 < s.streams.signals.length := by
          have hk := (List.getElem?_eq_some_iff.mp hp).1
          omega
        rw [List.getElem?_append_left hlt]
        rcases h.calls k p hp with hk | ⟨hk, -⟩ | hk
        · exact .inl hk
        · exact absurd hk (hnone _)
        · exact .inr (.inr (hk.trans_le hlast))
      · rw [← hlength, List.getElem?_concat_length]
        rcases hresult with ⟨-, x, hdata⟩ | ⟨hne, hdata⟩
        · exact .inr (.inr (by simp [last, hdata]))
        · cases signal with
          | fulfilled => exact absurd rfl hne
          | rejected => exact .inl rfl
          | sleeping => exact .inr (.inl ⟨rfl, by rw [last, last, hdata]⟩)
  | result k signal hcalls hk hsignals hsignal hresult =>
    -- the thread that ends is the only one that sleeps
    obtain rfl := h.sleeping k hk
    have hlt := (List.getElem?_eq_some_iff.mp hk).1
    have hlast : s.streams.last ≤ m.last := (step_data hm).1.length_le
    rw [hcalls]
    refine ⟨hsource, ?_, ?_, fun j hj => ?_, fun j p hp => ?_⟩
    · simp [hsignals, hlength]
    · simp [hsignals, hsignal, hcurrent]
    · dsimp only at hj ⊢
      rw [hsignals] at hj
      by_contra hne
      rw [hsignal] at hne
      rw [List.getElem?_set_ne (Ne.symm hne)] at hj
      exact hne (h.sleeping j hj)
    · dsimp only at hp ⊢
      rw [hsignals]
      by_cases hj : s.streams.signal = j + 1
      · rw [← hj, List.getElem?_set_self hlt]
        rcases h.calls j p hp with hrejected | ⟨-, rfl⟩ | hless
        · rw [← hj, hk] at hrejected
          cases hrejected
        · rcases hresult with ⟨-, x, hdata⟩ | ⟨rfl, -⟩
          · exact .inr (.inr (by simp [last, hdata]))
          · exact .inl rfl
        · exact .inr (.inr (hless.trans_le hlast))
      · rw [List.getElem?_set_ne hj]
        rcases h.calls j p hp with hrejected | ⟨hsleeping, -⟩ | hless
        · exact .inl hrejected
        · exact absurd (h.sleeping _ hsleeping).symm hj
        · exact .inr (.inr (hless.trans_le hlast))

theorem Threads.observed_step {b : Step α} (h : Threads s) (hstep : s.step b = some s') :
    Threads s' := by
  cases b with
  | step a =>
    obtain ⟨m, hm, rfl⟩ := Option.map_eq_some_iff.mp hstep
    exact h.step hm
  | parse reader =>
    simp only [Observed.step, Observed.parse] at hstep
    split at hstep
    · split at hstep
      · cases hstep
      · cases hstep
        exact h.of_eq rfl rfl rfl rfl rfl
    · cases hstep
  | parseReturns p =>
    simp only [Observed.step] at hstep
    split at hstep
    · cases hstep
      exact h.of_eq rfl rfl rfl rfl rfl
    · cases hstep
  | parseFails p =>
    simp only [Observed.step, Observed.parseFails] at hstep
    split at hstep
    · cases hstep
      exact h.of_eq rfl rfl rfl rfl rfl
    · cases hstep

/-- What a run keeps of a call of `parse`: the node it was at, and the queue up to now. -/
structure Remembers (reader node p : ℕ) (data : List (Option α)) (s : Observed α) : Prop where
  parse : ∃ live, s.parses[p]? = some ⟨reader, node, live⟩
  reader_lt : reader < s.streams.nodes.length
  data : data <+: s.streams.data

theorem Remembers.step {reader node p : ℕ} {data : List (Option α)} {b : Step α}
    (h : Remembers reader node p data s) (hstep : s.step b = some s') :
    Remembers reader node p data s' := by
  obtain ⟨live, hp⟩ := h.parse
  -- The entry stays when the one of some call is marked as over.
  have hset : ∀ {reader' node' p' : ℕ}, s.parses[p']? = some ⟨reader', node', true⟩ →
      ∃ live, (s.parses.set p' ⟨reader', node', false⟩)[p]? = some ⟨reader, node, live⟩ := by
    intro reader' node' p' hp'
    by_cases heq : p' = p
    · subst heq
      obtain ⟨rfl, rfl, rfl⟩ : reader = reader' ∧ node = node' ∧ live = true := by
        simpa using Option.some.inj (hp.symm.trans hp')
      exact ⟨false, List.getElem?_set_self (List.getElem?_eq_some_iff.mp hp).1⟩
    · exact ⟨live, by rw [List.getElem?_set_ne heq, hp]⟩
  cases b with
  | step a =>
    obtain ⟨m, hm, rfl⟩ := Option.map_eq_some_iff.mp hstep
    obtain ⟨hdata, hnodes⟩ := step_data hm
    exact ⟨h.parse, h.reader_lt.trans_le hnodes, h.data.trans hdata⟩
  | parse reader' =>
    simp only [Observed.step, Observed.parse] at hstep
    split at hstep
    · split at hstep
      · cases hstep
      · cases hstep
        refine ⟨⟨live, ?_⟩, h.reader_lt, h.data⟩
        rw [List.getElem?_append_left (List.getElem?_eq_some_iff.mp hp).1, hp]
    · cases hstep
  | parseReturns p' =>
    simp only [Observed.step] at hstep
    split at hstep
    · rename_i hp'
      cases hstep
      exact ⟨hset hp', h.reader_lt, h.data⟩
    · cases hstep
  | parseFails p' =>
    simp only [Observed.step, Observed.parseFails] at hstep
    split at hstep
    · rename_i hp'
      cases hstep
      exact ⟨hset hp', h.reader_lt.trans_eq (List.length_set ..).symm, h.data⟩
    · cases hstep

/-- The stream is back at the node it was at when `parse` was called. -/
theorem parse_restores {s₁ s₂ : Observed α} {reader : ℕ} (hparse : s.step (.parse reader) = some s₁)
    (hreach : Reach step (fun _ _ => True) s₁ s₂)
    (hfails : s₂.step (.parseFails s.parses.length) = some s') :
    s'.streams.node reader = s.streams.node reader ∧
      (∀ c ≠ reader, s'.streams.node c = s₂.streams.node c) ∧
      s'.streams.data = s₂.streams.data ∧ s.streams.data <+: s₂.streams.data := by
  have hstart : Remembers reader (s.streams.node reader) s.parses.length s.streams.data s₁ := by
    simp only [step, Observed.parse] at hparse
    split at hparse
    · rename_i hlt
      split at hparse
      · cases hparse
      · cases hparse
        exact ⟨⟨true, List.getElem?_concat_length⟩, hlt, List.prefix_refl _⟩
    · cases hparse
  have h := hreach.invariant hstart fun _ _ _ hq _ hstep => hq.step hstep
  obtain ⟨live, hp⟩ := h.parse
  simp only [step, Observed.parseFails] at hfails
  split at hfails
  · rename_i reader' node hp'
    obtain ⟨rfl, rfl, rfl⟩ : reader = reader' ∧ s.streams.node reader = node ∧ live = true := by
      simpa using Option.some.inj (hp.symm.trans hp')
    cases hfails
    refine ⟨?_, fun c hc => ?_, rfl, h.data⟩
    · rw [Streams.node, List.getElem?_set_self h.reader_lt]
      rfl
    · exact node_set_ne (Ne.symm hc)
  · cases hfails

theorem reach_serial_clone {m m' : Streams α} {c o : ℕ} (h : Shared m) (hserial : Serial c o m)
    (hreach : Reach Streams.step Successive m m') : Shared m' ∧ Serial c o m' :=
  hreach.invariant (P := fun q => Shared q ∧ Serial c o q) ⟨h, hserial⟩
    fun _ _ _ hq hsuccessive hstep =>
      ⟨hq.1.step hsuccessive hstep, hq.1.serial_step hsuccessive hq.2 hstep⟩

/-- For a stream of `from`, `from_direct` or `create`:

* if the removing reads of each clone follow one another, what they pass on a clone are the elements
  from the node at which it was made to its head, and what a read returns is what it has passed;
* `from_create` is called only when no thread sleeps, and again for the same position only after
  calls that have failed;
* a `parse` whose function fails leaves the stream at the node it was at when `parse` was called,
  and the queue and the other clones as they are. -/
theorem clones_share_elements {init : Streams α}
    (hinit : init = «from» ∨ init = fromDirect ∨ init = create) :
    (∀ m, Reach Streams.step Successive init m →
      m.removedFrom 0 = m.elements.take (m.node 0) ∧
      (∀ r ∈ m.reads, r.taken <+: m.elements.drop r.start ∧
        ∀ a, r.status = .returned a → m.Answered r.start r.taken r.op a) ∧
      ∀ reader m₁ m', m.step (.clone reader) = some m₁ → Reach Streams.step Successive m₁ m' →
        m.elements <+: m'.elements ∧ m'.removedFrom m.nodes.length =
          (m'.elements.take (m'.node m.nodes.length)).drop (m.node reader)) ∧
    (∀ s a s', init = «from» → Reach step (fun _ _ => True) (Observed.init init) s →
      s.step (.step a) = some s' → s.streams.calls a = true →
      (∀ k : ℕ, s.streams.signals[k]? ≠ some .sleeping) ∧
        ∀ k, s.calls[k]? = some s.streams.last → s.streams.signals[k + 1]? = some .rejected) ∧
    (∀ s s₁ s₂ s' reader, Reach step (fun _ _ => True) (Observed.init init) s →
      s.step (.parse reader) = some s₁ → Reach step (fun _ _ => True) s₁ s₂ →
      s₂.step (.parseFails s.parses.length) = some s' →
      s'.streams.node reader = s.streams.node reader ∧
        (∀ c ≠ reader, s'.streams.node c = s₂.streams.node c) ∧
        s'.streams.data = s₂.streams.data ∧ s.streams.data <+: s₂.streams.data) := by
  have hstart : Shared init ∧ Serial 0 0 init := by
    rcases hinit with rfl | rfl | rfl <;>
      exact ⟨shared_fromSource _ _, serial_fromSource _ _⟩
  refine ⟨fun m hreach => ?_, fun s a s' hfrom hreach hstep hcalls => ?_,
    fun s s₁ s₂ s' reader _ hparse hreach hfails => parse_restores hparse hreach hfails⟩
  · obtain ⟨h, hserial⟩ := reach_serial_clone hstart.1 hstart.2 hreach
    refine ⟨hserial.removed, fun r hr => ⟨(h.reads r hr).taken, fun a hst => ?_⟩,
      fun reader m₁ m' hclone hreach' => ?_⟩
    · have hstatus := (h.reads r hr).status
      rwa [hst] at hstatus
    · have h₁ := h.step (a := .clone reader) trivial hclone
      have hclone₁ : Serial m.nodes.length (m.node reader) m₁ ∧ m₁.elements = m.elements := by
        -- the step is a clone, so that the other cases do not arise
        cases Streams.step_cases hclone with
        | clone reader' ha _ _ heq =>
          cases ha
          subst heq
          exact ⟨h.serial_clone, rfl⟩
        | fails i r ha _ _ _ => simp at ha
        | source ha _ => cases ha
        | start _ _ ha _ _ | turn _ _ _ _ ha _ _ _ | tested _ _ _ _ ha _ _ _
        | resumed _ _ _ _ ha _ _ _ => cases ha
      obtain ⟨-, hserial'⟩ := reach_serial_clone h₁ hclone₁.1 hreach'
      have hgrows : m₁.elements <+: m'.elements :=
        (hreach'.invariant (P := fun q => Shared q ∧ m₁.elements <+: q.elements)
          ⟨h₁, List.prefix_refl _⟩ fun q b q' hq hsuccessive hstep =>
            ⟨hq.1.step hsuccessive hstep,
              hq.2.trans ((hq.1.placed.happens hstep).2.grows hq.1.placed).elements⟩).2
      exact ⟨hclone₁.2 ▸ hgrows, hserial'.removed⟩
  · subst hfrom
    have h : Threads s := hreach.invariant threads_from fun _ _ _ hq _ hs => hq.observed_step hs
    obtain ⟨m, hm, -⟩ := Option.map_eq_some_iff.mp hstep
    cases (step_threads h.source hm).1 with
    | still hnot _ _ _ => simp [hcalls] at hnot
    | result _ _ hnot _ _ _ _ => simp [hcalls] at hnot
    | call signal _ hawake _ _ _ =>
      have hnone := h.none_sleeps hawake
      refine ⟨hnone, fun k hk => ?_⟩
      -- no thread sleeps, and the last node is not behind itself
      rcases h.calls k _ hk with hrejected | ⟨hsleeping, -⟩ | hless
      · exact hrejected
      · exact absurd hsleeping (hnone _)
      · exact absurd hless (lt_irrefl _)

/-- The second call of the function of a `from` fails during a `nget 2`, and a `get` follows. -/
def ngetFails : List (Streams.Step ℕ) :=
  [.start 0 (.nget 2), .turn 0 (.gives (some 10)), .turn 0 .later, .turn 0 .raises, .start 0 .get,
    .turn 1 (.gives (some 20)), .turn 1 .later]

theorem reach_successive {m m' : Streams α} (labels : List (Streams.Step α))
    (h : replay (checked Streams.step fun m a => decide (m.Successive a)) m labels = some m') :
    Reach Streams.step Successive m m' :=
  (reach_of_checked labels h).mono fun _ _ hsuccessive => of_decide_eq_true hsuccessive

/-- The first element has left the stream, and no read has returned it. -/
theorem failed_nget_removes : ∃ m : Streams ℕ, Reach Streams.step Successive «from» m ∧
    m.elements = [10, 20] ∧ m.reads = [⟨0, .nget 2, 0, [10], .failed⟩,
      ⟨0, .get, 1, [20], .returned (.option (some 20))⟩] :=
  ⟨_, reach_successive ngetFails rfl, rfl, rfl⟩

/-- A clone made behind the first element of a stream reads the second one. -/
theorem clones_share_elements_two : ∃ m m₁ m' : Streams ℕ,
    Reach Streams.step Successive create m ∧ m.step (.clone 0) = some m₁ ∧
      Reach Streams.step Successive m₁ m' ∧ m.removedFrom 0 = m.elements.take (m.node 0) ∧
      m'.removedFrom 1 = (m'.elements.take (m'.node 1)).drop 1 ∧ m'.removedFrom 1 = [6] := by
  obtain ⟨m, hm⟩ : ∃ m, replay (checked Streams.step fun m a => decide (m.Successive a)) create
      [.push (some 5), .push (some 6), .start 0 .get, .turn 0 .later] = some m := ⟨_, rfl⟩
  have hreach := reach_successive _ hm
  obtain ⟨m₁, hm₁⟩ : ∃ m₁, m.step (.clone 0) = some m₁ := by
    cases hm.symm.trans rfl
    exact ⟨_, rfl⟩
  obtain ⟨m', hm'⟩ : ∃ m', replay (checked Streams.step fun m a => decide (m.Successive a)) m₁
      [.start 1 .get, .turn 1 .later] = some m' := by
    cases hm.symm.trans rfl
    cases hm₁.symm.trans rfl
    exact ⟨_, rfl⟩
  have hreach' := reach_successive _ hm'
  obtain ⟨hzero, -, hclone⟩ := (clones_share_elements (.inr (.inr rfl))).1 m hreach
  have hremoved := (hclone 0 m₁ m' hm₁ hreach').2
  refine ⟨m, m₁, m', hreach, hm₁, hreach', hzero, ?_⟩
  cases hm.symm.trans rfl
  cases hm₁.symm.trans rfl
  cases hm'.symm.trans rfl
  exact ⟨hremoved, rfl⟩

end Observed

end Lwt
