import Lwt.Stream.Runs

/-!
# Where the reads stand

A read never goes past the end marker, and one that removes elements never goes past the head
of its clone.  This holds of `nget` and `get_available_up_to` as well, whatever they find in the
head (`Placed`), and gives for every step what it does to the stream: it changes only the reads,
makes a clone, calls `feed` for a read at the last node, passes an element, or is a step of the
source (`Happens`).
-/

namespace Lwt

open Table Transition

variable {α : Type}

/-- The node that the call is at; `is_empty` looks at the head. -/
def Call.node? : Call α → Option ℕ
  | .isEmpty => none
  | .peekRec node | .getRec node | .nextRec node | .ngetRec node _ _ | .npeekRec node _ _
  | .getWhileRec node _ _ | .getWhileSRec node _ _ | .toListRec node _ | .junk node
  | .junkFed node | .njunkRec node _ | .getAvailableRec node _ | .getAvailableUpToRec node _ _ =>
    some node

/-- The call removes what it passes from the stream. -/
def Call.removes : Call α → Bool
  | .peekRec _ | .isEmpty | .npeekRec _ _ _ => false
  | _ => true

def Call.tests : Call α → Bool
  | .getWhileRec _ _ _ | .getWhileSRec _ _ _ => true
  | _ => false

/-- The turn removes the element in the node `head`. -/
def Turn.consumes (head : ℕ) : Turn α → Bool
  | .pass node _ true _ => decide (node = head)
  | _ => false

/-- The promise that the read waits for, and the call that it goes on with. -/
def ReadStatus.waitsFor : ReadStatus α → Option (ℕ × Call α)
  | .waiting k call => some (k, call)
  | _ => none

namespace Streams

variable {m m' q : Streams α} {reader node i k : ℕ} {call next : Call α} {x : α}

/-- The node at which a read of the clone `reader` stands. -/
def position (m : Streams α) (reader : ℕ) (call : Call α) : ℕ :=
  call.node?.getD (m.node reader)

/-- The step removes the element at the head of its clone. -/
def consumes (m : Streams α) : Step α → Bool
  | .turn i _ => (m.reads[i]?).any fun r =>
    match r.status with
    | .running call => (m.turnOf r.reader call).consumes (m.node r.reader)
    | _ => false
  | .answer i raises => (m.reads[i]?).any fun r =>
    match r.status with
    | .testing x call => !raises && (call.tested x).consumes (m.node r.reader)
    | _ => false
  | _ => false

/-! ## The invariant -/

/-- The call is not past the end marker, and not past the head if it removes. -/
structure CallPlaced (m : Streams α) (reader : ℕ) (call : Call α) : Prop where
  le : m.position reader call ≤ m.elements.length
  behind : call.removes = true → m.position reader call ≤ m.node reader

def StatusPlaced (m : Streams α) (reader : ℕ) : ReadStatus α → Prop
  | .running call | .waiting _ call => m.CallPlaced reader call
  | .testing x call => m.CallPlaced reader call ∧ call.tests = true ∧
      m.elements[m.position reader call]? = some x
  | _ => True

structure Placed (m : Streams α) : Prop where
  heads : ∀ i ∈ m.nodes, i ≤ m.elements.length
  readers : ∀ r ∈ m.reads, r.reader < m.nodes.length
  reads : ∀ r ∈ m.reads, m.StatusPlaced r.reader r.status

theorem Placed.node_le (hp : Placed m) (hlt : reader < m.nodes.length) :
    m.node reader ≤ m.elements.length := by
  rw [Streams.node, List.getElem?_eq_getElem hlt, Option.getD_some]
  exact hp.heads _ (List.getElem_mem hlt)

theorem placed_fromSource (source : Source α) (signal : Signal) :
    Placed (fromSource source signal) :=
  ⟨by simp [fromSource], by simp [fromSource], by simp [fromSource]⟩

/-- A call stays where it is while the queue grows and the head moves on. -/
theorem CallPlaced.grows (h : m.CallPlaced reader call) (hgrows : Grows m m')
    (hlt : reader < m.nodes.length) (hhead : m'.node reader ≤ m'.elements.length) :
    m'.CallPlaced reader call := by
  have hnode := hgrows.nodes reader hlt
  have hle := h.le
  have hbehind := h.behind
  unfold position at hle hbehind
  constructor
  · unfold position
    cases hn : call.node? with
    | none => exact hhead
    | some n =>
      rw [hn] at hle
      exact hle.trans hgrows.elements.length_le
  · intro hremoves
    have hb := hbehind hremoves
    unfold position
    cases hn : call.node? with
    | none => exact le_rfl
    | some n =>
      rw [hn] at hb
      exact hb.trans hnode

theorem StatusPlaced.grows {status : ReadStatus α} (h : m.StatusPlaced reader status)
    (hgrows : Grows m m') (hlt : reader < m.nodes.length)
    (hhead : m'.node reader ≤ m'.elements.length) : m'.StatusPlaced reader status := by
  cases status with
  | running call | waiting k call => exact CallPlaced.grows h hgrows hlt hhead
  | testing x call =>
    obtain ⟨hcall, htests, hx⟩ := h
    refine ⟨hcall.grows hgrows hlt hhead, htests, ?_⟩
    have hposition : m'.position reader call = m.position reader call := by
      cases call <;> first | rfl | simp [Call.tests] at htests
    rw [hposition]
    exact hgrows.getElem? hx
  | returned a | empty | failed => trivial

/-! ## One turn -/

/-- What a turn of the call `call` does, as far as the queue is concerned. -/
def TurnPlaced (m : Streams α) (reader : ℕ) (call : Call α) : Turn α → Prop
  | .feed next | .feedAvailable next _ => m.CallPlaced reader next ∧ m.position reader next = m.last
  | .test x => call.tests = true ∧ m.elements[m.position reader call]? = some x
  | .pass node x removes next => m.position reader call = node ∧ node < m.elements.length ∧
      (removes = true → node ≤ m.node reader) ∧
      (removes = true → node = m.node reader → m.elements[node]? = some x) ∧
      ∀ c, next = .inl c → c.node? = some (node + 1) ∧ c.removes = removes
  | .return _ | .empty => True

theorem turn_placed (hcall : m.CallPlaced reader call) (hhead : m.node reader ≤ m.elements.length) :
    m.TurnPlaced reader call (m.turnOf reader call) := by
  have hle := hcall.le
  have hbehind := hcall.behind
  -- The element in the node that the call is at.
  have hdata : ∀ {n x}, n ≤ m.elements.length → m.nodeData n = some x → m.elements[n]? = some x :=
    fun hn hx => nodeData_eq_some hn hx
  have hlt : ∀ {n x}, n ≤ m.elements.length → m.nodeData n = some x → n < m.elements.length :=
    fun hn hx => (List.getElem?_eq_some_iff.mp (hdata hn hx)).1
  cases call with
  | peekRec node =>
    simp only [turnOf, peekRec]
    split
    · exact ⟨hcall, by assumption⟩
    · trivial
  | isEmpty =>
    simp only [turnOf, isEmpty]
    split
    · exact ⟨hcall, by assumption⟩
    · trivial
  | getRec node | nextRec node =>
    simp only [turnOf, getRec, nextRec]
    split
    · exact ⟨hcall, by assumption⟩
    · split
      · rename_i x hx
        exact ⟨rfl, hlt hle hx, fun _ => hbehind rfl, fun _ _ => hdata hle hx, by simp⟩
      · trivial
  | ngetRec node acc n =>
    simp only [turnOf, ngetRec]
    split
    · trivial
    · split
      · exact ⟨hcall, by assumption⟩
      · split
        · rename_i x hx
          have hnode : node ≤ m.node reader := hbehind rfl
          exact ⟨rfl, hnode.trans_lt (hlt hhead hx), fun _ => hnode, fun _ heq =>
            heq ▸ hdata hhead hx,
            by rintro c ⟨rfl⟩; exact ⟨rfl, rfl⟩⟩
        · trivial
  | getAvailableUpToRec node acc n =>
    simp only [turnOf, getAvailableUpToRec]
    split
    · trivial
    · split
      · exact ⟨hcall, by assumption⟩
      · split
        · rename_i x hx
          have hnode : node ≤ m.node reader := hbehind rfl
          exact ⟨rfl, hnode.trans_lt (hlt hhead hx), fun _ => hnode, fun _ heq =>
            heq ▸ hdata hhead hx,
            by rintro c ⟨rfl⟩; exact ⟨rfl, rfl⟩⟩
        · trivial
  | npeekRec node acc n =>
    simp only [turnOf, npeekRec]
    split
    · trivial
    · split
      · exact ⟨hcall, by assumption⟩
      · split
        · rename_i x hx
          exact ⟨rfl, hlt hle hx, by simp, by simp, by rintro c ⟨rfl⟩; exact ⟨rfl, rfl⟩⟩
        · trivial
  | getWhileRec node acc f | getWhileSRec node acc f =>
    simp only [turnOf, getWhileRec, getWhileSRec]
    split
    · exact ⟨hcall, by assumption⟩
    · split
      · rename_i x hx
        exact ⟨rfl, hdata hle hx⟩
      · trivial
  | toListRec node acc | getAvailableRec node acc =>
    simp only [turnOf, toListRec, getAvailableRec]
    split
    · exact ⟨hcall, by assumption⟩
    · split
      · rename_i x hx
        exact ⟨rfl, hlt hle hx, fun _ => hbehind rfl, fun _ _ => hdata hle hx,
          by rintro c ⟨rfl⟩; exact ⟨rfl, rfl⟩⟩
      · trivial
  | junk node =>
    simp only [turnOf, junk, junkFed]
    split
    · exact ⟨⟨hcall.le, hcall.behind⟩, by assumption⟩
    · split
      · rename_i x hx
        exact ⟨rfl, hlt hle hx, fun _ => hbehind rfl, fun _ _ => hdata hle hx, by simp⟩
      · trivial
  | junkFed node =>
    simp only [turnOf, junkFed]
    split
    · rename_i x hx
      exact ⟨rfl, hlt hle hx, fun _ => hbehind rfl, fun _ _ => hdata hle hx, by simp⟩
    · trivial
  | njunkRec node n =>
    simp only [turnOf, njunkRec]
    split
    · trivial
    · split
      · exact ⟨hcall, by assumption⟩
      · split
        · rename_i x hx
          exact ⟨rfl, hlt hle hx, fun _ => hbehind rfl, fun _ _ => hdata hle hx,
            by rintro c ⟨rfl⟩; exact ⟨rfl, rfl⟩⟩
        · trivial

theorem tested_placed (hcall : m.CallPlaced reader call) (htests : call.tests = true)
    (hx : m.elements[m.position reader call]? = some x) :
    m.TurnPlaced reader call (call.tested x) := by
  have hlt := (List.getElem?_eq_some_iff.mp hx).1
  cases call with
  | getWhileRec node acc f | getWhileSRec node acc f =>
    simp only [Call.tested]
    split
    · exact ⟨rfl, hlt, fun _ => hcall.behind rfl, fun _ _ =>
        hx, by rintro c ⟨rfl⟩; exact ⟨rfl, rfl⟩⟩
    · trivial
  | _ => simp [Call.tests] at htests

/-! ## Steps -/

/-- No read begins to wait. -/
def SameWaits (m m' : Streams α) : Prop :=
  ∀ (i : ℕ) r w, m'.reads[i]? = some r → r.status.waitsFor = some w →
    ∃ r', m.reads[i]? = some r' ∧ r'.reader = r.reader ∧ r'.status.waitsFor = some w

/-- What a step does to the stream. -/
inductive Happens (m : Streams α) (a : Step α) (m' : Streams α) : Prop
  | reads (l : List (Read α)) : m.consumes a = false → m' = { m with reads := l } →
      SameWaits m m' → Happens m a m'
  | clone (reader : ℕ) : reader < m.nodes.length → m.source.isPushBounded = false →
      m' = { m with nodes := m.nodes ++ [m.node reader] } → Happens m a m'
  | feed (reply : Reply α) (q : Streams α) (fed : Fed) (i : ℕ) (r : Read α) (next : Call α)
      (status : ReadStatus α) : m.consumes a = false → m.feed reply = some (q, fed) →
      m.reads[i]? = some r →
      m.position r.reader next = m.last → m.last ≤ m.elements.length →
      m' = q.setStatus i status →
      (status.waitsFor = none ∨ ∃ k, fed = .waits k ∧ status = .waiting k next) → Happens m a m'
  | pass (i : ℕ) (r : Read α) (node : ℕ) (x : α) (removes : Bool) (status : ReadStatus α) :
      m.reads[i]? = some r → r.reader < m.nodes.length → status.waitsFor = none →
      m.consumes a = (removes && decide (node = m.node r.reader)) →
      (removes = true → node = m.node r.reader → m.elements[node]? = some x) →
      m' = { (if removes then m.consume r.reader node else m) with
        reads := m.reads.modify i fun r => { r with status := status, taken := r.taken ++ [x] } } →
      Happens m a m'
  | source : a.isSource = true → Appends m m' → Happens m a m'

theorem sameWaits_setStatus {status : ReadStatus α} (hstatus : status.waitsFor = none) :
    SameWaits m (m.setStatus i status) := by
  intro j r w hr hw
  rw [setStatus, List.getElem?_modify] at hr
  obtain ⟨r₀, hr₀, rfl⟩ := Option.map_eq_some_iff.mp hr
  by_cases hij : i = j
  · rw [if_pos hij] at hw
    simp [hstatus] at hw
  · rw [if_neg hij] at hw ⊢
    exact ⟨r₀, hr₀, rfl, hw⟩

theorem Placed.setStatus {r : Read α} {status : ReadStatus α} (hp : Placed m)
    (hr : m.reads[i]? = some r) (hstatus : m.StatusPlaced r.reader status) :
    Placed (m.setStatus i status) := by
  have hback : ∀ r' ∈ (m.setStatus i status).reads, r' ∈ m.reads ∨
      r' = { r with status := status } := by
    intro r' hr'
    obtain ⟨j, hj⟩ := List.getElem?_of_mem hr'
    rw [Streams.setStatus, List.getElem?_modify] at hj
    obtain ⟨r₀, hr₀, rfl⟩ := Option.map_eq_some_iff.mp hj
    by_cases hij : i = j
    · subst hij
      cases hr.symm.trans hr₀
      exact .inr (by rw [if_pos rfl])
    · rw [if_neg hij]
      exact .inl (List.mem_of_getElem? hr₀)
  refine ⟨hp.heads, fun r' hr' => ?_, fun r' hr' => ?_⟩
  · rcases hback r' hr' with hr' | rfl
    · exact hp.readers r' hr'
    · exact hp.readers r (List.mem_of_getElem? hr)
  · have hgrows : Grows m (m.setStatus i status) :=
      ⟨List.prefix_refl _, fun i hi => hi, le_rfl, fun i _ => le_rfl⟩
    rcases hback r' hr' with hr' | rfl
    · have hlt := hp.readers r' hr'
      exact (hp.reads r' hr').grows hgrows hlt (hp.node_le hlt)
    · have hlt := hp.readers r (List.mem_of_getElem? hr)
      exact hstatus.grows hgrows hlt (hp.node_le hlt)

theorem Placed.grows (hp : Placed m) (hgrows : Grows m m') (hreads : m'.reads = m.reads)
    (hheads : ∀ i ∈ m'.nodes, i ≤ m'.elements.length) : Placed m' := by
  refine ⟨hheads, fun r hr => ?_, fun r hr => ?_⟩
  · exact (hp.readers r (hreads ▸ hr)).trans_le hgrows.readers
  · have hlt := hp.readers r (hreads ▸ hr)
    have hlt' := hlt.trans_le hgrows.readers
    refine (hp.reads r (hreads ▸ hr)).grows hgrows hlt ?_
    rw [Streams.node, List.getElem?_eq_getElem hlt', Option.getD_some]
    exact hheads _ (List.getElem_mem hlt')

theorem Appends.placed (h : Appends m m') (hp : Placed m) : Placed m' :=
  hp.grows h.grows h.reads fun i hi => (hp.heads i (h.nodes ▸ hi)).trans h.grows.elements.length_le

/-- `consume` moves the head past an element, if the node is the head. -/
theorem Placed.consume (hp : Placed m) (hlt : reader < m.nodes.length)
    (hnode : node = m.node reader → node < m.elements.length) :
    Placed (m.consume reader node) ∧ Grows m (m.consume reader node) ∧
      (m.consume reader node).reads = m.reads ∧
      (node ≤ m.node reader → node + 1 ≤ (m.consume reader node).node reader) := by
  unfold Streams.consume
  split
  · rename_i heq
    set m₁ : Streams α := { m with nodes := m.nodes.set reader (node + 1) } with hm₁
    have hself : m₁.node reader = node + 1 := node_set_self hlt
    have hgrows : Grows m m₁ := by
      refine ⟨List.prefix_refl _, fun i hi => hi, by simp [hm₁], fun i hi => ?_⟩
      by_cases hi' : reader = i
      · subst hi'
        rw [hself, heq]
        exact Nat.le_succ _
      · exact (node_set_ne hi').ge
    have hplaced : Placed m₁ := by
      refine hp.grows hgrows rfl fun i hi => ?_
      rcases List.mem_or_eq_of_mem_set hi with hi | rfl
      · exact hp.heads i hi
      · exact hnode heq
    have happends : ∀ q : Streams α, Appends m₁ q → Placed q ∧ Grows m q ∧ q.reads = m.reads ∧
        (node ≤ m.node reader → node + 1 ≤ q.node reader) := fun q hq =>
      ⟨hq.placed hplaced, hgrows.trans hq.grows, hq.reads, fun _ => hself ▸
        hq.grows.nodes reader (hlt.trans_le hgrows.readers)⟩
    dsimp only
    split
    · split
      · exact happends _ (appends_of_data (List.prefix_refl _) rfl rfl)
      · exact happends _ (appends_of_data (List.prefix_append _ _) rfl rfl)
    · exact happends _ (.refl _)
  · rename_i hne
    exact ⟨hp, (Appends.refl m).grows, rfl, fun hle => lt_of_le_of_ne hle hne⟩

theorem doTurn_happens {a : Step α} {r : Read α} {reply : Reply α} {t : Turn α} (hp : Placed m)
    (hr : m.reads[i]? = some r) (hcall : m.CallPlaced r.reader call)
    (ht : m.TurnPlaced r.reader call t)
    (hconsumes : m.consumes a = t.consumes (m.node r.reader))
    (h : m.doTurn i r.reader call reply t = some m') : Placed m' ∧ Happens m a m' := by
  have hlt := hp.readers r (List.mem_of_getElem? hr)
  have hset : ∀ {status : ReadStatus α}, m.consumes a = false → status.waitsFor = none →
      m.StatusPlaced r.reader status →
      Placed (m.setStatus i status) ∧ Happens m a (m.setStatus i status) :=
    fun hnot hwaits hstatus =>
      ⟨hp.setStatus hr hstatus, .reads _ hnot rfl (sameWaits_setStatus hwaits)⟩
  -- After `feed` the call is where it was.
  have hfed : ∀ {q : Streams α} {fed : Fed} {next : Call α} {status : ReadStatus α},
      m.consumes a = false → m.feed reply = some (q, fed) → m.CallPlaced r.reader next →
      m.position r.reader next = m.last →
      (status = .running next ∨ status.waitsFor = none ∧ (∀ c, status ≠ .running c) ∧
        (∀ x c, status ≠ .testing x c) ∨ ∃ k, fed = .waits k ∧ status = .waiting k next) →
      Placed (q.setStatus i status) ∧ Happens m a (q.setStatus i status) := by
    intro q fed next status hnot hq hnext hposition hstatus
    have happends := appends_feed hq
    have hpq := happends.placed hp
    have hltq : r.reader < q.nodes.length := happends.nodes.symm ▸ hlt
    have hnextq := hnext.grows happends.grows hlt (hpq.node_le hltq)
    have hrq : q.reads[i]? = some r := happends.reads ▸ hr
    have hlast : m.last ≤ m.elements.length := hposition ▸ hnext.le
    rcases hstatus with rfl | ⟨hwaits, hrun, htest⟩ | ⟨k, hk, rfl⟩
    · exact ⟨hpq.setStatus hrq hnextq, .feed reply q fed i r next _ hnot hq hr hposition hlast
        rfl (.inl rfl)⟩
    · refine ⟨hpq.setStatus hrq ?_, .feed reply q fed i r next _ hnot hq hr hposition hlast rfl
        (.inl hwaits)⟩
      cases status with
      | running c => exact absurd rfl (hrun c)
      | waiting k c => simp [ReadStatus.waitsFor] at hwaits
      | testing x c => exact absurd rfl (htest x c)
      | returned a | empty | failed => trivial
    · exact ⟨hpq.setStatus hrq hnextq, .feed reply q fed i r next _ hnot hq hr hposition hlast rfl
        (.inr ⟨k, hk, rfl⟩)⟩
  cases t with
  | feed next =>
    obtain ⟨⟨q, fed⟩, hq, rfl⟩ := Option.map_eq_some_iff.mp h
    cases fed with
    | waits k => exact hfed hconsumes hq ht.1 ht.2 (.inr (.inr ⟨k, rfl, rfl⟩))
    | ready => exact hfed hconsumes hq ht.1 ht.2 (.inl rfl)
    | fails => exact hfed hconsumes hq ht.1 ht.2 (.inr (.inl ⟨rfl, by simp, by simp⟩))
  | feedAvailable next acc =>
    obtain ⟨⟨q, fed⟩, hq, rfl⟩ := Option.map_eq_some_iff.mp h
    cases fed with
    | waits k => exact hfed hconsumes hq ht.1 ht.2 (.inr (.inl ⟨rfl, by simp, by simp⟩))
    | ready => exact hfed hconsumes hq ht.1 ht.2 (.inl rfl)
    | fails => exact hfed hconsumes hq ht.1 ht.2 (.inr (.inl ⟨rfl, by simp, by simp⟩))
  | test x =>
    cases h
    exact hset hconsumes rfl ⟨hcall, ht⟩
  | «return» answer =>
    cases h
    exact hset hconsumes rfl trivial
  | empty =>
    cases h
    exact hset hconsumes rfl trivial
  | pass node x removes next =>
    cases h
    obtain ⟨-, hnode, hbehind, hx, hnext⟩ := ht
    have hwaits : (next.elim ReadStatus.running ReadStatus.returned).waitsFor = none := by
      cases next <;> rfl
    set q := if removes = true then m.consume r.reader node else m with hq
    obtain ⟨hpq, hgrows, hreads, hhead⟩ : Placed q ∧ Grows m q ∧ q.reads = m.reads ∧
        (removes = true → node + 1 ≤ q.node r.reader) := by
      rw [hq]
      split
      · rename_i hremoves
        obtain ⟨hpq, hgrows, hreads, hhead⟩ := hp.consume hlt fun _ => hnode
        exact ⟨hpq, hgrows, hreads, fun _ => hhead (hbehind hremoves)⟩
      · rename_i hremoves
        exact ⟨hp, (Appends.refl m).grows, rfl, fun h => absurd h hremoves⟩
    have hltq : r.reader < q.nodes.length := hlt.trans_le hgrows.readers
    have hstatus : q.StatusPlaced r.reader (next.elim .running .returned) := by
      cases next with
      | inr answer => trivial
      | inl c =>
        obtain ⟨hc, hremoves⟩ := hnext c rfl
        have hposition : q.position r.reader c = node + 1 := by
          rw [Streams.position, hc, Option.getD_some]
        refine ⟨?_, fun h => ?_⟩
        · rw [hposition]
          exact Nat.succ_le_of_lt (hnode.trans_le hgrows.elements.length_le)
        · rw [hposition]
          exact hhead (hremoves ▸ h)
    have hconsumes : m.consumes a = (removes && decide (node = m.node r.reader)) := by
      rw [hconsumes]
      cases removes <;> rfl
    refine ⟨?_, .pass i r node x removes _ hr hlt hwaits hconsumes hx ?_⟩
    · have hplaced := hpq.setStatus (hreads ▸ hr) hstatus
      refine ⟨hplaced.heads, fun r' hr' => ?_, fun r' hr' => ?_⟩
      all_goals
        obtain ⟨j, hj⟩ := List.getElem?_of_mem hr'
        rw [List.getElem?_modify] at hj
        obtain ⟨r₀, hr₀, rfl⟩ := Option.map_eq_some_iff.mp hj
        have hmem : (if i = j then { r₀ with status := next.elim .running .returned } else r₀) ∈
            (q.setStatus i (next.elim .running .returned)).reads := by
          refine List.mem_of_getElem? (i := j) ?_
          rw [Streams.setStatus, List.getElem?_modify, hr₀]
          rfl
      · have hreader := hplaced.readers _ hmem
        by_cases hij : i = j
        · rw [if_pos hij] at hreader ⊢
          exact hreader
        · rw [if_neg hij] at hreader ⊢
          exact hreader
      · have hread := hplaced.reads _ hmem
        have hreader := hplaced.readers _ hmem
        have hgrows' : Grows (q.setStatus i (next.elim .running .returned))
            { q with reads := q.reads.modify i fun r => { r with
              status := next.elim .running .returned, taken := r.taken ++ [x] } } :=
          ⟨List.prefix_refl _, fun i hi => hi, le_rfl, fun i _ => le_rfl⟩
        have hhead' := hplaced.node_le hreader
        by_cases hij : i = j
        · rw [if_pos hij] at hread hreader hhead' ⊢
          exact hread.grows hgrows' hreader hhead'
        · rw [if_neg hij] at hread hreader hhead' ⊢
          exact hread.grows hgrows' hreader hhead'
    · rw [hreads]

theorem Placed.happens {a : Step α} (hp : Placed m) (hstep : m.step a = some m') :
    Placed m' ∧ Happens m a m' := by
  have hset : ∀ {i : ℕ} {r : Read α} {status : ReadStatus α}, m.consumes a = false →
      m.reads[i]? = some r → status.waitsFor = none → m.StatusPlaced r.reader status →
      Placed (m.setStatus i status) ∧ Happens m a (m.setStatus i status) :=
    fun hnot hr hwaits hstatus =>
      ⟨hp.setStatus hr hstatus, .reads _ hnot rfl (sameWaits_setStatus hwaits)⟩
  cases step_cases hstep with
  | clone reader _ hlt hbounded heq =>
    subst heq
    refine ⟨hp.grows (grows_clone m reader) rfl fun i hi => ?_, .clone reader hlt hbounded rfl⟩
    -- the clone starts where the reader is
    rcases List.mem_append.mp hi with hi | hi
    · exact hp.heads i hi
    · rw [List.mem_singleton.mp hi]
      exact hp.node_le hlt
  | start reader op ha hlt heq =>
    subst heq ha
    set r₀ : Read α := ⟨reader, op, m.node reader, [], .running (op.call (m.node reader))⟩
    have hgrows : Grows m { m with reads := m.reads ++ [r₀] } :=
      ⟨List.prefix_refl _, fun i hi => hi, le_rfl, fun i _ => le_rfl⟩
    have hcall : m.StatusPlaced reader r₀.status := by
      have hnode := hp.node_le hlt
      cases op <;> exact ⟨hnode, fun _ => le_rfl⟩
    refine ⟨⟨hp.heads, fun r hr => ?_, fun r hr => ?_⟩, .reads _ rfl rfl fun j r w hr hw => ?_⟩
    · rcases List.mem_append.mp hr with hr | hr
      · exact hp.readers r hr
      · rw [List.mem_singleton.mp hr]
        exact hlt
    · rcases List.mem_append.mp hr with hr | hr
      · exact (hp.reads r hr).grows hgrows (hp.readers r hr) (hp.node_le (hp.readers r hr))
      · rw [List.mem_singleton.mp hr]
        exact hcall.grows hgrows hlt (hp.node_le hlt)
    · rcases getElem?_append_singleton hr with hr | ⟨-, rfl⟩
      · exact ⟨r, hr, rfl, hw⟩
      · simp [r₀, ReadStatus.waitsFor] at hw
  | turn i reply r call ha hr hst hturn =>
    have hcall := hp.reads _ (List.mem_of_getElem? hr)
    rw [hst] at hcall
    have hlt := hp.readers _ (List.mem_of_getElem? hr)
    refine doTurn_happens hp hr hcall (turn_placed hcall (hp.node_le hlt)) ?_ hturn
    simp [ha, Streams.consumes, hr, hst]
  | tested i r x call ha hr hst hturn =>
    have hstatus := hp.reads _ (List.mem_of_getElem? hr)
    rw [hst] at hstatus
    obtain ⟨hcall, htests, hx⟩ := hstatus
    refine doTurn_happens hp hr hcall (tested_placed hcall htests hx) ?_ hturn
    simp [ha, Streams.consumes, hr, hst]
  | resumed i r k call ha hr hst heq =>
    subst heq
    have hstatus := hp.reads _ (List.mem_of_getElem? hr)
    rw [hst] at hstatus
    exact hset (by rw [ha]; rfl) hr rfl hstatus
  | fails i r ha hr hst heq =>
    subst heq
    refine hset ?_ hr rfl trivial
    -- a read that is cancelled, raised or refused takes nothing
    rcases ha with rfl | rfl | rfl
    · rfl
    · rcases hst with ⟨k, call, hst⟩ | ⟨x, call, hst⟩ <;> simp [Streams.consumes, hr, hst]
    · rfl
  | source ha happends => exact ⟨happends.placed hp, .source ha happends⟩

theorem consume_nodes_length : (m.consume reader node).nodes.length = m.nodes.length := by
  unfold Streams.consume
  split
  · dsimp only
    split
    · split <;> exact List.length_set ..
    · exact List.length_set ..
  · rfl

theorem Happens.nodes_length {a : Step α} (h : Happens m a m') :
    m'.nodes.length = m.nodes.length ∨
      ∃ reader, m' = { m with nodes := m.nodes ++ [m.node reader] } := by
  cases h with
  | reads l _ heq _ =>
    subst heq
    exact .inl rfl
  | clone reader _ _ heq => exact .inr ⟨reader, heq⟩
  | feed reply q fed i r next status _ hq _ _ _ heq _ =>
    subst heq
    exact .inl (congrArg List.length (appends_feed hq).nodes)
  | pass i r node x removes status _ _ _ _ _ heq =>
    subst heq
    left
    dsimp only
    split
    · exact consume_nodes_length
    · rfl
  | source _ happends => exact .inl (congrArg List.length happends.nodes)

theorem Happens.grows {a : Step α} (hp : Placed m) (h : Happens m a m') : Grows m m' := by
  cases h with
  | reads l _ heq _ =>
    subst heq
    exact ⟨List.prefix_refl _, fun i hi => hi, le_rfl, fun i _ => le_rfl⟩
  | clone reader _ _ heq =>
    subst heq
    exact grows_clone m reader
  | feed reply q fed i r next status _ hq _ _ _ heq _ =>
    subst heq
    have hgrows := (appends_feed hq).grows
    exact ⟨hgrows.elements, hgrows.ends, hgrows.readers, hgrows.nodes⟩
  | pass i r node x removes status hr hlt _ _ hx heq =>
    subst heq
    have hgrows : Grows m (if removes = true then m.consume r.reader node else m) := by
      split
      · rename_i hremoves
        refine (hp.consume hlt fun hnode => ?_).2.1
        exact (List.getElem?_eq_some_iff.mp (hx hremoves hnode)).1
      · exact (Appends.refl m).grows
    exact ⟨hgrows.elements, hgrows.ends, hgrows.readers, hgrows.nodes⟩
  | source _ happends => exact happends.grows

end Streams

end Lwt
