import Lwt.Library.Timing

/-!
# Streams with a single reader

A stream that is read by one reader, who makes each read after the one before has come to its end.
So what a read leaves of the stream is known when its promise is fulfilled, and no call of
`from_create` is under way when `feed` is called.  Neither the source nor the functions of the user
raise.

The nodes are numbered in the order of the queue, as in `Streams`.  What is pushed on a push
stream, and when, is part of its source.
-/

namespace Lwt.Single

open Timing Timing.Timed

variable {α β A R S : Type}

/-- `from_create` and the function of a `From_direct` have captured a state; `coming` are the calls
of `push` that are still to come, with their instants. -/
inductive Source (S α : Type)
  | fromCreate (create : S → Timed (Option α × S))
  | fromDirect (f : S → Option α × S)
  | push (coming : List (ℕ × Option α))

/-- `data` lists the nodes before the last one, `node` is `s.node` and `thread` the instant at which
`from_thread` is resolved. -/
structure Stream (S α : Type) where
  source : Source S α
  state : S
  thread : ℕ
  data : List (Option α)
  node : ℕ

namespace Stream

/-- `from_source source`; the first `from_thread` is `return_unit`. -/
def fromSource (source : Source S α) (state : S) : Stream S α := ⟨source, state, 0, [], 0⟩

/-- `Lwt_stream.from` -/
def «from» (create : S → Timed (Option α × S)) (state : S) : Stream S α :=
  fromSource (.fromCreate create) state

/-- `from_direct` -/
def fromDirect (f : S → Option α × S) (state : S) : Stream S α :=
  fromSource (.fromDirect f) state

/-- The stream of `create ()`. -/
def create (coming : List (ℕ × Option α)) : Stream Unit α := fromSource (.push coming) ()

/-- The node that `s.last` points to. -/
def last (s : Stream S α) : ℕ := s.data.length

/-- `node.data` -/
def nodeData (s : Stream S α) (node : ℕ) : Option α := s.data[node]?.join

def enqueue (s : Stream S α) (x : Option α) : Stream S α := { s with data := s.data ++ [x] }

/-- The pushes up to the instant `t` are made. -/
def arrived (s : Stream S α) (t : ℕ) : Stream S α :=
  match s.source with
  | .push coming => { s with
      source := .push (coming.dropWhile fun c => c.1 ≤ t)
      data := s.data ++ (coming.takeWhile fun c => c.1 ≤ t).map Prod.snd }
  | _ => s

/-- `feed s` -/
def feed (s : Stream S α) : Timed (Stream S α) :=
  match s.source with
  | .fromCreate create => do
      let t ← now
      -- a call of `from_create` for another reader
      if t < s.thread then never
      else
        let (x, state) ← create s.state
        let thread ← now
        return { s.enqueue x with state := state, thread := thread }
  | .fromDirect f => return { s.enqueue (f s.state).1 with state := (f s.state).2 }
  | .push [] => never
  | .push (c :: _) => do
      -- The signal is sent by the next push.
      await c.1
      return s

/-- `consume s node` -/
def consume (s : Stream S α) (node : ℕ) : Stream S α :=
  if node = s.node then { s with node := node + 1 } else s

/-- The turns `if node == !(s.last) then feed s >>= ...` of the recursive functions, up to the one
that finds another node after its own. -/
def fed (node : ℕ) : ℕ → Stream S α → Timed (Stream S α)
  | 0, _ => never
  | turns + 1, s => do
      let t ← now
      if node = (s.arrived t).last then
        let s ← (s.arrived t).feed
        fed node turns s
      else return s.arrived t

section Reads

variable (fuel : ℕ)

def getRec (s : Stream S α) (node : ℕ) : Timed (Option α × Stream S α) := do
  let s ← fed node fuel s
  match s.nodeData node with
  | some x => return (some x, s.consume node)
  | none => return (none, s)

/-- `get s` -/
def get (s : Stream S α) : Timed (Option α × Stream S α) := getRec fuel s s.node

/-- The recursion of `fold`, `find` and their variants over the elements.  `f` has the number of
the call and gives a new accumulator, or a result that ends the recursion; the first argument bounds
the number of turns. -/
def scanRec (f : ℕ → α → A → Timed (A ⊕ R)) (finish : A → R) :
    ℕ → ℕ → ℕ → Stream S α → A → Timed (R × Stream S α)
  | 0, _, _, _, _ => never
  | turns + 1, call, node, s, acc => do
      let s ← fed node fuel s
      match s.nodeData node with
      | some x =>
        match ← f call x acc with
        | .inl acc => scanRec f finish turns (call + 1) (node + 1) (s.consume node) acc
        | .inr r => return (r, s.consume node)
      | none => return (finish acc, s)

/-- `fold_s f s acc`, from `fold_s_rec s.node f s acc` on. -/
def foldS (f : ℕ → α → A → Timed A) (s : Stream S α) (acc : A) : Timed (A × Stream S α) :=
  scanRec fuel (fun call x acc => do let acc ← f call x acc; return .inl acc) id fuel 0 s.node s acc

/-- `fold f s acc` -/
def fold (f : α → A → A) (s : Stream S α) (acc : A) : Timed (A × Stream S α) :=
  scanRec fuel (fun _ x acc => return .inl (f x acc)) id fuel 0 s.node s acc

/-- `find_s f s` -/
def findS (f : ℕ → α → Timed Bool) (s : Stream S α) : Timed (Option α × Stream S α) :=
  scanRec fuel (fun call x _ => do
      let test ← f call x
      return if test then .inr (some x) else .inl ())
    (fun _ => none) fuel 0 s.node s ()

/-- `find f s` -/
def find (f : α → Bool) (s : Stream S α) : Timed (Option α × Stream S α) :=
  scanRec fuel (fun _ x _ => return if f x then .inr (some x) else .inl ())
    (fun _ => none) fuel 0 s.node s ()

/-- `find_map_s f s` -/
def findMapS (f : ℕ → α → Timed (Option β)) (s : Stream S α) : Timed (Option β × Stream S α) :=
  scanRec fuel (fun call x _ => do
      match ← f call x with
      | none => return .inl ()
      | some y => return .inr (some y))
    (fun _ => none) fuel 0 s.node s ()

/-- `find_map f s` -/
def findMap (f : α → Option β) (s : Stream S α) : Timed (Option β × Stream S α) :=
  scanRec fuel (fun _ x _ => match f x with
      | none => return .inl ()
      | some y => return .inr (some y))
    (fun _ => none) fuel 0 s.node s ()

end Reads

/-! ## What is kept -/

variable {s : Stream S α} {t : ℕ}

@[simp] theorem node_arrived (s : Stream S α) (t : ℕ) : (s.arrived t).node = s.node := by
  unfold arrived
  split <;> rfl

theorem yields_feed (s : Stream S α) : s.feed.Yields fun s' => s'.node = s.node := by
  unfold feed
  split
  · refine yields_true.bind fun t _ => ?_
    split
    · exact yields_never
    · exact yields_true.bind fun _ _ => yields_true.bind fun _ _ => yields_pure rfl
  · exact yields_pure rfl
  · exact yields_never
  · exact yields_true.bind fun _ _ => yields_pure rfl

theorem yields_fed (node turns : ℕ) (s : Stream S α) :
    (fed node turns s).Yields fun s' => s'.node = s.node := by
  induction turns generalizing s with
  | zero => exact yields_never
  | succ turns ih =>
    refine yields_true.bind fun t _ => ?_
    split
    · refine (yields_feed _).bind fun s' hs' => ?_
      rw [node_arrived] at hs'
      rw [← hs']
      exact ih s'
    · exact yields_pure (node_arrived s t)

variable {f : ℕ → α → A → Timed (A ⊕ R)} {finish : A → R} {fuel turns call : ℕ} {acc : A}

/-- From `s.node` on, the recursion over the nodes reads one element after the other. -/
theorem scanRec_eq (s : Stream S α) :
    scanRec fuel f finish (turns + 1) call s.node s acc = (do
      let (x, s) ← get fuel s
      match x with
      | some x =>
        match ← f call x acc with
        | .inl acc => scanRec fuel f finish turns (call + 1) s.node s acc
        | .inr r => return (r, s)
      | none => return (finish acc, s)) := by
  rw [scanRec, get, getRec, Timed.bind_assoc]
  refine (yields_fed s.node fuel s).bind_congr fun s' hs' => ?_
  have hconsume : (s'.consume s.node).node = s.node + 1 := by
    rw [consume, if_pos hs'.symm]
  cases s'.nodeData s.node with
  | none => rfl
  | some x =>
    simp only [Timed.pure_bind]
    refine yields_true.bind_congr fun step _ => ?_
    cases step with
    | inl acc => rw [hconsume]
    | inr r => rfl

/-! ## Reading the queue -/

section Queue

variable {s : Stream S α} {t start : ℕ}

theorem ends_get {Q : ℕ → Option α × Stream S α → Prop}
    (h : (fed s.node fuel s).Ends t fun t' s' =>
      Q t' (s'.nodeData s.node, if (s'.nodeData s.node).isSome then s'.consume s.node else s')) :
    (get fuel s).Ends t Q := by
  refine Ends.bind (h.mono fun t' s' _ hs' => ?_)
  cases hdata : s'.nodeData s.node with
  | none =>
    rw [hdata] at hs'
    exact ends_pure hs'
  | some x =>
    rw [hdata] at hs'
    exact ends_pure hs'

theorem ends_fed_ready {Q : ℕ → Stream S α → Prop} (h : s.node ≠ (s.arrived t).last)
    (hQ : Q t (s.arrived t)) : (fed s.node (turns + 1) s).Ends t Q := by
  refine Ends.bind (ends_now ?_)
  rw [if_neg h]
  exact ends_pure hQ

theorem ends_fed_feed {Q : ℕ → Stream S α → Prop} (h : s.node = (s.arrived t).last)
    (hfeed : (s.arrived t).feed.Ends t fun t' s' =>
      s'.node = s.node ∧ s'.node ≠ (s'.arrived t').last ∧ Q t' (s'.arrived t')) :
    (fed s.node (turns + 2) s).Ends t Q := by
  refine Ends.bind (ends_now ?_)
  rw [if_pos h]
  refine Ends.bind (hfeed.mono fun t' s' _ hs' => ?_)
  obtain ⟨hnode, hlast, hQ⟩ := hs'
  rw [← hnode]
  exact ends_fed_ready hlast hQ

theorem arrived_of_not_push (h : ∀ coming, s.source ≠ .push coming) (t : ℕ) : s.arrived t = s := by
  unfold arrived
  split
  · rename_i coming hsource
    exact absurd hsource (h coming)
  · rfl

variable {n : ℕ} {P : List α → Prop}

/-- What `getRec` finds in a node after `feed` has filled it. -/
theorem ends_get_enqueue {Q : ℕ → Option α × Stream S α → Prop}
    (hfuel : 2 ≤ fuel) (hpush : ∀ coming, s.source ≠ .push coming) (hlast : s.node = s.last)
    (hfeed : s.feed.Ends t fun t' s' => s'.source = s.source ∧ s'.node = s.node ∧
      ∃ x, s'.data = s.data ++ [x] ∧
        Q t' (x, if x.isSome then { s' with node := s.node + 1 } else s')) :
    (get fuel s).Ends t Q := by
  obtain ⟨fuel, rfl⟩ := Nat.exists_eq_add_of_le' hfuel
  refine ends_get (ends_fed_feed ?_ ?_)
  · rw [arrived_of_not_push hpush]
    exact hlast
  · rw [arrived_of_not_push hpush]
    refine hfeed.mono fun t' s' _ hs' => ?_
    obtain ⟨hsource, hnode, x, hdata, hQ⟩ := hs'
    have hpush' : ∀ coming, s'.source ≠ .push coming := hsource ▸ hpush
    have hx : s'.nodeData s.node = x := by
      rw [nodeData, hdata, hlast, last, List.getElem?_concat_length, Option.join_some]
    rw [arrived_of_not_push hpush']
    refine ⟨hnode, ?_, ?_⟩
    · rw [hnode, last, hdata, hlast, last, List.length_append]
      simp
    · rw [hx, consume, if_pos hnode.symm]
      exact hQ

/-- The queue of a stream of `from` is empty, and no call of `from_create` is under way. -/
structure Ready (create : S → Timed (Option α × S)) (s : Stream S α) (t : ℕ) : Prop where
  source : s.source = .fromCreate create
  last : s.node = s.last
  thread : s.thread ≤ t

theorem ready_from (create : S → Timed (Option α × S)) (state : S) (t : ℕ) :
    Ready create («from» create state) t := ⟨rfl, rfl, Nat.zero_le t⟩

/-- A read calls `from_create` once. -/
theorem Ready.ends_get {create : S → Timed (Option α × S)} {Q : ℕ → Option α × Stream S α → Prop}
    (h : Ready create s t) (hfuel : 2 ≤ fuel)
    (hcreate : (create s.state).Ends t fun t' r =>
      ∀ s', s'.state = r.2 → (∀ a, r.1 = some a → Ready create s' t') → Q t' (r.1, s')) :
    (get fuel s).Ends t Q := by
  refine ends_get_enqueue hfuel (by simp [h.source]) h.last ?_
  unfold feed
  rw [h.source]
  refine Ends.bind (ends_now ?_)
  rw [if_neg (Nat.not_lt.mpr h.thread)]
  refine Ends.bind (hcreate.mono fun t' r _ hr => ?_)
  refine Ends.bind (ends_now (ends_pure ⟨h.source, rfl, r.1, rfl, ?_⟩))
  refine hr _ ?_ fun a ha => ?_
  · split <;> rfl
  · rw [ha]
    exact ⟨h.source, by simp [Stream.last, enqueue, h.last], Nat.le_refl t'⟩

theorem Ready.supplies {create : S → Timed (Option α × S)} (hready : Ready create s start)
    (hfuel : 2 ≤ fuel) (h : Supplies create n P s.state start) :
    Supplies (get fuel) n P s start := by
  induction n generalizing P s start with
  | zero => exact h
  | succ n ih =>
    intro t ht
    have hready' : Ready create s t :=
      ⟨hready.source, hready.last, Nat.le_trans hready.thread ht⟩
    refine hready'.ends_get hfuel ((h t ht).mono fun t' r _ hr s' hs' hnext => ?_)
    cases hx : r.1 with
    | none =>
      rw [hx] at hr
      exact hr
    | some a =>
      rw [hx] at hr
      rw [← hs'] at hr
      exact ih (hnext a hx) hr

theorem supplies_fromDirect {f : S → Option α × S} (hfuel : 2 ≤ fuel)
    (hsource : s.source = .fromDirect f) (hlast : s.node = s.last)
    (h : Supplies (fun st => (pure (f st) : Timed _)) n P s.state start) :
    Supplies (get fuel) n P s start := by
  induction n generalizing P s start with
  | zero => exact h
  | succ n ih =>
    intro t ht
    refine ends_get_enqueue hfuel (by simp [hsource]) hlast ?_
    unfold feed
    rw [hsource]
    obtain ⟨t', r, hr, hle, hrest⟩ := h t ht
    cases hr
    refine ends_pure ⟨hsource, rfl, (f s.state).1, rfl, ?_⟩
    cases hx : (f s.state).1 with
    | none =>
      rw [hx] at hrest
      exact hrest
    | some a =>
      rw [hx] at hrest
      refine ih hsource ?_ hrest
      simp [last, enqueue, hlast]

end Queue

end Stream

end Lwt.Single
