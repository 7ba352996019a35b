import Lwt.Library.Total
import Lwt.Library.Transition
import Lwt.Sequence.Linked

/-!
# `pause`, `wakeup_paused` and `abandon_paused`

The pause promises and the sequence `paused`, with the pointers of `lwt_sequence.ml`.  A
pause promise is made by `add_task_r paused`, so that its cancel callback unlinks its node.
Callbacks of a pause promise run inside `wakeup_paused` and `cancel` and can make every call
again: the loop of a `wakeup_paused` and the cancel callback of a promise are frames of a
stack, and the user's code runs on top of it.  A callback given to `on_cancel` runs before the
node of the canceled promise is unlinked, so between the two any call can be made.

The calls of `wakeup_paused` and `abandon_paused` are numbered; a promise carries the number
of the next one when it is made (its batch), and is waiting for that call.

`abandon_paused` resets the header of `paused` and leaves the nodes active.  A promise it has
forgotten can still be canceled, and then its node unlinks what the header links to by then.
`unlinks` tells the steps that do not.
-/

namespace Lwt

open Table Transition

inductive PauseState
  | pending
  | fulfilled
  /-- rejected with `Canceled` -/
  | canceled
  deriving DecidableEq

/-- A pause promise with the node that its cancel callback removes. -/
structure Pause where
  state : PauseState
  node : ℕ
  batch : ℕ

inductive PauseFrame
  /-- `run_callbacks` of a canceled promise, before its node is removed -/
  | removeSequenceNode (node : ℕ)
  /-- `Lwt_sequence.iter_l (fun r -> wakeup r ()) tmp` at the node `curr`, in the `wakeup_paused`
  of the batch; the callbacks of the promise at `curr` are running if it is `woken` -/
  | wakeupEach (tmp curr : ℕ) (woken : Bool) (batch turns : ℕ)

/-- The state of the pause promises.  `batch`, `abandoned`, `log` and `failed` are not part of the
program: the number of calls of `wakeup_paused` and `abandon_paused`, the numbers of the latter,
the promises that have been fulfilled, in this order, and the calls of `wakeup_paused` that
raised `Invalid_argument`. -/
structure Pauses where
  sequences : Sequences ℕ
  pausedCount : ℤ
  promises : List Pause
  stack : List PauseFrame
  batch : ℕ
  abandoned : List ℕ
  log : List ℕ
  failed : List ℕ

namespace Pauses

/-- The header of the sequence `paused`. -/
def paused : ℕ := 0

def create : Pauses := ⟨Sequences.create [], 0, [], [], 0, [], [], []⟩

/-- `pause ()`: `add_task_r paused`, then `incr paused_count`. -/
def pause (m : Pauses) : Pauses :=
  { m with
    sequences := m.sequences.addR m.promises.length paused
    promises := m.promises ++ [⟨.pending, m.sequences.length, m.batch⟩]
    pausedCount := m.pausedCount + 1 }

def setState (m : Pauses) (n : ℕ) (st : PauseState) : Pauses :=
  { m with promises := m.promises.modify n fun r => { r with state := st } }

/-- The part of `Lwt.cancel` that rejects the promise `n`; its callbacks are to run. -/
def reject (m : Pauses) (n : ℕ) : Pauses :=
  match m.promises[n]? with
  | some ⟨.pending, node, _⟩ =>
    { m.setState n .canceled with stack := .removeSequenceNode node :: m.stack }
  | _ => m

/-- A call of `Lwt.cancel` that reaches the promises `ns`. -/
def cancel (m : Pauses) (ns : List ℕ) : Pauses := ns.foldl reject m

/-- `wakeup_paused ()`, up to the first turn of its loop. -/
def wakeupPaused (m : Pauses) : Pauses :=
  if m.sequences.isEmpty paused then { m with pausedCount := 0, batch := m.batch + 1 }
  else
    let tmp := m.sequences.length
    let sequences := m.sequences.create.transferR paused tmp
    { m with
      sequences := sequences
      pausedCount := 0
      stack := .wakeupEach tmp (sequences.next tmp) false m.batch 0 :: m.stack
      batch := m.batch + 1 }

/-- `abandon_paused ()`. -/
def abandonPaused (m : Pauses) : Pauses :=
  { m with
    sequences := m.sequences.clear paused
    pausedCount := 0
    batch := m.batch + 1
    abandoned := m.batch :: m.abandoned }

/-- The loop goes on with `node.node_next`. -/
def advance (m : Pauses) (tmp curr batch turns : ℕ) (below : List PauseFrame) : Pauses :=
  { m with stack := .wakeupEach tmp (m.sequences.next curr) false batch (turns + 1) :: below }

/-- One turn of the loop of `wakeup_paused`.  `wakeup` ignores a canceled promise and raises
`Invalid_argument` if the promise is fulfilled. -/
def turn (m : Pauses) (tmp curr batch turns : ℕ) (below : List PauseFrame) : Pauses :=
  if curr = tmp then { m with stack := below }
  else if m.sequences.active curr then
    match m.sequences.data curr with
    | none => m.advance tmp curr batch turns below
    | some n =>
      match m.promises[n]?.map Pause.state with
      | some .pending =>
        { m.setState n .fulfilled with
          stack := .wakeupEach tmp curr true batch turns :: below
          log := m.log ++ [n] }
      | some .fulfilled => { m with stack := below, failed := batch :: m.failed }
      | _ => m.advance tmp curr batch turns below
  else m.advance tmp curr batch turns below

/-- What can happen: the user's code makes a call, or it returns and the frame below it goes
on. -/
inductive Step
  | pause
  | cancel (ns : List ℕ)
  | wakeupPaused
  | abandonPaused
  | proceed

/-- Between two turns of its loop `wakeup_paused` runs none of the user's code. -/
def inLoop (m : Pauses) : Bool :=
  match m.stack with
  | .wakeupEach _ _ false _ _ :: _ => true
  | _ => false

def proceed (m : Pauses) : Option Pauses :=
  match m.stack with
  | [] => none
  | .removeSequenceNode node :: below =>
    some { m with sequences := m.sequences.remove node, stack := below }
  | .wakeupEach tmp curr true batch turns :: below => some (m.advance tmp curr batch turns below)
  | .wakeupEach tmp curr false batch turns :: below => some (m.turn tmp curr batch turns below)

def step (m : Pauses) : Step → Option Pauses
  | .pause => if m.inLoop then none else some m.pause
  | .cancel ns => if m.inLoop then none else some (m.cancel ns)
  | .wakeupPaused => if m.inLoop then none else some m.wakeupPaused
  | .abandonPaused => if m.inLoop then none else some m.abandonPaused
  | .proceed => m.proceed

/-- The step does not unlink a node that its neighbours have ceased to link to. -/
def unlinks (m : Pauses) : Step → Bool
  | .proceed =>
    match m.stack with
    | .removeSequenceNode node :: _ => !m.sequences.active node || m.sequences.Unlinks node
    | _ => true
  | _ => true

/-! ## The sequences and their promises -/

/-- The number of promises of a batch. -/
def size (m : Pauses) (k : ℕ) : ℕ := m.promises.countP fun r => r.batch = k

/-- The nodes of the sequence `seq` are `l`, in the order of the calls of `pause`, and they are
nodes of promises of the batch `k`. -/
structure Holds (m : Pauses) (seq k : ℕ) (l : List ℕ) : Prop where
  header : m.sequences.data seq = none
  ring : Sequences.Ring m.sequences seq l
  active : ∀ x ∈ l, m.sequences.active x = true
  nodes : ∀ x ∈ l, ∃ (n : ℕ) (r : Pause), m.promises[n]? = some r ∧ r.node = x ∧
    r.batch = k
  sorted : l.Pairwise (· < ·)

/-- The nodes that the loop of a `wakeup_paused` is still to visit. -/
def rest (woken : Bool) (todo : List ℕ) : List ℕ := if woken then todo.tail else todo

/-- The loop of the `wakeup_paused` of the batch `k` has passed the nodes `done` and is at the first
node of `todo`. -/
structure Waking (m : Pauses) (tmp curr : ℕ) (woken : Bool) (k turns : ℕ) (done todo : List ℕ) :
    Prop where
  holds : Holds m tmp k (done ++ todo)
  curr_eq : (todo ++ [tmp]).head? = some curr
  current : woken = true → todo ≠ [] ∧
    ∀ (n : ℕ) r, m.promises[n]? = some r → r.batch = k → r.node = curr → r.state = .fulfilled
  pending : ∀ (n : ℕ) r, m.promises[n]? = some r → r.batch = k → r.state = .pending →
    r.node ∈ rest woken todo
  passed : ∀ (n : ℕ) r, m.promises[n]? = some r → r.batch = k → r.state = .fulfilled →
    ∀ x ∈ rest woken todo, r.node < x
  turns_le : turns + todo.length ≤ m.size k

def SoundFrame (m : Pauses) : PauseFrame → Prop
  | .removeSequenceNode node =>
    ∃ (n : ℕ) (r : Pause), m.promises[n]? = some r ∧ r.node = node ∧ r.state = .canceled
  | .wakeupEach tmp curr woken k turns =>
    paused < tmp ∧ k < m.batch ∧ ∃ done todo, Waking m tmp curr woken k turns done todo

/-- The sequence and the batch of a loop. -/
def loop : PauseFrame → Option (ℕ × ℕ)
  | .removeSequenceNode _ => none
  | .wakeupEach tmp _ _ k _ => some (tmp, k)

/-- The loops of the calls of `wakeup_paused` that have not returned, the last one first. -/
def loops (m : Pauses) : List (ℕ × ℕ) := m.stack.filterMap loop

structure Orderly (m : Pauses) : Prop where
  node : ∀ (n : ℕ) r, m.promises[n]? = some r → m.sequences.data r.node = some n
  promise : ∀ x n, m.sequences.data x = some n → ∃ r, m.promises[n]? = some r ∧ r.node = x
  increasing : ∀ (i j : ℕ) r r', i < j → m.promises[i]? = some r → m.promises[j]? = some r' →
    r.node < r'.node
  batch_le : ∀ r ∈ m.promises, r.batch ≤ m.batch
  count : m.pausedCount = m.size m.batch
  waiting : ∃ l, Holds m paused m.batch l ∧ l.length ≤ m.size m.batch ∧
    ∀ (n : ℕ) r, m.promises[n]? = some r → r.batch = m.batch →
      r.state ≠ .fulfilled ∧ (r.state = .pending → r.node ∈ l)
  frames : ∀ frame ∈ m.stack, m.SoundFrame frame
  nested : m.loops.Pairwise fun a b => b.1 < a.1 ∧ b.2 < a.2
  inner : ∀ tmp curr k turns, .wakeupEach tmp curr false k turns ∉ m.stack.tail
  logged : ∀ n, n ∈ m.log ↔ m.promises[n]?.map Pause.state = some .fulfilled
  log_sorted : m.log.Pairwise fun i j => ∀ r r', m.promises[i]? = some r →
    m.promises[j]? = some r' → r.batch = r'.batch → i < j
  pending : ∀ (n : ℕ) r, m.promises[n]? = some r → r.state = .pending → r.batch = m.batch ∨
    r.batch ∈ m.abandoned ∨ ∃ tmp, (tmp, r.batch) ∈ m.loops
  not_failed : m.failed = []

theorem orderly_create : Orderly create where
  node := by simp [create]
  promise x n hx := by
    rcases x with - | x
    · simp [create, Sequences.create, Sequences.data] at hx
    · simp [create, Sequences.create, Sequences.data] at hx
  increasing := by simp [create]
  batch_le := by simp [create]
  count := by simp [create, size]
  waiting := ⟨[], ⟨by simp [create, Sequences.create, Sequences.data, paused],
    Sequences.ring_create [], by simp, by simp, by simp⟩, by simp, by simp [create]⟩
  frames := by simp [create]
  nested := by simp [create, loops]
  inner := by simp [create]
  logged := by simp [create]
  log_sorted := by simp [create]
  pending := by simp [create]
  not_failed := rfl

/-! ## What a step leaves alone -/

variable {m m' : Pauses} {seq k : ℕ} {l : List ℕ}

/-- The promises of the batch `k` keep their nodes; none is fulfilled and none becomes pending. -/
structure Keeps (m m' : Pauses) (k : ℕ) : Prop where
  forth : ∀ (n : ℕ) r, m.promises[n]? = some r → r.batch = k → ∃ r', m'.promises[n]? = some r' ∧
    r'.node = r.node ∧ r'.batch = k ∧ (r.state = .fulfilled → r'.state = .fulfilled)
  back : ∀ (n : ℕ) r', m'.promises[n]? = some r' → r'.batch = k → ∃ r, m.promises[n]? = some r ∧
    r.node = r'.node ∧ r.batch = k ∧ (r'.state = .pending → r.state = .pending) ∧
    (r'.state = .fulfilled → r.state = .fulfilled)
  size : m'.size k = m.size k

theorem Keeps.of_eq (h : m'.promises = m.promises) (k : ℕ) : Keeps m m' k where
  forth n r hr hk := ⟨r, h ▸ hr, rfl, hk, id⟩
  back n r hr hk := ⟨r, h ▸ hr, rfl, hk, id, id⟩
  size := by simp only [Pauses.size, h]

theorem lt_length_of_data {s : Sequences ℕ} {x n : ℕ} (h : s.data x = some n) : x < s.length := by
  by_contra hlt
  simp [Sequences.data, List.getElem?_eq_none (not_lt.mp hlt)] at h

theorem Holds.of_ring (h : Holds m seq k l) (hk : Keeps m m' k)
    (hheader : m'.sequences.data seq = none) (hring : Sequences.Ring m'.sequences seq l)
    (hactive : ∀ x ∈ l, m'.sequences.active x = m.sequences.active x) : Holds m' seq k l where
  header := hheader
  ring := hring
  active x hx := (hactive x hx).trans (h.active x hx)
  nodes x hx := by
    obtain ⟨n, r, hr, hnode, hbatch⟩ := h.nodes x hx
    obtain ⟨r', hr', hnode', hbatch', -⟩ := hk.forth n r hr hbatch
    exact ⟨n, r', hr', hnode'.trans hnode, hbatch'⟩
  sorted := h.sorted

theorem Waking.of_holds {tmp curr turns : ℕ} {woken : Bool} {done todo : List ℕ}
    (h : Waking m tmp curr woken k turns done todo) (hk : Keeps m m' k)
    (hholds : Holds m' tmp k (done ++ todo)) : Waking m' tmp curr woken k turns done todo where
  holds := hholds
  curr_eq := h.curr_eq
  current hwoken := by
    obtain ⟨hne, hcurr⟩ := h.current hwoken
    refine ⟨hne, fun n r' hr' hbatch hnode => ?_⟩
    obtain ⟨r, hr, hnode', hbatch', -⟩ := hk.back n r' hr' hbatch
    obtain ⟨r'', hr'', -, -, hful⟩ := hk.forth n r hr hbatch'
    cases hr'.symm.trans hr''
    exact hful (hcurr n r hr hbatch' (hnode'.trans hnode))
  pending n r' hr' hbatch hst := by
    obtain ⟨r, hr, hnode, hbatch', hpending, -⟩ := hk.back n r' hr' hbatch
    exact hnode ▸ h.pending n r hr hbatch' (hpending hst)
  passed n r' hr' hbatch hst := by
    obtain ⟨r, hr, hnode, hbatch', -, hful⟩ := hk.back n r' hr' hbatch
    exact hnode ▸ h.passed n r hr hbatch' (hful hst)
  turns_le := hk.size ▸ h.turns_le

theorem SoundFrame.of_eq {frame : PauseFrame} (h : m.SoundFrame frame)
    (hsequences : m'.sequences = m.sequences) (hpromises : m'.promises = m.promises)
    (hbatch : m'.batch = m.batch) : m'.SoundFrame frame := by
  cases frame with
  | removeSequenceNode node =>
    rw [SoundFrame, hpromises]
    exact h
  | wakeupEach tmp curr woken k turns =>
    obtain ⟨htmp, hk, done, todo, hwaking⟩ := h
    have hkeeps : Keeps m m' k := .of_eq hpromises k
    refine ⟨htmp, hbatch.symm ▸ hk, done, todo, hwaking.of_holds hkeeps ?_⟩
    exact hwaking.holds.of_ring hkeeps (hsequences ▸ hwaking.holds.header)
      (hsequences ▸ hwaking.holds.ring) fun x _ => by rw [hsequences]

section SetState

variable {n : ℕ} {st : PauseState}

theorem getElem?_setState {i : ℕ} {r' : Pause} :
    (m.setState n st).promises[i]? = some r' ↔
      ∃ r, m.promises[i]? = some r ∧ (if n = i then { r with state := st } else r) = r' := by
  rw [setState, List.getElem?_modify]
  exact Option.map_eq_some_iff

theorem getElem?_setState_self {r : Pause} (hr : m.promises[n]? = some r) :
    (m.setState n st).promises[n]? = some { r with state := st } :=
  getElem?_setState.mpr ⟨r, hr, if_pos rfl⟩

theorem getElem?_setState_ne {i : ℕ} (hi : n ≠ i) :
    (m.setState n st).promises[i]? = m.promises[i]? := by
  ext r'
  simp only [getElem?_setState, if_neg hi, exists_eq_right]

theorem size_setState (k : ℕ) : (m.setState n st).size k = m.size k := by
  have hbatch : (m.setState n st).promises.map Pause.batch = m.promises.map Pause.batch := by
    refine List.ext_getElem? fun i => ?_
    rw [setState, List.getElem?_map, List.getElem?_map, List.getElem?_modify]
    cases m.promises[i]? with
    | none => rfl
    | some r => by_cases hi : n = i <;> simp [hi]
  have hcount : ∀ l : List Pause, l.countP (fun r => r.batch = k) =
      (l.map Pause.batch).countP (· = k) := fun l => by
    rw [List.countP_map]
    rfl
  rw [size, size, hcount, hcount, hbatch]

theorem keeps_setState {r : Pause} (hr : m.promises[n]? = some r) (hpending : r.state = .pending)
    (hst : st ≠ .pending) (hful : st = .fulfilled → r.batch ≠ k) : Keeps m (m.setState n st) k where
  forth i r₁ hr₁ hk := by
    by_cases hi : n = i
    · subst hi
      cases hr.symm.trans hr₁
      exact ⟨_, getElem?_setState_self hr, rfl, hk, by simp [hpending]⟩
    · exact ⟨r₁, (getElem?_setState_ne hi).trans hr₁, rfl, hk, id⟩
  back i r' hr' hk := by
    by_cases hi : n = i
    · subst hi
      cases (getElem?_setState_self hr).symm.trans hr'
      exact ⟨r, hr, rfl, hk, fun h => absurd h hst, fun h => absurd hk (hful h)⟩
    · exact ⟨r', (getElem?_setState_ne hi).symm.trans hr', rfl, hk, id, id⟩
  size := size_setState k

end SetState

section Orderly

variable (ho : Orderly m)

include ho

theorem Orderly.promise_unique {n n' : ℕ} {r r' : Pause} (hr : m.promises[n]? = some r)
    (hr' : m.promises[n']? = some r') (hnode : r.node = r'.node) : n = n' ∧ r = r' := by
  have hn : n = n' :=
    Option.some.inj ((ho.node n r hr).symm.trans (hnode ▸ ho.node n' r' hr'))
  subst hn
  exact ⟨rfl, Option.some.inj (hr.symm.trans hr')⟩

theorem Orderly.data_of_holds (h : Holds m seq k l) {x : ℕ} (hx : x ∈ l) :
    ∃ n r, m.promises[n]? = some r ∧ r.node = x ∧ r.batch = k ∧ m.sequences.data x = some n := by
  obtain ⟨n, r, hr, hnode, hbatch⟩ := h.nodes x hx
  exact ⟨n, r, hr, hnode, hbatch, hnode ▸ ho.node n r hr⟩

theorem Orderly.disjoint {seq' k' : ℕ} {l' : List ℕ} (h : Holds m seq k l) (h' : Holds m seq' k' l')
    (hseq : seq ≠ seq') (hk : k ≠ k') : ∀ x ∈ seq :: l, x ∉ seq' :: l' := by
  intro x hx hx'
  rcases List.mem_cons.mp hx with rfl | hx <;> rcases List.mem_cons.mp hx' with rfl | hx'
  · exact hseq rfl
  · obtain ⟨n, r, -, -, -, hdata⟩ := ho.data_of_holds h' hx'
    simp [h.header] at hdata
  · obtain ⟨n, r, -, -, -, hdata⟩ := ho.data_of_holds h hx
    simp [h'.header] at hdata
  · obtain ⟨n, r, hr, hnode, hbatch⟩ := h.nodes x hx
    obtain ⟨n', r', hr', hnode', hbatch'⟩ := h'.nodes x hx'
    obtain ⟨-, rfl⟩ := ho.promise_unique hr hr' (hnode.trans hnode'.symm)
    exact hk (hbatch.symm.trans hbatch')

/-- The frames of the stack after a step that keeps the promises of their batches. -/
theorem Orderly.frames_of_keeps {q : Pauses} (hbatch : m.batch ≤ q.batch)
    (hcanceled : ∀ (n : ℕ) r, m.promises[n]? = some r → r.state = .canceled →
      ∃ r', q.promises[n]? = some r' ∧ r'.node = r.node ∧ r'.state = .canceled)
    (hkeeps : ∀ k < m.batch, Keeps m q k)
    (hholds : ∀ seq k l, paused < seq → k < m.batch → Holds m seq k l → Holds q seq k l) :
    ∀ frame ∈ m.stack, q.SoundFrame frame := by
  intro frame hframe
  have hsound := ho.frames frame hframe
  cases frame with
  | removeSequenceNode node =>
    obtain ⟨n, r, hr, hnode, hst⟩ := hsound
    obtain ⟨r', hr', hnode', hst'⟩ := hcanceled n r hr hst
    exact ⟨n, r', hr', hnode'.trans hnode, hst'⟩
  | wakeupEach tmp curr woken k turns =>
    obtain ⟨htmp, hk, done, todo, hwaking⟩ := hsound
    exact ⟨htmp, hk.trans_le hbatch, done, todo,
      hwaking.of_holds (hkeeps k hk) (hholds tmp k _ htmp hk hwaking.holds)⟩

omit ho in
theorem log_sorted_of_back {log : List ℕ}
    (h : log.Pairwise fun i j => ∀ r r', m.promises[i]? = some r → m.promises[j]? = some r' →
      r.batch = r'.batch → i < j)
    (hback : ∀ n ∈ log, ∀ r', m'.promises[n]? = some r' →
      ∃ r, m.promises[n]? = some r ∧ r.batch = r'.batch) :
    log.Pairwise fun i j => ∀ r r', m'.promises[i]? = some r → m'.promises[j]? = some r' →
      r.batch = r'.batch → i < j := by
  refine List.Pairwise.imp_of_mem ?_ h
  intro i j hi hj hlt r r' hr hr' hbatch
  obtain ⟨r₁, hr₁, hb₁⟩ := hback i hi r hr
  obtain ⟨r₂, hr₂, hb₂⟩ := hback j hj r' hr'
  exact hlt r₁ r₂ hr₁ hr₂ (by rw [hb₁, hb₂, hbatch])

end Orderly

end Pauses

end Lwt
