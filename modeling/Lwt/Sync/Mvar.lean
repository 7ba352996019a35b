import Lwt.Library.Tickets
import Lwt.Library.Transition

/-!
# `Lwt_mvar`

The functions of `lwt_mvar.ml`, called by any number of users in any order.  Calls of `put`
and of `take` are numbered, and a value is known by the `put` it came with.  As for the
other modules of this kind, a `cancel` rejects any number of pending promises first, and
their cancel callbacks take them out of the queues later.

`put` hands its value to the first reader and `take` lets the first writer in, whatever has
become of their promises.  A value that is handed to a canceled reader is lost, and a
canceled writer that is let in has its value received.  In all other runs the values pass
through the mvar in the order of the calls of `put` (`values_received_in_order`): `flow`,
the values received, the contents and the waiting writers in this order, stays sorted.
-/

namespace Lwt

open Tickets Transition

/-- What has become of the promise of a call of `put`. -/
inductive PutState
  | fulfilled
  | waiting
  /-- rejected by `cancel`, the cancel callback is yet to run -/
  | canceled
  | unlinked
  deriving DecidableEq

/-- What has become of the promise of a call of `take`; `received n v` has the value of the
`n`th `put`. -/
inductive TakeState (α : Type)
  | received (n : ℕ) (v : α)
  | waiting
  | canceled
  | unlinked
  deriving DecidableEq

/-- `'a Lwt_mvar.t`, with the calls of `put` and `take` made so far.  The queues hold the
numbers of the calls.  The number in `contents` and the log of the values received, with
the `take` that received each, are ghost. -/
structure Mvar (α : Type) where
  contents : Option (ℕ × α)
  writers : List ℕ
  readers : List ℕ
  values : List α
  puts : List PutState
  takes : List (TakeState α)
  log : List (ℕ × ℕ)
  deriving DecidableEq

namespace Mvar

variable {α : Type}

/-- `create_empty ()`. -/
def createEmpty : Mvar α := ⟨none, [], [], [], [], [], []⟩

/-- `create v`; the value counts as that of a `put`. -/
def create (v : α) : Mvar α := ⟨some (0, v), [], [], [v], [.fulfilled], [], []⟩

/-- `Lwt.wakeup_later` of the resolver of the `take` number `t`: ignored if its promise has
been canceled. -/
def wakeReader (m : Mvar α) (t n : ℕ) (v : α) : Mvar α :=
  match m.takes[t]? with
  | some .waiting =>
    { m with takes := m.takes.set t (.received n v), log := m.log ++ [(n, t)] }
  | _ => m

/-- `Lwt.wakeup_later` of the resolver of the `put` number `n`. -/
def wakeWriter (m : Mvar α) (n : ℕ) : Mvar α :=
  match m.puts[n]? with
  | some .waiting => { m with puts := m.puts.set n .fulfilled }
  | _ => m

/-- `put mvar v`. -/
def put (m : Mvar α) (v : α) : Mvar α :=
  let n := m.puts.length
  let m := { m with values := m.values ++ [v] }
  match m.contents with
  | none =>
    let m := { m with puts := m.puts ++ [PutState.fulfilled] }
    match m.readers with
    | [] => { m with contents := some (n, v) }
    | t :: readers => { m with readers := readers }.wakeReader t n v
  | some _ => { m with puts := m.puts ++ [.waiting], writers := m.writers ++ [n] }

/-- `next_writer mvar`. -/
def nextWriter (m : Mvar α) : Mvar α :=
  match m.writers with
  | n :: writers =>
    { m with writers := writers, contents := m.values[n]?.map fun v => (n, v) }.wakeWriter n
  | [] => { m with contents := none }

/-- `take_available mvar`; the value is received by a new call of `take`. -/
def takeAvailable (m : Mvar α) : Option (Mvar α) :=
  match m.contents with
  | some (n, v) =>
    let t := m.takes.length
    let m := m.nextWriter
    some { m with takes := m.takes ++ [.received n v], log := m.log ++ [(n, t)] }
  | none => none

/-- `take mvar`. -/
def take (m : Mvar α) : Mvar α :=
  match m.takeAvailable with
  | some m' => m'
  | none => { m with takes := m.takes ++ [.waiting], readers := m.readers ++ [m.takes.length] }

def rejectPut (m : Mvar α) (n : ℕ) : Mvar α :=
  if m.puts[n]? = some .waiting then { m with puts := m.puts.set n .canceled } else m

def rejectTake (m : Mvar α) (t : ℕ) : Mvar α :=
  match m.takes[t]? with
  | some .waiting => { m with takes := m.takes.set t .canceled }
  | _ => m

/-- A call of `Lwt.cancel` that reaches the promises of the `put`s `ns` and the `take`s
`ts`. -/
def cancel (m : Mvar α) (ns ts : List ℕ) : Mvar α := ts.foldl rejectTake (ns.foldl rejectPut m)

/-- What can happen to an mvar. -/
inductive Step (α : Type)
  | put (v : α)
  | take
  | takeAvailable
  | cancel (ns ts : List ℕ)
  | runPutCancelCallbacks (n : ℕ)
  | runTakeCancelCallbacks (t : ℕ)

def step (m : Mvar α) : Step α → Option (Mvar α)
  | .put v => some (m.put v)
  | .take => some m.take
  | .takeAvailable => some (m.takeAvailable.getD m)
  | .cancel ns ts => some (m.cancel ns ts)
  | .runPutCancelCallbacks n =>
    if m.puts[n]? = some .canceled then
      some { m with puts := m.puts.set n .unlinked, writers := m.writers.filter (· ≠ n) }
    else none
  | .runTakeCancelCallbacks t =>
    match m.takes[t]? with
    | some .canceled =>
      some { m with takes := m.takes.set t .unlinked, readers := m.readers.filter (· ≠ t) }
    | _ => none

/-! ## Invariant -/

/-- The values that have been let in: received, or the contents. -/
def passed (m : Mvar α) : List ℕ := m.log.map Prod.fst ++ (m.contents.map Prod.fst).toList

/-- The values received, the contents and the writers. -/
def flow (m : Mvar α) : List ℕ := m.passed ++ m.writers

def PutState.Linked (st : PutState) : Prop := st = .waiting ∨ st = .canceled

def TakeState.Linked (st : TakeState α) : Prop := st = .waiting ∨ st = .canceled

structure Orderly (m : Mvar α) : Prop where
  length : m.values.length = m.puts.length
  sorted : m.flow.Pairwise (· < ·)
  passed : ∀ n : ℕ, n ∈ m.passed ↔ m.puts[n]? = some .fulfilled
  writers : Queued PutState.Linked (· = PutState.waiting) m.puts m.writers
  readers : Queued TakeState.Linked (· = TakeState.waiting) m.takes m.readers
  idle : m.readers ≠ [] → m.contents = none ∧ m.writers = []
  full : m.writers ≠ [] → m.contents ≠ none
  contents : ∀ n v, m.contents = some (n, v) → m.values[n]? = some v
  log : ∀ n t : ℕ, (n, t) ∈ m.log ↔ ∃ v, m.takes[t]? = some (.received n v)
  values : ∀ (t n : ℕ) v, m.takes[t]? = some (.received n v) → m.values[n]? = some v

variable {m m' : Mvar α} {n t : ℕ} {v : α}

theorem orderly_createEmpty : Orderly (createEmpty : Mvar α) where
  length := rfl
  sorted := .nil
  passed := by simp [createEmpty, Mvar.passed]
  writers := .empty _ _
  readers := .empty _ _
  idle := by simp [createEmpty]
  full := by simp [createEmpty]
  contents := by simp [createEmpty]
  log := by simp [createEmpty]
  values := by simp [createEmpty]

namespace Orderly

theorem lt_length_of_passed (ho : Orderly m) (hn : n ∈ m.passed) : n < m.puts.length :=
  (List.getElem?_eq_some_iff.mp ((ho.passed n).mp hn)).1

theorem rejectPut (ho : Orderly m) (n : ℕ) : Orderly (m.rejectPut n) := by
  unfold Mvar.rejectPut
  split
  · rename_i hn
    exact
      { length := by simp [ho.length]
        sorted := ho.sorted
        passed := fun k => (ho.passed k).trans (getElem?_set_iff hn (by simp) (by simp) k).symm
        writers := ho.writers.set (fun _ => .inr rfl) (by simp)
        readers := ho.readers
        idle := ho.idle
        full := ho.full
        contents := ho.contents
        log := ho.log
        values := ho.values }
  · exact ho

theorem rejectTake (ho : Orderly m) (t : ℕ) : Orderly (m.rejectTake t) := by
  unfold Mvar.rejectTake
  split
  · rename_i ht
    have hsame : ∀ n v, _ := fun n v =>
      getElem?_set_iff (x := .received n v) (t := .canceled) ht (by simp) (by simp)
    exact
      { length := ho.length
        sorted := ho.sorted
        passed := ho.passed
        writers := ho.writers
        readers := ho.readers.set (fun _ => .inr rfl) (by simp)
        idle := ho.idle
        full := ho.full
        contents := ho.contents
        log := fun n k => (ho.log n k).trans (exists_congr fun v => (hsame n v k).symm)
        values := fun k n v hk => ho.values k n v ((hsame n v k).mp hk) }
  · exact ho

theorem cancel (ho : Orderly m) (ns ts : List ℕ) : Orderly (m.cancel ns ts) := by
  have hputs : ∀ (l : List ℕ) (m : Mvar α), Orderly m → Orderly (l.foldl Mvar.rejectPut m) := by
    intro l
    induction l with
    | nil => exact fun _ h => h
    | cons n l ih => exact fun m h => ih _ (h.rejectPut n)
  have htakes : ∀ (l : List ℕ) (m : Mvar α), Orderly m → Orderly (l.foldl Mvar.rejectTake m) := by
    intro l
    induction l with
    | nil => exact fun _ h => h
    | cons t l ih => exact fun m h => ih _ (h.rejectTake t)
  exact htakes ts _ (hputs ns m ho)

theorem runPutCancelCallbacks (ho : Orderly m) (hn : m.puts[n]? = some .canceled) :
    Orderly { m with puts := m.puts.set n .unlinked, writers := m.writers.filter (· ≠ n) } where
  length := by simp [ho.length]
  sorted := by
    have hsub : List.Sublist (m.passed ++ m.writers.filter (· ≠ n)) m.flow :=
      (List.Sublist.refl _).append List.filter_sublist
    exact ho.sorted.sublist hsub
  passed k := (ho.passed k).trans (getElem?_set_iff hn (by simp) (by simp) k).symm
  writers := ho.writers.remove (by simp)
  readers := ho.readers
  idle h := by
    obtain ⟨hcontents, hwriters⟩ := ho.idle h
    exact ⟨hcontents, by simp [hwriters]⟩
  full h := by
    refine ho.full fun hempty => h ?_
    simp [hempty]
  contents := ho.contents
  log := ho.log
  values := ho.values

theorem runTakeCancelCallbacks (ho : Orderly m) (ht : m.takes[t]? = some .canceled) :
    Orderly { m with takes := m.takes.set t .unlinked, readers := m.readers.filter (· ≠ t) } := by
  have hsame : ∀ n v, _ := fun n v =>
    getElem?_set_iff (x := .received n v) (t := .unlinked) ht (by simp) (by simp)
  exact
    { length := ho.length
      sorted := ho.sorted
      passed := ho.passed
      writers := ho.writers
      readers := ho.readers.remove (by simp)
      idle := fun h => ho.idle fun hempty => h (by simp [hempty])
      full := ho.full
      contents := ho.contents
      log := fun n k => (ho.log n k).trans (exists_congr fun v => (hsame n v k).symm)
      values := fun k n v hk => ho.values k n v ((hsame n v k).mp hk) }

theorem sorted_append (ho : Orderly m) (hwriters : m.writers = []) :
    (m.passed ++ [m.puts.length]).Pairwise (· < ·) := by
  have hpassed : m.passed.Pairwise (· < ·) := by simpa [flow, hwriters] using ho.sorted
  refine List.pairwise_append.mpr ⟨hpassed, by simp, fun k hk j hj => ?_⟩
  obtain rfl : j = m.puts.length := by simpa using hj
  exact ho.lt_length_of_passed hk

theorem values_append {w : α} (hn : m.values[n]? = some w) (v : α) :
    (m.values ++ [v])[n]? = some w := by
  rw [List.getElem?_append_left (List.getElem?_eq_some_iff.mp hn).1]
  exact hn

theorem fulfilled_append (ho : Orderly m) (k : ℕ) :
    (m.puts ++ [.fulfilled])[k]? = some .fulfilled ↔ k ∈ m.passed ∨ k = m.puts.length := by
  rw [ho.passed]
  constructor
  · intro hk
    exact (getElem?_append_cases hk).imp_right fun h => h.1
  · rintro (hk | rfl)
    · rw [List.getElem?_append_left (List.getElem?_eq_some_iff.mp hk).1]
      exact hk
    · simp

theorem put_contents (ho : Orderly m) (hcontents : m.contents = none) (hreaders : m.readers = [])
    (v : α) :
    Orderly { m with
      values := m.values ++ [v]
      puts := m.puts ++ [.fulfilled]
      contents := some (m.puts.length, v) } := by
  have hwriters : m.writers = [] := by
    by_contra hne
    exact ho.full hne hcontents
  have hpassed : m.passed = m.log.map Prod.fst := by simp [Mvar.passed, hcontents]
  exact
    { length := by simp [ho.length]
      sorted := by simpa [flow, Mvar.passed, hcontents, hwriters] using ho.sorted_append hwriters
      passed := fun k => by
        rw [ho.fulfilled_append, hpassed]
        simp [Mvar.passed]
      writers := ho.writers.append (by simp)
      readers := ho.readers
      idle := fun h => absurd hreaders h
      full := fun h => absurd hwriters h
      contents := fun n w h => by
        obtain ⟨rfl, rfl⟩ : m.puts.length = n ∧ v = w := by simpa using h
        simp [← ho.length]
      log := ho.log
      values := fun t n w h => values_append (ho.values t n w h) v }

theorem put_reader (ho : Orderly m) {readers : List ℕ} (hreaders : m.readers = t :: readers)
    (ht : m.takes[t]? = some .waiting) (v : α) :
    Orderly { m with
      values := m.values ++ [v]
      puts := m.puts ++ [.fulfilled]
      readers := readers
      takes := m.takes.set t (.received m.puts.length v)
      log := m.log ++ [(m.puts.length, t)] } := by
  obtain ⟨hcontents, hwriters⟩ := ho.idle (by simp [hreaders])
  have hpassed : m.passed = m.log.map Prod.fst := by simp [Mvar.passed, hcontents]
  have hlt := (List.getElem?_eq_some_iff.mp ht).1
  exact
    { length := by simp [ho.length]
      sorted := by simpa [flow, Mvar.passed, hcontents, hwriters] using ho.sorted_append hwriters
      passed := fun k => by
        rw [ho.fulfilled_append, hpassed]
        simp [Mvar.passed, hcontents]
      writers := ho.writers.append (by simp)
      readers := (hreaders ▸ ho.readers).dequeue (by simp)
      idle := fun _ => ⟨hcontents, hwriters⟩
      full := fun h => absurd hwriters h
      contents := fun n w h => by simp [hcontents] at h
      log := fun n k => by
        rw [List.mem_append, ho.log]
        by_cases hk : t = k
        · subst hk
          rw [ht, List.getElem?_set_self hlt]
          simp [eq_comm]
        · simp [List.getElem?_set_ne hk, Ne.symm hk]
      values := fun k n w h => by
        rcases getElem?_set_cases h with ⟨-, h⟩ | ⟨-, h⟩
        · obtain ⟨rfl, rfl⟩ : n = m.puts.length ∧ w = v := by simpa using h
          simp [← ho.length]
        · exact values_append (ho.values k n w h) v }

theorem put_wait (ho : Orderly m) (hcontents : m.contents ≠ none) (v : α) :
    Orderly { m with
      values := m.values ++ [v]
      puts := m.puts ++ [.waiting]
      writers := m.writers ++ [m.puts.length] } where
  length := by simp [ho.length]
  sorted := by
    show (m.passed ++ (m.writers ++ [m.puts.length])).Pairwise (· < ·)
    rw [← List.append_assoc]
    refine List.pairwise_append.mpr ⟨ho.sorted, by simp, fun k hk j hj => ?_⟩
    obtain rfl : j = m.puts.length := by simpa using hj
    rcases List.mem_append.mp hk with hk | hk
    · exact ho.lt_length_of_passed hk
    · exact ho.writers.lt_length hk
  passed k := by
    refine (ho.passed k).trans ⟨fun hk => ?_, fun hk => ?_⟩
    · show (m.puts ++ [.waiting])[k]? = _
      rw [List.getElem?_append_left (List.getElem?_eq_some_iff.mp hk).1]
      exact hk
    · exact (getElem?_append_cases hk).resolve_right (by simp)
  writers := ho.writers.enqueue (.inl rfl)
  readers := ho.readers
  idle h := absurd (ho.idle h).1 hcontents
  full _ := hcontents
  contents n w h := values_append (ho.contents n w h) v
  log := ho.log
  values t n w h := values_append (ho.values t n w h) v

end Orderly

/-- The promise of the `take` number `t` is pending. -/
def readerWaits (m : Mvar α) (t : ℕ) : Bool :=
  match m.takes[t]? with
  | some .waiting => true
  | _ => false

/-- A `put` or a `take` that wakes another call finds that its promise still waits. -/
def wakesWaiting (m : Mvar α) : Step α → Bool
  | .put _ =>
    match m.contents, m.readers with
    | none, t :: _ => m.readerWaits t
    | _, _ => true
  | .take | .takeAvailable =>
    match m.contents, m.writers with
    | some _, n :: _ => m.puts[n]? = some .waiting
    | _, _ => true
  | _ => true

theorem Orderly.put (ho : Orderly m) (hwakes : m.wakesWaiting (.put v) = true) :
    Orderly (m.put v) := by
  unfold Mvar.put
  dsimp only
  split
  · rename_i hcontents
    split
    · rename_i hreaders
      exact ho.put_contents hcontents hreaders v
    · rename_i t readers hreaders
      have ht : m.takes[t]? = some .waiting := by
        simp only [wakesWaiting, show m.contents = none from hcontents,
          show m.readers = t :: readers from hreaders, readerWaits] at hwakes
        split at hwakes
        · assumption
        · simp at hwakes
      simp only [wakeReader, ht]
      exact ho.put_reader hreaders ht v
  · rename_i hcontents
    exact ho.put_wait (by simp [show m.contents = some _ from hcontents]) v

/-- What `next_writer` makes of the contents and the writers. -/
theorem nextWriter_eq (ho : Orderly m) (hcontents : m.contents = some (n, v))
    (hwakes : m.wakesWaiting .take = true) :
    (m.writers = [] ∧ m.nextWriter = { m with contents := none }) ∨
      ∃ k w writers, m.writers = k :: writers ∧ m.values[k]? = some w ∧
        m.puts[k]? = some .waiting ∧
        m.nextWriter = { m with
          writers := writers, contents := some (k, w), puts := m.puts.set k .fulfilled } := by
  cases hwriters : m.writers with
  | nil => exact .inl ⟨rfl, by simp [nextWriter, hwriters]⟩
  | cons k writers =>
    have hk : m.puts[k]? = some .waiting := by
      simpa [wakesWaiting, hcontents, hwriters] using hwakes
    have hlt : k < m.values.length := by
      rw [ho.length]
      exact (List.getElem?_eq_some_iff.mp hk).1
    refine .inr ⟨k, m.values[k], writers, rfl, List.getElem?_eq_getElem hlt, hk, ?_⟩
    simp [nextWriter, hwriters, wakeWriter, hk, List.getElem?_eq_getElem hlt]

theorem Orderly.log_append (ho : Orderly m) (n j k : ℕ) (v : α) :
    (j, k) ∈ m.log ++ [(n, m.takes.length)] ↔
      ∃ w, (m.takes ++ [.received n v])[k]? = some (.received j w) := by
  rw [List.mem_append, ho.log]
  constructor
  · rintro (⟨w, hw⟩ | h)
    · refine ⟨w, ?_⟩
      rw [List.getElem?_append_left (List.getElem?_eq_some_iff.mp hw).1]
      exact hw
    · obtain ⟨rfl, rfl⟩ : j = n ∧ k = m.takes.length := by simpa using h
      exact ⟨v, by simp⟩
  · rintro ⟨w, hw⟩
    rcases getElem?_append_cases hw with hw | ⟨rfl, hw⟩
    · exact .inl ⟨w, hw⟩
    · obtain ⟨rfl, -⟩ : n = j ∧ v = w := by simpa using hw
      exact .inr (by simp)

theorem Orderly.takeAvailable (ho : Orderly m) (hwakes : m.wakesWaiting .take = true)
    (htake : m.takeAvailable = some m') : Orderly m' := by
  unfold Mvar.takeAvailable at htake
  split at htake
  · rename_i n v hcontents
    -- readers wait only for an empty variable
    have hreaders : m.readers = [] := by
      by_contra hne
      simp [(ho.idle hne).1] at hcontents
    have hvalue := ho.contents n v hcontents
    have hvalues : ∀ (t k : ℕ) (w : α), (m.takes ++ [.received n v])[t]? = some (.received k w) →
        m.values[k]? = some w := by
      intro t k w h
      rcases getElem?_append_cases h with h | ⟨-, h⟩
      · exact ho.values t k w h
      · obtain ⟨rfl, rfl⟩ : k = n ∧ w = v := by simpa using h
        exact hvalue
    have hpassed : m.passed = m.log.map Prod.fst ++ [n] := by simp [Mvar.passed, hcontents]
    -- no writer waits, or the first one fills the variable at once
    rcases nextWriter_eq ho hcontents hwakes with ⟨hwriters, hnext⟩ |
      ⟨k, w, writers, hwriters, hw, hk, hnext⟩
    · cases htake
      simp only [hnext]
      exact
        { length := ho.length
          sorted := by simpa [flow, Mvar.passed, hcontents, hwriters] using ho.sorted
          passed := fun j => by simpa [Mvar.passed, hcontents] using ho.passed j
          writers := ho.writers
          readers := ho.readers.append (by simp)
          idle := fun h => absurd hreaders h
          full := fun h => absurd hwriters h
          contents := by simp
          log := fun j t => ho.log_append n j t v
          values := hvalues }
    · cases htake
      simp only [hnext]
      exact
        { length := by simp [ho.length]
          sorted := by simpa [flow, Mvar.passed, hcontents, hwriters] using ho.sorted
          passed := fun j => by
            have hold := ho.passed j
            rw [hpassed] at hold
            simp only [Mvar.passed, List.map_append, List.map_cons, List.map_nil, Option.map_some,
              Option.toList_some, List.mem_append, List.mem_singleton] at hold ⊢
            by_cases hjk : j = k
            · subst hjk
              simp [(List.getElem?_eq_some_iff.mp hk).1]
            · rw [List.getElem?_set_ne (Ne.symm hjk), ← hold]
              simp [hjk]
          writers := (hwriters ▸ ho.writers).dequeue (by simp)
          readers := ho.readers.append (by simp)
          idle := fun h => absurd hreaders h
          full := by simp
          contents := fun j x h => by
            obtain ⟨rfl, rfl⟩ : k = j ∧ w = x := by simpa using h
            exact hw
          log := fun j t => ho.log_append n j t v
          values := hvalues }
  · simp at htake

theorem Orderly.take (ho : Orderly m) (hwakes : m.wakesWaiting .take = true) : Orderly m.take := by
  unfold Mvar.take
  split
  · rename_i m' htake
    exact ho.takeAvailable hwakes htake
  · rename_i htake
    have hcontents : m.contents = none := by
      unfold Mvar.takeAvailable at htake
      split at htake
      · simp at htake
      · assumption
    have hwriters : m.writers = [] := by
      by_contra hne
      exact ho.full hne hcontents
    have hsame : ∀ (t k : ℕ) (w : α), (m.takes ++ [.waiting])[t]? = some (.received k w) ↔
        m.takes[t]? = some (.received k w) := by
      intro t k w
      refine ⟨fun h => (getElem?_append_cases h).resolve_right (by simp), fun h => ?_⟩
      rw [List.getElem?_append_left (List.getElem?_eq_some_iff.mp h).1]
      exact h
    exact
      { length := ho.length
        sorted := ho.sorted
        passed := ho.passed
        writers := ho.writers
        readers := ho.readers.enqueue (.inl rfl)
        idle := fun _ => ⟨hcontents, hwriters⟩
        full := ho.full
        contents := ho.contents
        log := fun j t => (ho.log j t).trans (exists_congr fun w => (hsame t j w).symm)
        values := fun t k w h => ho.values t k w ((hsame t k w).mp h) }

theorem Orderly.step {a : Step α} (ho : Orderly m) (hwakes : m.wakesWaiting a = true)
    (hstep : m.step a = some m') : Orderly m' := by
  cases a with
  | put v =>
    cases hstep
    exact ho.put hwakes
  | take =>
    cases hstep
    exact ho.take hwakes
  | takeAvailable =>
    cases hstep
    cases htake : m.takeAvailable with
    | none => exact ho
    | some m' => exact ho.takeAvailable hwakes htake
  | cancel ns ts =>
    cases hstep
    exact ho.cancel ns ts
  | runPutCancelCallbacks n =>
    simp only [Mvar.step, Option.ite_none_right_eq_some, Option.some.injEq] at hstep
    obtain ⟨hn, rfl⟩ := hstep
    exact ho.runPutCancelCallbacks hn
  | runTakeCancelCallbacks t =>
    simp only [Mvar.step] at hstep
    split at hstep
    · rename_i ht
      cases hstep
      exact ho.runTakeCancelCallbacks ht
    · simp at hstep

theorem create_eq_put (v : α) : create v = (createEmpty : Mvar α).put v := rfl

theorem orderly_create (v : α) : Orderly (create v) := by
  rw [create_eq_put]
  exact orderly_createEmpty.put rfl

theorem Orderly.log_sorted (ho : Orderly m) : (m.log.map Prod.fst).Pairwise (· < ·) := by
  have hsub : List.Sublist (m.log.map Prod.fst) m.flow := by
    rw [flow, Mvar.passed, List.append_assoc]
    exact List.sublist_append_left _ _
  exact ho.sorted.sublist hsub

theorem Orderly.log_unique (ho : Orderly m) {t' : ℕ} (ht : (n, t) ∈ m.log) (ht' : (n, t') ∈ m.log) :
    t = t' := by
  have hnodup : (m.log.map Prod.fst).Nodup := ho.log_sorted.imp fun h => Nat.ne_of_lt h
  have heq := List.inj_on_of_nodup_map hnodup ht ht' rfl
  simpa using heq

theorem Orderly.contents_not_received (ho : Orderly m) (hcontents : m.contents = some (n, v)) :
    (n, t) ∉ m.log := by
  intro ht
  have hpassed : (m.log.map Prod.fst ++ [n]).Pairwise (· < ·) := by
    have hsub : List.Sublist (m.log.map Prod.fst ++ [n]) m.flow := by
      simp [flow, Mvar.passed, hcontents]
    exact ho.sorted.sublist hsub
  have hlt := (List.pairwise_append.mp hpassed).2.2 n (List.mem_map.mpr ⟨_, ht, rfl⟩) n (by simp)
  exact Nat.lt_irrefl n hlt

/-- In every run in which a `put` or a `take` wakes only calls that still wait: a value whose
`put` is fulfilled has been received by exactly one `take`, or is the contents; values are
received in the order of their `put`s, with the value given; the value of a canceled
`put` is not received; while readers wait there are neither contents nor writers, and
while writers wait there are contents. -/
theorem values_received_in_order {m₀ m : Mvar α} (h₀ : m₀ = createEmpty ∨ ∃ v, m₀ = create v)
    (hreach : Reach step (fun m a => m.wakesWaiting a = true) m₀ m) :
    (∀ n : ℕ, m.puts[n]? = some .fulfilled →
      ((∃! t, (n, t) ∈ m.log) ∧ ∀ v, m.contents ≠ some (n, v)) ∨
        ((∀ t, (n, t) ∉ m.log) ∧ ∃ v, m.contents = some (n, v) ∧ m.values[n]? = some v)) ∧
    (m.log.map Prod.fst).Pairwise (· < ·) ∧
    (∀ n t : ℕ, (n, t) ∈ m.log ↔
      ∃ v, m.takes[t]? = some (.received n v) ∧ m.values[n]? = some v) ∧
    (∀ n : ℕ, m.puts[n]? = some .canceled ∨ m.puts[n]? = some .unlinked → ∀ t, (n, t) ∉ m.log) ∧
    (m.readers ≠ [] → m.contents = none ∧ m.writers = []) ∧
    (m.writers ≠ [] → m.contents ≠ none) := by
  have hinit : Orderly m₀ := by
    rcases h₀ with rfl | ⟨v, rfl⟩
    · exact orderly_createEmpty
    · exact orderly_create v
  have ho : Orderly m := hreach.invariant hinit fun _ _ _ ho hok hstep => ho.step hok hstep
  have hlog : ∀ {n t : ℕ}, (n, t) ∈ m.log → m.puts[n]? = some .fulfilled := by
    intro n t ht
    refine (ho.passed n).mp (List.mem_append_left _ (List.mem_map.mpr ⟨_, ht, rfl⟩))
  refine ⟨fun n hn => ?_, ho.log_sorted, fun n t => ?_, fun n hn t ht => ?_, ho.idle, ho.full⟩
  · rcases List.mem_append.mp ((ho.passed n).mpr hn) with hmem | hmem
    · obtain ⟨⟨n', t⟩, ht, rfl⟩ := List.mem_map.mp hmem
      exact .inl ⟨⟨t, ht, fun t' ht' => ho.log_unique ht' ht⟩,
        fun v hv => ho.contents_not_received hv ht⟩
    · obtain ⟨⟨n', v⟩, hv, rfl⟩ : ∃ i, m.contents = some i ∧ i.1 = n := by
        simpa [Option.mem_toList] using hmem
      exact .inr ⟨fun t => ho.contents_not_received hv, v, hv, ho.contents n' v hv⟩
  · rw [ho.log]
    exact exists_congr fun v => ⟨fun h => ⟨h, ho.values t n v h⟩, fun h => h.1⟩
  · rcases hn with hn | hn
    · simp [hlog ht] at hn
    · simp [hlog ht] at hn

/-- A reader is canceled, and a `put` comes before its cancel callback. -/
def canceledReaderSteps : List (Step ℕ) := [.take, .cancel [] [0], .put 7]

/-- A writer is canceled, and a `take` comes before its cancel callback. -/
def canceledWriterSteps : List (Step ℕ) := [.put 7, .put 8, .cancel [1] [], .take, .take]

/-- The value of a fulfilled `put` is lost; the value of a canceled one is received. -/
theorem value_lost_to_canceled :
    (∃ m : Mvar ℕ, Reach step (fun _ _ => True) createEmpty m ∧
      m.puts[0]? = some .fulfilled ∧ m.log = [] ∧ m.contents = none ∧ m.writers = []) ∧
    ∃ m : Mvar ℕ, Reach step (fun _ _ => True) createEmpty m ∧
      m.puts[1]? = some .canceled ∧ (1, 1) ∈ m.log :=
  ⟨⟨⟨none, [], [], [7], [.fulfilled], [.canceled], []⟩,
      reach_of_replay canceledReaderSteps (by decide), rfl, rfl, rfl, rfl⟩,
    ⟨⟨none, [], [], [7, 8], [.fulfilled, .canceled], [.received 0 7, .received 1 8],
        [(0, 0), (1, 1)]⟩,
      reach_of_replay canceledWriterSteps (by decide), rfl, by decide⟩⟩

/-- Readers and writers are canceled, and taken out of the queues in time. -/
def timelySteps : List (Step ℕ) :=
  [.put 7, .put 8, .put 9, .cancel [1] [], .runPutCancelCallbacks 1, .take, .take, .take,
    .cancel [] [2], .runTakeCancelCallbacks 2, .put 6]

theorem values_received_in_order_timely : ∃ m : Mvar ℕ,
    Reach step (fun m a => m.wakesWaiting a = true) createEmpty m ∧
      m.log = [(0, 0), (2, 1)] ∧ (m.log.map Prod.fst).Pairwise (· < ·) ∧
      ∀ t, (1, t) ∉ m.log := by
  have hreach : Reach step (fun m a => m.wakesWaiting a = true) createEmpty
      (⟨some (3, 6), [], [], [7, 8, 9, 6], [.fulfilled, .unlinked, .fulfilled, .fulfilled],
        [.received 0 7, .received 2 9, .unlinked], [(0, 0), (2, 1)]⟩ : Mvar ℕ) :=
    reach_of_checked timelySteps (by decide)
  obtain ⟨-, hsorted, -, hcanceled, -⟩ := values_received_in_order (.inl rfl) hreach
  exact ⟨_, hreach, rfl, hsorted, hcanceled 1 (.inr rfl)⟩

end Mvar

end Lwt
