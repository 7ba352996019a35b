import Mathlib.Data.List.Basic
import Lwt.Library.Transition

/-!
# `Lwt_process.monitor`

`monitor sender st` is a stream of `from`.  As long as its promise for `sender` is pending, each
element is asked from `st` and the function waits for the first of the two; if `sender` has failed,
its failure is given for this element, and the read that has been started is saved for the next one.

The promise that is looked at is `sender >|= fun () -> None`.  It fails when the callback of `>|=`
is run, and other callbacks on the argument may be run before, so a step is one callback, or the
resolution of one promise.  What the stream gives are the results of the reads in their order, and
the failure before the first one that follows the failure of this promise (`monitor_inserts`), but
not always before the first one that follows the failure of the argument.
-/

namespace Lwt.Process

open Transition

variable {α β ε : Type}

/-- `'a map_state`; a read of `st` is given by its number. -/
inductive MapState
  | init
  | save (getter : ℕ)
  | done

/-- `from_thread`: resolved, waiting for `Lwt.choose [sender; getter]`, or for the getter. -/
inductive Thread
  | resolved
  | choice (getter : ℕ)
  | promise (getter : ℕ)
  deriving DecidableEq

/-- `getters` are the promises of the reads of `st`, and `results` the results of the calls of
`from_create`.  The two promises of the sender have, beside their result, the number of the results
that were given before they were resolved, which is not part of the program. -/
structure Monitor (α ε : Type) where
  argument : Option (Except ε Unit × ℕ)
  sender : Option (Except ε (Option α) × ℕ)
  state : MapState
  getters : List (Option (Except ε (Option α)))
  thread : Thread
  results : List (Except ε (Option α))

/-- `sender >|= fun () -> None` -/
def mapped (result : Except ε Unit) : Except ε (Option α) := result.map fun () => none

/-- `monitor sender st`, for a sender that is pending or has a result. -/
def monitor (sender : Option (Except ε Unit)) : Monitor α ε where
  argument := sender.map fun result => (result, 0)
  sender := sender.map fun result => (mapped result, 0)
  state := .init
  getters := []
  thread := .resolved
  results := []

namespace Monitor

/-- The promise of `from_create` is resolved, and the element is in the queue. -/
def deliver (s : Monitor α ε) (result : Except ε (Option α)) : Monitor α ε :=
  { s with thread := .resolved, results := s.results ++ [result] }

/-- The promise of `from_create` is the getter. -/
def behaveAs (s : Monitor α ε) (getter : ℕ) : Monitor α ε :=
  match s.getters[getter]?.join with
  | some result => s.deliver result
  | none => { s with thread := .promise getter }

/-- The function of the stream. -/
def fromCreate (s : Monitor α ε) : Monitor α ε :=
  match s.state with
  | .init => { s with getters := s.getters ++ [none], thread := .choice s.getters.length }
  | .save t => { s with state := .done }.behaveAs t
  | .done => { s with getters := s.getters ++ [none] }.behaveAs s.getters.length

/-- `result _` -/
def result (s : Monitor α ε) (getter : ℕ) : Monitor α ε :=
  match s.sender.map Prod.fst with
  | none => s.behaveAs getter
  | some (.ok _) => { s with state := .done }.behaveAs getter
  | some (.error e) => { s with state := .save getter }.deliver (.error e)

/-- The end of the stream has been given. -/
def ended (s : Monitor α ε) : Bool :=
  s.results.any fun result => match result with
    | .ok none => true
    | _ => false

end Monitor

inductive Event (α ε : Type)
  /-- a read of the stream calls `feed` -/
  | feed
  /-- the argument of `monitor` is resolved -/
  | sender (result : Except ε Unit)
  /-- the callback of `>|=` -/
  | map
  /-- a read of `st` comes to its end -/
  | getter (getter : ℕ) (result : Except ε (Option α))
  /-- the callback of `Lwt.try_bind` -/
  | result

def monitorStep (s : Monitor α ε) : Event α ε → Option (Monitor α ε)
  | .feed =>
    if s.ended then none
    else some (if s.thread = .resolved then s.fromCreate else s)
  | .sender result =>
    match s.argument with
    | none => some { s with argument := some (result, s.results.length) }
    | some _ => none
  | .map =>
    match s.argument, s.sender with
    | some (result, _), none => some { s with sender := some (mapped result, s.results.length) }
    | _, _ => none
  | .getter getter result =>
    match s.getters[getter]? with
    | some none =>
      let s := { s with getters := s.getters.set getter (some result) }
      some (if s.thread = .promise getter then s.behaveAs getter else s)
    | _ => none
  | .result =>
    match s.thread with
    | .choice getter =>
      if s.sender.isSome || s.getters[getter]?.join.isSome then some (s.result getter) else none
    | _ => none

/-! ## What the stream gives -/

/-- The failure of a promise, and the number of the results that were given before. -/
def failure : Option (Except ε β × ℕ) → Option (ε × ℕ)
  | some (.error e, k) => some (e, k)
  | _ => none

variable {reads results : List (Except ε (Option α))} {failed : Option (ε × ℕ)}

/-- The failure has been inserted. -/
def Past (failed : Option (ε × ℕ)) (reads results : List (Except ε (Option α))) : Prop :=
  match failed with
  | none => results = reads
  | some (e, k) => k ≤ reads.length ∧ results = reads.take k ++ .error e :: reads.drop k

/-- Nothing has been given since the failure. -/
def Before (failed : Option (ε × ℕ)) (reads results : List (Except ε (Option α))) : Prop :=
  results = reads ∧ ∀ e k, failed = some (e, k) → k = reads.length

/-- The results are those of the reads, with the failure before the first one after it. -/
def Inserted (failed : Option (ε × ℕ)) (reads results : List (Except ε (Option α))) : Prop :=
  Before failed reads results ∨ Past failed reads results

theorem Past.add (h : Past failed reads results) (r : Except ε (Option α)) :
    Past failed (reads ++ [r]) (results ++ [r]) := by
  cases failed with
  | none => exact congrArg (· ++ [r]) h
  | some f =>
    obtain ⟨hle, heq⟩ := h
    refine ⟨?_, ?_⟩
    · rw [List.length_append]
      exact Nat.le_add_right_of_le hle
    · rw [heq, List.take_append_of_le_length hle, List.drop_append_of_le_length hle]
      simp

/-- `reads` are the results of the first reads of `st`, and one more may have been started. -/
structure Reads (s : Monitor α ε) (reads : List (Except ε (Option α))) : Prop where
  take : s.getters.take reads.length = reads.map some
  length : s.getters.length ≤ reads.length + 1
  /-- a call of `from_create` that is under way waits for the next one, or goes on -/
  waits : s.thread = .resolved ∨ s.getters = reads.map some ++ [none] ∨
    ∃ t, monitorStep s .result = some t

/-- Where the function of the stream is, when the results of `reads` have been given. -/
inductive Phase (s : Monitor α ε) (reads : List (Except ε (Option α))) : Prop
  | idle (hstate : s.state = .init) (hthread : s.thread = .resolved)
      (hgetters : s.getters = reads.map some) (h : Before (failure s.sender) reads s.results)
  | choosing (p : Option (Except ε (Option α))) (hstate : s.state = .init)
      (hthread : s.thread = .choice reads.length) (hgetters : s.getters = reads.map some ++ [p])
      (h : Before (failure s.sender) reads s.results)
  | saved (p : Option (Except ε (Option α))) (e : ε) (hstate : s.state = .save reads.length)
      (hthread : s.thread = .resolved) (hgetters : s.getters = reads.map some ++ [p])
      (hsender : s.sender.isSome) (h : Past (failure s.sender) reads s.results)
  | waiting (hstate : s.state = .done) (hthread : s.thread = .promise reads.length)
      (hgetters : s.getters = reads.map some ++ [none])
      (hsender : s.sender.isSome) (h : Past (failure s.sender) reads s.results)
  | finished (hstate : s.state = .done) (hthread : s.thread = .resolved)
      (hgetters : s.getters = reads.map some)
      (hsender : s.sender.isSome) (h : Past (failure s.sender) reads s.results)

section Steps

variable {s t : Monitor α ε} {p : Option (Except ε (Option α))}

theorem getElem_last (hgetters : s.getters = reads.map some ++ [p]) :
    s.getters[reads.length]? = some p := by
  rw [hgetters, List.getElem?_append_right (by simp)]
  simp

theorem set_last (hgetters : s.getters = reads.map some ++ [p]) (q : Option (Except ε (Option α))) :
    s.getters.set reads.length q = reads.map some ++ [q] := by
  rw [hgetters, List.set_append_right _ _ (by simp)]
  simp

/-- Only the last read may be pending. -/
theorem eq_last_of_pending {getter : ℕ} (hgetters : s.getters = reads.map some ++ [p])
    (h : s.getters[getter]? = some none) : getter = reads.length ∧ p = none := by
  rw [hgetters] at h
  rcases Nat.lt_or_ge getter reads.length with hlt | hge
  · rw [List.getElem?_append_left (by simpa using hlt)] at h
    simp at h
  · rw [List.getElem?_append_right (by simpa using hge)] at h
    obtain ⟨hlt, hp⟩ := List.getElem?_eq_some_iff.mp h
    simp only [List.length_map, List.length_singleton] at hlt
    have hzero : getter - reads.length = 0 := by omega
    simp only [List.length_map, hzero, List.getElem_cons_zero] at hp
    exact ⟨by omega, hp⟩

theorem getters_add {r : Except ε (Option α)} (hgetters : s.getters = reads.map some ++ [some r]) :
    s.getters = (reads ++ [r]).map some := by
  rw [hgetters, List.map_append, List.map_singleton]

theorem not_pending {getter : ℕ} (hgetters : s.getters = reads.map some) :
    s.getters[getter]? ≠ some none := by
  rw [hgetters, List.getElem?_map]
  cases reads[getter]? <;> simp

theorem phase_behaveAs (hstate : s.state = .done) (hgetters : s.getters = reads.map some ++ [p])
    (hsender : s.sender.isSome) (h : Past (failure s.sender) reads s.results) :
    ∃ reads', Phase (s.behaveAs reads.length) reads' := by
  unfold Monitor.behaveAs
  rw [getElem_last hgetters, Option.join_some]
  cases p with
  | none => exact ⟨reads, .waiting hstate rfl hgetters hsender h⟩
  | some r => exact ⟨reads ++ [r], .finished hstate rfl (getters_add hgetters) hsender (h.add r)⟩

theorem fromCreate_init (hstate : s.state = .init) :
    s.fromCreate =
      { s with getters := s.getters ++ [none], thread := .choice s.getters.length } := by
  obtain ⟨_, _, state, _, _, _⟩ := s
  obtain rfl : state = .init := hstate
  rfl

theorem fromCreate_save {getter : ℕ} (hstate : s.state = .save getter) :
    s.fromCreate = { s with state := .done }.behaveAs getter := by
  obtain ⟨_, _, state, _, _, _⟩ := s
  obtain rfl : state = .save getter := hstate
  rfl

theorem fromCreate_done (hstate : s.state = .done) :
    s.fromCreate = { s with getters := s.getters ++ [none] }.behaveAs s.getters.length := by
  obtain ⟨_, _, state, _, _, _⟩ := s
  obtain rfl : state = .done := hstate
  rfl

theorem result_none (getter : ℕ) (hsender : s.sender = none) :
    s.result getter = s.behaveAs getter := by
  unfold Monitor.result
  rw [hsender]
  rfl

theorem result_ok (getter : ℕ) {x : Option α} {k : ℕ} (hsender : s.sender = some (.ok x, k)) :
    s.result getter = { s with state := .done }.behaveAs getter := by
  obtain ⟨_, sender, _, _, _, _⟩ := s
  obtain rfl : sender = some (.ok x, k) := hsender
  rfl

theorem result_error (getter : ℕ) {e : ε} {k : ℕ} (hsender : s.sender = some (.error e, k)) :
    s.result getter = { s with state := .save getter }.deliver (.error e) := by
  obtain ⟨_, sender, _, _, _, _⟩ := s
  obtain rfl : sender = some (.error e, k) := hsender
  rfl

theorem Phase.feed (h : Phase s reads) (hthread : s.thread = .resolved) :
    ∃ reads', Phase s.fromCreate reads' := by
  cases h with
  | idle hstate _ hgetters h =>
    rw [fromCreate_init hstate]
    refine ⟨reads, .choosing none hstate ?_ (congrArg (· ++ [none]) hgetters) h⟩
    change Thread.choice s.getters.length = _
    rw [hgetters, List.length_map]
  | choosing p _ hthread' => cases hthread.symm.trans hthread'
  | saved p e hstate _ hgetters hsender h =>
    rw [fromCreate_save hstate]
    exact phase_behaveAs (s := { s with state := .done }) rfl hgetters hsender h
  | waiting _ hthread' => cases hthread.symm.trans hthread'
  | finished hstate _ hgetters hsender h =>
    rw [fromCreate_done hstate, hgetters, List.length_map]
    exact phase_behaveAs (s := { s with getters := reads.map some ++ [none] }) hstate rfl
      hsender h

theorem Phase.result (h : Phase s reads) {getter : ℕ} (hthread : s.thread = .choice getter)
    (hready : s.sender.isSome || s.getters[getter]?.join.isSome) :
    ∃ reads', Phase (s.result getter) reads' := by
  cases h with
  | idle _ hthread' => cases hthread.symm.trans hthread'
  | saved _ _ _ hthread' => cases hthread.symm.trans hthread'
  | waiting _ hthread' => cases hthread.symm.trans hthread'
  | finished _ hthread' => cases hthread.symm.trans hthread'
  | choosing p hstate hthread' hgetters h =>
    cases hthread.symm.trans hthread'
    cases hsender : s.sender with
    | none =>
      rw [getElem_last hgetters, Option.join_some, hsender] at hready
      obtain ⟨r, rfl⟩ := Option.isSome_iff_exists.mp hready
      rw [result_none _ hsender, Monitor.behaveAs, getElem_last hgetters, Option.join_some]
      rw [hsender] at h
      refine ⟨reads ++ [r], .idle hstate rfl (getters_add hgetters)
        ⟨congrArg (· ++ [r]) h.1, fun e k hfailed => ?_⟩⟩
      change failure s.sender = _ at hfailed
      rw [hsender] at hfailed
      cases hfailed
    | some resolved =>
      obtain ⟨x, k⟩ := resolved
      have hisSome : s.sender.isSome := by
        rw [hsender]
        rfl
      rw [hsender] at h
      cases x with
      | ok x =>
        rw [result_ok _ hsender]
        refine phase_behaveAs (s := { s with state := .done }) rfl hgetters hisSome ?_
        change Past (failure s.sender) reads s.results
        rw [hsender]
        exact h.1
      | error e =>
        -- nothing has been given since the failure, so it comes after all the reads
        obtain rfl : k = reads.length := h.2 e k rfl
        rw [result_error _ hsender]
        refine ⟨reads, .saved p e rfl rfl hgetters hisSome ?_⟩
        change Past (failure s.sender) reads (s.results ++ [.error e])
        rw [hsender, h.1]
        refine ⟨Nat.le_refl _, ?_⟩
        rw [List.take_length, List.drop_length]

theorem Phase.getter (h : Phase s reads) {getter : ℕ} {r : Except ε (Option α)}
    (hpending : s.getters[getter]? = some none) :
    ∃ reads', Phase
      (if s.thread = .promise getter
        then { s with getters := s.getters.set getter (some r) }.behaveAs getter
        else { s with getters := s.getters.set getter (some r) }) reads' := by
  cases h with
  | idle _ _ hgetters => exact absurd hpending (not_pending hgetters)
  | finished _ _ hgetters => exact absurd hpending (not_pending hgetters)
  | choosing p hstate hthread hgetters h =>
    obtain ⟨rfl, rfl⟩ := eq_last_of_pending hgetters hpending
    rw [if_neg (by simp [hthread])]
    exact ⟨reads, .choosing (some r) hstate hthread (set_last hgetters _) h⟩
  | saved p e hstate hthread hgetters hsender h =>
    obtain ⟨rfl, rfl⟩ := eq_last_of_pending hgetters hpending
    rw [if_neg (by simp [hthread])]
    exact ⟨reads, .saved (some r) e hstate hthread (set_last hgetters _) hsender h⟩
  | waiting hstate hthread hgetters hsender h =>
    obtain ⟨rfl, -⟩ := eq_last_of_pending hgetters hpending
    rw [if_pos hthread]
    exact phase_behaveAs hstate (set_last hgetters (some r)) hsender h

theorem Phase.map (h : Phase s reads) (hsender : s.sender = none) (r : Except ε (Option α)) :
    Phase { s with sender := some (r, s.results.length) } reads := by
  have hbefore : Before (failure s.sender) reads s.results →
      Before (failure (some (r, s.results.length))) reads s.results := by
    intro h
    refine ⟨h.1, fun e k hfailed => ?_⟩
    cases r with
    | ok x => cases hfailed
    | error e' =>
      obtain ⟨-, rfl⟩ := Prod.mk.inj (Option.some.inj hfailed)
      rw [h.1]
  cases h with
  | idle hstate hthread hgetters h => exact .idle hstate hthread hgetters (hbefore h)
  | choosing p hstate hthread hgetters h => exact .choosing p hstate hthread hgetters (hbefore h)
  | saved _ _ _ _ _ hsome => simp [hsender] at hsome
  | waiting _ _ _ hsome => simp [hsender] at hsome
  | finished _ _ _ hsome => simp [hsender] at hsome

theorem phase_step {a : Event α ε} (h : Phase s reads) (hstep : monitorStep s a = some t) :
    ∃ reads', Phase t reads' := by
  cases a with
  | feed =>
    simp only [monitorStep] at hstep
    split at hstep
    · cases hstep
    · cases hstep
      split
      · rename_i hthread
        exact h.feed hthread
      · exact ⟨reads, h⟩
  | sender r =>
    simp only [monitorStep] at hstep
    split at hstep
    · cases hstep
      refine ⟨reads, ?_⟩
      cases h with
      | idle h₁ h₂ h₃ h₄ => exact .idle h₁ h₂ h₃ h₄
      | choosing p h₁ h₂ h₃ h₄ => exact .choosing p h₁ h₂ h₃ h₄
      | saved p e h₁ h₂ h₃ h₄ h₅ => exact .saved p e h₁ h₂ h₃ h₄ h₅
      | waiting h₁ h₂ h₃ h₄ h₅ => exact .waiting h₁ h₂ h₃ h₄ h₅
      | finished h₁ h₂ h₃ h₄ h₅ => exact .finished h₁ h₂ h₃ h₄ h₅
    · cases hstep
  | map =>
    simp only [monitorStep] at hstep
    split at hstep
    · rename_i hsender
      cases hstep
      exact ⟨reads, h.map hsender _⟩
    · cases hstep
  | getter getter r =>
    simp only [monitorStep] at hstep
    split at hstep
    · rename_i hpending
      cases hstep
      exact h.getter hpending
    · cases hstep
  | result =>
    simp only [monitorStep] at hstep
    split at hstep
    · rename_i getter hthread
      obtain ⟨hready, hstep⟩ := Option.ite_none_right_eq_some.mp hstep
      cases hstep
      exact h.result hthread hready
    · cases hstep

theorem Phase.toReads (h : Phase s reads) : Reads s reads := by
  have htake (p : Option (Except ε (Option α))) :
      (reads.map some ++ [p]).take reads.length = reads.map some := by
    rw [List.take_left' (List.length_map _)]
  cases h with
  | idle _ hthread hgetters | finished _ hthread hgetters =>
    refine ⟨?_, by simp [hgetters], .inl hthread⟩
    rw [hgetters, List.take_of_length_le (by simp)]
  | saved p _ _ hthread hgetters =>
    refine ⟨?_, by simp [hgetters], .inl hthread⟩
    rw [hgetters, htake]
  | waiting _ _ hgetters =>
    refine ⟨?_, by simp [hgetters], .inr (.inl hgetters)⟩
    rw [hgetters, htake]
  | choosing p _ hthread hgetters =>
    refine ⟨by rw [hgetters, htake], by simp [hgetters], .inr ?_⟩
    cases p with
    | none => exact .inl hgetters
    | some r =>
      right
      refine ⟨s.result reads.length, ?_⟩
      simp only [monitorStep, hthread]
      rw [getElem_last hgetters]
      simp

theorem Phase.inserted (h : Phase s reads) : Inserted (failure s.sender) reads s.results := by
  cases h with
  | idle _ _ _ h => exact .inl h
  | choosing _ _ _ _ h => exact .inl h
  | saved _ _ _ _ _ _ h => exact .inr h
  | waiting _ _ _ _ h => exact .inr h
  | finished _ _ _ _ h => exact .inr h

end Steps

theorem phase_monitor (sender : Option (Except ε Unit)) :
    Phase (monitor sender : Monitor α ε) [] := by
  refine .idle rfl rfl rfl ⟨rfl, fun e k hfailed => ?_⟩
  cases sender with
  | none => cases hfailed
  | some r =>
    cases r with
    | ok => cases hfailed
    | error e' => exact ((Prod.mk.inj (Option.some.inj hfailed)).2).symm

/-- In every state the results that the stream has given are those of the reads of `st`, in their
order, each of them once; the failure of the sender comes before the first one that has been given
since the promise for the sender has failed, and once. -/
theorem monitor_inserts {sender : Option (Except ε Unit)} {s : Monitor α ε}
    (h : Reach monitorStep (fun _ _ => True) (monitor sender) s) :
    ∃ reads, Reads s reads ∧ Inserted (failure s.sender) reads s.results := by
  have hphase : ∃ reads, Phase s reads := by
    refine h.invariant (P := fun s => ∃ reads, Phase s reads) ⟨[], phase_monitor sender⟩ ?_
    rintro s a t ⟨reads, hphase⟩ - hstep
    exact phase_step hphase hstep
  obtain ⟨reads, hphase⟩ := hphase
  exact ⟨reads, hphase.toReads, hphase.inserted⟩

/-- The sender fails while a read is under way: its failure comes first, and the saved read next. -/
theorem monitor_inserts_one :
    let s : Monitor ℕ String := ⟨some (.error "write", 0), some (.error "write", 0), .done,
      [some (.ok (some 1))], .resolved, [.error "write", .ok (some 1)]⟩
    ∃ reads, Reads s reads ∧ Inserted (failure s.sender) reads s.results := by
  intro s
  have hs : Reach monitorStep (fun _ _ => True) (monitor none) s :=
    reach_of_replay [.feed, .sender (.error "write"), .map, .result, .getter 0 (.ok (some 1)),
      .feed] rfl
  exact monitor_inserts hs

/-- The sender fails, and a callback on it that is run before that of `monitor` comes to the end of
the read: the element is given after the failure of the sender, which is not inserted before. -/
theorem monitor_inserts_late :
    ∃ s : Monitor ℕ String, Reach monitorStep (fun _ _ => True) (monitor none) s ∧
      ¬ ∃ reads, Reads s reads ∧ Inserted (failure s.argument) reads s.results := by
  refine ⟨⟨some (.error "write", 0), none, .init, [some (.ok (some 1))], .resolved,
    [.ok (some 1)]⟩, ?_, ?_⟩
  · exact reach_of_replay [.feed, .sender (.error "write"), .getter 0 (.ok (some 1)), .result] rfl
  · rintro ⟨reads, -, h | h⟩
    · obtain ⟨rfl, hk⟩ := h
      exact absurd (hk "write" 0 rfl) (by decide)
    · obtain ⟨-, h⟩ := h
      cases h

end Lwt.Process
