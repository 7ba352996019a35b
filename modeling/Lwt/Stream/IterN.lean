import Lwt.Library.Tickets
import Lwt.Library.Transition
import Mathlib.Data.List.Perm.Basic

/-!
# `iter_n`

`Lwt_stream.iter_n` and `Lwt_seq.iter_n` are the same loop, over the elements that `get stream`
gives and over those of the nodes that `seq ()` gives.  The loop keeps the promises of `f` that
it has not seen fulfilled in `running` and counts in `available` how many more there may be.
If there may be none it waits with `nchoose_split running`, and when the input has ended it
waits with `join running`.

Promises are numbered.  The program around the loop, with `f` and the input, makes promises and
resolves them at any moment, several at once, and the callbacks that the loop waits for run
later.  `f` can return any promise, also one that it has returned before.
-/

namespace Lwt

open Tickets Transition

namespace IterN

/-- The state of a promise. -/
inductive Outcome (ε : Type)
  | pending
  | fulfilled
  | rejected (e : ε)
  deriving DecidableEq

namespace Outcome

variable {ε : Type}

def isPending : Outcome ε → Bool
  | .pending => true
  | _ => false

def isFulfilled : Outcome ε → Bool
  | .fulfilled => true
  | _ => false

def isRejected : Outcome ε → Bool
  | .rejected _ => true
  | _ => false

def ofResult : Except ε Unit → Outcome ε
  | .ok () => .fulfilled
  | .error e => .rejected e

end Outcome

/-- What the promise of `get stream` or of `seq ()` is resolved with.  For a sequence, an
element comes with the rest of the sequence. -/
inductive Answer (σ α ε : Type)
  | none
  | some (elt : α) (seq : σ)
  | exn (e : ε)
  deriving DecidableEq

def Answer.elt? {σ α ε : Type} : Answer σ α ε → Option α
  | .some elt _ => Option.some elt
  | _ => Option.none

/-- Where the loop stands. -/
inductive Control (σ α ε : Type)
  /-- at the call `loop running available seq` -/
  | loop (running : List ℕ) (available : ℤ) (seq : σ)
  /-- the promise of `nchoose_split running` is pending -/
  | choosing (running : List ℕ) (available : ℤ) (seq : σ)
  /-- `get stream` or `seq ()` has been called -/
  | getting (running : List ℕ) (available : ℤ) (seq : σ)
  /-- in `f elt` -/
  | applying (elt : α) (running : List ℕ) (available : ℤ) (seq : σ)
  /-- the promise of `join` is pending: its callback is attached to the promises of `waiting` -/
  | joining (waiting : List ℕ) (joinResult : Except ε Unit)
  /-- the promise of `iter_n` is resolved -/
  | ended (result : Except ε Unit)
  /-- `nchoose_split []` has raised `Invalid_argument` -/
  | raised
  deriving DecidableEq

end IterN

/-- A call of `iter_n` with the promises of the program.  `gets` and `applied` record the
answered calls for elements, and the calls of `f` with the promises they returned. -/
structure IterN (σ α ε : Type) where
  promises : List (IterN.Outcome ε)
  control : IterN.Control σ α ε
  gets : List (σ × IterN.Answer σ α ε)
  applied : List (α × ℕ)
  deriving DecidableEq

namespace IterN

variable {σ α ε : Type}

/-- `iter_n ~max_concurrency f` of the module `name`. -/
def iterN (name : String) (maxConcurrency : ℤ) (promises : List (Outcome ε)) (seq : σ) :
    Except String (IterN σ α ε) :=
  if maxConcurrency ≤ 0 then
    .error (name ++ ".iter_n: max_concurrency must be > 0, " ++ toString maxConcurrency ++ " given")
  else .ok ⟨promises, .loop [] maxConcurrency seq, [], []⟩

/-- `Lwt_stream.iter_n`: each element comes from a call of `get stream`. -/
def streamIterN (maxConcurrency : ℤ) (promises : List (Outcome ε)) :
    Except String (IterN Unit α ε) :=
  iterN "Lwt_stream" maxConcurrency promises ()

/-- `Lwt_seq.iter_n`: each element comes from the call of a node. -/
def seqIterN (maxConcurrency : ℤ) (promises : List (Outcome ε)) (seq : σ) :
    Except String (IterN σ α ε) :=
  iterN "Lwt_seq" maxConcurrency promises seq

/-! ## `nchoose_split` and `join` -/

/-- `finish` of `nchoose_split`, with the number of values only. -/
def finish (promises : List (Outcome ε)) (fulfilled : ℕ) (pending : List ℕ) :
    List ℕ → Except ε (ℕ × List ℕ)
  | [] => .ok (fulfilled, pending.reverse)
  | p :: ps =>
    match promises[p]? with
    | some .fulfilled => finish promises (fulfilled + 1) pending ps
    | some (.rejected e) => .error e
    | _ => finish promises fulfilled (p :: pending) ps

/-- `collect_already_resolved_promises` of `nchoose_split`. -/
def collectAlreadyResolvedPromises (promises : List (Outcome ε)) (results : ℕ)
    (pending : List ℕ) : List ℕ → Except ε (ℕ × List ℕ)
  | [] => .ok (results, pending)
  | p :: ps =>
    match promises[p]? with
    | some .fulfilled => collectAlreadyResolvedPromises promises (results + 1) pending ps
    | some (.rejected e) => .error e
    | _ => collectAlreadyResolvedPromises promises results (p :: pending) ps

/-- `check_for_already_resolved_promises` of `nchoose_split`; `none` if it attaches its
callback. -/
def checkForAlreadyResolvedPromises (promises : List (Outcome ε)) (pending : List ℕ) :
    List ℕ → Option (Except ε (ℕ × List ℕ))
  | [] => none
  | p :: ps =>
    match promises[p]? with
    | some .fulfilled => some (collectAlreadyResolvedPromises promises 1 pending ps)
    | some (.rejected e) => some (.error e)
    | _ => checkForAlreadyResolvedPromises promises (p :: pending) ps

/-- The continuation of `nchoose_split running`. -/
def afterSplit (available : ℤ) (seq : σ) : Except ε (ℕ × List ℕ) → Control σ α ε
  | .ok (complete, running) => .getting running (available + complete) seq
  | .error e => .ended (.error e)

/-- `if available > 0 then …` up to the call of `get stream` or `seq ()`. -/
def turn (promises : List (Outcome ε)) (running : List ℕ) (available : ℤ) (seq : σ) :
    Control σ α ε :=
  if available > 0 then .getting running available seq
  else if running = [] then .raised
  else
    match checkForAlreadyResolvedPromises promises [] running with
    | some result => afterSplit available seq result
    | none => .choosing running available seq

/-- `join_result` after the result of one more promise. -/
def updateJoinResult (joinResult : Except ε Unit) : Option (Outcome ε) → Except ε Unit
  | some (.rejected e) =>
    match joinResult with
    | .ok () => .error e
    | .error e' => .error e'
  | _ => joinResult

/-- The promise of `join` is resolved once its callback has been called for all promises. -/
def joined (waiting : List ℕ) (joinResult : Except ε Unit) : Control σ α ε :=
  if waiting = [] then .ended joinResult else .joining waiting joinResult

/-- `join running`. -/
def join (promises : List (Outcome ε)) (running : List ℕ) : Control σ α ε :=
  joined (running.filter (holds Outcome.isPending promises))
    (running.foldl (fun joinResult p => updateJoinResult joinResult promises[p]?) (.ok ()))

/-! ## Steps -/

/-- `turn`, `split` and `joinCallback` are steps of the loop itself: it goes on at its head, the
callback of `nchoose_split` is called, or that of `join` for one promise. -/
inductive Step (σ α ε : Type)
  | newPromise (o : Outcome ε)
  /-- the promises `ns`, those that are pending, are resolved at once -/
  | resolve (ns : List ℕ) (r : Except ε Unit)
  | answer (a : Answer σ α ε)
  /-- `f` returns the promise `p` -/
  | ret (p : ℕ)
  | turn
  | split
  | joinCallback (i : ℕ)

def resolve (promises : List (Outcome ε)) (ns : List ℕ) (r : Except ε Unit) : List (Outcome ε) :=
  promises.mapIdx fun n o => if o.isPending && decide (n ∈ ns) then .ofResult r else o

/-- The continuation of `get stream` or `seq ()`. -/
def afterGet (promises : List (Outcome ε)) (running : List ℕ) (available : ℤ) :
    Answer σ α ε → Control σ α ε
  | .none => join promises running
  | .some elt seq => .applying elt running available seq
  | .exn e => .ended (.error e)

def step (x : IterN σ α ε) (a : Step σ α ε) : Option (IterN σ α ε) :=
  match a, x.control with
  | .newPromise o, _ => some { x with promises := x.promises ++ [o] }
  | .resolve ns r, _ => some { x with promises := IterN.resolve x.promises ns r }
  | .answer a, .getting running available seq =>
    some { x with
      control := afterGet x.promises running available a, gets := x.gets ++ [(seq, a)] }
  | .ret p, .applying elt running available seq =>
    if p < x.promises.length then
      some { x with
        control := .loop (p :: running) (available - 1) seq, applied := x.applied ++ [(elt, p)] }
    else none
  | .turn, .loop running available seq =>
    some { x with control := IterN.turn x.promises running available seq }
  | .split, .choosing running available seq =>
    if running.all (holds Outcome.isPending x.promises) then none
    else some { x with control := afterSplit available seq (finish x.promises 0 [] running) }
  | .joinCallback i, .joining waiting joinResult =>
    match waiting[i]? with
    | some p =>
      if holds Outcome.isPending x.promises p then none
      else some { x with
        control := joined (waiting.eraseIdx i) (updateJoinResult joinResult x.promises[p]?) }
    | none => none
  | _, _ => none

/-! ## Promises -/

variable {promises promises' : List (Outcome ε)} {returned running running' ps : List ℕ}
  {x y : IterN σ α ε} {seq first : σ} {e : ε} {n p : ℕ} {available maxConcurrency : ℤ}
  {joinResult : Except ε Unit}

/-- The promises of the program some time later. -/
def Later (promises promises' : List (Outcome ε)) : Prop :=
  ∀ (n : ℕ) o, promises[n]? = some o → promises'[n]? = some o ∨ o = .pending ∧ n < promises'.length

theorem later_append (o : Outcome ε) : Later promises (promises ++ [o]) := by
  intro n o' hn
  left
  rw [List.getElem?_append_left (List.getElem?_eq_some_iff.mp hn).1]
  exact hn

theorem later_resolve (promises : List (Outcome ε)) (ns : List ℕ) (r : Except ε Unit) :
    Later promises (resolve promises ns r) := by
  intro n o hn
  have hlt : n < (resolve promises ns r).length := by
    simpa [resolve] using (List.getElem?_eq_some_iff.mp hn).1
  cases o with
  | pending => exact .inr ⟨rfl, hlt⟩
  | fulfilled => exact .inl (by simp [resolve, hn, Outcome.isPending])
  | rejected e => exact .inl (by simp [resolve, hn, Outcome.isPending])

namespace Later

theorem fulfilled (h : Later promises promises') (hn : promises[n]? = some .fulfilled) :
    promises'[n]? = some .fulfilled :=
  (h n _ hn).resolve_right (by simp)

theorem rejected (h : Later promises promises') (hn : promises[n]? = some (.rejected e)) :
    promises'[n]? = some (.rejected e) :=
  (h n _ hn).resolve_right (by simp)

theorem lt_length (h : Later promises promises') (hn : n < promises.length) :
    n < promises'.length := by
  rcases h n _ (List.getElem?_eq_getElem hn) with h | ⟨-, h⟩
  · exact (List.getElem?_eq_some_iff.mp h).1
  · exact h

theorem pending (h : Later promises promises') (hn : n < promises.length)
    (hp : holds Outcome.isPending promises' n = true) :
    holds Outcome.isPending promises n = true := by
  have hold : promises[n]? = some promises[n] := List.getElem?_eq_getElem hn
  rw [holds_of_getElem? hold]
  rcases h n _ hold with hsame | ⟨hpending, -⟩
  · rwa [holds_of_getElem? hsame] at hp
  · rw [hpending]
    rfl

end Later

/-- The promises `f` has returned are those of `running` and others that are fulfilled. -/
def Kept (promises : List (Outcome ε)) (returned running : List ℕ) : Prop :=
  ∃ done, returned.Perm (done ++ running) ∧ ∀ p ∈ done, promises[p]? = some .fulfilled

namespace Kept

theorem later (h : Kept promises returned running) (hl : Later promises promises') :
    Kept promises' returned running := by
  obtain ⟨done, hperm, hdone⟩ := h
  exact ⟨done, hperm, fun p hp => hl.fulfilled (hdone p hp)⟩

theorem cons (h : Kept promises returned running) (p : ℕ) :
    Kept promises (returned ++ [p]) (p :: running) := by
  obtain ⟨done, hperm, hdone⟩ := h
  refine ⟨done, ?_, hdone⟩
  have hnew : (returned ++ [p]).Perm (p :: (done ++ running)) :=
    (List.perm_append_singleton p returned).trans (hperm.cons p)
  exact hnew.trans List.perm_middle.symm

theorem trans {done : List ℕ} (h : Kept promises returned running)
    (hperm : running.Perm (done ++ running'))
    (hdone : ∀ p ∈ done, promises[p]? = some .fulfilled) : Kept promises returned running' := by
  obtain ⟨before, hbefore, hfulfilled⟩ := h
  refine ⟨before ++ done, ?_, fun p hp => ?_⟩
  · rw [List.append_assoc]
    exact hbefore.trans (hperm.append_left before)
  · rcases List.mem_append.mp hp with hp | hp
    · exact hfulfilled p hp
    · exact hdone p hp

theorem mem (h : Kept promises returned running) (hp : p ∈ running) : p ∈ returned := by
  obtain ⟨done, hperm, -⟩ := h
  exact hperm.symm.subset (List.mem_append_right done hp)

theorem countP_le (h : Kept promises returned running) :
    returned.countP (holds Outcome.isPending promises) =
      running.countP (holds Outcome.isPending promises) := by
  obtain ⟨done, hperm, hdone⟩ := h
  have hzero : done.countP (holds Outcome.isPending promises) = 0 := by
    refine List.countP_eq_zero.mpr fun p hp => ?_
    rw [holds_of_getElem? (hdone p hp)]
    simp [Outcome.isPending]
  rw [hperm.countP_eq, List.countP_append, hzero, Nat.zero_add]

end Kept

/-! ## `nchoose_split` -/

/-- `complete` of the promises in `ps` are fulfilled, and the others are `rest`. -/
def IsSplit (promises : List (Outcome ε)) (ps : List ℕ) (complete : ℕ) (rest : List ℕ) : Prop :=
  ∃ done, ps.Perm (done ++ rest) ∧ (∀ p ∈ done, promises[p]? = some .fulfilled) ∧
    done.length = complete

/-- A promise in `ps` is rejected with `e`. -/
def HasRejected (promises : List (Outcome ε)) (ps : List ℕ) (e : ε) : Prop :=
  ∃ p ∈ ps, promises[p]? = some (.rejected e)

theorem HasRejected.cons (h : HasRejected promises ps e) (p : ℕ) :
    HasRejected promises (p :: ps) e := by
  obtain ⟨q, hq, he⟩ := h
  exact ⟨q, List.mem_cons_of_mem p hq, he⟩

theorem HasRejected.later (h : HasRejected promises ps e) (hl : Later promises promises') :
    HasRejected promises' ps e := by
  obtain ⟨p, hp, he⟩ := h
  exact ⟨p, hp, hl.rejected he⟩

theorem finish_cases (promises : List (Outcome ε)) (fulfilled : ℕ) (pending ps : List ℕ) :
    (∃ complete rest, finish promises fulfilled pending ps = .ok (fulfilled + complete, rest) ∧
      IsSplit promises (pending ++ ps) complete rest) ∨
    ∃ e, finish promises fulfilled pending ps = .error e ∧ HasRejected promises ps e := by
  induction ps generalizing fulfilled pending with
  | nil =>
    refine .inl ⟨0, pending.reverse, rfl, [], ?_, by simp, rfl⟩
    rw [List.append_nil, List.nil_append]
    exact (List.reverse_perm pending).symm
  | cons p ps ih =>
    have hmiddle : (pending ++ p :: ps).Perm (p :: (pending ++ ps)) := List.perm_middle
    have hpass : (∃ complete rest, finish promises fulfilled (p :: pending) ps =
          .ok (fulfilled + complete, rest) ∧
          IsSplit promises (pending ++ p :: ps) complete rest) ∨
        ∃ e, finish promises fulfilled (p :: pending) ps = .error e ∧
          HasRejected promises (p :: ps) e := by
      rcases ih fulfilled (p :: pending) with ⟨complete, rest, hok, done, hperm,
        hdone⟩ | ⟨e, he, hmem⟩
      · exact .inl ⟨complete, rest, hok, done, hmiddle.trans hperm, hdone⟩
      · exact .inr ⟨e, he, hmem.cons p⟩
    rw [finish]
    cases hp : promises[p]? with
    | none => exact hpass
    | some o =>
      cases o with
      | pending => exact hpass
      | rejected e => exact .inr ⟨e, rfl, p, List.mem_cons_self, hp⟩
      | fulfilled =>
        rcases ih (fulfilled + 1) pending with
          ⟨complete, rest, hok, done, hperm, hdone, hlength⟩ | ⟨e, he, hmem⟩
        · refine .inl ⟨complete + 1, rest, ?_, p :: done, ?_, ?_, by simp [hlength]⟩
          · show finish promises (fulfilled + 1) pending ps = _
            rw [hok, Nat.add_assoc, Nat.add_comm 1 complete]
          · exact hmiddle.trans (hperm.cons p)
          · intro q hq
            rcases List.mem_cons.mp hq with rfl | hq
            · exact hp
            · exact hdone q hq
        · exact .inr ⟨e, he, hmem.cons p⟩

/-- If no promise is found fulfilled, all are pending. -/
theorem finish_eq_ok_zero {fulfilled : ℕ} {pending rest : List ℕ}
    (h : finish promises fulfilled pending ps = .ok (fulfilled + 0, rest)) :
    ∀ p ∈ ps, p < promises.length → holds Outcome.isPending promises p = true := by
  induction ps generalizing pending with
  | nil => simp
  | cons q ps ih =>
    intro p hp hlt
    rw [finish] at h
    split at h
    · rcases finish_cases promises (fulfilled + 1) pending ps with ⟨complete, rest', hok,
        -⟩ | ⟨e, he, -⟩
      · rw [hok] at h
        simp only [Except.ok.injEq, Prod.mk.injEq] at h
        omega
      · rw [he] at h
        cases h
    · cases h
    · rename_i hnotFulfilled hnotRejected
      rcases List.mem_cons.mp hp with rfl | hp
      · have hp : promises[p]? = some promises[p] := List.getElem?_eq_getElem hlt
        rw [holds_of_getElem? hp]
        cases ho : promises[p] with
        | pending => rfl
        | fulfilled => exact absurd (by rw [hp, ho]) hnotFulfilled
        | rejected e => exact absurd (by rw [hp, ho]) (hnotRejected e)
      · exact ih h p hp hlt

theorem collectAlreadyResolvedPromises_eq (promises : List (Outcome ε)) (results : ℕ)
    (pending ps : List ℕ) : collectAlreadyResolvedPromises promises results pending ps =
      (finish promises results pending ps).map fun split => (split.1, split.2.reverse) := by
  induction ps generalizing results pending with
  | nil => simp [collectAlreadyResolvedPromises, finish, Except.map]
  | cons p ps ih =>
    rw [collectAlreadyResolvedPromises, finish]
    cases hp : promises[p]? with
    | none => exact ih results (p :: pending)
    | some o =>
      cases o with
      | pending => exact ih results (p :: pending)
      | fulfilled => exact ih (results + 1) pending
      | rejected e => rfl

theorem checkForAlreadyResolvedPromises_cases (promises : List (Outcome ε))
    (pending ps : List ℕ) :
    checkForAlreadyResolvedPromises promises pending ps = none ∨
    (∃ complete rest, checkForAlreadyResolvedPromises promises pending ps =
      some (.ok (complete, rest)) ∧ 0 < complete ∧
      IsSplit promises (pending ++ ps) complete rest) ∨
    ∃ e, checkForAlreadyResolvedPromises promises pending ps = some (.error e) ∧
      HasRejected promises ps e := by
  induction ps generalizing pending with
  | nil => exact .inl rfl
  | cons p ps ih =>
    have hmiddle : (pending ++ p :: ps).Perm (p :: (pending ++ ps)) := List.perm_middle
    have hpass : checkForAlreadyResolvedPromises promises (p :: pending) ps = none ∨
        (∃ complete rest, checkForAlreadyResolvedPromises promises (p :: pending) ps =
          some (.ok (complete, rest)) ∧ 0 < complete ∧
          IsSplit promises (pending ++ p :: ps) complete rest) ∨
        ∃ e, checkForAlreadyResolvedPromises promises (p :: pending) ps = some (.error e) ∧
          HasRejected promises (p :: ps) e := by
      rcases ih (p :: pending) with h | ⟨complete, rest, hok, hpos, done, hperm,
        hdone⟩ | ⟨e, he, hmem⟩
      · exact .inl h
      · exact .inr (.inl ⟨complete, rest, hok, hpos, done, hmiddle.trans hperm, hdone⟩)
      · exact .inr (.inr ⟨e, he, hmem.cons p⟩)
    rw [checkForAlreadyResolvedPromises]
    cases hp : promises[p]? with
    | none => exact hpass
    | some o =>
      cases o with
      | pending => exact hpass
      | rejected e => exact .inr (.inr ⟨e, rfl, p, List.mem_cons_self, hp⟩)
      | fulfilled =>
        right
        show (∃ complete rest, some (collectAlreadyResolvedPromises promises 1 pending ps) =
            some (.ok (complete, rest)) ∧ _) ∨
          ∃ e, some (collectAlreadyResolvedPromises promises 1 pending ps) =
            some (.error e) ∧ _
        rw [collectAlreadyResolvedPromises_eq]
        rcases finish_cases promises 1 pending ps with
          ⟨complete, rest, hok, done, hperm, hdone, hlength⟩ | ⟨e, he, hmem⟩
        · refine .inl ⟨1 + complete, rest.reverse, by rw [hok]; rfl, by omega, p :: done,
            ?_, ?_, by simp [hlength, Nat.add_comm]⟩
          · have hrest : (done ++ rest).Perm (done ++ rest.reverse) :=
              (List.reverse_perm rest).symm.append_left done
            exact hmiddle.trans ((hperm.trans hrest).cons p)
          · intro q hq
            rcases List.mem_cons.mp hq with rfl | hq
            · exact hp
            · exact hdone q hq
        · exact .inr ⟨e, by rw [he]; rfl, hmem.cons p⟩

/-! ## `join` -/

theorem updateJoinResult_cases (joinResult : Except ε Unit) (o : Option (Outcome ε)) :
    updateJoinResult joinResult o = joinResult ∧
      (joinResult = .ok () → ∀ e, o ≠ some (.rejected e)) ∨
    ∃ e, joinResult = .ok () ∧ o = some (.rejected e) ∧
      updateJoinResult joinResult o = .error e := by
  unfold updateJoinResult
  split
  · rename_i e
    cases joinResult with
    | ok => exact .inr ⟨e, rfl, rfl, rfl⟩
    | error e' => exact .inl ⟨rfl, by simp⟩
  · rename_i h
    exact .inl ⟨rfl, fun _ e he => h e he⟩

theorem foldl_updateJoinResult (promises : List (Outcome ε)) (ps : List ℕ)
    (joinResult : Except ε Unit) :
    (ps.foldl (fun joinResult p => updateJoinResult joinResult promises[p]?) joinResult =
    joinResult ∧
      (joinResult = .ok () → ∀ p ∈ ps, ∀ e, promises[p]? ≠ some (.rejected e))) ∨
    ∃ e, joinResult = .ok () ∧ HasRejected promises ps e ∧
      ps.foldl (fun joinResult p => updateJoinResult joinResult promises[p]?) joinResult =
      .error e := by
  induction ps generalizing joinResult with
  | nil => exact .inl ⟨rfl, by simp⟩
  | cons p ps ih =>
    rw [List.foldl_cons]
    rcases updateJoinResult_cases joinResult promises[p]? with ⟨hsame, hnot⟩ | ⟨e,
      hok, hp, hupdate⟩
    · rw [hsame]
      rcases ih joinResult with ⟨hrest, hnone⟩ | ⟨e, hok, hmem, hrest⟩
      · refine .inl ⟨hrest, fun hok q hq => ?_⟩
        rcases List.mem_cons.mp hq with rfl | hq
        · exact hnot hok
        · exact hnone hok q hq
      · exact .inr ⟨e, hok, hmem.cons p, hrest⟩
    · refine .inr ⟨e, hok, ⟨p, List.mem_cons_self, hp⟩, ?_⟩
      rw [hupdate]
      rcases ih (.error e) with ⟨hrest, -⟩ | ⟨e', hok', -⟩
      · exact hrest
      · cases hok'

/-- What is known of `join_result` while the callback is still to be called for the promises of
`waiting`. -/
structure Noted (promises : List (Outcome ε)) (returned waiting : List ℕ)
    (joinResult : Except ε Unit) : Prop where
  ok : joinResult = .ok () → Kept promises returned waiting
  error : ∀ e, joinResult = .error e → HasRejected promises returned e

theorem fulfilled_of_not (hlt : p < promises.length)
    (hpending : ¬ holds Outcome.isPending promises p = true)
    (hrejected : ∀ e, promises[p]? ≠ some (.rejected e)) : promises[p]? = some .fulfilled := by
  have hp : promises[p]? = some promises[p] := List.getElem?_eq_getElem hlt
  rw [holds_of_getElem? hp] at hpending
  cases ho : promises[p] with
  | pending => exact absurd (by rw [ho]; rfl) hpending
  | fulfilled => rw [hp, ho]
  | rejected e => exact absurd (by rw [hp, ho]) (hrejected e)

namespace Noted

theorem later {waiting : List ℕ} (h : Noted promises returned waiting joinResult)
    (hl : Later promises promises') : Noted promises' returned waiting joinResult :=
  ⟨fun hok => (h.ok hok).later hl, fun e he => (h.error e he).later hl⟩

theorem join (h : Kept promises returned running) (hvalid : ∀ p ∈ returned, p < promises.length) :
    Noted promises returned (running.filter (holds Outcome.isPending promises))
      (running.foldl (fun joinResult p => updateJoinResult joinResult promises[p]?) (.ok ())) := by
  rcases foldl_updateJoinResult promises running (.ok ()) with ⟨hresult, hnone⟩ | ⟨e, -,
    hmem, hresult⟩
  · rw [hresult]
    refine ⟨fun _ => ?_, by simp⟩
    have hperm : running.Perm (running.filter (fun p => !holds Outcome.isPending promises p) ++
        running.filter (holds Outcome.isPending promises)) :=
      (List.perm_append_comm.trans (List.filter_append_perm _ running)).symm
    refine h.trans hperm fun p hp => ?_
    obtain ⟨hp, hnot⟩ := List.mem_filter.mp hp
    exact fulfilled_of_not (hvalid p (h.mem hp)) (by simpa using hnot) (hnone rfl p hp)
  · rw [hresult]
    refine ⟨by simp, fun e' he' => ?_⟩
    obtain rfl : e = e' := by simpa using he'
    obtain ⟨p, hp, hrejected⟩ := hmem
    exact ⟨p, h.mem hp, hrejected⟩

theorem call {waiting : List ℕ} {i : ℕ} (h : Noted promises returned waiting joinResult)
    (hvalid : ∀ p ∈ returned, p < promises.length) (hi : waiting[i]? = some p)
    (hp : ¬ holds Outcome.isPending promises p = true) :
    Noted promises returned (waiting.eraseIdx i) (updateJoinResult joinResult promises[p]?) := by
  obtain ⟨hlt, rfl⟩ := List.getElem?_eq_some_iff.mp hi
  have hperm : waiting.Perm ([waiting[i]] ++ waiting.eraseIdx i) :=
    (List.getElem_cons_eraseIdx_perm hlt).symm
  have hmem : waiting[i] ∈ waiting := List.getElem_mem hlt
  rcases updateJoinResult_cases joinResult promises[waiting[i]]? with
    ⟨hsame, hnot⟩ | ⟨e, hok, hrejected, hupdate⟩
  · rw [hsame]
    refine ⟨fun hok => (h.ok hok).trans hperm fun q hq => ?_, h.error⟩
    obtain rfl := List.mem_singleton.mp hq
    exact fulfilled_of_not (hvalid _ ((h.ok hok).mem hmem)) hp (hnot hok)
  · rw [hupdate]
    refine ⟨by simp, fun e' he' => ?_⟩
    obtain rfl : e = e' := by simpa using he'
    exact ⟨_, (h.ok hok).mem hmem, hrejected⟩

end Noted

/-! ## The input -/

/-- The answered calls for elements, each call on the rest that came with the last element;
the next call is on `seq`. -/
inductive Path (first : σ) : List (σ × Answer σ α ε) → σ → Prop
  | start : Path first [] first
  | next {gets : List (σ × Answer σ α ε)} {seq rest : σ} {elt : α} : Path first gets seq →
      Path first (gets ++ [(seq, .some elt rest)]) rest

/-- The input has ended. -/
def InputEnded (first : σ) (gets : List (σ × Answer σ α ε)) : Prop :=
  ∃ before seq, Path first before seq ∧ gets = before ++ [(seq, .none)]

/-- A call for an element has failed. -/
def InputFailed (first : σ) (gets : List (σ × Answer σ α ε)) (e : ε) : Prop :=
  ∃ before seq, Path first before seq ∧ gets = before ++ [(seq, .exn e)]

/-- The calls for elements have been made one on the rest of the other. -/
def Followed (first : σ) (gets : List (σ × Answer σ α ε)) : Prop :=
  ∃ before seq, Path first before seq ∧
    (gets = before ∨ ∃ a, a.elt? = none ∧ gets = before ++ [(seq, a)])

def elements (gets : List (σ × Answer σ α ε)) : List α := gets.filterMap fun get => get.2.elt?

/-! ## Invariant -/

/-- The promises that `f` has returned. -/
def results (x : IterN σ α ε) : List ℕ := x.applied.map Prod.snd

/-- The element whose call of `f` has not returned. -/
def current (x : IterN σ α ε) : List α :=
  match x.control with
  | .applying elt _ _ _ => [elt]
  | _ => []

/-- The loop has its promises in `running`, and there may be `available` more. -/
structure Counted (maxConcurrency : ℤ) (first : σ) (x : IterN σ α ε) (running : List ℕ)
    (available : ℤ) (seq : σ) : Prop where
  length : running.length + available = maxConcurrency
  kept : Kept x.promises x.results running
  path : Path first x.gets seq

/-- What holds where the loop stands. -/
def Stands (maxConcurrency : ℤ) (first : σ) (x : IterN σ α ε) : Prop :=
  match x.control with
  | .loop running available seq =>
    x.Counted maxConcurrency first running available seq ∧ 0 ≤ available
  | .choosing running available seq =>
    x.Counted maxConcurrency first running available seq ∧ available = 0
  | .getting running available seq | .applying _ running available seq =>
    x.Counted maxConcurrency first running available seq ∧ 0 < available
  | .joining waiting joinResult =>
    InputEnded first x.gets ∧ Noted x.promises x.results waiting joinResult ∧ waiting ≠ []
  | .ended (.ok ()) =>
    InputEnded first x.gets ∧ ∀ p ∈ x.results, x.promises[p]? = some .fulfilled
  | .ended (.error e) => HasRejected x.promises x.results e ∨ InputFailed first x.gets e
  | .raised => False

structure Accounted (maxConcurrency : ℤ) (first : σ) (x : IterN σ α ε) : Prop where
  positive : 0 < maxConcurrency
  valid : ∀ p ∈ x.results, p < x.promises.length
  bound : (x.results.countP (holds Outcome.isPending x.promises) : ℤ) ≤ maxConcurrency
  followed : Followed first x.gets
  inOrder : x.applied.map Prod.fst ++ x.current = elements x.gets
  stands : x.Stands maxConcurrency first

namespace Accounted

theorem start {name : String} (hstart : iterN name maxConcurrency promises first = .ok x) :
    x.Accounted maxConcurrency first := by
  unfold iterN at hstart
  split at hstart
  · cases hstart
  · rename_i hpos
    cases hstart
    have hcounted : Counted maxConcurrency first
        (⟨promises, .loop [] maxConcurrency first, [], []⟩ : IterN σ α ε) [] maxConcurrency first :=
      ⟨by simp, ⟨[], by simp [results], by simp⟩, .start⟩
    refine ⟨by omega, by simp [results], ?_, ⟨[], first, .start, .inl rfl⟩, rfl, hcounted, by omega⟩
    show (0 : ℤ) ≤ maxConcurrency
    omega

theorem later (hx : x.Accounted maxConcurrency first) (hl : Later x.promises promises') :
    Accounted maxConcurrency first { x with promises := promises' } where
  positive := hx.positive
  valid p hp := hl.lt_length (hx.valid p hp)
  bound := by
    have hle : x.results.countP (holds Outcome.isPending promises') ≤
        x.results.countP (holds Outcome.isPending x.promises) :=
      List.countP_mono_left fun p hp hpending => hl.pending (hx.valid p hp) hpending
    have := hx.bound
    show (x.results.countP (holds Outcome.isPending promises') : ℤ) ≤ _
    omega
  followed := hx.followed
  inOrder := hx.inOrder
  stands := by
    have h := hx.stands
    unfold Stands at h ⊢
    cases hcontrol : x.control with
    | loop running available seq =>
      rw [hcontrol] at h
      exact ⟨⟨h.1.length, h.1.kept.later hl, h.1.path⟩, h.2⟩
    | choosing running available seq =>
      rw [hcontrol] at h
      exact ⟨⟨h.1.length, h.1.kept.later hl, h.1.path⟩, h.2⟩
    | getting running available seq =>
      rw [hcontrol] at h
      exact ⟨⟨h.1.length, h.1.kept.later hl, h.1.path⟩, h.2⟩
    | applying elt running available seq =>
      rw [hcontrol] at h
      exact ⟨⟨h.1.length, h.1.kept.later hl, h.1.path⟩, h.2⟩
    | joining waiting joinResult =>
      rw [hcontrol] at h
      exact ⟨h.1, h.2.1.later hl, h.2.2⟩
    | ended result =>
      rw [hcontrol] at h
      cases result with
      | ok => exact ⟨h.1, fun p hp => hl.fulfilled (h.2 p hp)⟩
      | error e => exact h.imp_left fun h => h.later hl
    | raised =>
      rw [hcontrol] at h
      exact h.elim

theorem goOn (hx : x.Accounted maxConcurrency first) (hcurrent : x.current = [])
    {control : Control σ α ε} (hnew : current { x with control := control } = [])
    (hstands : Stands maxConcurrency first { x with control := control }) :
    Accounted maxConcurrency first { x with control := control } where
  positive := hx.positive
  valid := hx.valid
  bound := hx.bound
  followed := hx.followed
  inOrder := by
    have h := hx.inOrder
    rw [hcurrent] at h
    rw [hnew]
    exact h
  stands := hstands

theorem stands_afterSplit (h : x.Counted maxConcurrency first running 0 seq) {complete : ℕ}
    {rest : List ℕ}
    (hcomplete : 0 < complete) (hsplit : IsSplit x.promises running complete rest) :
    Stands maxConcurrency first { x with control := .getting rest (0 + complete) seq } := by
  obtain ⟨done, hperm, hdone, hlength⟩ := hsplit
  refine ⟨⟨?_, h.kept.trans hperm hdone, h.path⟩, by omega⟩
  have hsum := hperm.length_eq
  rw [List.length_append] at hsum
  have := h.length
  omega

theorem turn (hx : x.Accounted maxConcurrency first)
    (hcontrol : x.control = .loop running available seq) :
    Accounted maxConcurrency first
      { x with control := IterN.turn x.promises running available seq } := by
  have hcurrent : x.current = [] := by rw [current, hcontrol]
  have h := hx.stands
  rw [Stands, hcontrol] at h
  obtain ⟨hcounted, hle⟩ := h
  unfold IterN.turn
  split
  · rename_i hpos
    exact hx.goOn hcurrent rfl ⟨⟨hcounted.length, hcounted.kept, hcounted.path⟩, hpos⟩
  · obtain rfl : available = 0 := by omega
    have hlength := hcounted.length
    have hpos := hx.positive
    split
    · rename_i hempty
      rw [hempty, List.length_nil] at hlength
      omega
    · rcases checkForAlreadyResolvedPromises_cases x.promises [] running with
        h | ⟨complete, rest, h, hcomplete, hsplit⟩ | ⟨e, h, hmem⟩
      · rw [h]
        exact hx.goOn hcurrent rfl ⟨⟨hlength, hcounted.kept, hcounted.path⟩, rfl⟩
      · rw [h]
        exact hx.goOn hcurrent rfl (stands_afterSplit hcounted hcomplete hsplit)
      · rw [h]
        obtain ⟨p, hp, hrejected⟩ := hmem
        exact hx.goOn hcurrent rfl (.inl ⟨p, hcounted.kept.mem hp, hrejected⟩)

theorem split (hx : x.Accounted maxConcurrency first)
    (hcontrol : x.control = .choosing running available seq)
    (hsome : ¬ running.all (holds Outcome.isPending x.promises) = true) :
    Accounted maxConcurrency first
      { x with control := afterSplit available seq (finish x.promises 0 [] running) } := by
  have hcurrent : x.current = [] := by rw [current, hcontrol]
  have h := hx.stands
  rw [Stands, hcontrol] at h
  obtain ⟨hcounted, rfl⟩ := h
  rcases finish_cases x.promises 0 [] running with ⟨complete, rest, h, hsplit⟩ | ⟨e, h, hmem⟩
  · rw [h, Nat.zero_add]
    refine hx.goOn hcurrent rfl (stands_afterSplit hcounted ?_ hsplit)
    refine Nat.pos_of_ne_zero fun hzero => hsome (List.all_eq_true.mpr fun p hp => ?_)
    rw [hzero] at h
    have hlt : p < x.promises.length := hx.valid p (hcounted.kept.mem hp)
    exact finish_eq_ok_zero h p hp hlt
  · rw [h]
    obtain ⟨p, hp, hrejected⟩ := hmem
    exact hx.goOn hcurrent rfl (.inl ⟨p, hcounted.kept.mem hp, hrejected⟩)

theorem stands_joined {waiting : List ℕ} (hended : InputEnded first x.gets)
    (hnoted : Noted x.promises x.results waiting joinResult) :
    Stands maxConcurrency first { x with control := joined waiting joinResult } := by
  unfold joined
  split
  · rename_i hempty
    subst hempty
    cases hresult : joinResult with
    | ok =>
      refine ⟨hended, fun p hp => ?_⟩
      obtain ⟨done, hperm, hdone⟩ := hnoted.ok hresult
      rw [List.append_nil] at hperm
      exact hdone p (hperm.subset hp)
    | error e => exact .inl (hnoted.error e hresult)
  · rename_i hne
    exact ⟨hended, hnoted, hne⟩

theorem current_joined (waiting : List ℕ) (joinResult : Except ε Unit) :
    current { x with control := joined waiting joinResult } = [] := by
  unfold joined
  split <;> rfl

theorem answer (hx : x.Accounted maxConcurrency first)
    (hcontrol : x.control = .getting running available seq) (a : Answer σ α ε) :
    Accounted maxConcurrency first
      { x with
        control := afterGet x.promises running available a, gets := x.gets ++ [(seq, a)] } := by
  have hcurrent : x.current = [] := by rw [current, hcontrol]
  have horder := hx.inOrder
  rw [hcurrent, List.append_nil] at horder
  have h := hx.stands
  rw [Stands, hcontrol] at h
  obtain ⟨hcounted, hpos⟩ := h
  have helements : elements (x.gets ++ [(seq, a)]) = x.applied.map Prod.fst ++ a.elt?.toList := by
    rw [horder]
    cases a <;> simp [elements, Answer.elt?]
  cases a with
  | none =>
    have hended : InputEnded first (x.gets ++ [(seq, .none)]) := ⟨x.gets, seq, hcounted.path, rfl⟩
    refine ⟨hx.positive, hx.valid, hx.bound, ⟨x.gets, seq, hcounted.path, .inr ⟨_, rfl, rfl⟩⟩, ?_,
      ?_⟩
    · rw [helements]
      exact congrArg (x.applied.map Prod.fst ++ ·)
        (current_joined (x := { x with gets := x.gets ++ [(seq, .none)] }) _ _)
    · exact stands_joined (x := { x with gets := x.gets ++ [(seq, .none)] }) hended
        (.join hcounted.kept hx.valid)
  | some elt rest =>
    have hpath : Path first (x.gets ++ [(seq, .some elt rest)]) rest := hcounted.path.next
    refine ⟨hx.positive, hx.valid, hx.bound, ⟨_, rest, hpath, .inl rfl⟩, ?_, ?_⟩
    · rw [helements]
      rfl
    · exact ⟨⟨hcounted.length, hcounted.kept, hpath⟩, hpos⟩
  | exn e =>
    refine ⟨hx.positive, hx.valid, hx.bound, ⟨x.gets, seq, hcounted.path, .inr ⟨_, rfl, rfl⟩⟩, ?_,
      ?_⟩
    · rw [helements]
      rfl
    · exact .inr ⟨x.gets, seq, hcounted.path, rfl⟩

theorem ret {elt : α} (hx : x.Accounted maxConcurrency first)
    (hcontrol : x.control = .applying elt running available seq) (hp : p < x.promises.length) :
    Accounted maxConcurrency first
      { x with
        control := .loop (p :: running) (available - 1) seq, applied :=
          x.applied ++ [(elt, p)] } := by
  have h := hx.stands
  rw [Stands, hcontrol] at h
  obtain ⟨hcounted, hpos⟩ := h
  have hresults : results { x with
      control := .loop (p :: running) (available - 1) seq, applied := x.applied ++ [(elt, p)] } =
      x.results ++ [p] := by
    simp [results]
  have hkept : Kept x.promises (x.results ++ [p]) (p :: running) := hcounted.kept.cons p
  have hlength := hcounted.length
  refine ⟨hx.positive, fun q hq => ?_, ?_, hx.followed, ?_, ⟨?_, ?_, hcounted.path⟩, by omega⟩
  · rw [hresults] at hq
    rcases List.mem_append.mp hq with hq | hq
    · exact hx.valid q hq
    · obtain rfl := List.mem_singleton.mp hq
      exact hp
  · rw [hresults]
    have hle : (p :: running).countP (holds Outcome.isPending x.promises) ≤ running.length + 1 :=
      List.countP_le_length
    show ((x.results ++ [p]).countP (holds Outcome.isPending x.promises) : ℤ) ≤ maxConcurrency
    rw [hkept.countP_le]
    omega
  · have horder := hx.inOrder
    rw [current, hcontrol] at horder
    show (x.applied ++ [(elt, p)]).map Prod.fst ++ [] = elements x.gets
    rw [← horder]
    simp
  · simp only [List.length_cons]
    omega
  · rw [hresults]
    exact hkept

theorem joinCallback {waiting : List ℕ} {i : ℕ} (hx : x.Accounted maxConcurrency first)
    (hcontrol : x.control = .joining waiting joinResult) (hi : waiting[i]? = some p)
    (hp : ¬ holds Outcome.isPending x.promises p = true) :
    Accounted maxConcurrency first
      { x with
        control := joined (waiting.eraseIdx i) (updateJoinResult joinResult x.promises[p]?) } := by
  have hcurrent : x.current = [] := by rw [current, hcontrol]
  have h := hx.stands
  rw [Stands, hcontrol] at h
  obtain ⟨hended, hnoted, -⟩ := h
  exact hx.goOn hcurrent (current_joined _ _) (stands_joined hended (hnoted.call hx.valid hi hp))

theorem step (hx : x.Accounted maxConcurrency first) {a : Step σ α ε}
    (hy : IterN.step x a = some y) : y.Accounted maxConcurrency first := by
  unfold IterN.step at hy
  split at hy
  · cases hy
    exact hx.later (later_append _)
  · cases hy
    exact hx.later (later_resolve _ _ _)
  · rename_i hcontrol
    cases hy
    exact hx.answer hcontrol _
  · rename_i hcontrol
    split at hy
    · rename_i hp
      cases hy
      exact hx.ret hcontrol hp
    · cases hy
  · rename_i hcontrol
    cases hy
    exact hx.turn hcontrol
  · rename_i hcontrol
    split at hy
    · cases hy
    · rename_i hsome
      cases hy
      exact hx.split hcontrol hsome
  · rename_i hcontrol
    split at hy
    · rename_i p hi
      split at hy
      · cases hy
      · rename_i hp
        cases hy
        exact hx.joinCallback hcontrol hi hp
    · cases hy
  · cases hy

end Accounted

/-! ## Where the loop waits -/

/-- The loop cannot go on by itself. -/
def Settled (x : IterN σ α ε) : Prop :=
  step x .turn = none ∧ step x .split = none ∧ ∀ i, step x (.joinCallback i) = none

theorem Path.not_inputEnded {gets : List (σ × Answer σ α ε)} (h : Path first gets seq) :
    ¬ InputEnded first gets := by
  rintro ⟨before, s, -, hgets⟩
  cases h with
  | start => simp at hgets
  | next hpath =>
    obtain ⟨-, hlast⟩ := List.append_inj' hgets rfl
    simp at hlast

/-- The loop waits for the input or for `f`, or as many promises are pending as there may be, or
the input has ended. -/
def Waits (maxConcurrency : ℤ) (first : σ) (x : IterN σ α ε) : Prop :=
  (∃ running available seq, x.control = .getting running available seq) ∨
  (∃ elt running available seq, x.control = .applying elt running available seq) ∨
  (x.results.countP (holds Outcome.isPending x.promises) : ℤ) = maxConcurrency ∨
  InputEnded first x.gets

/-- In a settled state in which nothing has failed. -/
theorem Accounted.settled (hx : x.Accounted maxConcurrency first) (hsettled : x.Settled)
    (hrejected : ∀ e, ¬ HasRejected x.promises x.results e)
    (hfailed : ∀ e, ¬ InputFailed first x.gets e) :
    x.Waits maxConcurrency first ∧ (InputEnded first x.gets →
      (∀ p ∈ x.results, x.promises[p]? = some .fulfilled) → x.control = .ended (.ok ())) := by
  obtain ⟨hturn, hsplit, hjoin⟩ := hsettled
  have h := hx.stands
  cases hcontrol : x.control with
  | loop running available seq => simp [IterN.step, hcontrol] at hturn
  | choosing running available seq =>
    rw [Stands, hcontrol] at h
    obtain ⟨hcounted, rfl⟩ := h
    have hall : running.all (holds Outcome.isPending x.promises) = true := by
      simpa [IterN.step, hcontrol] using hsplit
    have hcount : running.countP (holds Outcome.isPending x.promises) = running.length :=
      List.countP_eq_length.mpr (List.all_eq_true.mp hall)
    refine ⟨.inr (.inr (.inl ?_)), fun hended => absurd hended hcounted.path.not_inputEnded⟩
    rw [hcounted.kept.countP_le, hcount]
    have := hcounted.length
    omega
  | getting running available seq =>
    rw [Stands, hcontrol] at h
    exact ⟨.inl ⟨running, available, seq, hcontrol⟩,
      fun hended => absurd hended h.1.path.not_inputEnded⟩
  | applying elt running available seq =>
    rw [Stands, hcontrol] at h
    exact ⟨.inr (.inl ⟨elt, running, available, seq, hcontrol⟩),
      fun hended => absurd hended h.1.path.not_inputEnded⟩
  | joining waiting joinResult =>
    rw [Stands, hcontrol] at h
    obtain ⟨hended, hnoted, hne⟩ := h
    refine ⟨.inr (.inr (.inr hended)), fun _ hfulfilled => ?_⟩
    cases hresult : joinResult with
    | error e => exact absurd (hnoted.error e hresult) (hrejected e)
    | ok =>
      -- The callback is due for a promise of `waiting`, since all are fulfilled.
      obtain ⟨p, rest, hwaiting⟩ := List.exists_cons_of_ne_nil hne
      have hp := hfulfilled p ((hnoted.ok hresult).mem (by simp [hwaiting]))
      have hstep := hjoin 0
      simp [IterN.step, hcontrol, hwaiting, holds, hp, Outcome.isPending] at hstep
  | ended result =>
    rw [Stands, hcontrol] at h
    cases result with
    | ok => exact ⟨.inr (.inr (.inr h.1)), fun _ _ => rfl⟩
    | error e => exact absurd h (not_or.mpr ⟨hrejected e, hfailed e⟩)
  | raised =>
    rw [Stands, hcontrol] at h
    exact h.elim

/-- `f` is applied to the elements of the input in order, each once.  At any moment at most
`max_concurrency` of the promises it has returned are pending; the loop keeps its account and
never calls `nchoose_split []`.  If nothing is rejected, the loop waits only for the input, for
`f`, or because `max_concurrency` promises are pending, and the result is fulfilled exactly when
the input has ended and all promises are fulfilled. -/
theorem iter_n_bounds_concurrency {name : String} {x₀ : IterN σ α ε}
    (hstart : iterN name maxConcurrency promises first = .ok x₀)
    (hx : Reach step (fun _ _ => True) x₀ x) :
    (x.applied.map Prod.fst ++ x.current = elements x.gets ∧ Followed first x.gets) ∧
    (x.results.countP (holds Outcome.isPending x.promises) : ℤ) ≤ maxConcurrency ∧
    (∀ running available seq, x.control = .loop running available seq →
      running.length + available = maxConcurrency ∧ (available ≤ 0 → running ≠ [])) ∧
    x.control ≠ .raised ∧
    (x.control = .ended (.ok ()) →
      InputEnded first x.gets ∧ ∀ p ∈ x.results, x.promises[p]? = some .fulfilled) ∧
    (x.Settled → (∀ e, ¬ HasRejected x.promises x.results e) →
      (∀ e, ¬ InputFailed first x.gets e) →
      x.Waits maxConcurrency first ∧ (InputEnded first x.gets →
        (∀ p ∈ x.results, x.promises[p]? = some .fulfilled) → x.control = .ended (.ok ()))) := by
  have haccounted : x.Accounted maxConcurrency first :=
    hx.invariant (Accounted.start hstart) fun _ _ _ hx _ hy => hx.step hy
  have h := haccounted.stands
  refine ⟨⟨haccounted.inOrder, haccounted.followed⟩, haccounted.bound,
    fun running available seq hcontrol => ?_, fun hcontrol => ?_, fun hcontrol => ?_,
    haccounted.settled⟩
  · rw [Stands, hcontrol] at h
    refine ⟨h.1.length, fun hle hempty => ?_⟩
    have hlength := h.1.length
    have hpos := haccounted.positive
    rw [hempty, List.length_nil] at hlength
    omega
  · rw [Stands, hcontrol] at h
    exact h
  · rw [Stands, hcontrol] at h
    exact h

/-- Two elements and room for one promise: the second call of `f` waits for the first promise,
and the result is fulfilled after the second one. -/
theorem iter_n_bounds_concurrency_two : ∃ x₀ x y : IterN Unit ℕ Unit,
    streamIterN 1 [] = .ok x₀ ∧ Reach step (fun _ _ => True) x₀ x ∧
      x.control = .choosing [0] 0 () ∧ x.applied = [(5, 0)] ∧ x.Waits 1 () ∧
      Reach step (fun _ _ => True) x₀ y ∧ y.applied = [(5, 0), (6, 1)] ∧
      y.control = .ended (.ok ()) ∧ InputEnded () y.gets := by
  let x₀ : IterN Unit ℕ Unit := ⟨[], .loop [] 1 (), [], []⟩
  let x : IterN Unit ℕ Unit := ⟨[.pending], .choosing [0] 0 (), [((), .some 5 ())], [(5, 0)]⟩
  let y : IterN Unit ℕ Unit :=
    ⟨[.fulfilled, .fulfilled], .ended (.ok ()), [((), .some 5 ()), ((), .some 6 ()), ((), .none)],
      [(5, 0), (6, 1)]⟩
  have hstart : iterN "Lwt_stream" 1 [] () = .ok x₀ := rfl
  have hx : Reach step (fun _ _ => True) x₀ x :=
    reach_of_replay [.turn, .answer (.some 5 ()), .newPromise .pending, .ret 0, .turn] rfl
  have hy : Reach step (fun _ _ => True) x₀ y :=
    reach_of_replay [.turn, .answer (.some 5 ()), .newPromise .pending, .ret 0, .turn,
      .resolve [0] (.ok ()), .split, .answer (.some 6 ()), .newPromise .pending, .ret 1, .turn,
      .resolve [1] (.ok ()), .split, .answer .none] (by decide)
  obtain ⟨-, -, -, -, -, hwaits⟩ := iter_n_bounds_concurrency hstart hx
  obtain ⟨-, -, -, -, hended, -⟩ := iter_n_bounds_concurrency hstart hy
  refine ⟨x₀, x, y, rfl, hx, rfl, rfl, (hwaits ⟨rfl, rfl, fun _ => rfl⟩ ?_ ?_).1, hy, rfl, rfl,
    (hended rfl).1⟩
  · rintro e ⟨p, hp, he⟩
    obtain rfl : p = 0 := by simpa [x, results] using hp
    simp [x] at he
  · rintro e ⟨before, seq, -, hgets⟩
    obtain ⟨-, hlast⟩ := List.append_inj' (show [] ++ [((), _)] = _ from hgets) rfl
    simp at hlast

end IterN

end Lwt
