import Mathlib.Data.List.Chain
import Lwt.Io.Slices
import Lwt.Stream.Single

/-!
# `Lwt_retry`

`on_error f` is a stream of `from` whose function calls `f` until a result is not a retry, and
`n_times n` takes `n + 1` elements from it with `nget`.  The stream calls its function when an
element is asked for and not before, so `f` is called once for each element (`nget_attempts`).

The number `n + 1` is computed in the type `int`: for `max_int` it is negative, `nget` returns no
elements, and the failure that was meant to be impossible is raised (`nTimes_iff`).
-/

namespace Lwt.Single

open Timing Timing.Timed Io.Slices

variable {α ok retry fatal : Type}

namespace Stream

/-- `nget_rec node acc n s`; the first argument bounds the number of turns. -/
def ngetRec {S : Type} (fuel : ℕ) :
    ℕ → ℕ → List α → Int63 → Stream S α → Timed (List α × Stream S α)
  | 0, _, _, _, _ => never
  | turns + 1, node, acc, n, s =>
    if n.sle 0 then return (acc.reverse, s)
    else do
      let s ← fed node fuel s
      match s.nodeData s.node with
      | some x => ngetRec fuel turns (node + 1) (x :: acc) (n - 1) (s.consume node)
      | none => return (acc.reverse, s)

/-- `nget n s` -/
def nget {S : Type} (fuel : ℕ) (s : Stream S α) (n : Int63) : Timed (List α × Stream S α) :=
  ngetRec fuel fuel s.node [] n s

/-- From `s.node` on, `nget_rec` reads one element after the other. -/
theorem ngetRec_eq {S : Type} (fuel turns : ℕ) (acc : List α) {n : Int63} (hn : ¬ n.sle 0 = true)
    (s : Stream S α) :
    ngetRec fuel (turns + 1) s.node acc n s = (do
      let (x, s) ← get fuel s
      match x with
      | some x => ngetRec fuel turns s.node (x :: acc) (n - 1) s
      | none => return (acc.reverse, s)) := by
  rw [ngetRec, if_neg hn, get, getRec, Timed.bind_assoc]
  refine (yields_fed s.node fuel s).bind_congr fun s' hs' => ?_
  have hconsume : (s'.consume s.node).node = s.node + 1 := by
    rw [consume, if_pos hs'.symm]
  rw [hs']
  cases s'.nodeData s.node with
  | none => rfl
  | some x =>
    simp only [Timed.pure_bind]
    rw [hconsume]

end Stream

/-! ## The attempts -/

/-- A result of `f`. -/
inductive Result (ok retry fatal : Type)
  | ok (x : ok)
  | retry (e : retry)
  | fatal (e : fatal)

def Result.isRetry : Result ok retry fatal → Bool
  | .retry _ => true
  | _ => false

/-- An element of the stream: a result, with the number of the attempt if it is an error. -/
inductive Attempt (ok retry fatal : Type)
  | ok (x : ok)
  | retry (e : retry) (number : Int63)
  | fatal (e : fatal) (number : Int63)

def Result.attempt (number : Int63) : Result ok retry fatal → Attempt ok retry fatal
  | .ok x => .ok x
  | .retry e => .retry e number
  | .fatal e => .fatal e number

/-- The references of `on_error`, and the calls of `f` with the instants at which they were made and
their promises fulfilled, which are not part of the program. -/
structure Attempts where
  i : Int63
  stop : Bool
  calls : List (ℕ × ℕ)

/-- The function of the stream.  `f` has the number of the call. -/
def attempt (f : ℕ → Timed (Result ok retry fatal)) (s : Attempts) :
    Timed (Option (Attempt ok retry fatal) × Attempts) := do
  let s := { s with i := s.i + 1 }
  if s.stop then return (none, s)
  else
    let start ← now
    let result ← f (s.calls.length + 1)
    let finish ← now
    let s := { s with calls := s.calls ++ [(start, finish)] }
    match result with
    | .retry e => return (some (.retry e s.i), s)
    | .fatal e => return (some (.fatal e s.i), { s with stop := true })
    | .ok x => return (some (.ok x), { s with stop := true })

def onError (f : ℕ → Timed (Result ok retry fatal)) :
    Stream Attempts (Attempt ok retry fatal) :=
  Stream.from (attempt f) ⟨0, false, []⟩

/-- How the promise of `n_times` is resolved, or the exception that it raises. -/
inductive Outcome (ok retry fatal : Type)
  | attempt (a : Attempt ok retry fatal)
  | invalidArg (message : String)
  | failure (message : String)

/-- `n_times n attempts`, with the state of the stream afterwards. -/
def nTimes (fuel : ℕ) (n : Int63) (attempts : Stream Attempts (Attempt ok retry fatal)) :
    Timed (Outcome ok retry fatal × Attempts) :=
  if n.slt 0 then
    return (.invalidArg "Lwt_retry.n_times: n must be non-negative", attempts.state)
  else do
    let retries := n + 1
    let (l, s) ← attempts.nget fuel retries
    match l.reverse with
    | last :: _ => return (.attempt last, s.state)
    | [] => return (.failure "Lwt_retry.n_times: impossible", s.state)

/-! ## How many attempts there are -/

variable {f : ℕ → Timed (Result ok retry fatal)} {r : ℕ → Result ok retry fatal} {n : Int63}
  {k fuel : ℕ}

/-- `k` is the smaller of `n + 1` and the number of the first result that is not a retry. -/
structure LastAttempt (r : ℕ → Result ok retry fatal) (n k : ℕ) : Prop where
  pos : 1 ≤ k
  le : k ≤ n + 1
  before : ∀ j, 1 ≤ j → j < k → (r j).isRetry = true
  at_end : k ≤ n → (r k).isRetry = false

/-- No call of `f` is made before the one before has ended, and all have ended at the instant
`t`. -/
def Successive (calls : List (ℕ × ℕ)) (t : ℕ) : Prop :=
  List.IsChain (fun c c' => c.2 ≤ c'.1) calls ∧ ∀ c ∈ calls, c.1 ≤ c.2 ∧ c.2 ≤ t

theorem Successive.add {calls : List (ℕ × ℕ)} {t t' : ℕ} (h : Successive calls t) (hle : t ≤ t') :
    Successive (calls ++ [(t, t')]) t' := by
  refine ⟨List.isChain_append.mpr ⟨h.1, List.isChain_singleton _, fun c hc c' hc' => ?_⟩,
    fun c hc => ?_⟩
  · obtain rfl := Option.mem_some_iff.mp hc'
    exact (h.2 c (List.mem_of_getLast? hc)).2
  · rcases List.mem_append.mp hc with hc | hc
    · exact ⟨(h.2 c hc).1, Nat.le_trans (h.2 c hc).2 hle⟩
    · obtain rfl := List.mem_singleton.mp hc
      exact ⟨hle, Nat.le_refl t'⟩

theorem ends_attempt (hf : ∀ j, (f j).Becomes (r j)) {s : Attempts} (hstop : s.stop = false)
    {t j : ℕ} (hcalls : s.calls.length = j) (hsuccessive : Successive s.calls t) :
    (attempt f s).Ends t fun t' a => a.1 = some ((r (j + 1)).attempt (s.i + 1)) ∧
      a.2.i = s.i + 1 ∧ a.2.stop = !(r (j + 1)).isRetry ∧ a.2.calls.length = j + 1 ∧
      Successive a.2.calls t' := by
  unfold attempt
  simp only [hstop, Bool.false_eq_true, if_false]
  refine Ends.bind (ends_now (Ends.bind ((hf _ t).mono fun t' result hle hresult => ?_)))
  subst hresult
  refine Ends.bind (ends_now ?_)
  have hadd := hsuccessive.add hle
  rw [hcalls]
  cases r (j + 1) with
  | ok x => exact ends_pure ⟨rfl, rfl, rfl, by simp [hcalls], hadd⟩
  | retry e => exact ends_pure ⟨rfl, rfl, rfl, by simp [hcalls], hadd⟩
  | fatal e => exact ends_pure ⟨rfl, rfl, rfl, by simp [hcalls], hadd⟩

/-- The attempts that `n_times` asks for when `m` elements are wanted and `j` calls were made: those
up to the call `k`. -/
structure Remaining (r : ℕ → Result ok retry fatal) (m j k : ℕ) : Prop where
  lt : j < k
  le : k ≤ j + m
  before : ∀ i, j < i → i < k → (r i).isRetry = true
  at_end : k < j + m → (r k).isRetry = false

theorem LastAttempt.remaining {n : ℕ} (h : LastAttempt r n k) : Remaining r (n + 1) 0 k :=
  ⟨h.pos, by have := h.le; omega, fun i hi hik => h.before i hi hik,
    fun hk => h.at_end (by omega)⟩

theorem sle_zero_iff (n : Int63) : n.sle 0 = true ↔ n.toInt ≤ 0 := by
  rw [BitVec.sle_iff_toInt_le]
  rfl

theorem toInt_pred {n : Int63} {m : ℕ} (hn : n.toInt = m + 1) : (n - 1).toInt = m := by
  have hbounds := toInt_bounds n
  have hone : (1 : Int63).toInt = 1 := by decide
  rw [BitVec.toInt_sub, hone, Int.bmod_eq_of_le (by omega) (by omega)]
  omega

section Reads

variable {s : Stream Attempts (Attempt ok retry fatal)} {t turns j : ℕ}
  {acc : List (Attempt ok retry fatal)}

theorem ends_ngetRec_last (hfuel : 2 ≤ fuel) (hready : Stream.Ready (attempt f) s t)
    (hlast : n.toInt ≤ 0 ∨ s.state.stop = true) :
    (s.ngetRec fuel (turns + 1) s.node acc n).Ends t fun t' res =>
      res.1 = acc.reverse ∧ t' = t ∧ res.2.state.calls = s.state.calls := by
  by_cases hn : n.sle 0 = true
  · rw [Stream.ngetRec, if_pos hn]
    exact ends_pure ⟨rfl, rfl, rfl⟩
  · have hstop := hlast.resolve_left fun h => hn ((sle_zero_iff n).mpr h)
    rw [Stream.ngetRec_eq fuel turns acc hn]
    refine Ends.bind (hready.ends_get hfuel ?_)
    unfold attempt
    simp only [hstop, if_true]
    refine ends_pure fun s' hs' _ => ends_pure ⟨rfl, rfl, ?_⟩
    rw [hs']

/-- `nget_rec` with `m` elements to read, after `j` calls of `f`. -/
theorem ends_ngetRec (hfuel : 2 ≤ fuel) (hf : ∀ j, (f j).Becomes (r j)) {m : ℕ}
    (hturns : m < turns) (hn : n.toInt = m) (hready : Stream.Ready (attempt f) s t)
    (hstop : s.state.stop = false) (hi : s.state.i = BitVec.ofNat 63 j)
    (hcalls : s.state.calls.length = j) (hsuccessive : Successive s.state.calls t)
    (hk : Remaining r m j k) :
    (s.ngetRec fuel turns s.node acc n).Ends t fun t' res =>
      res.1.reverse.head? = some ((r k).attempt (BitVec.ofNat 63 k)) ∧
      res.2.state.calls.length = k ∧ Successive res.2.state.calls t' := by
  induction turns generalizing s t j m n acc with
  | zero => exact absurd hturns (Nat.not_lt_zero m)
  | succ turns ih =>
    have hm : 0 < m := by
      have := hk.lt
      have := hk.le
      omega
    obtain ⟨m, rfl⟩ := Nat.exists_eq_add_of_lt hm
    rw [Nat.zero_add] at hn hk hturns
    -- the bound is not reached, so that the turn takes the next attempt
    have hpos : ¬ n.sle 0 = true := by
      rw [sle_zero_iff]
      omega
    have hpred : (n - 1).toInt = m := toInt_pred (by omega)
    rw [Stream.ngetRec_eq fuel turns acc hpos]
    refine Ends.bind (hready.ends_get hfuel
      ((ends_attempt hf hstop hcalls hsuccessive).mono fun t' a _ ha s' hs' hnext => ?_))
    obtain ⟨hattempt, hi', hstop', hcalls', hsuccessive'⟩ := ha
    have hnumber : s.state.i + 1 = BitVec.ofNat 63 (j + 1) := by
      rw [hi, BitVec.ofNat_add]
      rfl
    rw [hattempt]
    rw [hnumber] at hi' hattempt ⊢
    rw [← hs'] at hi' hstop' hcalls' hsuccessive'
    have hready' := hnext _ hattempt
    rcases Nat.lt_or_eq_of_le hk.lt with hlt | rfl
    · -- another call follows
      have hretry := hk.before (j + 1) (Nat.lt_succ_self j) hlt
      rw [hretry] at hstop'
      refine ih (by omega) hpred hready' hstop' hi' hcalls' hsuccessive' ⟨hlt, ?_, ?_, ?_⟩
      · have := hk.le
        omega
      · exact fun i hji hik => hk.before i (by omega) hik
      · exact fun hkm => hk.at_end (by omega)
    · -- it was the last one
      obtain ⟨turns, rfl⟩ :=
        Nat.exists_eq_add_of_lt (Nat.zero_lt_of_lt (Nat.lt_of_succ_lt_succ hturns))
      rw [Nat.zero_add]
      have hlast : (n - 1).toInt ≤ 0 ∨ s'.state.stop = true := by
        rcases Nat.eq_zero_or_pos m with rfl | hpos
        · exact .inl (Int.le_of_eq hpred)
        · right
          rw [hstop', hk.at_end (by omega)]
          rfl
      refine (ends_ngetRec_last hfuel hready' hlast).mono fun t'' res _ hres => ?_
      obtain ⟨hres, rfl, hcalls''⟩ := hres
      rw [hres, hcalls'', List.reverse_reverse]
      exact ⟨rfl, hcalls', hsuccessive'⟩

end Reads

/-- `n_times n (on_error f)`: the outcome, the number of the calls of `f`, and that they do not
overlap, for every number of turns from some number on. -/
def Attempted (f : ℕ → Timed (Result ok retry fatal)) (n : Int63) (k : ℕ)
    (outcome : Outcome ok retry fatal) : Prop :=
  ∀ fuel, n.toInt.toNat + 3 ≤ fuel → ∀ t, (nTimes fuel n (onError f)).Ends t fun t' res =>
    res.1 = outcome ∧ res.2.calls.length = k ∧ Successive res.2.calls t'

theorem Attempted.unique {k' : ℕ} {o o' : Outcome ok retry fatal} (h : Attempted f n k o)
    (h' : Attempted f n k' o') : o = o' := by
  obtain ⟨t₁, res, hres, -, ho, -⟩ := h _ (Nat.le_refl _) 0
  obtain ⟨t₂, res', hres', -, ho', -⟩ := h' _ (Nat.le_refl _) 0
  rw [hres] at hres'
  obtain ⟨-, rfl⟩ := Prod.mk.inj (Option.some.inj hres')
  exact ho.symm.trans ho'

theorem exists_lastAttempt (r : ℕ → Result ok retry fatal) (n : ℕ) : ∃ k, LastAttempt r n k := by
  by_cases h : ∃ k, 1 ≤ k ∧ (r k).isRetry = false
  · obtain ⟨hpos, hk⟩ := Nat.find_spec h
    rcases Nat.le_total (Nat.find h) (n + 1) with hle | hle
    · refine ⟨Nat.find h, hpos, hle, fun j hj hjk => ?_, fun _ => hk⟩
      have := Nat.find_min h hjk
      simpa [hj] using this
    · refine ⟨n + 1, Nat.le_add_left 1 n, Nat.le_refl _, fun j hj hjn => ?_, fun h => by omega⟩
      have := Nat.find_min h (Nat.lt_of_lt_of_le hjn hle)
      simpa [hj] using this
  · refine ⟨n + 1, Nat.le_add_left 1 n, Nat.le_refl _, fun j hj _ => ?_, fun h => by omega⟩
    simpa [hj] using fun h' => h ⟨j, hj, h'⟩

theorem toInt_intMax : (BitVec.intMax 63).toInt = 2 ^ 62 - 1 := by decide

theorem toInt_succ (hn : 0 ≤ n.toInt) (hmax : n ≠ BitVec.intMax 63) :
    (n + 1).toInt = n.toInt.toNat + 1 := by
  have hbounds := toInt_bounds n
  have hone : (1 : Int63).toInt = 1 := by decide
  have hne : n.toInt ≠ 2 ^ 62 - 1 := by
    rw [← toInt_intMax]
    exact fun h => hmax (BitVec.eq_of_toInt_eq h)
  rw [BitVec.toInt_add, hone, Int.bmod_eq_of_le (by omega) (by omega)]
  omega

theorem attempted (hf : ∀ j, (f j).Becomes (r j)) (hn : 0 ≤ n.toInt) (hmax : n ≠ BitVec.intMax 63)
    (hk : LastAttempt r n.toInt.toNat k) :
    Attempted f n k (.attempt ((r k).attempt (BitVec.ofNat 63 k))) := by
  intro fuel hfuel t
  have hnonneg : ¬ n.slt 0 = true := by
    rw [BitVec.slt_iff_toInt_lt]
    exact Int.not_lt.mpr hn
  have hready : Stream.Ready (attempt f) (onError f) t := Stream.ready_from _ _ t
  rw [nTimes, if_neg hnonneg]
  have hfuel' : 2 ≤ fuel := Nat.le_trans (Nat.le_add_left 2 (_ + 1)) hfuel
  have hturns : n.toInt.toNat + 1 < fuel :=
    Nat.lt_of_lt_of_le (Nat.lt_succ_of_lt (Nat.lt_succ_self _)) hfuel
  refine Ends.bind ((ends_ngetRec hfuel' hf hturns (toInt_succ hn hmax) hready rfl rfl rfl
    ⟨List.IsChain.nil, nofun⟩ hk.remaining).mono fun t' res _ hres => ?_)
  obtain ⟨hlast, hcalls⟩ := hres
  obtain ⟨l, s⟩ := res
  cases hl : l.reverse with
  | nil =>
    rw [hl] at hlast
    exact absurd hlast nofun
  | cons a rest =>
    rw [hl] at hlast
    cases hlast
    simp only [hl]
    exact ends_pure ⟨rfl, hcalls⟩

theorem attempted_intMax (f : ℕ → Timed (Result ok retry fatal)) :
    Attempted f (BitVec.intMax 63) 0 (.failure "Lwt_retry.n_times: impossible") := by
  intro fuel hfuel t
  obtain ⟨fuel, rfl⟩ := Nat.exists_eq_add_of_le' (Nat.le_of_add_left_le hfuel)
  have hnonneg : ¬ (BitVec.intMax 63).slt 0 = true := by decide
  have hneg : (BitVec.intMax 63 + 1).sle 0 = true := by decide
  rw [nTimes, if_neg hnonneg]
  refine Ends.bind ?_
  rw [Stream.nget, Stream.ngetRec, if_pos hneg]
  exact ends_pure (ends_pure ⟨rfl, rfl, List.IsChain.nil, nofun⟩)

/-- What `n_times n (on_error f)` is for: `k` calls of `f`, one after the other, where `k` is the
smaller of `n + 1` and the number of the first result that is not a retry, and the result of the
last of them, with the number `k` if it is an error.  For `max_int`, and for no other `n`, it is
not so: the failure is raised without a call. -/
theorem nTimes_iff (hf : ∀ j, (f j).Becomes (r j)) (hn : 0 ≤ n.toInt) :
    ((∃ (k : ℕ) (number : Int63), LastAttempt r n.toInt.toNat k ∧ number.toInt = k ∧
      Attempted f n k (.attempt ((r k).attempt number))) ↔ n ≠ BitVec.intMax 63) ∧
    (n = BitVec.intMax 63 → Attempted f n 0 (.failure "Lwt_retry.n_times: impossible")) := by
  refine ⟨⟨?_, fun hmax => ?_⟩, ?_⟩
  · rintro ⟨k, number, -, -, h⟩ rfl
    exact absurd (h.unique (attempted_intMax f)) nofun
  · obtain ⟨k, hk⟩ := exists_lastAttempt r n.toInt.toNat
    refine ⟨k, BitVec.ofNat 63 k, hk, ?_, attempted hf hn hmax hk⟩
    have hle := hk.le
    have hsucc := toInt_succ hn hmax
    have hbounds := toInt_bounds (n + 1)
    change (BitVec.ofNat 63 k).toInt = _
    rw [BitVec.toInt_ofNat', Int.bmod_eq_of_le (by omega) (by omega)]
  · rintro rfl
    exact attempted_intMax f

/-- Two retries, later, and a fatal error at once. -/
theorem nTimes_of_two :
    let r : ℕ → Result Unit Unit Unit := fun j => if j < 3 then .retry () else .fatal ()
    let f : ℕ → Timed (Result Unit Unit Unit) := fun j => do
      await (if j < 3 then 4 * j else 0)
      return r j
    ∃ (k : ℕ) (number : Int63), LastAttempt r 5 k ∧ number.toInt = k ∧
      Attempted f 5 k (.attempt ((r k).attempt number)) := by
  intro r f
  refine (nTimes_iff (r := r) (n := 5) (fun j t => ?_) (by decide)).1.mpr (by decide)
  exact Ends.bind (ends_await (ends_pure rfl))

/-- `n_times max_int` does not give the result of the only call that is needed. -/
theorem nTimes_intMax_impossible :
    ¬ ∃ (k : ℕ) (number : Int63),
      LastAttempt (fun _ => (.ok () : Result Unit Unit Unit)) (2 ^ 62 - 1) k ∧ number.toInt = k ∧
      Attempted (fun _ => pure (.ok () : Result Unit Unit Unit)) (BitVec.intMax 63) k
        (.attempt (.ok ())) := by
  rintro ⟨k, number, -, -, h⟩
  exact absurd (h.unique (attempted_intMax _)) nofun

end Lwt.Single
