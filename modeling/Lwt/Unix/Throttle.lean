import Mathlib.Algebra.GroupWithZero.Nat
import Mathlib.Algebra.Order.BigOperators.Group.List
import Mathlib.Algebra.Order.Group.Nat
import Mathlib.Data.Int.Notation
import Lwt.Library.Bindings
import Lwt.Library.Transition

/-!
# Throttling

Each key of an `Lwt_throttle` has an allowance of `rate` calls.  Once a second all allowances are
renewed, and the first calls that wait get the new ones: they are taken from the queues, the table
is brought up to date, and only then the callers are woken, who may call `wait` again.
-/

namespace Lwt.Unix

open Transition Bindings

/-- What a call of `wait` has come to. -/
inductive Admission
  | pending
  /-- resolved with `true` -/
  | granted
  /-- resolved with `false` -/
  | refused
  | canceled
  deriving DecidableEq

/-- An `elt`.  A waiting caller is the number of its call, with its key. -/
structure Elt (κ : Type) where
  consumed : ℕ
  queue : List (κ × ℕ)
  deriving DecidableEq

structure Throttle (κ : Type) where
  rate : ℕ
  max : ℕ
  rate_pos : 1 ≤ rate
  max_pos : 1 ≤ max
  waiting : ℕ
  table : List (κ × Elt κ)
  /-- a cleaning is scheduled -/
  cleaning : Bool
  /-- the callers that the last cleaning is still to wake -/
  toRun : List (κ × ℕ)
  promises : List Admission
  /-- Not part of the program: the keys of the calls that have been granted since the last cleaning,
  those woken by it included. -/
  grants : List κ
  /-- Not part of the program: the callers that have been queued. -/
  queued : List (κ × ℕ)
  /-- Not part of the program: the callers that have been taken from the queues. -/
  selected : List (κ × ℕ)

namespace Throttle

variable {κ : Type} [DecidableEq κ]

/-- `create ~rate ~max ~n` -/
def create (rate max n : ℤ) : Except String (Throttle κ) :=
  if h : rate < 1 ∨ max < 1 ∨ n < 0 then .error "Lwt_throttle.S.create"
  else .ok {
    rate := rate.toNat
    max := max.toNat
    rate_pos := by omega
    max_pos := by omega
    waiting := 0
    table := []
    cleaning := false
    toRun := []
    promises := []
    grants := []
    queued := []
    selected := [] }

/-- The loop of `update_key`: what is left of the allowance, the number of callers that wait on, the
queue and `to_run`. -/
def update (toRun : List (κ × ℕ)) :
    List (κ × ℕ) → ℕ → ℕ × ℕ × List (κ × ℕ) × List (κ × ℕ)
  | queue, 0 => (0, queue.length, queue, toRun)
  | u :: queue, i + 1 => update (u :: toRun) queue i
  | [], i + 1 => (i + 1, 0, [], toRun)

/-- `update_key`, for a binding of the table and what has come out for the bindings before. -/
def updateKey (rate : ℕ) (done : List (κ × Elt κ) × ℕ × List (κ × ℕ)) (binding : κ × Elt κ) :
    List (κ × Elt κ) × ℕ × List (κ × ℕ) :=
  let (table, oldWaiting, toRun) := done
  let (notConsumed, waiting, queue, toRun) := update toRun binding.2.queue rate
  let consumed := rate - notConsumed
  (if consumed = 0 then table else table ++ [(binding.1, ⟨consumed, queue⟩)],
    oldWaiting + waiting, toRun)

/-- `clean_table` up to the wakeups.  The table is visited in the order `order`. -/
def cleanTable (t : Throttle κ) (order : List (κ × Elt κ)) : Throttle κ :=
  let (table, waiting, toRun) := order.foldl (updateKey t.rate) ([], 0, [])
  { t with
    table := table
    waiting := waiting
    cleaning := !(waiting == 0 && toRun.isEmpty)
    toRun := toRun
    grants := []
    selected := t.selected ++ toRun.reverse }

def reallyWait (t : Throttle κ) (key : κ) : Throttle κ :=
  if t.max > t.waiting then
    { t with
      table := modify key (fun elt =>
        { elt with queue := elt.queue ++ [(key, t.promises.length)] }) t.table
      waiting := t.waiting + 1
      promises := t.promises ++ [.pending]
      queued := t.queued ++ [(key, t.promises.length)] }
  else { t with promises := t.promises ++ [.refused] }

def wait (t : Throttle κ) (key : κ) : Throttle κ :=
  let t : Throttle κ :=
    match find t.table key with
    | some elt =>
      if elt.consumed ≥ t.rate then t.reallyWait key
      else
        { t with
          table := modify key (fun elt => { elt with consumed := elt.consumed + 1 }) t.table
          promises := t.promises ++ [.granted]
          grants := t.grants ++ [key] }
    | none =>
      { t with
        table := t.table ++ [(key, ⟨1, []⟩)]
        promises := t.promises ++ [.granted]
        grants := t.grants ++ [key] }
  { t with cleaning := true }

/-- The next wakeup of `clean_table`. -/
def wakeup (t : Throttle κ) : Option (Throttle κ) :=
  match t.toRun with
  | [] => none
  | u :: toRun =>
    if t.promises[u.2]? = some .pending then
      some { t with
        toRun := toRun
        promises := t.promises.set u.2 .granted
        grants := t.grants ++ [u.1] }
    else some { t with toRun := toRun }

end Throttle

inductive ThrottleStep (κ : Type)
  | wait (key : κ)
  | clean (order : List (κ × Elt κ))
  | wakeup
  | cancel (n : ℕ)

/-- A cleaning is called by the main loop, when the wakeups of the one before are over. -/
def throttleStep {κ : Type} [DecidableEq κ] (t : Throttle κ) :
    ThrottleStep κ → Option (Throttle κ)
  | .wait key => some (t.wait key)
  | .clean order =>
    if t.cleaning = true ∧ t.toRun = [] ∧ order.Perm t.table then some (t.cleanTable order)
    else none
  | .wakeup => t.wakeup
  | .cancel n =>
    if t.promises[n]? = some .pending then
      some { t with promises := t.promises.set n .canceled }
    else none

namespace Throttle

variable {κ : Type} [DecidableEq κ] {t u : Throttle κ} {key k : κ}

/-- What the table says of a key. -/
def elt (t : Throttle κ) (k : κ) : Elt κ := (find t.table k).getD ⟨0, []⟩

/-- The number of callers in the queues. -/
def total (table : List (κ × Elt κ)) : ℕ := (table.map fun binding => binding.2.queue.length).sum

/-! ## Cleaning -/

omit [DecidableEq κ] in
theorem update_eq (queue : List (κ × ℕ)) : ∀ (toRun : List (κ × ℕ)) (i : ℕ),
    update toRun queue i = (i - queue.length, queue.length - i, queue.drop i,
      (queue.take i).reverse ++ toRun) := by
  induction queue with
  | nil =>
    intro toRun i
    cases i <;> simp [update]
  | cons u queue ih =>
    intro toRun i
    cases i with
    | zero => simp [update]
    | succ i => simp [update, ih]

/-- A cleaning, for one key. -/
def cleaned (rate : ℕ) (elt : Elt κ) : Option (Elt κ) :=
  if elt.queue = [] then none else some ⟨min rate elt.queue.length, elt.queue.drop rate⟩

omit [DecidableEq κ] in
theorem foldl_updateKey {rate : ℕ} (hrate : 1 ≤ rate) (order : List (κ × Elt κ)) :
    ∀ (table : List (κ × Elt κ)) (waiting : ℕ) (toRun : List (κ × ℕ)),
      order.foldl (updateKey rate) (table, waiting, toRun) =
        (table ++ Bindings.update (cleaned rate) order,
          waiting + (order.map fun binding => binding.2.queue.length - rate).sum,
          (order.flatMap fun binding => binding.2.queue.take rate).reverse ++ toRun) := by
  induction order with
  | nil =>
    intro table waiting toRun
    simp [Bindings.update]
  | cons binding order ih =>
    intro table waiting toRun
    have hconsumed : rate - (rate - binding.2.queue.length) =
      min rate binding.2.queue.length := by
      omega
    rw [List.foldl_cons, updateKey]
    simp only [update_eq, hconsumed]
    rw [ih]
    by_cases hqueue : binding.2.queue = []
    · simp [hqueue, Bindings.update, cleaned]
    · have hlength := List.length_pos_iff.mpr hqueue
      have hmin : min rate binding.2.queue.length ≠ 0 := by omega
      rw [if_neg hmin]
      simp [hqueue, Bindings.update, cleaned, Nat.add_assoc]

omit [DecidableEq κ] in
theorem cleanTable_eq (t : Throttle κ) (order : List (κ × Elt κ)) :
    t.cleanTable order =
      { t with
        table := Bindings.update (cleaned t.rate) order
        waiting := (order.map fun binding => binding.2.queue.length - t.rate).sum
        cleaning := !((order.map fun binding => binding.2.queue.length - t.rate).sum == 0 &&
          (order.flatMap fun binding => binding.2.queue.take t.rate).reverse.isEmpty)
        toRun := (order.flatMap fun binding => binding.2.queue.take t.rate).reverse
        grants := []
        selected := t.selected ++ order.flatMap fun binding => binding.2.queue.take t.rate } := by
  simp [cleanTable, foldl_updateKey t.rate_pos]

/-- The callers of a key, among those that a cleaning takes from the queues. -/
theorem filter_taken {order : List (κ × Elt κ)} (rate : ℕ) (hnodup : (keys order).Nodup)
    (hkeyed : ∀ binding ∈ order, ∀ w ∈ binding.2.queue, w.1 = binding.1) (k : κ) :
    (order.flatMap fun binding => binding.2.queue.take rate).filter (fun w => w.1 = k) =
      ((find order k).getD ⟨0, []⟩).queue.take rate := by
  induction order with
  | nil => simp [find]
  | cons binding order ih =>
    obtain ⟨hnew, hnodup⟩ := List.nodup_cons.mp hnodup
    have hrest := ih hnodup fun b hb => hkeyed b (List.mem_cons_of_mem _ hb)
    have hfirst : ∀ w ∈ binding.2.queue.take rate, w.1 = binding.1 := fun w hw =>
      hkeyed binding List.mem_cons_self w (List.mem_of_mem_take hw)
    rw [List.flatMap_cons, List.filter_append, hrest, find_cons]
    by_cases hk : binding.1 = k
    · have hnone : find order k = none := find_eq_none.mpr (hk ▸ hnew)
      rw [if_pos hk, hnone, List.filter_eq_self.mpr fun w hw => by simp [hfirst w hw, hk]]
      simp
    · rw [if_neg hk, List.filter_eq_nil_iff.mpr fun w hw => by simp [hfirst w hw, hk]]
      rfl

omit [DecidableEq κ] in
theorem total_cleaned (rate : ℕ) (order : List (κ × Elt κ)) :
    total (Bindings.update (cleaned rate) order) =
      (order.map fun binding => binding.2.queue.length - rate).sum := by
  induction order with
  | nil => rfl
  | cons binding order ih =>
    unfold total Bindings.update at ih ⊢
    by_cases hqueue : binding.2.queue = []
    · have hcleaned : cleaned rate binding.2 = none := if_pos hqueue
      simp [hcleaned, hqueue, ih]
    · have hcleaned : cleaned rate binding.2 =
          some ⟨min rate binding.2.queue.length, binding.2.queue.drop rate⟩ := if_neg hqueue
      simp [hcleaned, ih]

theorem elt_cleanTable {order : List (κ × Elt κ)} (hperm : order.Perm t.table)
    (hnodup : (keys t.table).Nodup) (k : κ) :
    (t.cleanTable order).elt k =
      ⟨min t.rate (t.elt k).queue.length, (t.elt k).queue.drop t.rate⟩ := by
  have hnodup' : (keys order).Nodup := (hperm.map _).nodup_iff.mpr hnodup
  rw [cleanTable_eq]
  unfold elt
  rw [find_update _ hnodup', find_perm hperm hnodup]
  cases find t.table k with
  | none => simp
  | some e =>
    by_cases hqueue : e.queue = []
    · simp [cleaned, hqueue]
    · simp [cleaned, hqueue]

/-! ## Steps -/

structure Sound (t : Throttle κ) : Prop where
  nodup : (keys t.table).Nodup
  keyed : ∀ binding ∈ t.table, ∀ w ∈ binding.2.queue, w.1 = binding.1
  consumed_le : ∀ k, (t.elt k).consumed ≤ t.rate
  full : ∀ k, (t.elt k).queue ≠ [] → (t.elt k).consumed = t.rate
  waiting : t.waiting = total t.table
  waiting_le : t.waiting ≤ t.max
  cleaning : t.table ≠ [] → t.cleaning = true
  granted : ∀ k, t.grants.count k + (t.toRun.map (·.1)).count k ≤ (t.elt k).consumed
  order : ∀ k, t.queued.filter (fun w => w.1 = k) =
    t.selected.filter (fun w => w.1 = k) ++ (t.elt k).queue
  numbers : ∀ w ∈ t.queued, w.2 < t.promises.length
  pending : ∀ n, t.promises[n]? = some .pending → ∃ k, (k, n) ∈ t.queued
  woken : ∀ w ∈ t.selected, t.promises[w.2]? = some .pending → w ∈ t.toRun

theorem Sound.selected_queued (h : t.Sound) : ∀ w ∈ t.selected, w ∈ t.queued := by
  intro w hw
  have hmem : w ∈ t.queued.filter (fun v => v.1 = w.1) := by
    rw [h.order w.1]
    exact List.mem_append_left _ (List.mem_filter.mpr ⟨hw, by simp⟩)
  exact (List.mem_filter.mp hmem).1

theorem Sound.queue_of_pending (h : t.Sound) {n : ℕ} (hn : t.promises[n]? = some .pending) :
    ∃ k, (k, n) ∈ (t.elt k).queue ∨ (k, n) ∈ t.toRun := by
  obtain ⟨k, hk⟩ := h.pending n hn
  have hmem : (k, n) ∈ t.queued.filter (fun w => w.1 = k) := List.mem_filter.mpr ⟨hk, by simp⟩
  rw [h.order k] at hmem
  rcases List.mem_append.mp hmem with hmem | hmem
  · exact ⟨k, .inr (h.woken _ (List.mem_filter.mp hmem).1 hn)⟩
  · exact ⟨k, .inl hmem⟩

theorem Sound.cleanTable {order : List (κ × Elt κ)} (h : t.Sound) (hrun : t.toRun = [])
    (hperm : order.Perm t.table) : (t.cleanTable order).Sound := by
  have hnodup' : (keys order).Nodup := (hperm.map _).nodup_iff.mpr h.nodup
  have hkeyed' : ∀ binding ∈ order, ∀ w ∈ binding.2.queue, w.1 = binding.1 := fun b hb =>
    h.keyed b (hperm.mem_iff.mp hb)
  have helt := elt_cleanTable hperm h.nodup
  have htaken : ∀ k, (order.flatMap fun binding => binding.2.queue.take t.rate).filter
      (fun w => w.1 = k) = (t.elt k).queue.take t.rate := by
    intro k
    rw [filter_taken t.rate hnodup' hkeyed' k, find_perm hperm h.nodup]
    rfl
  have htotal : total order = total t.table := (hperm.map _).sum_eq
  rw [cleanTable_eq] at helt ⊢
  refine ⟨?_, ?_, ?_, ?_, ?_, ?_, ?_, ?_, ?_, h.numbers, h.pending, ?_⟩
  · exact (keys_update_sublist _).nodup hnodup'
  · intro binding hbinding w hw
    obtain ⟨old, hold, hcleaned⟩ := List.mem_filterMap.mp hbinding
    obtain ⟨e, he, rfl⟩ := Option.map_eq_some_iff.mp hcleaned
    unfold cleaned at he
    split at he
    case isTrue => cases he
    case isFalse =>
      cases he
      exact hkeyed' old hold w (List.mem_of_mem_drop hw)
  · intro k
    rw [helt]
    exact Nat.min_le_left _ _
  · intro k hqueue
    rw [helt] at hqueue ⊢
    have hlength := List.length_pos_iff.mpr hqueue
    rw [List.length_drop] at hlength
    exact Nat.min_eq_left (by omega)
  · exact (total_cleaned t.rate order).symm
  · refine Nat.le_trans ?_ h.waiting_le
    rw [h.waiting, ← htotal]
    exact List.sum_le_sum fun binding _ => Nat.sub_le _ _
  · intro htable
    -- a binding that is kept has had a waiting caller
    obtain ⟨binding, hbinding⟩ := List.exists_mem_of_ne_nil _ htable
    obtain ⟨old, hold, hcleaned⟩ := List.mem_filterMap.mp hbinding
    obtain ⟨e, he, -⟩ := Option.map_eq_some_iff.mp hcleaned
    have hqueue : old.2.queue ≠ [] := by
      intro hempty
      simp [cleaned, hempty] at he
    obtain ⟨w, rest, hcons⟩ := List.exists_cons_of_ne_nil hqueue
    have hmem : w ∈ order.flatMap fun binding => binding.2.queue.take t.rate := by
      refine List.mem_flatMap.mpr ⟨old, hold, ?_⟩
      rw [hcons, ← Nat.sub_add_cancel t.rate_pos, List.take_succ_cons]
      exact List.mem_cons_self
    have hne := List.ne_nil_of_mem (List.mem_reverse.mpr hmem)
    simp only [Bool.not_eq_true', Bool.and_eq_false_iff]
    exact .inr (by simpa using hne)
  · intro k
    have hcount : ((order.flatMap fun binding => binding.2.queue.take t.rate).reverse.map
        (·.1)).count k = ((t.elt k).queue.take t.rate).length := by
      rw [List.map_reverse, List.count_reverse, ← htaken k, ← List.countP_eq_length_filter,
        List.count, List.countP_map]
      rfl
    rw [helt]
    simp only [List.count_nil, Nat.zero_add, hcount, List.length_take]
    exact Nat.le_refl _
  · intro k
    rw [helt, List.filter_append, htaken k, List.append_assoc, List.take_append_drop]
    exact h.order k
  · intro w hw hpending
    rcases List.mem_append.mp hw with hw | hw
    · exact absurd (h.woken w hw hpending) (hrun ▸ List.not_mem_nil)
    · exact List.mem_reverse.mpr hw

theorem elt_modify (f : Elt κ → Elt κ) {table : List (κ × Elt κ)} {e : Elt κ}
    (he : find table key = some e) (k : κ) :
    (find (modify key f table) k).getD ⟨0, []⟩ =
      if key = k then f e else (find table k).getD ⟨0, []⟩ := by
  rw [find_modify, he]
  split <;> rfl

theorem pending_append {promises : List Admission} {a : Admission} {n : ℕ}
    (h : (promises ++ [a])[n]? = some .pending) :
    promises[n]? = some .pending ∨ n = promises.length ∧ a = .pending := by
  rcases Nat.lt_trichotomy n promises.length with hlt | rfl | hgt
  · rw [List.getElem?_append_left hlt] at h
    exact .inl h
  · exact .inr ⟨rfl, by simpa using h⟩
  · rw [List.getElem?_eq_none (by simp; omega)] at h
    cases h

theorem keyed_modify {table : List (κ × Elt κ)} {f : Elt κ → Elt κ}
    (hkeyed : ∀ binding ∈ table, ∀ w ∈ binding.2.queue, w.1 = binding.1)
    (hf : ∀ e, (∀ w ∈ e.queue, w.1 = key) → ∀ w ∈ (f e).queue, w.1 = key) :
    ∀ binding ∈ modify key f table, ∀ w ∈ binding.2.queue, w.1 = binding.1 := by
  intro binding hbinding
  obtain ⟨old, hmem, rfl⟩ := List.mem_map.mp hbinding
  have hold := hkeyed old hmem
  split
  case isTrue hk => exact hf old.2 fun w hw => (hold w hw).trans hk
  case isFalse => exact hold

theorem Sound.grant (h : t.Sound) {table : List (κ × Elt κ)} {e : Elt κ}
    (hkeys : (keys table).Nodup)
    (helt : ∀ k, (find table k).getD ⟨0, []⟩ = if key = k then e else t.elt k)
    (hqueue : e.queue = (t.elt key).queue) (hconsumed : e.consumed = (t.elt key).consumed + 1)
    (hle : (t.elt key).consumed < t.rate) (htotal : total table = total t.table)
    (hkeyed : ∀ binding ∈ table, ∀ w ∈ binding.2.queue, w.1 = binding.1) :
    Sound { t with
      table := table
      promises := t.promises ++ [.granted]
      grants := t.grants ++ [key]
      cleaning := true } := by
  -- only the entry of `key` is another one
  have helt' : ∀ k, (find table k).getD ⟨0, []⟩ = e ∧ key = k ∨
      (find table k).getD ⟨0, []⟩ = t.elt k ∧ key ≠ k := by
    intro k
    rw [helt k]
    split
    case isTrue hk => exact .inl ⟨rfl, hk⟩
    case isFalse hk => exact .inr ⟨rfl, hk⟩
  refine ⟨hkeys, hkeyed, ?_, ?_, ?_, h.waiting_le, fun _ => rfl, ?_, ?_, ?_, ?_, ?_⟩
  · intro k
    unfold elt
    rcases helt' k with ⟨heq, -⟩ | ⟨heq, -⟩
    · rw [heq]
      simp only
      omega
    · rw [heq]
      exact h.consumed_le k
  · intro k
    unfold elt
    rcases helt' k with ⟨heq, rfl⟩ | ⟨heq, -⟩
    · rw [heq, hqueue]
      intro hne
      have hfull := h.full key hne
      omega
    · rw [heq]
      exact h.full k
  · exact h.waiting.trans htotal.symm
  · intro k
    have hgranted := h.granted k
    unfold elt
    rcases helt' k with ⟨heq, rfl⟩ | ⟨heq, hne⟩
    · rw [heq, hconsumed]
      simp only [List.count_append, List.count_singleton_self]
      omega
    · rw [heq]
      simpa [List.count_append, List.count_singleton, hne] using hgranted
  · intro k
    unfold elt
    rcases helt' k with ⟨heq, rfl⟩ | ⟨heq, -⟩
    · rw [heq, hqueue]
      exact h.order key
    · rw [heq]
      exact h.order k
  · intro w hw
    have hlt := h.numbers w hw
    simp only [List.length_append, List.length_singleton]
    omega
  · intro n hn
    rcases pending_append hn with hn | ⟨-, hn⟩
    · exact h.pending n hn
    · cases hn
  · intro w hw hpending
    rcases pending_append hpending with hpending | ⟨-, hpending⟩
    · exact h.woken w hw hpending
    · cases hpending

theorem Sound.enqueue (h : t.Sound) {e : Elt κ} (he : find t.table key = some e)
    (hfull : e.consumed = t.rate) (hmax : t.waiting < t.max) :
    Sound { t with
      table := modify key (fun elt =>
        { elt with queue := elt.queue ++ [(key, t.promises.length)] }) t.table
      waiting := t.waiting + 1
      promises := t.promises ++ [.pending]
      queued := t.queued ++ [(key, t.promises.length)]
      cleaning := true } := by
  have hold : t.elt key = e := by rw [elt, he]; rfl
  -- no waiter has the number of the new promise
  have hnew : ∀ w ∈ t.queued, w.2 ≠ t.promises.length := fun w hw => Nat.ne_of_lt (h.numbers w hw)
  have helt' := fun k => elt_modify
    (fun elt : Elt κ => { elt with queue := elt.queue ++ [(key, t.promises.length)] }) he k
  refine ⟨by simpa only [keys_modify] using h.nodup, ?_, ?_, ?_, ?_, hmax, fun _ => rfl, ?_, ?_, ?_,
    ?_, ?_⟩
  · have hqueue : ∀ e : Elt κ, (∀ w ∈ e.queue, w.1 = key) →
        ∀ w ∈ e.queue ++ [(key, t.promises.length)], w.1 = key := by
      intro e hkeyed w hw
      rcases List.mem_append.mp hw with hw | hw
      · exact hkeyed w hw
      · rw [List.mem_singleton.mp hw]
    have hkeyed := keyed_modify
      (f := fun elt : Elt κ => { elt with queue := elt.queue ++ [(key, t.promises.length)] })
      h.keyed hqueue
    exact hkeyed
  · intro k
    unfold elt
    rw [helt' k]
    split
    · exact Nat.le_of_eq hfull
    · exact h.consumed_le k
  · intro k
    unfold elt
    rw [helt' k]
    split
    · exact fun _ => hfull
    · exact h.full k
  · have hsum := sum_modify
      (fun elt : Elt κ => { elt with queue := elt.queue ++ [(key, t.promises.length)] })
      (fun elt => elt.queue.length) h.nodup he
    have hwaiting := h.waiting
    unfold total at hwaiting ⊢
    simp only [List.length_append, List.length_singleton] at hsum ⊢
    omega
  · intro k
    have hgranted := h.granted k
    unfold elt
    rw [helt' k]
    split
    case isTrue hk =>
      subst hk
      rw [hold] at hgranted
      exact hgranted
    case isFalse => exact hgranted
  · intro k
    have horder := h.order k
    unfold elt
    rw [helt' k, List.filter_append, horder]
    split
    case isTrue hk =>
      subst hk
      rw [hold]
      simp
    case isFalse hk =>
      simp [hk, elt]
  · intro w hw
    simp only [List.length_append, List.length_singleton]
    rcases List.mem_append.mp hw with hw | hw
    · exact Nat.lt_succ_of_lt (h.numbers w hw)
    · rw [List.mem_singleton.mp hw]
      exact Nat.lt_succ_self _
  · intro n hn
    rcases pending_append hn with hn | ⟨rfl, -⟩
    · obtain ⟨k, hk⟩ := h.pending n hn
      exact ⟨k, List.mem_append_left _ hk⟩
    · exact ⟨key, List.mem_append_right _ (List.mem_singleton_self _)⟩
  · intro w hw hpending
    rcases pending_append hpending with hpending | ⟨hlength, -⟩
    · exact h.woken w hw hpending
    · exact absurd hlength (hnew w (h.selected_queued w hw))

theorem Sound.refuse (h : t.Sound) :
    Sound { t with promises := t.promises ++ [.refused], cleaning := true } := by
  refine ⟨h.nodup, h.keyed, h.consumed_le, h.full, h.waiting, h.waiting_le, fun _ => rfl, h.granted,
    h.order, ?_, ?_, ?_⟩
  · intro w hw
    have hlt := h.numbers w hw
    simp only [List.length_append, List.length_singleton]
    omega
  · intro n hn
    rcases pending_append hn with hn | ⟨-, hn⟩
    · exact h.pending n hn
    · cases hn
  · intro w hw hpending
    rcases pending_append hpending with hpending | ⟨-, hpending⟩
    · exact h.woken w hw hpending
    · cases hpending

theorem Sound.wait (h : t.Sound) (key : κ) : (t.wait key).Sound := by
  unfold Throttle.wait
  cases hfind : find t.table key with
  | some e =>
    have hold : t.elt key = e := by rw [elt, hfind]; rfl
    have hle := h.consumed_le key
    rw [hold] at hle
    simp only
    split
    case isTrue hfull =>
      unfold reallyWait
      split
      case isTrue hmax => exact h.enqueue hfind (Nat.le_antisymm hle hfull) hmax
      case isFalse => exact h.refuse
    case isFalse hless =>
      have hsum := sum_modify (fun elt : Elt κ => { elt with consumed := elt.consumed + 1 })
        (fun elt => elt.queue.length) h.nodup hfind
      have hkeys : (keys (modify key
          (fun elt : Elt κ => { elt with consumed := elt.consumed + 1 }) t.table)).Nodup := by
        simpa only [keys_modify] using h.nodup
      have hgrant := h.grant hkeys (elt_modify _ hfind) (by rw [hold]) (by rw [hold])
        (by rw [hold]; omega) (Nat.add_right_cancel hsum)
        (keyed_modify h.keyed fun _ hkeyed => hkeyed)
      exact hgrant
  | none =>
    have hnew := find_eq_none.mp hfind
    have hold : t.elt key = ⟨0, []⟩ := by rw [elt, hfind]; rfl
    refine h.grant (e := (⟨1, []⟩ : Elt κ)) ?_ (fun k => ?_) (by rw [hold]) (by rw [hold])
      (by rw [hold]; exact t.rate_pos) (by simp [total]) ?_
    · have hkeys : keys (t.table ++ [(key, (⟨1, []⟩ : Elt κ))]) = keys t.table ++ [key] := by
        simp [keys]
      rw [hkeys]
      exact List.nodup_append_comm.mp (List.nodup_cons.mpr ⟨hnew, h.nodup⟩)
    · rw [find_append_new hnew]
      split <;> rfl
    · intro binding hbinding w hw
      rcases List.mem_append.mp hbinding with hbinding | hbinding
      · exact h.keyed binding hbinding w hw
      · rw [List.mem_singleton.mp hbinding] at hw
        cases hw

theorem Sound.wakeup (h : t.Sound) (hstep : t.wakeup = some u) : u.Sound := by
  unfold Throttle.wakeup at hstep
  split at hstep
  case h_1 => cases hstep
  case h_2 w toRun hrun =>
    have hgranted := h.granted
    have hwoken := h.woken
    rw [hrun] at hgranted hwoken
    simp only [List.map_cons, List.count_cons, beq_iff_eq] at hgranted
    have hrest : ∀ v ∈ t.selected, v.2 ≠ w.2 → t.promises[v.2]? = some .pending → v ∈ toRun := by
      intro v hv hne hpending
      refine (List.mem_cons.mp (hwoken v hv hpending)).resolve_left ?_
      rintro rfl
      exact hne rfl
    split at hstep
    case isTrue hpending =>
      cases hstep
      have hset : ∀ {n : ℕ}, (t.promises.set w.2 .granted)[n]? = some Admission.pending →
          n ≠ w.2 ∧ t.promises[n]? = some .pending := by
        intro n hn
        by_cases heq : n = w.2
        · subst heq
          rw [List.getElem?_set_self (List.getElem?_eq_some_iff.mp hpending).1] at hn
          cases hn
        · rw [List.getElem?_set_ne (Ne.symm heq)] at hn
          exact ⟨heq, hn⟩
      refine ⟨h.nodup, h.keyed, h.consumed_le, h.full, h.waiting, h.waiting_le, h.cleaning,
        fun k => ?_, h.order, fun v hv => ?_, fun n hn => h.pending n (hset hn).2, ?_⟩
      · have hk := hgranted k
        simp only [List.count_append, List.count_singleton, beq_iff_eq]
        exact Nat.le_trans (by omega) hk
      · rw [List.length_set]
        exact h.numbers v hv
      · exact fun v hv hn => hrest v hv (hset hn).1 (hset hn).2
    case isFalse hover =>
      cases hstep
      refine ⟨h.nodup, h.keyed, h.consumed_le, h.full, h.waiting, h.waiting_le, h.cleaning,
        fun k => ?_, h.order, h.numbers, h.pending, fun v hv hpending => ?_⟩
      · exact Nat.le_trans (by simp only; omega) (hgranted k)
      · refine hrest v hv ?_ hpending
        intro heq
        exact hover (heq ▸ hpending)

theorem Sound.cancel (h : t.Sound) (n : ℕ) :
    Sound { t with promises := t.promises.set n .canceled } := by
  have hset : ∀ {k : ℕ}, (t.promises.set n Admission.canceled)[k]? = some Admission.pending →
      t.promises[k]? = some Admission.pending := by
    intro k hk
    by_cases heq : n = k
    · subst heq
      rw [List.getElem?_set_self'] at hk
      cases hn : t.promises[n]? <;> simp [hn] at hk
    · rwa [List.getElem?_set_ne heq] at hk
  exact ⟨h.nodup, h.keyed, h.consumed_le, h.full, h.waiting, h.waiting_le, h.cleaning, h.granted,
    h.order, fun v hv => by simpa using h.numbers v hv, fun k hk => h.pending k (hset hk),
    fun v hv hk => h.woken v hv (hset hk)⟩

theorem sound_step {a : ThrottleStep κ} (h : t.Sound) (hstep : throttleStep t a = some u) :
    u.Sound := by
  cases a with
  | wait key =>
    cases hstep
    exact h.wait key
  | clean order =>
    unfold throttleStep at hstep
    simp only at hstep
    split at hstep
    case isTrue hclean =>
      cases hstep
      exact h.cleanTable hclean.2.1 hclean.2.2
    case isFalse => cases hstep
  | wakeup => exact h.wakeup hstep
  | cancel n =>
    unfold throttleStep at hstep
    simp only at hstep
    split at hstep
    case isTrue =>
      cases hstep
      exact h.cancel n
    case isFalse => cases hstep

theorem sound_create {rate max n : ℤ} (h : create rate max n = .ok t) : t.Sound := by
  unfold create at h
  split at h
  · cases h
  · cases h
    exact ⟨List.nodup_nil, by simp, by simp [elt, find], by simp [elt, find], rfl, Nat.zero_le _,
      by simp, by simp, by simp [elt, find], by simp, by simp, by simp⟩

end Throttle

open Throttle

/-- In every run: since the last cleaning at most `rate` calls of each key have been granted; the
number of waiting calls is that of the callers in the queues and at most `max`; callers of a key
wait only when its allowance is used up; a cleaning is scheduled when the table is not empty; the
callers of a key are taken from its queue in the order in which they were queued, and each caller
that waits is in its queue or about to be woken. -/
theorem allowance_is_kept {κ : Type} [DecidableEq κ] {rate max n : ℤ} {t u : Throttle κ}
    (hcreate : create rate max n = .ok t)
    (hreach : Reach throttleStep (fun _ _ => True) t u) :
    (∀ key, u.grants.count key ≤ u.rate) ∧
      u.waiting = total u.table ∧ u.waiting ≤ u.max ∧
      (∀ binding ∈ u.table, binding.2.queue ≠ [] → binding.2.consumed = u.rate) ∧
      (u.table ≠ [] → u.cleaning = true) ∧
      (∀ key, u.queued.filter (fun w => w.1 = key) =
        u.selected.filter (fun w => w.1 = key) ++ (u.elt key).queue) ∧
      ∀ n, u.promises[n]? = some .pending →
        ∃ key, (key, n) ∈ (u.elt key).queue ∨ (key, n) ∈ u.toRun := by
  have h : u.Sound := hreach.invariant (sound_create hcreate) fun t a u ht _ hstep =>
    sound_step ht hstep
  refine ⟨fun key => ?_, h.waiting, h.waiting_le, fun binding hbinding hqueue => ?_, h.cleaning,
    h.order, fun n => h.queue_of_pending⟩
  · have hgranted := h.granted key
    have hle := h.consumed_le key
    omega
  · have helt : u.elt binding.1 = binding.2 := by
      rw [elt, find_of_mem h.nodup hbinding]
      rfl
    rw [← helt] at hqueue ⊢
    exact h.full _ hqueue

/-- With an allowance of one, the second caller waits and is woken by the cleaning, and a third one
waits for the next. -/
theorem allowance_is_kept_by_the_cleaning :
    ∃ t u : Throttle ℕ, create 1 2 0 = .ok t ∧
      replay throttleStep t [.wait 5, .wait 5, .clean [(5, ⟨1, [(5, 1)]⟩)], .wakeup,
      .wait 5] = some u ∧
      u.promises = [.granted, .granted, .pending] ∧ u.grants = [5] ∧
      (∀ key, u.grants.count key ≤ u.rate) ∧
      ∀ n, u.promises[n]? = some .pending →
        ∃ key, (key, n) ∈ (u.elt key).queue ∨ (key, n) ∈ u.toRun := by
  let t : Throttle ℕ := ⟨1, 2, by decide, by decide, 0, [], false, [], [], [], [], []⟩
  let u : Throttle ℕ := ⟨1, 2, by decide, by decide, 1, [(5, ⟨1, [(5, 2)]⟩)], true, [],
    [.granted, .granted, .pending], [5], [(5, 1), (5, 2)], [(5, 1)]⟩
  have hcreate : create 1 2 0 = .ok t := rfl
  have hreplay : replay throttleStep t
      [.wait 5, .wait 5, .clean [(5, ⟨1, [(5, 1)]⟩)], .wakeup, .wait 5] = some u := rfl
  obtain ⟨hgrants, -, -, -, -, -, hpending⟩ :=
    allowance_is_kept hcreate (reach_of_replay _ hreplay)
  exact ⟨t, u, hcreate, hreplay, rfl, rfl, hgrants, hpending⟩

end Lwt.Unix
