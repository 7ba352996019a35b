import Mathlib.Algebra.Group.Int.Defs
import Mathlib.Algebra.Group.Nat.Defs
import Mathlib.Data.Int.Notation
import Lwt.Library.Transition
import Lwt.Library.Wheel

/-!
# Timeouts

The timeouts of `Lwt_timeout` are in a circular array of buckets.  Once a second the loop calls the
actions of the bucket at `curr` and moves on, so that a timeout that is `k` buckets ahead of `curr`
is called by the `k + 1`st tick from now.  The actions may start and stop timeouts and may make the
array larger, which turns it so that `curr` is 0.

`start` never inserts into the bucket at `curr`, for the array is longer than every delay.  This
rests on `change`, which sets the delay before it makes room for it: when the array cannot be made,
because it would be too large or there is no memory for it, the delay stays.
-/

namespace Lwt.Unix

open Transition Wheel

/-- `Sys.max_array_length`. -/
def maxArrayLength : ℕ := 2 ^ 54 - 1

/-- Where the loop is: it sleeps or is not running, it looks at its bucket, or it has called an
action. -/
inductive TickPhase
  | idle
  | looking
  | acting
  deriving DecidableEq

/-- A timeout is a number, `delays` has the `delay` of each.  The bucket of a tick is the one at
`curr`: the sentinel that the loop holds is moved to index 0 when `curr` becomes 0. -/
structure Timeouts where
  delays : List ℕ
  buckets : List (List ℕ)
  curr : ℕ
  count : ℤ
  stopped : Bool
  /-- the loops that sleep for a second -/
  sleeping : ℕ
  phase : TickPhase
  /-- Not part of the program: the number of ticks up to now. -/
  ticks : ℕ
  /-- Not part of the program: the calls of actions, each with its tick. -/
  log : List (ℕ × ℕ)
  deriving DecidableEq

namespace Timeouts

def init : Timeouts := ⟨[], [], 0, 0, true, 0, .idle, 0, []⟩

def delay (w : Timeouts) (x : ℕ) : ℕ := w.delays.getD x 0

def lstInList (w : Timeouts) (x : ℕ) : Prop := x ∈ w.buckets.flatten

instance (w : Timeouts) (x : ℕ) : Decidable (w.lstInList x) :=
  inferInstanceAs (Decidable (x ∈ w.buckets.flatten))

def lstRemove (w : Timeouts) (x : ℕ) : Timeouts :=
  { w with buckets := Wheel.remove x w.buckets }

/-- Into the bucket at `slot`. -/
def lstInsert (w : Timeouts) (slot x : ℕ) : Timeouts :=
  { w with buckets := Wheel.insert slot x w.buckets }

/-- There is memory for a new array or not. -/
def size (w : Timeouts) (l : ℕ) (memory : Bool) : Except String Timeouts :=
  if l ≥ w.buckets.length then
    if l + 1 > maxArrayLength then .error "Array.init"
    else if memory = false then .error "Out_of_memory"
    else .ok { w with
      buckets := w.buckets.drop w.curr ++ w.buckets.take w.curr ++
        List.replicate (l + 1 - w.buckets.length) []
      curr := 0 }
  else .ok w

/-- The call of `loop`. -/
def loop (w : Timeouts) : Timeouts :=
  { w with stopped := false, sleeping := w.sleeping + 1 }

/-- The sum is one of 63 bits. -/
def start (w : Timeouts) (x : ℕ) : Except String Unit × Timeouts :=
  let inList := w.lstInList x
  if w.buckets.length = 0 then (.error "Division_by_zero", w)
  else
    let slot := (((w.curr : ℤ) + (w.delay x : ℤ)).bmod (2 ^ 63)).tmod w.buckets.length
    let w := w.lstRemove x
    if slot < 0 then (.error "index out of bounds", w)
    else
      let w := w.lstInsert slot.toNat x
      if inList then (.ok (), w)
      else
        let w := { w with count := w.count + 1 }
        if w.count = 1 ∧ w.stopped then (.ok (), w.loop) else (.ok (), w)

/-- The new timeout is the last one. -/
def create (w : Timeouts) (delay : ℤ) (memory : Bool) : Except String Timeouts :=
  if delay < 1 then .error "Lwt_timeout.create"
  else
    (w.size delay.toNat memory).map fun w => { w with delays := w.delays ++ [delay.toNat] }

def stop (w : Timeouts) (x : ℕ) : Timeouts :=
  if w.lstInList x then { w.lstRemove x with count := w.count - 1 } else w

def change (w : Timeouts) (x : ℕ) (delay : ℤ) (memory : Bool) : Except String Unit × Timeouts :=
  if delay < 1 then (.error "Lwt_timeout.change", w)
  else
    let w : Timeouts := { w with delays := w.delays.set x delay.toNat }
    match w.size delay.toNat memory with
    | .error e => (.error e, w)
    | .ok w => if w.lstInList x then w.start x else (.ok (), w)

/-- A turn of the loop of a tick, up to the call of the action. -/
def turn (w : Timeouts) : Option Timeouts :=
  match w.buckets[w.curr]? with
  | some (x :: _) =>
    some { w.lstRemove x with
      count := w.count - 1
      phase := .acting
      log := w.log ++ [(w.ticks, x)] }
  | _ => none

/-- The end of a tick. -/
def slept (w : Timeouts) : Option Timeouts :=
  match w.buckets[w.curr]? with
  | some [] =>
    let w : Timeouts := { w with curr := (w.curr + 1) % w.buckets.length, phase := .idle }
    if w.count > 0 then some w.loop else some { w with stopped := true }
  | _ => none

end Timeouts

inductive TimeoutStep
  | create (delay : ℤ) (memory : Bool)
  | start (x : ℕ)
  | stop (x : ℕ)
  | change (x : ℕ) (delay : ℤ) (memory : Bool)
  /-- The sleep of a loop is over. -/
  | tick
  | turn
  /-- The action returns, or raises an exception and the handler returns. -/
  | ends (raised : Bool)
  | slept

/-- The functions are called by an action or between the ticks. -/
def timeoutStep (w : Timeouts) : TimeoutStep → Option Timeouts
  | .create delay memory =>
    if w.phase ≠ .looking then
      match w.create delay memory with
      | .ok u => some u
      | .error _ => some w
    else none
  | .start x => if w.phase ≠ .looking ∧ x < w.delays.length then some (w.start x).2 else none
  | .stop x => if w.phase ≠ .looking ∧ x < w.delays.length then some (w.stop x) else none
  | .change x delay memory =>
    if w.phase ≠ .looking ∧ x < w.delays.length then some (w.change x delay memory).2 else none
  | .tick =>
    if w.phase = .idle ∧ w.sleeping > 0 then
      some { w with sleeping := w.sleeping - 1, phase := .looking, ticks := w.ticks + 1 }
    else none
  | .turn => if w.phase = .looking then w.turn else none
  | .ends _ => if w.phase = .acting then some { w with phase := .looking } else none
  | .slept => if w.phase = .looking then w.slept else none

/-- There is room for the delay that a timeout is given by `change`, or it can be made. -/
def fits (w : Timeouts) : TimeoutStep → Bool
  | .change _ delay memory =>
    decide (delay < w.buckets.length) || decide (delay < maxArrayLength) && memory
  | _ => true

namespace Timeouts

variable {w u v : Timeouts} {x y d : ℕ} {delay : ℤ} {memory : Bool} {a : TimeoutStep}

/-- The buckets from the current one on. -/
def ahead (w : Timeouts) : List (List ℕ) := w.buckets.rotate w.curr

/-- The tick that calls the actions of the bucket at `curr`. -/
def next (w : Timeouts) : ℕ := if w.phase = .idle then w.ticks + 1 else w.ticks

/-- The tick that will call the action of `x` is the `n`th one. -/
def Due (w : Timeouts) (x n : ℕ) : Prop := ∃ k, Ahead w.ahead x k ∧ n = w.next + k

/-- The ticks that have called the action of `x`. -/
def firings (w : Timeouts) (x : ℕ) : List ℕ :=
  (w.log.filter fun call => call.2 = x).map (·.1)

structure Sound (w : Timeouts) : Prop where
  curr_lt : w.buckets ≠ [] → w.curr < w.buckets.length
  delays : ∀ d ∈ w.delays, 1 ≤ d ∧ d < w.buckets.length
  length_le : w.buckets.length ≤ maxArrayLength
  nodup : w.buckets.flatten.Nodup
  count : w.count = w.buckets.flatten.length
  running : w.sleeping + (if w.phase = .idle then 0 else 1) = if w.stopped then 0 else 1
  alive : 0 < w.count → w.stopped = false
  made : w.stopped = false → w.buckets ≠ []

theorem mem_ahead : x ∈ w.ahead.flatten ↔ w.lstInList x :=
  (flatten_rotate w.buckets w.curr).mem_iff

theorem length_ahead (w : Timeouts) : w.ahead.length = w.buckets.length :=
  List.length_rotate _ _

theorem due_iff_lstInList : (∃ n, w.Due x n) ↔ w.lstInList x := by
  rw [← mem_ahead, ← exists_ahead]
  constructor
  · rintro ⟨n, k, hk, -⟩
    exact ⟨k, hk⟩
  · rintro ⟨k, hk⟩
    exact ⟨w.next + k, k, hk, rfl⟩

theorem Due.next_le {n : ℕ} (h : w.Due x n) : w.next ≤ n := by
  obtain ⟨k, -, rfl⟩ := h
  exact Nat.le_add_right _ _

theorem Sound.nodup_ahead (h : w.Sound) : w.ahead.flatten.Nodup :=
  (flatten_rotate w.buckets w.curr).nodup_iff.mpr h.nodup

theorem Sound.delay_lt (h : w.Sound) (hx : x < w.delays.length) :
    1 ≤ w.delay x ∧ w.delay x < w.buckets.length := by
  have hget : w.delay x = w.delays[x] := by simp [delay, hx]
  rw [hget]
  exact h.delays _ (List.getElem_mem hx)

/-! ## The array -/

theorem size_cases (hcurr : w.buckets ≠ [] → w.curr < w.buckets.length) {l : ℕ}
    (h : w.size l memory = .ok u) :
    l < w.buckets.length ∧ u = w ∨
      w.buckets.length ≤ l ∧ l + 1 ≤ maxArrayLength ∧
        u = { w with
          buckets := w.ahead ++ List.replicate (l + 1 - w.buckets.length) []
          curr := 0 } := by
  unfold size at h
  split at h
  case isTrue hl =>
    split at h
    case isTrue => cases h
    case isFalse hfits =>
      obtain rfl : memory = true := by
        cases memory with
        | false => cases h
        | true => rfl
      cases h
      have hle : w.curr ≤ w.buckets.length ∨ w.buckets = [] := by
        by_cases hbuckets : w.buckets = []
        · exact .inr hbuckets
        · exact .inl (hcurr hbuckets).le
      refine .inr ⟨hl, Nat.not_lt.mp hfits, ?_⟩
      unfold ahead
      rcases hle with hle | hbuckets
      · rw [List.rotate_eq_drop_append_take hle]
      · simp [hbuckets]
  case isFalse hl =>
    cases h
    exact .inl ⟨Nat.not_le.mp hl, rfl⟩

theorem ahead_size (hcurr : w.buckets ≠ [] → w.curr < w.buckets.length) {l : ℕ}
    (h : w.size l memory = .ok u) (x k : ℕ) : Ahead u.ahead x k ↔ Ahead w.ahead x k := by
  rcases size_cases hcurr h with ⟨-, rfl⟩ | ⟨-, -, rfl⟩
  · exact Iff.rfl
  · simp only [ahead, List.rotate_zero]
    exact ahead_append_replicate

theorem Sound.slot_eq (h : w.Sound) (hx : x < w.delays.length) :
    (((w.curr : ℤ) + (w.delay x : ℤ)).bmod (2 ^ 63)).tmod w.buckets.length =
      ((w.curr + w.delay x) % w.buckets.length : ℕ) := by
  obtain ⟨-, hdelay⟩ := h.delay_lt hx
  have hcurr := h.curr_lt (List.ne_nil_of_length_pos (by omega))
  have hlength := h.length_le
  have hsum : (w.curr : ℤ) + (w.delay x : ℤ) = ((w.curr + w.delay x : ℕ) : ℤ) := rfl
  have hlt : w.curr + w.delay x < 2 ^ 62 := by
    unfold maxArrayLength at hlength
    omega
  rw [hsum, Int.bmod_eq_of_le (by omega) (by omega), Int.ofNat_tmod]

/-- What `start` does to a timeout with a delay that is shorter than the array. -/
theorem Sound.start_eq (h : w.Sound) (hx : x < w.delays.length) :
    w.start x =
      (.ok (), if w.lstInList x then
          (w.lstRemove x).lstInsert ((w.curr + w.delay x) % w.buckets.length) x
        else if w.count = 0 ∧ w.stopped then
          { (w.lstRemove x).lstInsert ((w.curr + w.delay x) % w.buckets.length) x with
            count := w.count + 1, stopped := false, sleeping := w.sleeping + 1 }
        else
          { (w.lstRemove x).lstInsert ((w.curr + w.delay x) % w.buckets.length) x with
            count := w.count + 1 }) := by
  have hlength : w.buckets.length ≠ 0 := by
    have hdelay := h.delay_lt hx
    omega
  have hnonneg : ¬(((w.curr + w.delay x) % w.buckets.length : ℕ) : ℤ) < 0 := by omega
  have hcount : w.count + 1 = 1 ↔ w.count = 0 := by omega
  unfold start
  rw [if_neg hlength, h.slot_eq hx]
  simp only [if_neg hnonneg, Int.toNat_natCast]
  by_cases hlinked : w.lstInList x
  · simp [hlinked]
  · simp only [if_neg hlinked, lstInsert, lstRemove, loop, hcount]
    split <;> rfl

theorem Sound.ahead_start (h : w.Sound) (hx : x < w.delays.length) :
    (w.start x).2.ahead = Wheel.insert (w.delay x) x (Wheel.remove x w.ahead) := by
  have hdelay := (h.delay_lt hx).2
  have hahead : ((w.lstRemove x).lstInsert ((w.curr + w.delay x) % w.buckets.length) x).ahead =
      Wheel.insert (w.delay x) x (Wheel.remove x w.ahead) := by
    have hlength := length_remove x w.buckets
    unfold ahead lstInsert lstRemove
    simp only
    rw [← rotate_remove, ← hlength, rotate_insert (by rwa [hlength])]
  rw [h.start_eq hx]
  simp only
  split
  · exact hahead
  · split <;> exact hahead

/-! ## The invariant -/

theorem sound_init : init.Sound :=
  ⟨fun h => absurd rfl h, fun d hd => absurd hd List.not_mem_nil, Nat.zero_le _,
  List.nodup_nil, rfl,
    rfl, fun h => absurd h (by decide), fun h => absurd h (by decide)⟩

theorem Sound.size_with (h : w.Sound) {delays : List ℕ} {l : ℕ}
    (hdelays : ∀ d ∈ delays, 1 ≤ d ∧ (d < w.buckets.length ∨ d = l))
    (hsize : Timeouts.size { w with delays := delays } l memory = .ok u) : u.Sound := by
  rcases size_cases (w := { w with delays := delays }) h.curr_lt hsize with
    ⟨hl, rfl⟩ | ⟨hl, hfits, rfl⟩
  · refine ⟨h.curr_lt, fun d hd => ?_, h.length_le, h.nodup, h.count, h.running, h.alive, h.made⟩
    obtain ⟨hpos, hlt | rfl⟩ := hdelays d hd
    · exact ⟨hpos, hlt⟩
    · exact ⟨hpos, hl⟩
  · have hlength : (w.ahead ++ List.replicate (l + 1 - w.buckets.length) ([] : List ℕ)).length =
        l + 1 := by
      rw [List.length_append, length_ahead, List.length_replicate]
      simp only at hl
      omega
    have hflatten : (w.ahead ++ List.replicate (l + 1 - w.buckets.length)
      ([] : List ℕ)).flatten.Perm
        w.buckets.flatten := by
      rw [List.flatten_append, flatten_replicate_nil, List.append_nil]
      exact flatten_rotate _ _
    refine ⟨fun _ => Nat.lt_of_lt_of_eq (Nat.succ_pos l) hlength.symm, fun d hd => ?_,
      Nat.le_trans (Nat.le_of_eq hlength) hfits, hflatten.nodup_iff.mpr h.nodup, ?_, h.running,
      h.alive, fun _ => List.ne_nil_of_length_eq_add_one hlength⟩
    · refine ⟨(hdelays d hd).1, Nat.lt_of_lt_of_eq ?_ hlength.symm⟩
      simp only at hl
      rcases (hdelays d hd).2 with hlt | rfl
      · omega
      · exact Nat.lt_succ_self d
    · exact h.count.trans (congrArg _ hflatten.length_eq.symm)

theorem Sound.size (h : w.Sound) {l : ℕ} (hsize : w.size l memory = .ok u) : u.Sound :=
  h.size_with (fun d hd => ⟨(h.delays d hd).1, .inl (h.delays d hd).2⟩) hsize

theorem lt_of_size (hcurr : w.buckets ≠ [] → w.curr < w.buckets.length) {l : ℕ}
    (hsize : w.size l memory = .ok u) : l < u.buckets.length ∧ u.delays = w.delays := by
  rcases size_cases hcurr hsize with ⟨hl, rfl⟩ | ⟨hl, -, rfl⟩
  · exact ⟨hl, rfl⟩
  · refine ⟨?_, rfl⟩
    simp only [List.length_append, length_ahead, List.length_replicate]
    omega

theorem Sound.start (h : w.Sound) (hx : x < w.delays.length) : (w.start x).2.Sound := by
  have hdelay := (h.delay_lt hx).2
  have hslot : (w.curr + w.delay x) % w.buckets.length < (Wheel.remove x w.buckets).length := by
    rw [length_remove]
    exact Nat.mod_lt _ (by omega)
  have hlength : (Wheel.insert ((w.curr + w.delay x) % w.buckets.length) x
      (Wheel.remove x w.buckets)).length = w.buckets.length := by
    rw [Wheel.insert, List.length_modify, length_remove]
  have hflatten := flatten_insert (y := x) hslot
  have hnodup : (Wheel.insert ((w.curr + w.delay x) % w.buckets.length) x
      (Wheel.remove x w.buckets)).flatten.Nodup := by
    rw [hflatten.nodup_iff, flatten_remove, List.nodup_cons]
    exact ⟨by simp, h.nodup.filter _⟩
  have hcurr : Wheel.insert ((w.curr + w.delay x) % w.buckets.length) x
      (Wheel.remove x w.buckets) ≠ [] → w.curr < (Wheel.insert
        ((w.curr + w.delay x) % w.buckets.length) x (Wheel.remove x w.buckets)).length := by
    intro _
    rw [hlength]
    exact h.curr_lt (List.ne_nil_of_length_pos (by omega))
  have hdelays : ∀ d ∈ w.delays, 1 ≤ d ∧ d < (Wheel.insert
      ((w.curr + w.delay x) % w.buckets.length) x (Wheel.remove x w.buckets)).length := by
    rw [hlength]
    exact h.delays
  have hmax := hlength ▸ h.length_le
  have hmade : Wheel.insert ((w.curr + w.delay x) % w.buckets.length) x
      (Wheel.remove x w.buckets) ≠ [] := List.ne_nil_of_length_pos (by omega)
  rw [h.start_eq hx]
  simp only
  by_cases hlinked : w.lstInList x
  · rw [if_pos hlinked]
    refine ⟨hcurr, hdelays, hmax, hnodup, ?_, h.running, h.alive, fun _ => hmade⟩
    have hremove := length_flatten_remove h.nodup hlinked
    simp only [lstInsert, lstRemove]
    rw [h.count, hflatten.length_eq, List.length_cons, hremove]
  · have hcount : w.count + 1 = (Wheel.insert ((w.curr + w.delay x) % w.buckets.length) x
        (Wheel.remove x w.buckets)).flatten.length := by
      rw [h.count, hflatten.length_eq, List.length_cons, remove_of_notMem hlinked]
      rfl
    rw [if_neg hlinked]
    split
    case isTrue hfirst =>
      have hrunning := h.running
      rw [if_pos hfirst.2, Nat.add_eq_zero_iff] at hrunning
      refine ⟨hcurr, hdelays, hmax, hnodup, hcount, ?_, fun _ => rfl, fun _ => hmade⟩
      simp only [lstInsert, lstRemove, hrunning]
      rfl
    case isFalse hmore =>
      refine ⟨hcurr, hdelays, hmax, hnodup, hcount, h.running, fun _ => ?_, fun _ => hmade⟩
      -- the loop is running already, or there are other timeouts that wait
      simp only [lstInsert, lstRemove]
      cases hstopped : w.stopped with
      | false => rfl
      | true =>
        have hzero : w.count ≠ 0 := fun hzero => hmore ⟨hzero, hstopped⟩
        have hnonneg := h.count
        have halive := h.alive (by omega)
        rw [hstopped] at halive
        exact halive

theorem create_cases (hcreate : w.create delay memory = .ok u) :
    1 ≤ delay ∧ ∃ v, w.size delay.toNat memory = .ok v ∧
      u = { v with delays := v.delays ++ [delay.toNat] } := by
  unfold Timeouts.create at hcreate
  split at hcreate
  case isTrue => cases hcreate
  case isFalse hdelay =>
    refine ⟨by omega, ?_⟩
    cases hsize : w.size delay.toNat memory with
    | error e => simp [hsize, Except.map] at hcreate
    | ok v =>
      rw [hsize] at hcreate
      exact ⟨v, rfl, (Except.ok.inj hcreate).symm⟩

theorem Sound.create (h : w.Sound) (hcreate : w.create delay memory = .ok u) : u.Sound := by
  obtain ⟨hdelay, v, hsize, rfl⟩ := create_cases hcreate
  have hv := h.size hsize
  obtain ⟨hlt, -⟩ := lt_of_size h.curr_lt hsize
  refine ⟨hv.curr_lt, fun d hd => ?_, hv.length_le, hv.nodup, hv.count, hv.running, hv.alive,
    hv.made⟩
  rcases List.mem_append.mp hd with hd | hd
  · exact hv.delays d hd
  · rw [List.mem_singleton.mp hd]
    exact ⟨by omega, hlt⟩

theorem Sound.remove (h : w.Sound) (hx : w.lstInList x) :
    Sound { w.lstRemove x with count := w.count - 1 } := by
  have hcount := length_flatten_remove h.nodup hx
  have hlength := length_remove x w.buckets
  refine ⟨fun hne => ?_, ?_, ?_, ?_, ?_, h.running, fun hpos => h.alive ?_, fun hstopped hnil => ?_⟩
  · simp only [lstRemove] at hne ⊢
    rw [hlength]
    exact h.curr_lt fun hnil => hne (by rw [hnil]; rfl)
  · simp only [lstRemove, hlength]
    exact h.delays
  · simp only [lstRemove, hlength]
    exact h.length_le
  · simp only [lstRemove, flatten_remove]
    exact h.nodup.filter _
  · simp only [lstRemove]
    rw [h.count, ← hcount]
    omega
  · simp only at hpos
    omega
  · exact h.made hstopped (List.map_eq_nil_iff.mp hnil)

theorem Sound.stop (h : w.Sound) (x : ℕ) : (w.stop x).Sound := by
  unfold Timeouts.stop
  split
  case isTrue hx => exact h.remove hx
  case isFalse => exact h

/-- The ticks and the loop are where they were. -/
structure Quiet (w u : Timeouts) : Prop where
  phase : u.phase = w.phase
  ticks : u.ticks = w.ticks
  log : u.log = w.log

theorem quiet_size {l : ℕ} (hsize : w.size l memory = .ok u) : Quiet w u := by
  unfold Timeouts.size at hsize
  split at hsize
  · split at hsize
    · cases hsize
    · cases memory with
      | false => cases hsize
      | true =>
        cases hsize
        exact ⟨rfl, rfl, rfl⟩
  · cases hsize
    exact ⟨rfl, rfl, rfl⟩

/-- The timeouts that the tick is still to call. -/
def bucket (w : Timeouts) : List ℕ := w.buckets[w.curr]?.getD []

theorem bucket_eq (hcurr : w.buckets ≠ [] → w.curr < w.buckets.length) :
    w.bucket = w.ahead.head?.getD [] := by
  unfold bucket ahead
  by_cases hbuckets : w.buckets = []
  · simp [hbuckets]
  · have hget := List.getElem?_eq_getElem (hcurr hbuckets)
    rw [rotate_eq_cons hget, hget]
    rfl

/-- The calls up to now and those that the tick is still to make. -/
def turns (w : Timeouts) : ℕ := w.log.length + w.bucket.length

theorem turns_of_ahead (hw : w.buckets ≠ [] → w.curr < w.buckets.length)
    (hu : u.buckets ≠ [] → u.curr < u.buckets.length) (hlog : u.log = w.log)
    (hhead : (u.ahead.head?.getD []).length ≤ (w.ahead.head?.getD []).length) :
    u.turns ≤ w.turns := by
  rw [turns, turns, hlog, bucket_eq hw, bucket_eq hu]
  exact Nat.add_le_add_left hhead _

theorem length_head_remove (x : ℕ) (buckets : List (List ℕ)) :
    ((Wheel.remove x buckets).head?.getD []).length ≤ (buckets.head?.getD []).length := by
  cases buckets with
  | nil => exact Nat.le_refl _
  | cons b buckets => exact List.length_filter_le _ b

theorem turns_size (hw : w.buckets ≠ [] → w.curr < w.buckets.length)
    (hu : u.buckets ≠ [] → u.curr < u.buckets.length) {l : ℕ} (hsize : w.size l memory = .ok u) :
    u.turns ≤ w.turns := by
  refine turns_of_ahead hw hu (quiet_size hsize).log ?_
  rcases size_cases hw hsize with ⟨-, rfl⟩ | ⟨-, -, rfl⟩
  · exact Nat.le_refl _
  · simp only [ahead, List.rotate_zero]
    cases w.buckets.rotate w.curr with
    | nil =>
      cases l + 1 - w.buckets.length with
      | zero => exact Nat.le_refl _
      | succ n => exact Nat.le_refl _
    | cons b buckets => exact Nat.le_refl _

theorem Sound.quiet_start (h : w.Sound) (hx : x < w.delays.length) : Quiet w (w.start x).2 := by
  rw [h.start_eq hx]
  simp only
  split
  · exact ⟨rfl, rfl, rfl⟩
  · split <;> exact ⟨rfl, rfl, rfl⟩

theorem lstInList_congr (hahead : ∀ k, Ahead u.ahead x k ↔ Ahead w.ahead x k) :
    u.lstInList x ↔ w.lstInList x := by
  rw [← mem_ahead, ← mem_ahead, ← exists_ahead, ← exists_ahead]
  exact exists_congr hahead

theorem size_ne_error {delays : List ℕ} {e : String}
    (hfits : fits w (.change x delay memory) = true) (hdelay : ¬delay < 1) :
    Timeouts.size { w with delays := delays } delay.toNat memory ≠ .error e := by
  simp only [fits, Bool.or_eq_true, Bool.and_eq_true, decide_eq_true_eq] at hfits
  intro hsize
  unfold Timeouts.size at hsize
  rcases hfits with hlt | ⟨hlt, rfl⟩
  · rw [if_neg (by simp only; omega)] at hsize
    cases hsize
  · rw [if_neg (show ¬delay.toNat + 1 > maxArrayLength by omega)] at hsize
    split at hsize <;> cases hsize

/-- `change` makes room for the delay, and starts the timeout again when it was started. -/
theorem Sound.change_cases (h : w.Sound) (hfits : fits w (.change x delay memory) = true) :
    delay < 1 ∧ (w.change x delay memory).2 = w ∨
      1 ≤ delay ∧ ∃ v : Timeouts, v.Sound ∧ v.delays = w.delays.set x delay.toNat ∧ Quiet w v ∧
        (∀ y k, Ahead v.ahead y k ↔ Ahead w.ahead y k) ∧ v.turns ≤ w.turns ∧
        (w.change x delay memory).2 = if w.lstInList x then (v.start x).2 else v := by
  unfold Timeouts.change
  split
  case isTrue hdelay => exact .inl ⟨hdelay, rfl⟩
  case isFalse hdelay =>
    have hdelays : ∀ d ∈ w.delays.set x delay.toNat,
        1 ≤ d ∧ (d < w.buckets.length ∨ d = delay.toNat) := by
      intro d hd
      rcases List.mem_or_eq_of_mem_set hd with hd | rfl
      · exact ⟨(h.delays d hd).1, .inl (h.delays d hd).2⟩
      · exact ⟨by omega, .inr rfl⟩
    refine .inr ⟨by omega, ?_⟩
    simp only
    cases hsize : Timeouts.size { w with delays := w.delays.set x delay.toNat } delay.toNat memory
    with
    | error e =>
      exact absurd hsize (size_ne_error hfits hdelay)
    | ok v =>
      have hcurr : w.buckets ≠ [] → w.curr < w.buckets.length := h.curr_lt
      have hquiet := quiet_size hsize
      have hahead := ahead_size (w := { w with delays := w.delays.set x delay.toNat }) hcurr
        hsize
      have hset := (lt_of_size (w := { w with delays := w.delays.set x delay.toNat })
        hcurr hsize).2
      have hv := h.size_with hdelays hsize
      have hturns := turns_size (w := { w with delays := w.delays.set x delay.toNat })
        hcurr hv.curr_lt hsize
      refine ⟨v, hv, hset, ⟨hquiet.phase, hquiet.ticks, hquiet.log⟩, hahead, hturns, ?_⟩
      have hlinked : v.lstInList x ↔ w.lstInList x := lstInList_congr (hahead x)
      simp only [hlinked]
      split <;> rfl

theorem Sound.change (h : w.Sound) (hx : x < w.delays.length)
    (hfits : fits w (.change x delay memory) = true) :
    (w.change x delay memory).2.Sound := by
  rcases h.change_cases hfits with ⟨-, heq⟩ | ⟨-, v, hv, hset, -, -, -, heq⟩
  · rw [heq]
    exact h
  · rw [heq]
    split
    · exact hv.start (by rwa [hset, List.length_set])
    · exact hv

theorem Sound.turn (h : w.Sound) (hphase : w.phase = .looking) (hturn : w.turn = some u) :
    u.Sound := by
  unfold Timeouts.turn at hturn
  split at hturn
  case h_1 x rest hbucket =>
    cases hturn
    have hx : w.lstInList x :=
      List.mem_flatten.mpr ⟨_, List.mem_of_getElem? hbucket, List.mem_cons_self⟩
    have hremoved := h.remove hx
    have hrunning := h.running
    rw [hphase] at hrunning
    exact ⟨hremoved.curr_lt, hremoved.delays, hremoved.length_le, hremoved.nodup, hremoved.count,
      hrunning, hremoved.alive, hremoved.made⟩
  case h_2 => cases hturn

theorem Sound.slept (h : w.Sound) (hphase : w.phase = .looking) (hover : w.slept = some u) :
    u.Sound := by
  have hrunning := h.running
  rw [hphase] at hrunning
  unfold Timeouts.slept at hover
  split at hover
  case h_1 hbucket =>
    have hlt := (List.getElem?_eq_some_iff.mp hbucket).1
    have hmade : w.buckets ≠ [] := List.ne_nil_of_length_pos (by omega)
    have hcurr : (w.curr + 1) % w.buckets.length < w.buckets.length := Nat.mod_lt _ (by omega)
    have hsleeping : w.sleeping = 0 := by
      simp only [reduceCtorEq, if_false] at hrunning
      split at hrunning <;> omega
    simp only at hover
    split at hover
    case isTrue hpos =>
      cases hover
      refine ⟨fun _ => hcurr, h.delays, h.length_le, h.nodup, h.count, ?_, fun _ => rfl,
        fun _ => hmade⟩
      simp [loop, hsleeping]
    case isFalse hzero =>
      cases hover
      refine ⟨fun _ => hcurr, h.delays, h.length_le, h.nodup, h.count, ?_, fun hpos => ?_,
        fun hstopped => ?_⟩
      · simp [hsleeping]
      · exact absurd hpos hzero
      · cases hstopped
  case h_2 => cases hover

/-- The cases of `timeoutStep`. -/
inductive Stepped (w : Timeouts) : TimeoutStep → Timeouts → Prop
  | createFails (delay : ℤ) (memory : Bool) : Stepped w (.create delay memory) w
  | create {u : Timeouts} (delay : ℤ) (memory : Bool) (hcreate : w.create delay memory = .ok u) :
      Stepped w (.create delay memory) u
  | start (x : ℕ) (hx : x < w.delays.length) : Stepped w (.start x) (w.start x).2
  | stop (x : ℕ) : Stepped w (.stop x) (w.stop x)
  | change (x : ℕ) (delay : ℤ) (memory : Bool) (hx : x < w.delays.length) :
      Stepped w (.change x delay memory) (w.change x delay memory).2
  | tick (hphase : w.phase = .idle) (hsleeping : w.sleeping > 0) :
      Stepped w .tick
        { w with sleeping := w.sleeping - 1, phase := .looking, ticks := w.ticks + 1 }
  | turn {u : Timeouts} (hphase : w.phase = .looking) (hturn : w.turn = some u) : Stepped w .turn u
  | ends (raised : Bool) (hphase : w.phase = .acting) :
      Stepped w (.ends raised) { w with phase := .looking }
  | slept {u : Timeouts} (hphase : w.phase = .looking) (hslept : w.slept = some u) :
      Stepped w .slept u

theorem step_cases (hstep : timeoutStep w a = some u) : Stepped w a u := by
  cases a <;> simp only [timeoutStep, Option.ite_none_right_eq_some] at hstep <;>
    obtain ⟨hguard, hstep⟩ := hstep
  case create delay memory =>
    cases hcreate : w.create delay memory <;> rw [hcreate] at hstep <;> cases hstep
    · exact .createFails delay memory
    · exact .create delay memory hcreate
  case turn => exact .turn hguard hstep
  case slept => exact .slept hguard hstep
  all_goals cases hstep
  case start x => exact .start x hguard.2
  case stop x => exact .stop x
  case change x delay memory => exact .change x delay memory hguard.2
  case tick => exact .tick hguard.1 hguard.2
  case ends raised => exact .ends raised hguard

theorem sound_step (h : w.Sound) (hfits : fits w a = true) (hstep : timeoutStep w a = some u) :
    u.Sound := by
  cases step_cases hstep with
  | createFails delay memory => exact h
  | create delay memory hcreate => exact h.create hcreate
  | start x hx => exact h.start hx
  | stop x => exact h.stop x
  | change x delay memory hx => exact h.change hx hfits
  | tick hphase hsleeping =>
    have hrunning := h.running
    rw [if_pos hphase] at hrunning
    refine ⟨h.curr_lt, h.delays, h.length_le, h.nodup, h.count, ?_, h.alive, h.made⟩
    simp only [reduceCtorEq, if_false, ← hrunning]
    omega
  | turn hphase hstep => exact h.turn hphase hstep
  | ends raised hphase =>
    have hrunning := h.running
    rw [hphase] at hrunning
    exact ⟨h.curr_lt, h.delays, h.length_le, h.nodup, h.count, hrunning, h.alive, h.made⟩
  | slept hphase hstep => exact h.slept hphase hstep

/-! ## Firing -/

/-- For the timeout `x` nothing has changed. -/
structure Kept (w u : Timeouts) (x : ℕ) : Prop where
  firings : u.firings x = w.firings x
  due : ∀ n, u.Due x n ↔ w.Due x n

theorem Kept.refl (w : Timeouts) (x : ℕ) : Kept w w x := ⟨rfl, fun _ => Iff.rfl⟩

theorem Kept.lstInList (h : Kept w u x) : u.lstInList x ↔ w.lstInList x := by
  rw [← due_iff_lstInList, ← due_iff_lstInList]
  exact exists_congr h.due

theorem kept_of_quiet (h : Quiet w u) (hahead : ∀ k, Ahead u.ahead x k ↔ Ahead w.ahead x k) :
    Kept w u x := by
  have hnext : u.next = w.next := by rw [next, next, h.phase, h.ticks]
  refine ⟨by rw [firings, firings, h.log], fun n => ?_⟩
  unfold Due
  simp only [hnext, hahead]

/-- The timeout that a step is about. -/
def target : TimeoutStep → Option ℕ
  | .start x | .stop x | .change x _ _ => some x
  | _ => none

theorem Sound.kept_start (h : w.Sound) (hy : y < w.delays.length) (hne : y ≠ x) :
    Kept w (w.start y).2 x := by
  refine kept_of_quiet (h.quiet_start hy) fun k => ?_
  have hlength : w.delay y < (Wheel.remove y w.ahead).length := by
    rw [length_remove, length_ahead]
    exact (h.delay_lt hy).2
  rw [h.ahead_start hy, ahead_insert hlength, ahead_remove]
  simp [hne.symm]

theorem Sound.kept_stop (w : Timeouts) (hne : y ≠ x) : Kept w (w.stop y) x := by
  unfold Timeouts.stop
  split
  case isTrue =>
    refine kept_of_quiet ⟨rfl, rfl, rfl⟩ fun k => ?_
    unfold ahead lstRemove
    rw [rotate_remove, ahead_remove]
    simp [hne.symm]
  case isFalse => exact Kept.refl w x

theorem Sound.kept_create (h : w.Sound) (hcreate : w.create delay memory = .ok u) : Kept w u x := by
  obtain ⟨-, v, hsize, rfl⟩ := create_cases hcreate
  have hquiet := quiet_size hsize
  exact kept_of_quiet ⟨hquiet.phase, hquiet.ticks, hquiet.log⟩ (ahead_size h.curr_lt hsize x)

theorem Sound.kept_change (h : w.Sound) (hy : y < w.delays.length)
    (hfits : fits w (.change y delay memory) = true) (hne : y ≠ x ∨ ¬w.lstInList y) :
    Kept w (w.change y delay memory).2 x := by
  rcases h.change_cases hfits with ⟨-, heq⟩ | ⟨-, v, hv, hset, hquiet, hahead, -, heq⟩
  · rw [heq]
    exact Kept.refl w x
  · have hkept := kept_of_quiet hquiet (hahead x)
    rw [heq]
    split
    case isTrue hlinked =>
      have hstart := hv.kept_start (by rwa [hset, List.length_set])
        (hne.resolve_right fun h => h hlinked)
      exact ⟨hstart.firings.trans hkept.firings, fun n => (hstart.due n).trans (hkept.due n)⟩
    case isFalse => exact hkept

/-- A turn of the loop calls the action of a timeout of the current bucket. -/
theorem turn_cases (hturn : w.turn = some u) :
    ∃ y rest, w.buckets[w.curr]? = some (y :: rest) ∧
      u = { w.lstRemove y with
        count := w.count - 1
        phase := .acting
        log := w.log ++ [(w.ticks, y)] } := by
  unfold turn at hturn
  split at hturn
  case h_1 y rest hbucket => exact ⟨y, rest, hbucket, (Option.some.inj hturn).symm⟩
  case h_2 => cases hturn

theorem kept_turn (hphase : w.phase = .looking) (hturn : w.turn = some u) (x : ℕ) :
    Kept w u x ∨ w.Due x w.ticks ∧ u.firings x = w.firings x ++ [w.ticks] ∧ ¬u.lstInList x ∧
      u.ticks = w.ticks := by
  obtain ⟨y, rest, hbucket, rfl⟩ := turn_cases hturn
  have hnext : w.next = w.ticks := by simp [next, hphase]
  by_cases hy : y = x
  · subst hy
    refine .inr ⟨⟨0, ?_, hnext.symm⟩, ?_, ?_, rfl⟩
    · rw [ahead, rotate_eq_cons hbucket]
      exact ahead_cons_zero.mpr List.mem_cons_self
    · simp [firings, List.filter_append]
    · unfold lstInList lstRemove
      rw [flatten_remove]
      simp
  · refine .inl ⟨?_, fun n => ?_⟩
    · simp [firings, List.filter_append, hy]
    · have hnext' : next { w.lstRemove y with
          count := w.count - 1
          phase := .acting
          log := w.log ++ [(w.ticks, y)] } = w.next := by
        rw [hnext]
        rfl
      unfold Due
      rw [hnext']
      refine exists_congr fun k => and_congr_left fun _ => ?_
      unfold ahead lstRemove
      rw [rotate_remove, ahead_remove]
      simp [Ne.symm hy]

theorem kept_slept (hphase : w.phase = .looking) (hover : w.slept = some u) (x : ℕ) :
    Kept w u x := by
  unfold slept at hover
  split at hover
  case h_1 hbucket =>
    have hfields : u.curr = (w.curr + 1) % w.buckets.length ∧ u.buckets = w.buckets ∧
        u.phase = .idle ∧ u.ticks = w.ticks ∧ u.log = w.log := by
      simp only at hover
      split at hover
      · cases hover
        exact ⟨rfl, rfl, rfl, rfl, rfl⟩
      · cases hover
        exact ⟨rfl, rfl, rfl, rfl, rfl⟩
    obtain ⟨hcurr, hbuckets, hidle, hticks, hlog⟩ := hfields
    obtain ⟨rest, hrest⟩ : ∃ rest, w.ahead = [] :: rest := ⟨_, rotate_eq_cons hbucket⟩
    have hahead : u.ahead = rest ++ [[]] := by
      rw [ahead, hcurr, hbuckets, List.rotate_mod, ← List.rotate_rotate]
      change w.ahead.rotate 1 = _
      rw [hrest, List.rotate_cons_succ, List.rotate_zero]
    have hshift : ∀ k, Ahead u.ahead x k ↔ Ahead w.ahead x (k + 1) := by
      intro k
      rw [hahead, hrest, ahead_cons_succ]
      exact ahead_append_replicate (n := 1)
    refine ⟨by rw [firings, firings, hlog], fun n => ?_⟩
    have hnext : u.next = w.next + 1 := by simp [next, hphase, hidle, hticks]
    constructor
    · rintro ⟨k, hk, rfl⟩
      exact ⟨k + 1, (hshift k).mp hk, by omega⟩
    · rintro ⟨k, hk, rfl⟩
      cases k with
      | zero =>
        rw [hrest, ahead_cons_zero] at hk
        cases hk
      | succ k => exact ⟨k, (hshift k).mpr hk, by omega⟩
  case h_2 => cases hover

/-- A step that is not about `x` calls its action when it is due, and changes nothing else for
it. -/
theorem step_kept (h : w.Sound) (hfits : fits w a = true) (hstep : timeoutStep w a = some u)
    (hx : target a ≠ some x) :
    Kept w u x ∨ w.Due x w.ticks ∧ u.firings x = w.firings x ++ [w.ticks] ∧ ¬u.lstInList x ∧
      u.ticks = w.ticks := by
  cases step_cases hstep with
  | createFails delay memory => exact .inl (Kept.refl w x)
  | create delay memory hcreate => exact .inl (h.kept_create hcreate)
  | start y hy => exact .inl (h.kept_start hy fun heq => hx (congrArg some heq))
  | stop y => exact .inl (Sound.kept_stop w fun heq => hx (congrArg some heq))
  | change y delay memory hy =>
    exact .inl (h.kept_change hy hfits
      (.inl fun heq => hx (congrArg some heq)))
  | tick hphase _ =>
    have hnext : next { w with
        sleeping := w.sleeping - 1, phase := .looking, ticks := w.ticks + 1 } = w.next := by
      simp [next, hphase]
    refine .inl ⟨rfl, fun n => ?_⟩
    unfold Due
    rw [hnext]
    exact Iff.rfl
  | turn hphase hstep => exact kept_turn hphase hstep x
  | ends raised hphase =>
    have hnext : next { w with phase := .looking } = w.next := by simp [next, hphase]
    refine .inl ⟨rfl, fun n => ?_⟩
    unfold Due
    rw [hnext]
    exact Iff.rfl
  | slept hphase hstep => exact .inl (kept_slept hphase hstep x)

theorem step_kept_of_notStarted (h : w.Sound) (hfits : fits w a = true)
    (hstep : timeoutStep w a = some u) (hlinked : ¬w.lstInList x) (hx : a ≠ .start x) :
    Kept w u x := by
  by_cases htarget : target a = some x
  · cases a <;> simp only [target, reduceCtorEq, Option.some.injEq] at htarget
    case start y => exact absurd (by rw [htarget]) hx
    case stop y =>
      obtain rfl := htarget
      simp only [timeoutStep, Option.ite_none_right_eq_some] at hstep
      obtain ⟨-, hstep⟩ := hstep
      rw [Timeouts.stop, if_neg hlinked] at hstep
      cases hstep
      exact Kept.refl w y
    case change y delay memory =>
      obtain rfl := htarget
      simp only [timeoutStep, Option.ite_none_right_eq_some] at hstep
      obtain ⟨⟨-, hy⟩, hstep⟩ := hstep
      cases hstep
      exact h.kept_change hy hfits (.inr hlinked)
  · rcases step_kept h hfits hstep htarget with hkept | ⟨hdue, -⟩
    · exact hkept
    · exact absurd (due_iff_lstInList.mp ⟨_, hdue⟩) hlinked

/-! ## Runs -/

theorem ticks_le (h : w.Sound) (hfits : fits w a = true) (hstep : timeoutStep w a = some u) :
    w.ticks ≤ u.ticks := by
  cases step_cases hstep with
  | createFails delay memory => exact Nat.le_refl _
  | create delay memory hcreate =>
    obtain ⟨-, l, hsize, rfl⟩ := create_cases hcreate
    exact (quiet_size hsize).ticks.ge
  | start x hx => exact (h.quiet_start hx).ticks.ge
  | stop x =>
    unfold Timeouts.stop
    split <;> exact Nat.le_refl _
  | change x delay memory hx =>
    rcases h.change_cases hfits with
      ⟨-, heq⟩ | ⟨-, v, hv, hset, hquiet, -, -, heq⟩
    · rw [heq]
    · rw [heq]
      split
      · rw [(hv.quiet_start (by rwa [hset, List.length_set])).ticks, hquiet.ticks]
      · rw [hquiet.ticks]
  | tick _ _ => exact Nat.le_succ _
  | turn _ hstep =>
    obtain ⟨y, rest, -, rfl⟩ := turn_cases hstep
    exact Nat.le_refl _
  | ends raised _ => exact Nat.le_refl _
  | slept _ hstep =>
    unfold Timeouts.slept at hstep
    split at hstep
    case h_1 =>
      simp only at hstep
      split at hstep <;> obtain rfl := Option.some.inj hstep <;> exact Nat.le_refl _
    case h_2 => cases hstep

theorem Due.unique (h : w.Sound) {m n : ℕ} (hm : w.Due x m) (hn : w.Due x n) : m = n := by
  obtain ⟨j, hj, rfl⟩ := hm
  obtain ⟨k, hk, rfl⟩ := hn
  rw [hj.unique h.nodup_ahead hk]

/-- A timeout that is started when `u` is reached waits for its tick, or has been called by it. -/
def OnTime (u v : Timeouts) (x : ℕ) : Prop :=
  v.lstInList x ∧ v.firings x = u.firings x ∧ v.next ≤ u.next + u.delay x ∨
    ¬v.lstInList x ∧ v.firings x = u.firings x ++ [u.next + u.delay x] ∧
      u.next + u.delay x ≤ v.ticks

theorem onTime_of_due (hu : u.Sound) (hdue : u.Due x (u.next + u.delay x))
    (hreach : Reach timeoutStep (fun w a => fits w a = true ∧ target a ≠ some x) u v) :
    OnTime u v x := by
  let P : Timeouts → Prop := fun v =>
    v.Sound ∧ (v.Due x (u.next + u.delay x) ∧ v.firings x = u.firings x ∨
      ¬v.lstInList x ∧ v.firings x = u.firings x ++ [u.next + u.delay x] ∧
        u.next + u.delay x ≤ v.ticks)
  have hinit : P u := ⟨hu, .inl ⟨hdue, rfl⟩⟩
  have hinv : P v := by
    refine hreach.invariant hinit fun w a v hw hok hstep => ?_
    obtain ⟨hw, hcases⟩ := hw
    refine ⟨sound_step hw hok.1 hstep, ?_⟩
    rcases hcases with ⟨hdue, hfirings⟩ | ⟨hlinked, hfirings, hle⟩
    · rcases step_kept hw hok.1 hstep hok.2 with hkept | ⟨hnow, hfired, hlinked, hticks⟩
      · exact .inl ⟨(hkept.due _).mpr hdue, hkept.firings.trans hfirings⟩
      · have heq := Due.unique hw hdue hnow
        refine .inr ⟨hlinked, ?_, by omega⟩
        rw [hfired, hfirings, heq]
    · have hx : a ≠ .start x := by
        rintro rfl
        exact hok.2 rfl
      have hkept := step_kept_of_notStarted hw hok.1 hstep hlinked hx
      exact .inr ⟨fun h => hlinked (hkept.lstInList.mp h), hkept.firings.trans hfirings,
        hle.trans (ticks_le hw hok.1 hstep)⟩
  rcases hinv.2 with ⟨hdue, hfirings⟩ | hfired
  · exact .inl ⟨due_iff_lstInList.mp ⟨_, hdue⟩, hfirings, hdue.next_le⟩
  · exact .inr hfired

theorem Sound.due_start (h : w.Sound) (hx : x < w.delays.length) :
    (w.start x).2.Due x ((w.start x).2.next + (w.start x).2.delay x) := by
  have hdelay := h.delay_lt hx
  have hsame : (w.start x).2.delays = w.delays := by
    rw [h.start_eq hx]
    simp only
    split
    · rfl
    · split <;> rfl
  have hlength : w.delay x < (Wheel.remove x w.ahead).length := by
    rw [length_remove, length_ahead]
    exact hdelay.2
  have hsame' : (w.start x).2.delay x = w.delay x := by rw [delay, delay, hsame]
  refine ⟨w.delay x, ?_, by rw [hsame']⟩
  rw [h.ahead_start hx, ahead_insert hlength]
  exact .inl (And.intro rfl rfl)

/-- The timeout is started, for the first time or again. -/
def starts (w : Timeouts) (x : ℕ) (a : TimeoutStep) : Prop :=
  a = .start x ∨ ∃ delay memory, 1 ≤ delay ∧ a = .change x delay memory ∧ w.lstInList x

theorem due_of_starts (h : w.Sound) (hfits : fits w a = true) (hstarts : starts w x a)
    (hstep : timeoutStep w a = some u) : u.Due x (u.next + u.delay x) := by
  rcases hstarts with rfl | ⟨delay, memory, hdelay, rfl, hlinked⟩
  · simp only [timeoutStep, Option.ite_none_right_eq_some] at hstep
    obtain ⟨⟨-, hx⟩, hstep⟩ := hstep
    cases hstep
    exact h.due_start hx
  · simp only [timeoutStep, Option.ite_none_right_eq_some] at hstep
    obtain ⟨⟨-, hx⟩, hstep⟩ := hstep
    cases hstep
    rcases h.change_cases hfits with
      ⟨hsmall, -⟩ | ⟨-, v, hv, hset, -, -, -, heq⟩
    · omega
    · rw [if_pos hlinked] at heq
      rw [heq]
      exact hv.due_start (by rwa [hset, List.length_set])

/-! ## The loop of a tick -/

theorem Sound.turns_start (h : w.Sound) (hx : x < w.delays.length) :
    (w.start x).2.turns ≤ w.turns := by
  refine turns_of_ahead h.curr_lt (h.start hx).curr_lt (h.quiet_start hx).log ?_
  -- never into the current bucket
  have hdelay := (h.delay_lt hx).1
  have hhead : (Wheel.insert (w.delay x) x (Wheel.remove x w.ahead)).head? =
      (Wheel.remove x w.ahead).head? := by
    unfold Wheel.insert
    obtain ⟨d, hd⟩ := Nat.exists_eq_add_of_le' hdelay
    rw [hd]
    cases Wheel.remove x w.ahead with
    | nil => rfl
    | cons b buckets => rfl
  rw [h.ahead_start hx, hhead]
  exact length_head_remove x w.ahead

/-- In a tick nothing comes into the current bucket, and each turn of the loop takes one timeout out
of it. -/
theorem turns_step (h : w.Sound) (hfits : fits w a = true) (hstep : timeoutStep w a = some u)
    (hover : a ≠ .slept) : u.turns ≤ w.turns := by
  cases step_cases hstep with
  | createFails delay memory => exact Nat.le_refl _
  | create delay memory hcreate =>
    obtain ⟨-, l, hsize, rfl⟩ := create_cases hcreate
    have hturns := turns_size h.curr_lt (h.size hsize).curr_lt hsize
    exact hturns
  | start x hx => exact h.turns_start hx
  | stop x =>
    refine turns_of_ahead h.curr_lt (h.stop x).curr_lt ?_ ?_
    · unfold Timeouts.stop
      split <;> rfl
    · unfold Timeouts.stop
      split
      · unfold ahead lstRemove
        rw [rotate_remove]
        exact length_head_remove x _
      · exact Nat.le_refl _
  | change x delay memory hx =>
    rcases h.change_cases hfits with
      ⟨-, heq⟩ | ⟨-, v, hv, hset, -, -, hturns, heq⟩
    · rw [heq]
    · rw [heq]
      split
      · exact (hv.turns_start (by rwa [hset, List.length_set])).trans hturns
      · exact hturns
  | tick _ _ => exact Nat.le_refl _
  | turn hphase hstep =>
    have hcurr := (h.turn hphase hstep).curr_lt
    obtain ⟨y, rest, hbucket, rfl⟩ := turn_cases hstep
    have hrest : (rest.filter (· ≠ y)).length ≤ rest.length := List.length_filter_le _ rest
    have hnew : (Wheel.remove y w.buckets)[w.curr]? = some (rest.filter (· ≠ y)) := by
      unfold Wheel.remove
      rw [List.getElem?_map, hbucket]
      simp
    simp only [turns, bucket, lstRemove, hnew, hbucket, Option.getD_some, List.length_append,
      List.length_cons, List.length_nil]
    omega
  | ends raised _ => exact Nat.le_refl _
  | slept => exact absurd rfl hover

theorem Sound.progress (h : w.Sound) (hphase : w.phase = .looking) :
    ∃ u, timeoutStep w .turn = some u ∨ timeoutStep w .slept = some u := by
  have hrunning := h.running
  rw [hphase] at hrunning
  have hstopped : w.stopped = false := by
    cases hstopped : w.stopped with
    | false => rfl
    | true => simp [hstopped] at hrunning
  have hcurr := h.curr_lt (h.made hstopped)
  have hget := List.getElem?_eq_getElem hcurr
  cases hbucket : w.buckets[w.curr] with
  | nil =>
    rw [hbucket] at hget
    have hover : ∃ u, w.slept = some u := by
      unfold Timeouts.slept
      rw [hget]
      simp only
      split <;> exact ⟨_, rfl⟩
    obtain ⟨u, hu⟩ := hover
    exact ⟨u, .inr (by rw [timeoutStep, if_pos hphase, hu])⟩
  | cons x rest =>
    rw [hbucket] at hget
    have hturn : ∃ u, w.turn = some u := by
      unfold Timeouts.turn
      rw [hget]
      exact ⟨_, rfl⟩
    obtain ⟨u, hu⟩ := hturn
    exact ⟨u, .inl (by rw [timeoutStep, if_pos hphase, hu])⟩

end Timeouts

open Timeouts

/-- In every run in which `change` has room for its delays or can make it: `count` is the number of
timeouts in the buckets, none of which is there twice; there is one loop when `stopped` is false and
none when it is true, and there is one as long as `count` is positive; a larger array keeps the
distances; in a tick the calls and the timeouts that are still to be called do not become more, and
the loop is never stuck; and a timeout that is started is called once, by the tick that its delay
says, when it is not started, stopped or changed meanwhile, and otherwise it is not called. -/
theorem timeouts_are_called_on_time {w : Timeouts}
    (hreach : Reach timeoutStep (fun w a => fits w a = true) init w) :
    (w.count = w.buckets.flatten.length ∧ w.buckets.flatten.Nodup) ∧
      (w.sleeping + (if w.phase = .idle then 0 else 1) = (if w.stopped then 0 else 1) ∧
        (0 < w.count → w.stopped = false)) ∧
      (∀ l memory u, w.size l memory = .ok u → ∀ x k, Ahead u.ahead x k ↔ Ahead w.ahead x k) ∧
      ((w.phase = .looking →
          ∃ u, timeoutStep w .turn = some u ∨ timeoutStep w .slept = some u) ∧
        ∀ v, Reach timeoutStep (fun w a => fits w a = true ∧ a ≠ .slept) w v → v.turns ≤ w.turns) ∧
      (∀ x a u v, fits w a = true → starts w x a → timeoutStep w a = some u →
        Reach timeoutStep (fun w a => fits w a = true ∧ target a ≠ some x) u v → OnTime u v x) ∧
      ∀ x v, ¬w.lstInList x →
        Reach timeoutStep (fun w a => fits w a = true ∧ a ≠ .start x) w v →
          ¬v.lstInList x ∧ v.firings x = w.firings x := by
  have h : w.Sound := hreach.invariant sound_init fun w a u hw hfits hstep =>
    sound_step hw hfits hstep
  refine ⟨⟨h.count, h.nodup⟩, ⟨h.running, h.alive⟩, fun l memory u => ahead_size h.curr_lt,
    ⟨h.progress, fun v hv => ?_⟩, fun x a u v hfits hstarts hstep hv => ?_,
    fun x v hlinked hv => ?_⟩
  · let P : Timeouts → Prop := fun v => v.Sound ∧ v.turns ≤ w.turns
    have hinit : P w := ⟨h, Nat.le_refl _⟩
    have hinv : P v := hv.invariant hinit fun u a v hu hok hstep =>
      ⟨sound_step hu.1 hok.1 hstep, (turns_step hu.1 hok.1 hstep hok.2).trans hu.2⟩
    exact hinv.2
  · exact onTime_of_due (sound_step h hfits hstep) (due_of_starts h hfits hstarts hstep) hv
  · let P : Timeouts → Prop := fun v => v.Sound ∧ ¬v.lstInList x ∧ v.firings x = w.firings x
    have hinit : P w := ⟨h, hlinked, rfl⟩
    have hinv : P v := by
      refine hv.invariant hinit fun u a v hu hok hstep => ?_
      have hkept := step_kept_of_notStarted hu.1 hok.1 hstep hu.2.1 hok.2
      exact ⟨sound_step hu.1 hok.1 hstep, fun h => hu.2.1 (hkept.lstInList.mp h),
        hkept.firings.trans hu.2.2⟩
    exact hinv.2

/-- The action of the first timeout starts the second, makes the array larger and raises: the second
is called by the second tick from then. -/
theorem timeouts_are_called_on_time_after_an_action :
    ∃ w u v : Timeouts,
      replay (checked timeoutStep fits) init
        [.create 1 true, .create 2 true, .start 0, .tick, .slept, .tick, .turn] = some w ∧
      timeoutStep w (.start 1) = some u ∧
      replay (checked timeoutStep fun w a => fits w a && decide (target a ≠ some 1)) u
        [.create 5 true, .ends true, .slept, .tick, .slept, .tick, .turn] = some v ∧
      v.firings 1 = [4] ∧ OnTime u v 1 := by
  let w : Timeouts := ⟨[1, 2], [[], [], []], 1, 0, false, 0, .acting, 2, [(2, 0)]⟩
  let u : Timeouts := ⟨[1, 2], [[1], [], []], 1, 1, false, 0, .acting, 2, [(2, 0)]⟩
  let v : Timeouts :=
    ⟨[1, 2, 5], [[], [], [], [], [], []], 2, 0, false, 0, .acting, 4, [(2, 0), (4, 1)]⟩
  have hw : replay (checked timeoutStep fits) init
      [.create 1 true, .create 2 true, .start 0, .tick, .slept, .tick, .turn] = some w := by
    decide +kernel
  have hu : timeoutStep w (.start 1) = some u := by decide +kernel
  have hv : replay (checked timeoutStep fun w a => fits w a && decide (target a ≠ some 1)) u
      [.create 5 true, .ends true, .slept, .tick, .slept, .tick, .turn] = some v := by
    decide +kernel
  obtain ⟨-, -, -, -, hcalled, -⟩ := timeouts_are_called_on_time (reach_of_checked _ hw)
  refine ⟨w, u, v, hw, hu, hv, by decide +kernel, hcalled 1 (.start 1) u v rfl (.inl rfl) hu ?_⟩
  exact (reach_of_checked _ hv).mono fun w a h => by simpa using h

/-- A delay for which there is no array: `change` raises, the delay stays, and the timeout is called
by the second tick. -/
theorem delay_of_a_failed_change_stays :
    ∃ w u v : Timeouts, Reach timeoutStep (fun _ _ => True) init w ∧
      starts w 0 (.start 0) ∧ timeoutStep w (.start 0) = some u ∧
      Reach timeoutStep (fun _ a => target a ≠ some 0) u v ∧
      u.delay 0 = 2 ^ 62 - 1 ∧ v.firings 0 = [2] ∧ ¬OnTime u v 0 := by
  let w : Timeouts := ⟨[2 ^ 62 - 1], [[], []], 0, 0, true, 0, .idle, 0, []⟩
  let u : Timeouts := ⟨[2 ^ 62 - 1], [[], [0]], 0, 1, false, 1, .idle, 0, []⟩
  let v : Timeouts := ⟨[2 ^ 62 - 1], [[], []], 1, 0, false, 0, .acting, 2, [(2, 0)]⟩
  have hw : replay timeoutStep init [.create 1 true, .change 0 (2 ^ 62 - 1) true] = some w := by
    decide +kernel
  have hv : replay (checked timeoutStep fun _ a => decide (target a ≠ some 0)) u
      [.tick, .slept, .tick, .turn] = some v := by decide +kernel
  refine ⟨w, u, v, reach_of_replay _ hw, .inl rfl, by decide +kernel, ?_, by decide +kernel,
    by decide +kernel, ?_⟩
  · exact (reach_of_checked _ hv).mono fun w a h => by simpa using h
  · unfold OnTime
    decide +kernel

end Lwt.Unix
