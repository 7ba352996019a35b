import Lwt.Io.Slices
import Lwt.Library.Calls

/-!
# `for%lwt`

The code that `ppx_lwt` generates for a loop compares the index with the bound and goes on with the
next index, as long as the promises of the body are fulfilled.  The index is computed in the type
`int`: after the last `int` of the direction comes the first one, and no index is beyond the last
one.  So a loop to any other bound is the native loop, and a loop to this bound does not end
(`lwtLoop_comes_iff`).
-/

namespace Lwt.Ppx

open Io.Slices

variable {ω ε : Type}

inductive Direction
  | upto
  | downto

namespace Direction

/-- `>` or `<` -/
def comp : Direction → Int63 → Int63 → Bool
  | upto, i, bound => bound.slt i
  | downto, i, bound => i.slt bound

/-- `+ 1` or `- 1` -/
def op : Direction → Int63 → Int63
  | upto, i => i + 1
  | downto, i => i - 1

/-- The last `int` of the direction: `max_int` or `min_int`. -/
def extreme : Direction → Int63
  | upto => BitVec.ofInt 63 (2 ^ 62 - 1)
  | downto => BitVec.ofInt 63 (-2 ^ 62)

/-- The number of the indices from `i` to `bound`, if it is not negative. -/
def distance : Direction → Int63 → Int63 → ℤ
  | upto, i, bound => bound.toInt - i.toInt + 1
  | downto, i, bound => i.toInt - bound.toInt + 1

end Direction

/-! ## The loops -/

section Loops

variable (dir : Direction) (bound : Int63) (body : Int63 → Calls.Call ω ε Unit)

/-- `__ppx_lwt_loop`; the first argument bounds the number of its calls. -/
def lwtLoop : ℕ → Int63 → Calls.Call ω ε Unit
  | 0, _ => .running
  | fuel + 1, i =>
    if dir.comp i bound then .fulfilled ()
    else body i >>= fun _ => lwtLoop fuel (dir.op i)

/-- `for%lwt i = start to bound do body done`, and with `downto`. -/
def forLwt (fuel : ℕ) (start : Int63) : Calls.Call ω ε Unit := lwtLoop dir bound body fuel start

/-- `n` indices from `i` on. -/
def indicesFrom : ℕ → Int63 → List Int63
  | 0, _ => []
  | n + 1, i => i :: indicesFrom n (dir.op i)

/-- The indices of the native loop `for i = start to bound do ... done`, and with `downto`. -/
def nativeIndices (start : Int63) : List Int63 :=
  indicesFrom dir (dir.distance start bound).toNat start

end Loops

/-! ## The distance to the bound -/

variable {dir : Direction} {bound i : Int63} {body : Int63 → Calls.Call ω ε Unit}

theorem toInt_extreme_upto : (Direction.extreme .upto).toInt = 2 ^ 62 - 1 := by decide

theorem toInt_extreme_downto : (Direction.extreme .downto).toInt = -2 ^ 62 := by decide

theorem comp_iff : dir.comp i bound = true ↔ dir.distance i bound ≤ 0 := by
  cases dir with
  | upto =>
    simp only [Direction.comp, Direction.distance, BitVec.slt, decide_eq_true_eq]
    omega
  | downto =>
    simp only [Direction.comp, Direction.distance, BitVec.slt, decide_eq_true_eq]
    omega

/-- The next index is one nearer to the bound. -/
theorem distance_op (h : i ≠ dir.extreme) :
    dir.distance (dir.op i) bound = dir.distance i bound - 1 := by
  have hbounds := toInt_bounds i
  cases dir with
  | upto =>
    have hne : i.toInt ≠ 2 ^ 62 - 1 := fun heq =>
      h (BitVec.eq_of_toInt_eq (heq.trans toInt_extreme_upto.symm))
    have hop : (i + 1).toInt = i.toInt + 1 := by
      have hone : (1 : Int63).toInt = 1 := by decide
      rw [BitVec.toInt_add, hone]
      exact Int.bmod_eq_of_le (by omega) (by omega)
    simp only [Direction.distance, Direction.op, hop]
    omega
  | downto =>
    have hne : i.toInt ≠ -2 ^ 62 := fun heq =>
      h (BitVec.eq_of_toInt_eq (heq.trans toInt_extreme_downto.symm))
    have hop : (i - 1).toInt = i.toInt - 1 := by
      have hone : (1 : Int63).toInt = 1 := by decide
      rw [BitVec.toInt_sub, hone]
      exact Int.bmod_eq_of_le (by omega) (by omega)
    simp only [Direction.distance, Direction.op, hop]
    omega

theorem distance_extreme (dir : Direction) (i : Int63) : 0 < dir.distance i dir.extreme := by
  have hbounds := toInt_bounds i
  cases dir with
  | upto =>
    simp only [Direction.distance, toInt_extreme_upto]
    omega
  | downto =>
    simp only [Direction.distance, toInt_extreme_downto]
    omega

theorem ne_extreme (hbound : bound ≠ dir.extreme) (h : 0 < dir.distance i bound) :
    i ≠ dir.extreme := by
  rintro rfl
  have hbounds := toInt_bounds bound
  refine hbound (BitVec.eq_of_toInt_eq ?_)
  cases dir with
  | upto =>
    simp only [Direction.distance, toInt_extreme_upto] at h ⊢
    omega
  | downto =>
    simp only [Direction.distance, toInt_extreme_downto] at h ⊢
    omega

/-! ## The loop and the native loop -/

variable {events : Int63 → List ω}

theorem lwtLoop_comes (hbound : bound ≠ dir.extreme) (hbody : ∀ j, (body j).Comes (events j) ())
    {n fuel : ℕ} (hn : (dir.distance i bound).toNat = n) (hfuel : n < fuel) :
    (lwtLoop dir bound body fuel i).Comes ((indicesFrom dir n i).flatMap events) () := by
  induction n generalizing i fuel with
  | zero =>
    obtain ⟨fuel, rfl⟩ := Nat.exists_eq_add_of_lt hfuel
    have hcomp : dir.comp i bound = true := comp_iff.mpr (by omega)
    rw [lwtLoop, if_pos hcomp]
    exact Calls.Call.comes_fulfilled ()
  | succ n ih =>
    obtain ⟨fuel, rfl⟩ : ∃ m, fuel = m + 1 := ⟨fuel - 1, by omega⟩
    have hpos : 0 < dir.distance i bound := by omega
    have hcomp : ¬ dir.comp i bound = true := fun h => by
      have hle := comp_iff.mp h
      omega
    have hnext : (dir.distance (dir.op i) bound).toNat = n := by
      rw [distance_op (ne_extreme hbound hpos)]
      omega
    rw [lwtLoop, if_neg hcomp, indicesFrom, List.flatMap_cons]
    exact (hbody i).bind (ih hnext (by omega))

theorem lwtLoop_extreme (fuel : ℕ) (i : Int63) :
    ¬ (lwtLoop dir dir.extreme body fuel i).Settles () := by
  induction fuel generalizing i with
  | zero => exact id
  | succ fuel ih =>
    have hcomp : ¬ dir.comp i dir.extreme = true := fun h => by
      have hle := comp_iff.mp h
      have hpos := distance_extreme dir i
      omega
    rw [lwtLoop, if_neg hcomp, Calls.Call.settles_bind]
    rintro ⟨-, -, hrest⟩
    exact ih _ hrest

/-- The promise of the body is rejected for the index `j`, which is reached. -/
theorem lwtLoop_fails {pre post : List Int63} {j : Int63} {exn : ε} {n : ℕ}
    (hn : (dir.distance i bound).toNat = n) (hindices : indicesFrom dir n i = pre ++ j :: post)
    (hpre : ∀ k ∈ pre, (body k).Comes (events k) ()) (hj : (body j).Fails (events j) exn)
    {fuel : ℕ} (hfuel : n ≤ fuel) :
    (lwtLoop dir bound body fuel i).Fails ((pre.flatMap events) ++ events j) exn := by
  induction pre generalizing i n fuel with
  | nil =>
    cases n with
    | zero => simp [indicesFrom] at hindices
    | succ n =>
      obtain ⟨fuel, rfl⟩ : ∃ m, fuel = m + 1 := ⟨fuel - 1, by omega⟩
      have hcomp : ¬ dir.comp i bound = true := fun h => by
        have hle := comp_iff.mp h
        omega
      obtain ⟨rfl, -⟩ := List.cons.inj hindices
      rw [lwtLoop, if_neg hcomp]
      exact hj.bind _
  | cons k pre ih =>
    cases n with
    | zero => simp [indicesFrom] at hindices
    | succ n =>
      obtain ⟨fuel, rfl⟩ : ∃ m, fuel = m + 1 := ⟨fuel - 1, by omega⟩
      have hcomp : ¬ dir.comp i bound = true := fun h => by
        have hle := comp_iff.mp h
        omega
      obtain ⟨rfl, hrest⟩ := List.cons.inj hindices
      -- There is an index after `i`, so `i` is not the last one.
      have hne : i ≠ dir.extreme := by
        intro heq
        cases n with
        | zero => simp [indicesFrom] at hrest
        | succ n =>
          have hbounds := toInt_bounds bound
          rw [heq] at hn
          cases dir with
          | upto =>
            simp only [Direction.distance, toInt_extreme_upto] at hn
            omega
          | downto =>
            simp only [Direction.distance, toInt_extreme_downto] at hn
            omega
      have hnext : (dir.distance (dir.op i) bound).toNat = n := by
        rw [distance_op hne]
        omega
      rw [lwtLoop, if_neg hcomp, List.flatMap_cons, List.append_assoc]
      exact (hpre i (by simp)).bind_fails
        (ih hnext hrest (fun m hm => hpre m (List.mem_cons_of_mem _ hm)) (by omega))

/-- If the promises of the body are fulfilled, the loop runs the body for the indices of the native
loop, in this order and one after the other, and then its promise is fulfilled, if and only if the
bound is not the last `int` of the direction; a loop to that bound does not end.  If the promise of
the body is rejected for an index of the native loop, the loop runs the body up to this index
and its promise is rejected with the same exception. -/
theorem lwtLoop_comes_iff (dir : Direction) (start bound : Int63)
    (body : Int63 → Calls.Call ω ε Unit)
    (events : Int63 → List ω) :
    ((∀ j, (body j).Comes (events j) ()) →
      ((∃ fuel, (forLwt dir bound body fuel start).Comes
        ((nativeIndices dir bound start).flatMap events) ()) ↔ bound ≠ dir.extreme) ∧
      (bound = dir.extreme → ∀ fuel, ¬ (forLwt dir bound body fuel start).Settles ())) ∧
    ∀ pre j post exn, nativeIndices dir bound start = pre ++ j :: post →
      (∀ k ∈ pre, (body k).Comes (events k) ()) → (body j).Fails (events j) exn →
      ∃ fuel, (forLwt dir bound body fuel start).Fails (pre.flatMap events ++ events j) exn := by
  refine ⟨fun hbody => ⟨⟨?_, fun hbound => ?_⟩, ?_⟩, fun pre j post exn hindices hpre hj => ?_⟩
  · rintro ⟨fuel, hcomes⟩ rfl
    exact lwtLoop_extreme fuel start hcomes.settles
  · exact ⟨_, lwtLoop_comes hbound hbody rfl (Nat.lt_succ_self _)⟩
  · rintro rfl fuel
    exact lwtLoop_extreme fuel start
  · exact ⟨_, lwtLoop_fails rfl hindices hpre hj (Nat.le_refl _)⟩

/-- The loop to `max_int` from the `int` before. -/
theorem lwtLoop_runs_on : ∃ body : Int63 → Calls.Call Int63 Empty Unit,
    (∀ j, (body j).Comes [j] ()) ∧
    (nativeIndices .upto (BitVec.ofInt 63 (2 ^ 62 - 1)) (BitVec.ofInt 63 (2 ^ 62 - 2))).length = 2 ∧
    ∀ fuel, ¬ (forLwt .upto (BitVec.ofInt 63 (2 ^ 62 - 1)) body fuel
      (BitVec.ofInt 63 (2 ^ 62 - 2))).Comes
        ((nativeIndices .upto (BitVec.ofInt 63 (2 ^ 62 - 1))
          (BitVec.ofInt 63 (2 ^ 62 - 2))).flatMap fun j => [j]) () := by
  refine ⟨fun j => .emit j (.fulfilled ()), fun j =>
    (Calls.Call.comes_fulfilled ()).emit j, by decide, ?_⟩
  intro fuel hcomes
  exact lwtLoop_extreme fuel _ hcomes.settles

end Lwt.Ppx
