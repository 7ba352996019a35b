import Mathlib.Algebra.BigOperators.Group.Finset.Basic
import Lwt.Stream.Combinators

/-!
# `Lwt_stream.choose`

The state of `next` is the list of the streams with the promises of their next elements; it waits
for the first of these to be fulfilled, and asks the stream whose promise it was for another
element.  If several are already fulfilled, `Lwt.choose` takes one of them at random: the choice is
an arbitrary function of the number of the call.  `remove_assq` finds the stream by physical
equality, and the streams are numbered instead.

Which elements come first depends on the instants.  What is delivered is an interleaving of the
lists of the streams.
-/

namespace Lwt.Single

open Timing Timing.Timed

variable {α S : Type}

namespace Stream

/-- A stream by its number, and the promise of `get s >|= fun x -> (s, x)`: the instant at which it
is fulfilled, if it is, with the element and what is left of the stream. -/
structure Entry (S α : Type) where
  number : ℕ
  promise : Option (ℕ × Option α × Stream S α)

/-- The references of `next`, with the number of the calls of `Lwt.choose`. -/
structure Choose (S α : Type) where
  call : ℕ
  streams : List (Entry S α)

/-- `List.remove_assq s l` -/
def removeAssq (number : ℕ) (l : List (Entry S α)) : List (Entry S α) :=
  l.eraseP fun e => e.number = number

section Functions

variable (fuel : ℕ) (random : ℕ → ℕ)

/-- `source s` of `choose`. -/
def chooseSource (number : ℕ) (s : Stream S α) : Timed (Entry S α) := fun t =>
  some (t, ⟨number, get fuel s t⟩)

/-- Those that are fulfilled at the instant `t`, with the values of their promises. -/
def resolved (l : List (Entry S α)) (t : ℕ) : List (ℕ × Option α × Stream S α) :=
  l.filterMap fun e => e.promise.bind fun p =>
    if p.1 ≤ t then some (e.number, p.2) else none

/-- `Lwt.choose (List.map snd l)`: one that is fulfilled, or else the first one to be. -/
def chooseResolved (choice : ℕ) (l : List (Entry S α)) : Timed (ℕ × Option α × Stream S α) := do
  match (l.filterMap fun e => e.promise.map Prod.fst).min? with
  | none => never
  | some first =>
    await first
    let t ← now
    match (resolved l t)[choice % (resolved l t).length]? with
    | none => never
    | some p => return p

/-- The function `next` of `choose`. -/
def chooseNext : ℕ → Choose S α → Timed (Option α × Choose S α)
  | 0, _ => never
  | turns + 1, c =>
    match c.streams with
    | [] => return (none, c)
    | l => do
        let (number, x, s) ← chooseResolved (random c.call) l
        let l := removeAssq number l
        match x with
        | some x =>
          let e ← chooseSource fuel number s
          return (some x, ⟨c.call + 1, e :: l⟩)
        | none => chooseNext turns ⟨c.call + 1, l⟩

/-- `List.map source streams` -/
def sources : ℕ → List (Stream S α) → Timed (List (Entry S α))
  | _, [] => return []
  | number, s :: streams => do
      let e ← chooseSource fuel number s
      let l ← sources (number + 1) streams
      return e :: l

/-- `choose streams`, for streams that are all distinct. -/
def choose (streams : List (Stream S α)) : Timed (Stream (Choose S α) α) := do
  let l ← sources fuel 0 streams
  return «from» (chooseNext fuel random fuel) ⟨0, l⟩

end Functions

/-! ## Interleavings -/

/-- Each element of `l` is that of one of the lists, given by its number, and those with one number
are the list with this number, in its order. -/
def Interleaves (ls : ℕ → List α) (l : List α) : Prop :=
  ∃ m : List (ℕ × α), m.map Prod.snd = l ∧
    ∀ i, (m.filter fun p => p.1 = i).map Prod.snd = ls i

variable {ls : ℕ → List α} {l : List α} {a : α} {i : ℕ}

theorem interleaves_nil (h : ∀ i, ls i = []) : Interleaves ls [] := ⟨[], rfl, fun i => (h i).symm⟩

theorem Interleaves.cons {r : List α} (hls : ls i = a :: l)
    (h : Interleaves (Function.update ls i l) r) : Interleaves ls (a :: r) := by
  obtain ⟨m, hm, hlists⟩ := h
  refine ⟨(i, a) :: m, congrArg (a :: ·) hm, fun j => ?_⟩
  rw [List.filter_cons]
  by_cases hij : i = j
  · subst hij
    rw [if_pos (by simp), List.map_cons, hlists, Function.update_self, hls]
  · rw [if_neg (by simpa using hij), hlists, Function.update_of_ne (Ne.symm hij)]

/-- The number of the elements of the first `count` lists. -/
def remaining (count : ℕ) (ls : ℕ → List α) : ℕ := ∑ i ∈ Finset.range count, (ls i).length

theorem remaining_update {count : ℕ} (hi : i < count) (hls : ls i = a :: l) :
    remaining count (Function.update ls i l) + 1 = remaining count ls := by
  have hmem : i ∈ Finset.range count := Finset.mem_range.mpr hi
  have hrest : ∑ j ∈ (Finset.range count).erase i, (Function.update ls i l j).length =
      ∑ j ∈ (Finset.range count).erase i, (ls j).length :=
    Finset.sum_congr rfl fun j hj => by
      rw [Function.update_of_ne (Finset.ne_of_mem_erase hj)]
  unfold remaining
  rw [← Finset.add_sum_erase _ _ hmem, ← Finset.add_sum_erase _ (fun j => (ls j).length) hmem,
    hrest, Function.update_self, hls, List.length_cons]
  omega

/-! ## The entries -/

variable {fuel bound turns t start : ℕ} {random : ℕ → ℕ} {e e' : Entry S α}
  {es es₁ es₂ : List (Entry S α)}

/-- The promise is that of the next element of the list with the number of the stream. -/
def Entry.Holds (fuel : ℕ) (ls : ℕ → List α) (e : Entry S α) : Prop :=
  ∃ t x s, e.promise = some (t, x, s) ∧
    Answers (SuppliesList (get fuel)) (ls e.number) t (x, s)

structure Chooses (fuel : ℕ) (ls : ℕ → List α) (es : List (Entry S α)) : Prop where
  nodup : (es.map Entry.number).Nodup
  holds : ∀ e ∈ es, e.Holds fuel ls
  absent : ∀ i, i ∉ es.map Entry.number → ls i = []

theorem Chooses.remove (h : Chooses fuel ls (es₁ ++ e :: es₂)) (hnil : ls e.number = []) :
    Chooses fuel ls (es₁ ++ es₂) where
  nodup := by
    have hnodup := h.nodup
    rw [List.map_append, List.map_cons, List.nodup_middle] at hnodup
    rw [List.map_append]
    exact (List.nodup_cons.mp hnodup).2
  holds e' he' := h.holds e' (by simp only [List.mem_append, List.mem_cons] at he' ⊢; tauto)
  absent i hi := by
    by_cases hie : i = e.number
    · rw [hie, hnil]
    · refine h.absent i fun hmem => hi ?_
      simpa [hie] using hmem

/-- A new promise of the stream stands first. -/
theorem Chooses.renew (h : Chooses fuel ls (es₁ ++ e :: es₂)) (hnumber : e'.number = e.number)
    (he' : e'.Holds fuel (Function.update ls e.number l)) :
    Chooses fuel (Function.update ls e.number l) (e' :: (es₁ ++ es₂)) := by
  have hnodup := h.nodup
  rw [List.map_append, List.map_cons, List.nodup_middle, ← List.map_append] at hnodup
  refine ⟨?_, fun e'' he'' => ?_, fun i hi => ?_⟩
  · rwa [List.map_cons, hnumber]
  · rcases List.mem_cons.mp he'' with rfl | he''
    · exact he'
    · have hne : e''.number ≠ e.number := fun heq =>
        (List.nodup_cons.mp hnodup).1 (heq ▸ List.mem_map_of_mem he'')
      have hmem : e'' ∈ es₁ ++ e :: es₂ := by
        simp only [List.mem_append, List.mem_cons] at he'' ⊢
        tauto
      obtain ⟨t, x, s, hpromise, hanswers⟩ := h.holds e'' hmem
      refine ⟨t, x, s, hpromise, ?_⟩
      rwa [Function.update_of_ne hne]
  · rw [List.map_cons, hnumber, List.mem_cons, not_or] at hi
    rw [Function.update_of_ne hi.1]
    refine h.absent i fun hmem => hi.2 ?_
    simpa [hi.1] using hmem

theorem Chooses.split (h : Chooses fuel ls es) (he : e ∈ es) :
    ∃ es₁ es₂, es = es₁ ++ e :: es₂ ∧ removeAssq e.number es = es₁ ++ es₂ := by
  obtain ⟨e', es₁, es₂, -, hnumber, hes, herase⟩ :=
    List.exists_of_eraseP (p := fun e' : Entry S α => e'.number = e.number) he (by simp)
  have he' : e' = e := List.inj_on_of_nodup_map h.nodup (by simp [hes]) he (by simpa using hnumber)
  exact ⟨es₁, es₂, he' ▸ hes, herase⟩

theorem mem_resolved_iff {p : ℕ × Option α × Stream S α} :
    p ∈ resolved es t ↔ ∃ e ∈ es, ∃ t₀, t₀ ≤ t ∧ e.number = p.1 ∧ e.promise = some (t₀, p.2) := by
  unfold resolved
  rw [List.mem_filterMap]
  constructor
  · rintro ⟨e, he, hp⟩
    obtain ⟨⟨t₀, r⟩, hpromise, hp⟩ := Option.bind_eq_some_iff.mp hp
    split at hp
    · rename_i hle
      cases hp
      exact ⟨e, he, t₀, hle, rfl, hpromise⟩
    · cases hp
  · rintro ⟨e, he, t₀, hle, hnumber, hpromise⟩
    refine ⟨e, he, ?_⟩
    rw [hpromise, Option.bind_some, if_pos hle, hnumber]

theorem ends_chooseResolved {choice : ℕ} (h : ∀ e ∈ es, e.Holds fuel ls) (hne : es ≠ []) :
    (chooseResolved choice es).Ends t fun t' r =>
      ∃ e ∈ es, ∃ t₀, t₀ ≤ t' ∧ e.number = r.1 ∧ e.promise = some (t₀, r.2) := by
  unfold chooseResolved
  cases hmin : (es.filterMap fun e => e.promise.map Prod.fst).min? with
  | none =>
    obtain ⟨e, he⟩ := List.exists_mem_of_ne_nil es hne
    obtain ⟨t₀, x, s, hpromise, -⟩ := h e he
    have hmem : t₀ ∈ es.filterMap fun e => e.promise.map Prod.fst :=
      List.mem_filterMap.mpr ⟨e, he, by rw [hpromise, Option.map_some]⟩
    rw [List.min?_eq_none_iff.mp hmin] at hmem
    cases hmem
  | some first =>
    obtain ⟨e, he, hfirst⟩ := List.mem_filterMap.mp (List.min?_mem hmin)
    obtain ⟨⟨t₀, r⟩, hpromise, rfl⟩ := Option.map_eq_some_iff.mp hfirst
    refine Ends.bind (ends_await (Ends.bind (ends_now ?_)))
    have hmem : (e.number, r) ∈ resolved es (max t t₀) :=
      mem_resolved_iff.mpr ⟨e, he, t₀, Nat.le_max_right t t₀, rfl, hpromise⟩
    have hlt : choice % (resolved es (max t t₀)).length < (resolved es (max t t₀)).length :=
      Nat.mod_lt _ (List.length_pos_of_mem hmem)
    rw [List.getElem?_eq_getElem hlt]
    exact ends_pure (mem_resolved_iff.mp (List.getElem_mem hlt))

theorem ends_chooseSource {number : ℕ} {s : Stream S α} (hls : ls number = l)
    (h : SuppliesList (get fuel) l s t) :
    (chooseSource fuel number s).Ends t fun t' e =>
      t' = t ∧ e.number = number ∧ e.Holds fuel ls := by
  obtain ⟨t', ⟨x, s'⟩, hget, -, hanswers⟩ := suppliesList_iff.mp h t (Nat.le_refl t)
  refine ⟨t, _, rfl, Nat.le_refl t, rfl, rfl, t', x, s', hget, ?_⟩
  rwa [hls]

/-- The function comes to the end if the lists are empty, and else takes an element of one of
them. -/
theorem ends_chooseNext {call : ℕ} (h : Chooses fuel ls es) (hbound : es.length < bound)
    (hturns : es.length < turns) :
    (chooseNext fuel random turns ⟨call, es⟩).Ends t fun _ r =>
      match r.1 with
      | none => ∀ i, ls i = []
      | some a => ∃ i l, ls i = a :: l ∧ Chooses fuel (Function.update ls i l) r.2.streams ∧
          r.2.streams.length < bound := by
  induction turns generalizing es call t with
  | zero => exact absurd hturns (Nat.not_lt_zero _)
  | succ turns ih =>
    cases es with
    | nil => exact ends_pure fun i => h.absent i List.not_mem_nil
    | cons e₀ es =>
      refine Ends.bind ((ends_chooseResolved h.holds (List.cons_ne_nil e₀ es)).mono ?_)
      rintro t' ⟨number, x, s⟩ - ⟨e, he, t₀, ht₀, rfl, hpromise⟩
      obtain ⟨es₁, es₂, hsplit, hremove⟩ := h.split he
      obtain ⟨t₁, x', s', hpromise', hanswers⟩ := h.holds e he
      obtain ⟨rfl, rfl, rfl⟩ : t₀ = t₁ ∧ x = x' ∧ s = s' := by
        simpa [hpromise] using hpromise'
      have hlength : (es₁ ++ es₂).length + 1 = (e₀ :: es).length := by
        rw [hsplit, List.length_append, List.length_append, List.length_cons]
        omega
      rw [hsplit] at h
      cases hl : ls e.number with
      | nil =>
        rw [hl] at hanswers
        obtain rfl : x = none := hanswers
        simp only [hremove]
        exact ih (h.remove hl) (by omega) (by omega)
      | cons a l =>
        rw [hl] at hanswers
        obtain ⟨rfl, hrest⟩ := hanswers
        simp only [hremove]
        have hself : Function.update ls e.number l e.number = l := Function.update_self ..
        refine Ends.bind ((ends_chooseSource hself (hrest.later ht₀)).mono ?_)
        rintro t'' e' - ⟨-, hnumber, he'⟩
        refine ends_pure ⟨e.number, l, hl, h.renew hnumber he', ?_⟩
        rw [List.length_cons, hlength]
        exact hbound

theorem Chooses.supplies {count n : ℕ} {c : Choose S α} (h : Chooses fuel ls c.streams)
    (hcount : ∀ i, count ≤ i → ls i = []) (hturns : c.streams.length < turns)
    (hn : remaining count ls < n) :
    Supplies (chooseNext fuel random turns) n (Interleaves ls) c start := by
  induction n generalizing ls c start with
  | zero => exact absurd hn (Nat.not_lt_zero _)
  | succ n ih =>
    refine fun t _ => (ends_chooseNext h hturns hturns).mono fun t' r _ hr => ?_
    obtain ⟨x, c'⟩ := r
    cases x with
    | none => exact interleaves_nil hr
    | some a =>
      obtain ⟨i, l, hls, hc', hlength⟩ := hr
      have hi : i < count := by
        by_contra hle
        rw [hcount i (Nat.le_of_not_lt hle)] at hls
        cases hls
      have hrest : Supplies (chooseNext fuel random turns) n
          (Interleaves (Function.update ls i l)) c' t' := ih hc' (fun j hj => ?_) hlength ?_
      · exact hrest.mono (Nat.le_refl n) fun r hr => hr.cons hls
      · rw [Function.update_of_ne (Nat.ne_of_gt (Nat.lt_of_lt_of_le hi hj)), hcount j hj]
      · have hremaining := remaining_update hi hls
        omega

theorem ends_sources (ls : ℕ → List α) {number : ℕ} {streams : List (Stream S α)}
    {ms : List (List α)}
    (h : List.Forall₂ (fun s l => SuppliesList (get fuel) l s start) streams ms)
    (hls : ∀ i l, ms[i]? = some l → ls (number + i) = l) (ht : start ≤ t) :
    (sources fuel number streams).Ends t fun _ es =>
      es.map Entry.number = List.range' number ms.length ∧ ∀ e ∈ es, e.Holds fuel ls := by
  induction h generalizing number t with
  | nil => exact ends_pure ⟨rfl, nofun⟩
  | cons hs _ ih =>
    have hl := hls 0 _ rfl
    refine Ends.bind ((ends_chooseSource hl (hs.later ht)).mono ?_)
    rintro t' e hle ⟨-, hnumber, he⟩
    refine Ends.bind ((ih (fun i l hi => ?_) (Nat.le_trans ht hle)).mono ?_)
    · rw [Nat.add_right_comm]
      exact hls (i + 1) l hi
    · rintro t'' es - ⟨hnumbers, hes⟩
      refine ends_pure ⟨?_, fun e' he' => ?_⟩
      · rw [List.map_cons, hnumber, hnumbers, List.length_cons, List.range'_succ]
        rfl
      · rcases List.mem_cons.mp he' with rfl | he'
        · exact he
        · exact hes e' he'

theorem ends_choose (random : ℕ → ℕ) {streams : List (Stream S α)} {ms : List (List α)}
    (h : List.Forall₂ (fun s l => SuppliesList (get fuel) l s start) streams ms)
    (hfuel : 2 ≤ fuel) (hlength : ms.length < fuel) (ht : start ≤ t) :
    ∃ n, (choose fuel random streams).Ends t fun t' s =>
      Supplies (get fuel) n (Interleaves fun i => ms[i]?.getD []) s t' := by
  refine ⟨remaining ms.length (fun i => ms[i]?.getD []) + 1, ?_⟩
  have hls : ∀ i l, ms[i]? = some l → ms[0 + i]?.getD [] = l := fun i l hi => by
    rw [Nat.zero_add, hi, Option.getD_some]
  refine Ends.bind ((ends_sources (fun i => ms[i]?.getD []) h hls ht).mono ?_)
  rintro t' es - ⟨hnumbers, hes⟩
  have hempty : ∀ i, ms.length ≤ i → ms[i]?.getD [] = [] := fun i hi => by
    rw [List.getElem?_eq_none hi, Option.getD_none]
  have hchooses : Chooses fuel (fun i => ms[i]?.getD []) es := by
    refine ⟨?_, hes, fun i hi => hempty i ?_⟩
    · rw [hnumbers]
      exact List.nodup_range'
    · rw [hnumbers, List.mem_range'_1] at hi
      omega
  have hcount := congrArg List.length hnumbers
  rw [List.length_map, List.length_range'] at hcount
  refine ends_pure ((ready_from _ _ t').supplies hfuel ?_)
  exact hchooses.supplies hempty (hcount ▸ hlength) (Nat.lt_succ_self _)

end Stream

end Lwt.Single
