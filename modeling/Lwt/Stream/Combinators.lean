import Mathlib.Data.List.Forall2
import Lwt.Stream.Reading

/-!
# Streams made of other streams

Each of these functions gives a stream of `from`, whose function reads the streams it is made of and
is their only reader.  So it is modelled as a function on a state: the streams, the references that
it has captured (`pendings`, `current_s`) and the number of the call of a function of the user.  The
functions of the user come to an end with the value of a function of lists, at any instant.

What such a stream delivers is shown for its function, with `suppliesList_of_answers`: a loop that
looks for the next element ends with the first element of the list, and leaves a state that stands
for the others.
-/

namespace Lwt.Single

open Timing Timing.Timed

variable {α β S S' T : Type}

namespace Stream

section Functions

variable (fuel : ℕ)

/-- The function of `map_s`. -/
def mapNext (f : ℕ → α → Timed β) (c : ℕ × Stream S α) : Timed (Option β × ℕ × Stream S α) := do
  let (x, s) ← get fuel c.2
  match x with
  | some x =>
    let x ← f c.1 x
    return (some x, c.1 + 1, s)
  | none => return (none, c.1, s)

/-- `map_s f s`; `f` has the number of the call. -/
def mapS (f : ℕ → α → Timed β) (s : Stream S α) : Stream (ℕ × Stream S α) β :=
  «from» (mapNext fuel f) (0, s)

/-- `map f s` -/
def map (f : α → β) (s : Stream S α) : Stream (ℕ × Stream S α) β :=
  mapS fuel (fun _ x => return f x) s

/-- The function `next` of `filter_map_s`; the first argument bounds the number of turns. -/
def filterMapNext (f : ℕ → α → Timed (Option β)) :
    ℕ → ℕ × Stream S α → Timed (Option β × ℕ × Stream S α)
  | 0, _ => never
  | turns + 1, c => do
      let (x, s) ← get fuel c.2
      match x with
      | some x =>
        match ← f c.1 x with
        | some x => return (some x, c.1 + 1, s)
        | none => filterMapNext f turns (c.1 + 1, s)
      | none => return (none, c.1, s)

/-- `filter_map_s f s` -/
def filterMapS (f : ℕ → α → Timed (Option β)) (s : Stream S α) : Stream (ℕ × Stream S α) β :=
  «from» (filterMapNext fuel f fuel) (0, s)

/-- `filter_map f s` -/
def filterMap (f : α → Option β) (s : Stream S α) : Stream (ℕ × Stream S α) β :=
  filterMapS fuel (fun _ x => return f x) s

/-- `filter_s f s` -/
def filterS (f : ℕ → α → Timed Bool) (s : Stream S α) : Stream (ℕ × Stream S α) α :=
  filterMapS fuel (fun call x => do
    let test ← f call x
    return if test then some x else none) s

/-- `filter f s` -/
def filter (f : α → Bool) (s : Stream S α) : Stream (ℕ × Stream S α) α :=
  filterS fuel (fun _ x => return f x) s

/-- What the function `next` of `map_list_s` has captured. -/
structure Pendings (S α β : Type) where
  pendings : List β
  call : ℕ
  s : Stream S α

/-- The function `next` of `map_list_s`. -/
def mapListNext (f : ℕ → α → Timed (List β)) :
    ℕ → Pendings S α β → Timed (Option β × Pendings S α β)
  | 0, _ => never
  | turns + 1, c =>
    match c.pendings with
    | [] => do
        let (x, s) ← get fuel c.s
        match x with
        | some x =>
          let l ← f c.call x
          mapListNext f turns ⟨l, c.call + 1, s⟩
        | none => return (none, { c with s := s })
    | x :: l => return (some x, { c with pendings := l })

/-- `map_list_s f s` -/
def mapListS (f : ℕ → α → Timed (List β)) (s : Stream S α) : Stream (Pendings S α β) β :=
  «from» (mapListNext fuel f fuel) ⟨[], 0, s⟩

/-- `map_list f s` -/
def mapList (f : α → List β) (s : Stream S α) : Stream (Pendings S α β) β :=
  mapListS fuel (fun _ x => return f x) s

/-- `flatten s` -/
def flatten (s : Stream S (List α)) : Stream (Pendings S (List α) α) α :=
  mapList fuel (fun l => l) s

/-- The function `next` of `combine`. -/
def combineNext (c : Stream S α × Stream S' β) :
    Timed (Option (α × β) × Stream S α × Stream S' β) := do
  let ((n₁, s₁), (n₂, s₂)) ← both (get fuel c.1) (get fuel c.2)
  match n₁, n₂ with
  | some x₁, some x₂ => return (some (x₁, x₂), s₁, s₂)
  | _, _ => return (none, s₁, s₂)

/-- `combine s1 s2`, for two streams. -/
def combine (s₁ : Stream S α) (s₂ : Stream S' β) : Stream (Stream S α × Stream S' β) (α × β) :=
  «from» (combineNext fuel) (s₁, s₂)

/-- The stream that `current_s` of `append` points to, and the one after it. -/
inductive Append (S S' α : Type)
  | first (s₁ : Stream S α) (s₂ : Stream S' α)
  | second (s₂ : Stream S' α)

/-- The function `next` of `append`. -/
def appendNext : ℕ → Append S S' α → Timed (Option α × Append S S' α)
  | 0, _ => never
  | turns + 1, .first s₁ s₂ => do
      let (x, s₁) ← get fuel s₁
      match x with
      | some x => return (some x, .first s₁ s₂)
      | none => appendNext turns (.second s₂)
  | _ + 1, .second s₂ => do
      let (x, s₂) ← get fuel s₂
      return (x, .second s₂)

/-- `append s1 s2`, for two streams. -/
def append (s₁ : Stream S α) (s₂ : Stream S' α) : Stream (Append S S' α) α :=
  «from» (appendNext fuel fuel) (.first s₁ s₂)

/-- What the function `next` of `concat` has captured; `current_s` is the stream that `concat` has
made, or one that comes from `s_top`. -/
structure Concat (T S α : Type) where
  current : Stream Unit α ⊕ Stream S α
  top : Stream T (Stream S α)

/-- `get !current_s` -/
def getCurrent : Stream Unit α ⊕ Stream S α → Timed (Option α × (Stream Unit α ⊕ Stream S α))
  | .inl s => do
      let (x, s) ← get fuel s
      return (x, .inl s)
  | .inr s => do
      let (x, s) ← get fuel s
      return (x, .inr s)

/-- The function `next` of `concat`. -/
def concatNext : ℕ → Concat T S α → Timed (Option α × Concat T S α)
  | 0, _ => never
  | turns + 1, c => do
      let (x, current) ← getCurrent fuel c.current
      match x with
      | some x => return (some x, { c with current := current })
      | none =>
        let (x, top) ← get fuel c.top
        match x with
        | some s => concatNext turns ⟨.inr s, top⟩
        | none => return (none, ⟨current, top⟩)

/-- `concat s_top` -/
def concat (top : Stream T (Stream S α)) : Stream (Concat T S α) α :=
  «from» (concatNext fuel fuel) ⟨.inl («from» (fun _ => return (none, ())) ()), top⟩

end Functions

variable {fuel turns call bound t start : ℕ} {s : Stream S α} {l : List α}

/-! ## `map` -/

theorem supplies_mapNext {f : ℕ → α → Timed β} {g : α → β}
    (hf : ∀ call x, (f call x).Becomes (g x)) (h : SuppliesList (get fuel) l s start) :
    SuppliesList (mapNext fuel f) (l.map g) (call, s) start := by
  induction l generalizing s start call with
  | nil => exact suppliesList_iff.mpr fun t ht => h.ends_bind_nil ht fun t' s' _ => ends_pure rfl
  | cons a l ih =>
    refine suppliesList_iff.mpr fun t ht => h.ends_bind_cons ht fun t' s' _ hrest => ?_
    refine Ends.bind ((hf call a t').mono fun t'' b hle hb => ?_)
    subst hb
    exact ends_pure ⟨rfl, ih (hrest.later hle)⟩

/-! ## `filter` and `filter_map` -/

/-- The states in which `next` is to deliver what `g` makes of the elements of the stream. -/
def Filters (fuel bound : ℕ) (g : α → Option β) (l' : List β) (c : ℕ × Stream S α) (start : ℕ) :
    Prop :=
  ∃ l, l' = l.filterMap g ∧ l.length < bound ∧ SuppliesList (get fuel) l c.2 start

theorem ends_filterMapNext {f : ℕ → α → Timed (Option β)} {g : α → Option β}
    (hf : ∀ call x, (f call x).Becomes (g x)) (h : SuppliesList (get fuel) l s start)
    (hbound : l.length < bound) (hturns : l.length < turns) (ht : start ≤ t) :
    (filterMapNext fuel f turns (call, s)).Ends t
      (Answers (Filters fuel bound g) (l.filterMap g)) := by
  induction l generalizing s start t call turns with
  | nil =>
    obtain ⟨turns, rfl⟩ := Nat.exists_eq_add_of_le' (Nat.one_le_of_lt hturns)
    exact h.ends_bind_nil ht fun t' s' _ => ends_pure rfl
  | cons a l ih =>
    obtain ⟨turns, rfl⟩ := Nat.exists_eq_add_of_le' (Nat.one_le_of_lt hturns)
    have hlength : l.length < bound := Nat.lt_of_succ_lt hbound
    refine h.ends_bind_cons ht fun t' s' _ hrest => ?_
    refine Ends.bind ((hf call a t').mono fun t'' b hle hb => ?_)
    subst hb
    rw [List.filterMap_cons]
    cases g a with
    | none => exact ih (hrest.later hle) hlength (Nat.lt_of_succ_lt_succ hturns) (Nat.le_refl t'')
    | some b => exact ends_pure ⟨rfl, l, rfl, hlength, hrest.later hle⟩

theorem supplies_filterMapNext {f : ℕ → α → Timed (Option β)} {g : α → Option β}
    (hf : ∀ call x, (f call x).Becomes (g x)) (h : SuppliesList (get fuel) l s start)
    (hturns : l.length < turns) :
    SuppliesList (filterMapNext fuel f turns) (l.filterMap g) (call, s) start := by
  refine suppliesList_of_answers (Filters fuel turns g) ?_ ⟨l, rfl, hturns, h⟩
  rintro l' ⟨call, s⟩ start ⟨l, rfl, hlength, h⟩ t ht
  exact ends_filterMapNext hf h hlength hlength ht

/-! ## `map_list` and `flatten` -/

def Flattens (fuel bound : ℕ) (g : α → List β) (l' : List β) (c : Pendings S α β) (start : ℕ) :
    Prop :=
  ∃ l, l' = c.pendings ++ l.flatMap g ∧ l.length < bound ∧ SuppliesList (get fuel) l c.s start

theorem ends_mapListNext {f : ℕ → α → Timed (List β)} {g : α → List β}
    (hf : ∀ call x, (f call x).Becomes (g x)) {pendings : List β}
    (h : SuppliesList (get fuel) l s start) (hbound : l.length < bound) (hturns : l.length < turns)
    (ht : start ≤ t) :
    (mapListNext fuel f turns ⟨pendings, call, s⟩).Ends t
      (Answers (Flattens fuel bound g) (pendings ++ l.flatMap g)) := by
  induction l generalizing s start t call turns pendings with
  | nil =>
    obtain ⟨turns, rfl⟩ := Nat.exists_eq_add_of_le' (Nat.one_le_of_lt hturns)
    cases pendings with
    | nil => exact h.ends_bind_nil ht fun t' s' _ => ends_pure rfl
    | cons b pendings => exact ends_pure ⟨rfl, [], rfl, hbound, h.later ht⟩
  | cons a l ih =>
    obtain ⟨turns, rfl⟩ := Nat.exists_eq_add_of_le' (Nat.one_le_of_lt hturns)
    cases pendings with
    | nil =>
      refine h.ends_bind_cons ht fun t' s' _ hrest => ?_
      refine Ends.bind ((hf call a t').mono fun t'' m hle hm => ?_)
      subst hm
      rw [List.nil_append, List.flatMap_cons]
      exact ih (hrest.later hle) (Nat.lt_of_succ_lt hbound) (Nat.lt_of_succ_lt_succ hturns)
        (Nat.le_refl t'')
    | cons b pendings => exact ends_pure ⟨rfl, a :: l, rfl, hbound, h.later ht⟩

theorem supplies_mapListNext {f : ℕ → α → Timed (List β)} {g : α → List β}
    (hf : ∀ call x, (f call x).Becomes (g x)) (h : SuppliesList (get fuel) l s start)
    (hturns : l.length < turns) :
    SuppliesList (mapListNext fuel f turns) (l.flatMap g) ⟨[], call, s⟩ start := by
  refine suppliesList_of_answers (Flattens fuel turns g) ?_ ⟨l, rfl, hturns, h⟩
  rintro l' ⟨pendings, call, s⟩ start ⟨l, rfl, hlength, h⟩ t ht
  exact ends_mapListNext hf h hlength hlength ht

/-! ## `combine` -/

theorem supplies_combineNext {s₁ : Stream S α} {s₂ : Stream S' β} {l₁ : List α} {l₂ : List β}
    (h₁ : SuppliesList (get fuel) l₁ s₁ start) (h₂ : SuppliesList (get fuel) l₂ s₂ start) :
    SuppliesList (combineNext fuel) (l₁.zip l₂) (s₁, s₂) start := by
  induction l₁ generalizing l₂ s₁ s₂ start with
  | nil =>
    refine suppliesList_iff.mpr fun t ht => ?_
    refine Ends.bind (Ends.both ((suppliesList_iff.mp h₁ t ht).mono fun t₁ r₁ _ hr₁ =>
      (suppliesList_iff.mp h₂ t ht).mono fun t₂ r₂ _ _ => ?_))
    obtain ⟨n₁, s₁⟩ := r₁
    obtain rfl : n₁ = none := hr₁
    exact ends_pure rfl
  | cons a l₁ ih =>
    refine suppliesList_iff.mpr fun t ht => ?_
    refine Ends.bind (Ends.both ((suppliesList_iff.mp h₁ t ht).mono fun t₁ r₁ _ hr₁ =>
      (suppliesList_iff.mp h₂ t ht).mono fun t₂ r₂ _ hr₂ => ?_))
    obtain ⟨n₁, s₁⟩ := r₁
    obtain ⟨n₂, s₂⟩ := r₂
    obtain ⟨rfl, hrest₁⟩ := hr₁
    cases l₂ with
    | nil =>
      obtain rfl : n₂ = none := hr₂
      exact ends_pure rfl
    | cons b l₂ =>
      obtain ⟨rfl, hrest₂⟩ := hr₂
      refine ends_pure ⟨rfl, ih (hrest₁.later ?_) (hrest₂.later ?_)⟩
      · exact Nat.le_max_left t₁ t₂
      · exact Nat.le_max_right t₁ t₂

/-! ## `append` and `concat` -/

/-- The states in which `next` of `append` is to deliver the elements of `l`. -/
def Appends (fuel : ℕ) (l : List α) (c : Append S S' α) (start : ℕ) : Prop :=
  match c with
  | .first s₁ s₂ => ∃ l₁ l₂, l = l₁ ++ l₂ ∧ SuppliesList (get fuel) l₁ s₁ start ∧
      SuppliesList (get fuel) l₂ s₂ start
  | .second s₂ => SuppliesList (get fuel) l s₂ start

theorem ends_appendNext_second {s₂ : Stream S' α} (h : SuppliesList (get fuel) l s₂ start)
    (ht : start ≤ t) :
    (appendNext fuel (turns + 1) (.second s₂ : Append S S' α)).Ends t
      (Answers (Appends fuel) l) := by
  cases l with
  | nil => exact h.ends_bind_nil ht fun t' s' _ => ends_pure rfl
  | cons a l => exact h.ends_bind_cons ht fun t' s' _ hrest => ends_pure ⟨rfl, hrest⟩

theorem supplies_appendNext {s₁ : Stream S α} {s₂ : Stream S' α} {l₁ l₂ : List α}
    (h₁ : SuppliesList (get fuel) l₁ s₁ start) (h₂ : SuppliesList (get fuel) l₂ s₂ start)
    (hturns : 2 ≤ turns) :
    SuppliesList (appendNext fuel turns) (l₁ ++ l₂) (.first s₁ s₂) start := by
  obtain ⟨turns, rfl⟩ := Nat.exists_eq_add_of_le' hturns
  refine suppliesList_of_answers (Appends fuel) ?_ ⟨l₁, l₂, rfl, h₁, h₂⟩
  rintro l c start hc t ht
  cases c with
  | first s₁ s₂ =>
    obtain ⟨l₁, l₂, rfl, h₁, h₂⟩ := hc
    cases l₁ with
    | nil =>
      refine h₁.ends_bind_nil ht fun t' s' hle => ?_
      exact ends_appendNext_second (h₂.later (Nat.le_trans ht hle)) (Nat.le_refl t')
    | cons a l₁ =>
      refine h₁.ends_bind_cons ht fun t' s' hle hrest => ends_pure ⟨rfl, l₁, l₂, rfl, hrest, ?_⟩
      exact h₂.later (Nat.le_trans ht hle)
  | second s₂ => exact ends_appendNext_second hc ht

theorem supplies_getCurrent (h : SuppliesList (get fuel) l s start) :
    SuppliesList (getCurrent fuel) l (.inr s) start := by
  induction l generalizing s start with
  | nil => exact suppliesList_iff.mpr fun t ht => h.ends_bind_nil ht fun t' s' _ => ends_pure rfl
  | cons a l ih =>
    exact suppliesList_iff.mpr fun t ht => h.ends_bind_cons ht fun t' s' _ hrest =>
      ends_pure ⟨rfl, ih hrest⟩

theorem supplies_getCurrent_empty (hfuel : 2 ≤ fuel) :
    SuppliesList (getCurrent fuel) ([] : List α)
      (.inl («from» (fun _ => return (none, ())) ()) : Stream Unit α ⊕ Stream S α) start := by
  have hempty : SuppliesList (get fuel) ([] : List α) («from» (fun _ => return (none, ())) ())
      start := (ready_from _ () start).supplies hfuel fun t _ => ends_pure rfl
  exact suppliesList_iff.mpr fun t ht => hempty.ends_bind_nil ht fun t' s' _ => ends_pure rfl

/-- The elements of the current stream, and then those of the streams that are still to come. -/
def Concats (fuel bound : ℕ) (l' : List α) (c : Concat T S α) (start : ℕ) : Prop :=
  ∃ l ss ls, l' = l ++ ls.flatten ∧ ss.length < bound ∧
    SuppliesList (getCurrent fuel) l c.current start ∧ SuppliesList (get fuel) ss c.top start ∧
    List.Forall₂ (fun s l => SuppliesList (get fuel) l s start) ss ls

theorem forall_later {ss : List (Stream S α)} {ls : List (List α)} {start' : ℕ}
    (h : List.Forall₂ (fun s l => SuppliesList (get fuel) l s start) ss ls)
    (hstart : start ≤ start') :
    List.Forall₂ (fun s l => SuppliesList (get fuel) l s start') ss ls :=
  h.imp fun _ _ hs => hs.later hstart

theorem ends_concatNext {current : Stream Unit α ⊕ Stream S α} {top : Stream T (Stream S α)}
    {ss : List (Stream S α)} {ls : List (List α)}
    (hcurrent : SuppliesList (getCurrent fuel) l current start)
    (htop : SuppliesList (get fuel) ss top start)
    (hss : List.Forall₂ (fun s l => SuppliesList (get fuel) l s start) ss ls)
    (hbound : ss.length < bound) (hturns : ss.length < turns) (ht : start ≤ t) :
    (concatNext fuel turns ⟨current, top⟩).Ends t
      (Answers (Concats fuel bound) (l ++ ls.flatten)) := by
  induction ss generalizing ls l current top start t turns with
  | nil =>
    obtain ⟨turns, rfl⟩ := Nat.exists_eq_add_of_le' (Nat.one_le_of_lt hturns)
    obtain rfl := List.forall₂_nil_left_iff.mp hss
    cases l with
    | nil =>
      refine hcurrent.ends_bind_nil ht fun t' current' hle => ?_
      refine htop.ends_bind_nil (Nat.le_trans ht hle) fun t'' top' _ => ends_pure rfl
    | cons a l =>
      refine hcurrent.ends_bind_cons ht fun t' current' hle hrest => ends_pure ⟨rfl, ?_⟩
      exact ⟨l, [], [], rfl, hbound, hrest, htop.later (Nat.le_trans ht hle), .nil⟩
  | cons s ss ih =>
    obtain ⟨turns, rfl⟩ := Nat.exists_eq_add_of_le' (Nat.one_le_of_lt hturns)
    cases l with
    | nil =>
      obtain ⟨m, ms, hs, hlater, rfl⟩ := List.forall₂_cons_left_iff.mp hss
      refine hcurrent.ends_bind_nil ht fun t' current' hle => ?_
      refine htop.ends_bind_cons (Nat.le_trans ht hle) fun t'' top' hle' htop' => ?_
      have hstart : start ≤ t'' := Nat.le_trans ht (Nat.le_trans hle hle')
      rw [List.nil_append, List.flatten_cons]
      exact ih (supplies_getCurrent (hs.later hstart)) htop' (forall_later hlater hstart)
        (Nat.lt_of_succ_lt hbound) (Nat.lt_of_succ_lt_succ hturns) (Nat.le_refl t'')
    | cons a l =>
      refine hcurrent.ends_bind_cons ht fun t' current' hle hrest => ends_pure ⟨rfl, ?_⟩
      have hstart : start ≤ t' := Nat.le_trans ht hle
      exact ⟨l, s :: ss, ls, rfl, hbound, hrest, htop.later hstart, forall_later hss hstart⟩

theorem supplies_concatNext {top : Stream T (Stream S α)} {ss : List (Stream S α)}
    {ls : List (List α)} (htop : SuppliesList (get fuel) ss top start)
    (hss : List.Forall₂ (fun s l => SuppliesList (get fuel) l s start) ss ls)
    (hfuel : 2 ≤ fuel) (hturns : ss.length < turns) :
    SuppliesList (concatNext fuel turns) ls.flatten
      ⟨.inl («from» (fun _ => return (none, ())) ()), top⟩ start := by
  refine suppliesList_of_answers (Concats fuel turns) ?_
    ⟨[], ss, ls, rfl, hturns, supplies_getCurrent_empty hfuel, htop, hss⟩
  rintro l' ⟨current, top⟩ start ⟨l, ss, ls, rfl, hlength, hcurrent, htop, hss⟩ t ht
  exact ends_concatNext hcurrent htop hss hlength hlength ht

end Stream

end Lwt.Single
