import Mathlib.Order.Basic
import Mathlib.Data.Nat.Notation
import Mathlib.Data.List.Basic

/-!
# Promises with the instants of their resolutions

A call that returns a promise is a function of the instant of the call: it gives the instant at
which the promise is fulfilled, and the value.  What is bound to a promise is called at the instant
of its resolution.  The instants of the calls that are not made here are arbitrary, so a promise may
be fulfilled at once or at any time later.

A producer with a state is asked for one element after the other, each time at any instant after
the answer before.  `Supplies` says that it answers each time and comes to an end, and what the
list of its elements satisfies.
-/

namespace Timing

/-- A call: from the instant at which it is made to that of the resolution and the value; `none` if
it is not known to come to an end. -/
def Timed (β : Type) := ℕ → Option (ℕ × β)

variable {α β γ S : Type} {m : Timed β} {k : β → Timed γ} {t t' start start' n n' : ℕ} {b : β}

namespace Timed

/-- No end is known. -/
def never : Timed β := fun _ => none

protected def bind (m : Timed β) (k : β → Timed γ) : Timed γ := fun t =>
  (m t).bind fun r => k r.2 r.1

instance : Monad Timed where
  pure b := fun t => some (t, b)
  bind := Timed.bind

/-- The instant of the call. -/
def now : Timed ℕ := fun t => some (t, t)

/-- A promise that is fulfilled at the instant `t'`. -/
def await (t' : ℕ) : Timed Unit := fun t => some (max t t', ())

/-- Two calls at the same instant, and their two promises. -/
def both (m : Timed β) (m' : Timed γ) : Timed (β × γ) := fun t =>
  (m t).bind fun r => (m' t).map fun r' => (max r.1 r'.1, (r.2, r'.2))

/-- The call at the instant `t` comes to an end, with an instant and a value that satisfy `Q`. -/
def Ends (m : Timed β) (t : ℕ) (Q : ℕ → β → Prop) : Prop :=
  ∃ t' b, m t = some (t', b) ∧ t ≤ t' ∧ Q t' b

/-- The call comes to an end with `b`, whenever it is made. -/
def Becomes (m : Timed β) (b : β) : Prop := ∀ t, m.Ends t fun _ b' => b' = b

/-- Any value that the call comes to satisfies `Q`. -/
def Yields (m : Timed β) (Q : β → Prop) : Prop := ∀ t r, m t = some r → Q r.2

theorem yields_never {Q : β → Prop} : (never : Timed β).Yields Q := nofun

theorem yields_pure {Q : β → Prop} (h : Q b) : Yields (pure b : Timed β) Q := by
  rintro t r hr
  cases hr
  exact h

theorem Yields.bind {Q : β → Prop} {R : γ → Prop} (h : m.Yields Q)
    (hk : ∀ b, Q b → (k b).Yields R) :
    Yields (m >>= k) R := by
  intro t r hr
  change (m t).bind _ = _ at hr
  obtain ⟨r', hm, hk'⟩ := Option.bind_eq_some_iff.mp hr
  exact hk r'.2 (h t r' hm) _ _ hk'

theorem Yields.bind_congr {Q : β → Prop} {k' : β → Timed γ} (h : m.Yields Q)
    (hk : ∀ b, Q b → k b = k' b) : m >>= k = m >>= k' := by
  funext t
  change (m t).bind _ = (m t).bind _
  cases hm : m t with
  | none => rfl
  | some r => exact congrFun (hk r.2 (h t r hm)) r.1

theorem yields_true : m.Yields fun _ => True := fun _ _ _ => trivial

@[simp] protected theorem pure_bind (b : β) (k : β → Timed γ) : pure b >>= k = k b := rfl

protected theorem bind_assoc {δ : Type} (m : Timed β) (k : β → Timed γ) (l : γ → Timed δ) :
    m >>= k >>= l = m >>= fun b => k b >>= l := by
  funext t
  change ((m t).bind _).bind _ = (m t).bind _
  cases m t <;> rfl

variable {Q Q' : ℕ → β → Prop}

theorem Ends.mono (h : m.Ends t Q) (hQ : ∀ t' b, t ≤ t' → Q t' b → Q' t' b) : m.Ends t Q' := by
  obtain ⟨t', b, hm, hle, hq⟩ := h
  exact ⟨t', b, hm, hle, hQ t' b hle hq⟩

theorem ends_pure (h : Q t b) : Ends (pure b : Timed β) t Q := ⟨t, b, rfl, Nat.le_refl t, h⟩

theorem Ends.bind {R : ℕ → γ → Prop} (h : m.Ends t fun t' b => (k b).Ends t' R) :
    Ends (m >>= k) t R := by
  obtain ⟨t', b, hm, hle, t'', c, hk, hle', hr⟩ := h
  refine ⟨t'', c, ?_, Nat.le_trans hle hle', hr⟩
  change (m t).bind _ = _
  rw [hm]
  exact hk

theorem ends_now {R : ℕ → ℕ → Prop} (h : R t t) : now.Ends t R := ⟨t, t, rfl, Nat.le_refl t, h⟩

theorem ends_await {R : ℕ → Unit → Prop} (h : R (max t t') ()) : (await t').Ends t R :=
  ⟨max t t', (), rfl, Nat.le_max_left t t', h⟩

theorem Ends.both {m' : Timed γ} {R : ℕ → β × γ → Prop}
    (h : m.Ends t fun t₁ b => m'.Ends t fun t₂ c => R (max t₁ t₂) (b, c)) :
    (m.both m').Ends t R := by
  obtain ⟨t₁, b, hm, hle, t₂, c, hm', -, hr⟩ := h
  refine ⟨max t₁ t₂, (b, c), ?_, Nat.le_trans hle (Nat.le_max_left t₁ t₂), hr⟩
  unfold Timed.both
  rw [hm, Option.bind_some, hm', Option.map_some]

theorem becomes_pure (b : β) : (pure b : Timed β).Becomes b := fun _ => ends_pure rfl

theorem Becomes.map {f : β → γ} (h : m.Becomes b) :
    Becomes (do let b ← m; return f b) (f b) := by
  intro t
  refine Ends.bind ((h t).mono fun t' b' _ hb => ?_)
  subst hb
  exact ends_pure rfl

end Timed

/-! ## Producers -/

variable (ask : S → Timed (Option α × S))

/-- The producer in the state `s` is asked at any instant from `start` on, and after each element
at any instant from its answer on.  Within `n` answers it says that there are no more elements, and
the list of its elements satisfies `P`. -/
def Supplies : ℕ → (List α → Prop) → S → ℕ → Prop
  | 0, _, _, _ => False
  | n + 1, P, s, start => ∀ t, start ≤ t → (ask s).Ends t fun t' r =>
    match r.1 with
    | none => P []
    | some a => Supplies n (fun l => P (a :: l)) r.2 t'

/-- The producer delivers the elements of the list, whenever it is asked. -/
def SuppliesList (l : List α) (s : S) (start : ℕ) : Prop :=
  Supplies ask (l.length + 1) (· = l) s start

variable {ask} {P P' : List α → Prop} {s : S}

theorem Supplies.later (h : Supplies ask n P s start) (hstart : start ≤ start') :
    Supplies ask n P s start' := by
  cases n with
  | zero => exact h
  | succ n => exact fun t ht => h t (Nat.le_trans hstart ht)

theorem Supplies.mono (h : Supplies ask n P s start) (hn : n ≤ n') (hP : ∀ l, P l → P' l) :
    Supplies ask n' P' s start := by
  induction n generalizing n' P P' s start with
  | zero => exact h.elim
  | succ n ih =>
    obtain ⟨n', rfl⟩ := Nat.exists_eq_add_of_lt hn
    intro t ht
    refine (h t ht).mono fun t' r _ hr => ?_
    cases hr' : r.1 with
    | none =>
      rw [hr'] at hr
      exact hP [] hr
    | some a =>
      rw [hr'] at hr
      exact ih hr (Nat.le_add_right n n') fun l => hP (a :: l)

theorem Supplies.nonempty (h : Supplies ask n P s start) : ∃ l, P l := by
  induction n generalizing P s start with
  | zero => exact h.elim
  | succ n ih =>
    obtain ⟨t', ⟨x, s'⟩, -, -, hr⟩ := h start (Nat.le_refl start)
    cases x with
    | none => exact ⟨[], hr⟩
    | some a =>
      obtain ⟨l, hl⟩ := ih hr
      exact ⟨a :: l, hl⟩

/-- The answer is the first element of the list, if there is one, and leaves a state for the
others. -/
def Answers (Inv : List α → S → ℕ → Prop) : List α → ℕ → Option α × S → Prop
  | [], _, r => r.1 = none
  | a :: l, t, r => r.1 = some a ∧ Inv l r.2 t

variable {l : List α}

theorem suppliesList_iff : SuppliesList ask l s start ↔
    ∀ t, start ≤ t → (ask s).Ends t (Answers (SuppliesList ask) l) := by
  constructor
  · intro h t ht
    refine (h t ht).mono fun t' r _ hr => ?_
    cases l with
    | nil =>
      cases hx : r.1 with
      | none => exact hx
      | some b =>
        rw [hx] at hr
        exact hr.elim
    | cons a l =>
      cases hx : r.1 with
      | none =>
        rw [hx] at hr
        exact absurd hr (by simp)
      | some b =>
        rw [hx] at hr
        obtain ⟨l', hl'⟩ := hr.nonempty
        obtain ⟨rfl, -⟩ := List.cons.inj hl'
        exact ⟨hx, hr.mono (Nat.le_refl _) fun l' hl' => (List.cons.inj hl').2⟩
  · intro h t ht
    refine (h t ht).mono fun t' r _ hr => ?_
    cases l with
    | nil => rw [show r.1 = none from hr]
    | cons a l =>
      rw [hr.1]
      exact Supplies.mono hr.2 (Nat.le_refl _) fun l' hl' => congrArg (a :: ·) hl'

theorem SuppliesList.later (h : SuppliesList ask l s start) (hstart : start ≤ start') :
    SuppliesList ask l s start' :=
  Supplies.later h hstart

theorem SuppliesList.ends_bind_nil {k : Option α × S → Timed γ} {R : ℕ → γ → Prop}
    (h : SuppliesList ask [] s start) (ht : start ≤ t)
    (hk : ∀ t' s', t ≤ t' → (k (none, s')).Ends t' R) : (ask s >>= k).Ends t R := by
  refine Timed.Ends.bind ((suppliesList_iff.mp h t ht).mono fun t' r hle hr => ?_)
  obtain ⟨x, s'⟩ := r
  obtain rfl : x = none := hr
  exact hk t' s' hle

theorem SuppliesList.ends_bind_cons {a : α} {k : Option α × S → Timed γ} {R : ℕ → γ → Prop}
    (h : SuppliesList ask (a :: l) s start) (ht : start ≤ t)
    (hk : ∀ t' s', t ≤ t' → SuppliesList ask l s' t' → (k (some a, s')).Ends t' R) :
    (ask s >>= k).Ends t R := by
  refine Timed.Ends.bind ((suppliesList_iff.mp h t ht).mono fun t' r hle hr => ?_)
  obtain ⟨x, s'⟩ := r
  obtain ⟨rfl, hr⟩ := hr
  exact hk t' s' hle hr

/-- The rule for a producer: the states that are to deliver a list are described by `Inv`, and an
answer leads from each to the next. -/
theorem suppliesList_of_answers (Inv : List α → S → ℕ → Prop)
    (hstep : ∀ l s start, Inv l s start → ∀ t, start ≤ t → (ask s).Ends t (Answers Inv l))
    (h : Inv l s start) : SuppliesList ask l s start := by
  induction l generalizing s start with
  | nil => exact suppliesList_iff.mpr (hstep _ _ _ h)
  | cons a l ih =>
    refine suppliesList_iff.mpr fun t ht => (hstep _ _ _ h t ht).mono fun t' r _ hr => ?_
    exact ⟨hr.1, ih hr.2⟩

end Timing
