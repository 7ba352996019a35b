import Mathlib.Logic.Relation
import Mathlib.Order.Basic
import Mathlib.Data.Nat.Notation

/-!
# Calls that return promises

A call of a function that returns a promise either raises an exception or returns, and the
promise is then resolved at once or after some waits.  What the function does after a wait, it
does in a callback; an exception that is raised there rejects the promise, but one that is raised
before the first wait escapes.

`settle` forgets this difference: it keeps the events of a call and its outcome, and it commutes
with `bind` (`settle_bind`).  `Raises` is about the difference, and needs the part of a call
before its first wait only (`raises_bind`).
-/

namespace Calls

/-- What a call does.  `running` is a call that has not returned when the fuel is spent, `emit`
records an event and `pending` is a wait; what follows it is done in a callback. -/
inductive Call (ω ε α : Type)
  | fulfilled (a : α)
  | rejected (exn : ε)
  | raised (exn : ε)
  | running
  | emit (event : ω) (rest : Call ω ε α)
  | pending (later : Call ω ε α)

variable {ω ε α β γ M R : Type} {a b : α} {exn : ε} {c : Call ω ε α} {k : α → Call ω ε β}

namespace Call

/-- `try c with exn -> fail exn` -/
def guarded : Call ω ε α → Call ω ε α
  | raised exn => rejected exn
  | emit event rest => emit event rest.guarded
  | c => c

/-- The continuation of a promise that is fulfilled at once is called without a handler. -/
protected def bind : Call ω ε α → (α → Call ω ε β) → Call ω ε β
  | fulfilled a, k => k a
  | rejected exn, _ => rejected exn
  | raised exn, _ => raised exn
  | running, _ => running
  | emit event rest, k => emit event (rest.bind k)
  | pending later, k => pending (later.bind k).guarded

instance : Monad (Call ω ε) where
  pure := fulfilled
  bind := Call.bind

@[simp] theorem fulfilled_bind (a : α) (k : α → Call ω ε β) : fulfilled a >>= k = k a := rfl

@[simp] theorem pure_eq (a : α) : (pure a : Call ω ε α) = fulfilled a := rfl

@[simp] theorem guarded_guarded (c : Call ω ε α) : c.guarded.guarded = c.guarded := by
  induction c with
  | emit event rest ih => exact congrArg (emit event) ih
  | _ => rfl

/-- What is caught later need not be caught now. -/
theorem guarded_bind_guarded (c : Call ω ε α) (k : α → Call ω ε β) :
    (c.guarded >>= k).guarded = (c >>= k).guarded := by
  induction c with
  | emit event rest ih => exact congrArg (emit event) ih
  | _ => rfl

protected theorem bind_assoc (c : Call ω ε α) (k : α → Call ω ε β) (l : β → Call ω ε γ) :
    c >>= k >>= l = c >>= fun a => k a >>= l := by
  induction c with
  | emit event rest ih => exact congrArg (emit event) ih
  | pending later ih =>
    change pending ((later >>= k).guarded >>= l).guarded = _
    rw [guarded_bind_guarded, ih]
    rfl
  | _ => rfl

/-! ## What a call does before its first wait -/

/-- An exception escapes. -/
def Raises : Call ω ε α → Prop
  | raised _ => True
  | emit _ rest => rest.Raises
  | _ => False

/-- The promise is fulfilled with `a` when the call returns. -/
def Gives (a : α) : Call ω ε α → Prop
  | fulfilled b => b = a
  | emit _ rest => rest.Gives a
  | _ => False

theorem not_raises_guarded (c : Call ω ε α) : ¬c.guarded.Raises := by
  induction c with
  | emit event rest ih => exact ih
  | _ => exact id

@[simp] theorem gives_guarded : c.guarded.Gives a ↔ c.Gives a := by
  induction c with
  | emit event rest ih => exact ih
  | _ => exact Iff.rfl

theorem raises_bind : (c >>= k).Raises ↔ c.Raises ∨ ∃ a, c.Gives a ∧ (k a).Raises := by
  induction c with
  | fulfilled b =>
    constructor
    · exact fun h => .inr ⟨b, rfl, h⟩
    · rintro (h | ⟨a, rfl, h⟩)
      · exact h.elim
      · exact h
  | raised exn => exact iff_of_true trivial (.inl trivial)
  | emit event rest ih => exact ih
  | _ => exact iff_of_false id fun h => h.elim id fun ⟨_, h, _⟩ => h

theorem gives_bind {b : β} : (c >>= k).Gives b ↔ ∃ a, c.Gives a ∧ (k a).Gives b := by
  induction c with
  | fulfilled a =>
    constructor
    · exact fun h => ⟨a, rfl, h⟩
    · rintro ⟨_, rfl, h⟩
      exact h
  | emit event rest ih => exact ih
  | _ => exact iff_of_false id fun ⟨_, h, _⟩ => h

/-! ## What a call comes to -/

/-- The promise is fulfilled with `a`, at once or later. -/
def Settles (a : α) : Call ω ε α → Prop
  | fulfilled b => b = a
  | emit _ rest => rest.Settles a
  | pending later => later.Settles a
  | _ => False

/-- The exception ends the call: it escapes, or the promise is rejected with it. -/
def Throws (exn : ε) : Call ω ε α → Prop
  | rejected other | raised other => other = exn
  | emit _ rest => rest.Throws exn
  | pending later => later.Throws exn
  | _ => False

/-- The call returns a promise that is rejected with the exception, at once or later. -/
def RejectedWith (exn : ε) (c : Call ω ε α) : Prop := c.Throws exn ∧ ¬c.Raises

theorem Gives.settles (h : c.Gives a) : c.Settles a := by
  induction c with
  | fulfilled b => exact h
  | emit event rest ih => exact ih h
  | _ => exact h.elim

theorem Raises.throws (h : c.Raises) : ∃ exn, c.Throws exn := by
  induction c with
  | raised exn => exact ⟨exn, rfl⟩
  | emit event rest ih => exact ih h
  | _ => exact h.elim

@[simp] theorem settles_guarded : c.guarded.Settles a ↔ c.Settles a := by
  induction c with
  | emit event rest ih => exact ih
  | _ => exact Iff.rfl

@[simp] theorem throws_guarded : c.guarded.Throws exn ↔ c.Throws exn := by
  induction c with
  | emit event rest ih => exact ih
  | _ => exact Iff.rfl

theorem settles_bind {b : β} : (c >>= k).Settles b ↔ ∃ a, c.Settles a ∧ (k a).Settles b := by
  induction c with
  | fulfilled a =>
    constructor
    · exact fun h => ⟨a, rfl, h⟩
    · rintro ⟨_, rfl, h⟩
      exact h
  | emit event rest ih => exact ih
  | pending later ih => exact settles_guarded.trans ih
  | _ => exact iff_of_false id fun ⟨_, h, _⟩ => h

theorem throws_bind :
    (c >>= k).Throws exn ↔ c.Throws exn ∨ ∃ a, c.Settles a ∧ (k a).Throws exn := by
  induction c with
  | fulfilled a =>
    constructor
    · exact fun h => .inr ⟨a, rfl, h⟩
    · rintro (h | ⟨_, rfl, h⟩)
      · exact h.elim
      · exact h
  | rejected other | raised other =>
    constructor
    · exact .inl
    · rintro (h | ⟨_, h, _⟩)
      · exact h
      · exact h.elim
  | running => exact iff_of_false id fun h => h.elim id fun ⟨_, h, _⟩ => h
  | emit event rest ih => exact ih
  | pending later ih => exact throws_guarded.trans ih

theorem rejected_iff : (∀ exn, c.Throws exn → c.RejectedWith exn) ↔ ¬c.Raises := by
  constructor
  · intro h hraises
    obtain ⟨exn, hthrows⟩ := hraises.throws
    exact (h exn hthrows).2 hraises
  · exact fun h exn hthrows => ⟨hthrows, h⟩

end Call

/-! ## The events of a call -/

namespace Call

/-- The promise is fulfilled with `a`, at once or later, and the call has recorded `events`. -/
def Comes (events : List ω) (a : α) : Call ω ε α → Prop
  | fulfilled b => events = [] ∧ b = a
  | emit event rest => ∃ tail, events = event :: tail ∧ rest.Comes tail a
  | pending later => later.Comes events a
  | _ => False

theorem comes_fulfilled (a : α) : (fulfilled a : Call ω ε α).Comes [] a := ⟨rfl, rfl⟩

theorem Comes.emit {events : List ω} (h : c.Comes events a) (event : ω) :
    (emit event c).Comes (event :: events) a := ⟨events, rfl, h⟩

@[simp] theorem comes_guarded {events : List ω} : c.guarded.Comes events a ↔ c.Comes events a := by
  induction c generalizing events with
  | emit event rest ih => exact exists_congr fun tail => and_congr_right fun _ => ih
  | _ => exact Iff.rfl

theorem Comes.bind {b : β} {events events' : List ω} (h : c.Comes events a)
    (hk : (k a).Comes events' b) : (c >>= k).Comes (events ++ events') b := by
  induction c generalizing events with
  | fulfilled a =>
    obtain ⟨rfl, rfl⟩ := h
    exact hk
  | emit event rest ih =>
    obtain ⟨tail, rfl, htail⟩ := h
    exact (ih htail).emit event
  | pending later ih => exact comes_guarded.mpr (ih h)
  | _ => exact h.elim

theorem comes_guarded_bind {b : β} {events : List ω} :
    (c.guarded >>= k).Comes events b ↔ (c >>= k).Comes events b := by
  induction c generalizing events with
  | emit event rest ih => exact exists_congr fun tail => and_congr_right fun _ => ih
  | _ => exact Iff.rfl

theorem Comes.bind_silent {b : β} {events : List ω} (h : c.Comes events a)
    (hk : (k a).Comes [] b) : (c >>= k).Comes events b := by
  rw [← List.append_nil events]
  exact h.bind hk

theorem Comes.settles {events : List ω} (h : c.Comes events a) : c.Settles a := by
  induction c generalizing events with
  | fulfilled b => exact h.2
  | emit event rest ih =>
    obtain ⟨tail, -, htail⟩ := h
    exact ih htail
  | pending later ih => exact ih h
  | _ => exact h.elim

/-- The promise is rejected with the exception, at once or later, and the call has recorded
`events`. -/
def Fails (events : List ω) (exn : ε) : Call ω ε α → Prop
  | rejected other => events = [] ∧ other = exn
  | emit event rest => ∃ tail, events = event :: tail ∧ rest.Fails tail exn
  | pending later => later.Fails events exn
  | _ => False

theorem Fails.guarded {events : List ω} (h : c.Fails events exn) : c.guarded.Fails events exn := by
  induction c generalizing events with
  | emit event rest ih =>
    obtain ⟨tail, rfl, htail⟩ := h
    exact ⟨tail, rfl, ih htail⟩
  | raised other => exact h.elim
  | _ => exact h

/-- What is bound to a promise that is rejected is not called. -/
theorem Fails.bind {events : List ω} (h : c.Fails events exn) (k : α → Call ω ε β) :
    (c >>= k).Fails events exn := by
  induction c generalizing events with
  | rejected other => exact h
  | emit event rest ih =>
    obtain ⟨tail, rfl, htail⟩ := h
    exact ⟨tail, rfl, ih htail⟩
  | pending later ih => exact (ih h).guarded
  | _ => exact h.elim

theorem Comes.bind_fails {events events' : List ω} (h : c.Comes events a)
    (hk : (k a).Fails events' exn) : (c >>= k).Fails (events ++ events') exn := by
  induction c generalizing events with
  | fulfilled a =>
    obtain ⟨rfl, rfl⟩ := h
    exact hk
  | emit event rest ih =>
    obtain ⟨tail, rfl, htail⟩ := h
    exact ⟨tail ++ events', rfl, ih htail⟩
  | pending later ih => exact (ih h).guarded
  | _ => exact h.elim

end Call

/-! ## Functions that return values -/

/-- What a function does that does not return a promise: it records events, and returns a value
or raises. -/
structure Plain (ω ε α : Type) where
  events : List ω
  result : Except ε α

def Plain.call (c : Plain ω ε α) : Call ω ε α :=
  c.events.foldr .emit
    (match c.result with
    | .ok a => .fulfilled a
    | .error exn => .raised exn)

theorem Plain.comes_call (events : List ω) (a : α) :
    (⟨events, .ok a⟩ : Plain ω ε α).call.Comes events a := by
  induction events with
  | nil => exact Call.comes_fulfilled a
  | cons event events ih => exact Call.Comes.emit ih event

/-! ## Loops -/

/-- A recursive function that binds a promise in each of its rounds.  Then it calls itself with
another state or returns its result. -/
structure Loop (ω ε M : Type) (N : M → Type) (R : Type) where
  node : (m : M) → Call ω ε (N m)
  next : (m : M) → N m → Call ω ε (M ⊕ R)

namespace Loop

variable {N : M → Type} (L : Loop ω ε M N R) {m m' : M}

def round (m : M) : Call ω ε (M ⊕ R) := L.node m >>= L.next m

def run : ℕ → M → Call ω ε R
  | 0, _ => .running
  | fuel + 1, m => L.round m >>= Sum.elim (run fuel) .fulfilled

/-- The call whose first promise is that of a guarded call. -/
def start (fuel : ℕ) (m : M) : Call ω ε R :=
  (L.node m).guarded >>= L.next m >>= Sum.elim (L.run fuel) .fulfilled

/-- A round ends at once, and the next one has the state `m'`. -/
def Goes (m m' : M) : Prop := (L.round m).Gives (.inl m')

/-- A round ends, and the next one has the state `m'`. -/
def Leads (m m' : M) : Prop := (L.round m).Settles (.inl m')

/-- A round throws. -/
def Meets (m : M) (exn : ε) : Prop :=
  ∃ m', Relation.ReflTransGen L.Leads m m' ∧ (L.round m').Throws exn

/-- What follows the promise of a round does not raise, up to the first wait. -/
def QuietNext (m : M) : Prop :=
  ∀ m', Relation.ReflTransGen L.Goes m m' → ∀ v, (L.node m').Gives v → ¬(L.next m' v).Raises

/-- The rounds from `m` on, up to the first wait, do not raise. -/
def Quiet (m : M) : Prop :=
  (∀ m', Relation.ReflTransGen L.Goes m m' → ¬(L.node m').Raises) ∧ L.QuietNext m

/-- The same without the first promise. -/
def QuietAfter (m : M) : Prop :=
  (∀ m', Relation.TransGen L.Goes m m' → ¬(L.node m').Raises) ∧ L.QuietNext m

variable {L}

theorem round_raises :
    (L.round m).Raises ↔ (L.node m).Raises ∨ ∃ v, (L.node m).Gives v ∧ (L.next m v).Raises :=
  Call.raises_bind

theorem leads_of_goes (h : Relation.ReflTransGen L.Goes m m') :
    Relation.ReflTransGen L.Leads m m' :=
  Relation.ReflTransGen.mono (fun _ _ hgives => Call.Gives.settles hgives) _ _ h

theorem raises_of_goes (hgoes : Relation.ReflTransGen L.Goes m m') (h : (L.round m').Raises) :
    ∃ least, ∀ fuel ≥ least, (L.run fuel m).Raises := by
  induction hgoes using Relation.ReflTransGen.head_induction_on with
  | refl =>
    refine ⟨1, fun fuel hle => ?_⟩
    obtain ⟨fuel, rfl⟩ := Nat.exists_eq_add_of_le' hle
    exact Call.raises_bind.mpr (.inl h)
  | head hgoes _ ih =>
    obtain ⟨least, hleast⟩ := ih
    refine ⟨least + 1, fun fuel hle => ?_⟩
    obtain ⟨fuel, rfl⟩ := Nat.exists_eq_add_of_le' hle
    exact Call.raises_bind.mpr (.inr ⟨_, hgoes, hleast _ (Nat.le_add_left _ _)⟩)

theorem Quiet.goes (h : L.Quiet m) (hgoes : L.Goes m m') : L.Quiet m' :=
  ⟨fun m₁ hreach => h.1 m₁ (hreach.head hgoes), fun m₁ hreach => h.2 m₁ (hreach.head hgoes)⟩

theorem not_raises_run (fuel : ℕ) : ∀ {m : M}, L.Quiet m → ¬(L.run fuel m).Raises := by
  induction fuel with
  | zero => exact fun _ => id
  | succ fuel ih =>
    intro m hquiet hraises
    rcases Call.raises_bind.mp hraises with hround | ⟨out, hgives, hraises⟩
    · rcases round_raises.mp hround with hnode | ⟨v, hgives, hnext⟩
      · exact hquiet.1 m .refl hnode
      · exact hquiet.2 m .refl v hgives hnext
    · cases out with
      | inl m₁ => exact ih (hquiet.goes hgives) hraises
      | inr r => exact hraises

theorem throws_of_meets {exn : ε} (h : L.Meets m exn) :
    ∃ least, ∀ fuel ≥ least, (L.run fuel m).Throws exn := by
  obtain ⟨m', hleads, hthrows⟩ := h
  induction hleads using Relation.ReflTransGen.head_induction_on with
  | refl =>
    refine ⟨1, fun fuel hle => ?_⟩
    obtain ⟨fuel, rfl⟩ := Nat.exists_eq_add_of_le' hle
    exact Call.throws_bind.mpr (.inl hthrows)
  | head hleads _ ih =>
    obtain ⟨least, hleast⟩ := ih
    refine ⟨least + 1, fun fuel hle => ?_⟩
    obtain ⟨fuel, rfl⟩ := Nat.exists_eq_add_of_le' hle
    exact Call.throws_bind.mpr (.inr ⟨_, hleads, hleast _ (Nat.le_add_left _ _)⟩)

theorem run_comes_leads {fuel : ℕ} {events events' : List ω} {r : R}
    (h : (L.round m).Comes events (.inl m')) (hrest : (L.run fuel m').Comes events' r) :
    (L.run (fuel + 1) m).Comes (events ++ events') r :=
  h.bind hrest

theorem run_comes_ends {fuel : ℕ} {events : List ω} {r : R}
    (h : (L.round m).Comes events (.inr r)) : (L.run (fuel + 1) m).Comes events r :=
  h.bind_silent (Call.comes_fulfilled r)

/-- A loop that meets an exception returns a promise that is rejected with it. -/
def Keeps (L : Loop ω ε M N R) (m : M) (call : ℕ → Call ω ε R) : Prop :=
  ∀ exn, L.Meets m exn → ∃ least, ∀ fuel ≥ least, (call fuel).RejectedWith exn

/-- A round that raises is met by the loop, and the call may not raise then. -/
theorem Keeps.not_raises {call : ℕ → Call ω ε R} (h : L.Keeps m call)
    (hgoes : Relation.ReflTransGen L.Goes m m')
    (hcall : (L.round m').Raises → ∃ least, ∀ fuel ≥ least, (call fuel).Raises) :
    ¬(L.round m').Raises := by
  intro hraises
  obtain ⟨exn, hthrows⟩ := hraises.throws
  obtain ⟨least, hleast⟩ := h exn ⟨m', leads_of_goes hgoes, hthrows⟩
  obtain ⟨least', hraised⟩ := hcall hraises
  exact (hleast (max least least') (Nat.le_max_left _ _)).2 (hraised _ (Nat.le_max_right _ _))

theorem run_keeps_iff : L.Keeps m (L.run · m) ↔ L.Quiet m := by
  constructor
  · intro h
    have hround : ∀ m', Relation.ReflTransGen L.Goes m m' → ¬(L.round m').Raises :=
      fun m' hgoes => h.not_raises hgoes (raises_of_goes hgoes)
    simp only [round_raises, not_or, not_exists, not_and] at hround
    exact ⟨fun m' hgoes => (hround m' hgoes).1, fun m' hgoes => (hround m' hgoes).2⟩
  · intro hquiet exn hmeets
    obtain ⟨least, hleast⟩ := throws_of_meets hmeets
    exact ⟨least, fun fuel hle => ⟨hleast fuel hle, not_raises_run fuel hquiet⟩⟩

/-! ### A guarded first promise -/

theorem start_throws_iff {fuel : ℕ} {exn : ε} :
    (L.start fuel m).Throws exn ↔ (L.run (fuel + 1) m).Throws exn := by
  unfold start run round
  simp only [Call.throws_bind, Call.settles_bind, Call.throws_guarded, Call.settles_guarded]

theorem start_comes_iff {fuel : ℕ} {events : List ω} {r : R} :
    (L.start fuel m).Comes events r ↔ (L.run (fuel + 1) m).Comes events r := by
  unfold start run round
  rw [Call.bind_assoc, Call.bind_assoc]
  exact Call.comes_guarded_bind

theorem start_raises_iff {fuel : ℕ} :
    (L.start fuel m).Raises ↔ (∃ v, (L.node m).Gives v ∧ (L.next m v).Raises) ∨
      ∃ m', L.Goes m m' ∧ (L.run fuel m').Raises := by
  unfold start Goes round
  simp only [Call.raises_bind, Call.gives_bind, Call.gives_guarded, Call.not_raises_guarded,
    false_or]
  refine or_congr_right ⟨?_, ?_⟩
  · rintro ⟨out, hgives, hraises⟩
    cases out with
    | inl m' => exact ⟨m', hgives, hraises⟩
    | inr r => exact hraises.elim
  · rintro ⟨m', hgives, hraises⟩
    exact ⟨.inl m', hgives, hraises⟩

theorem not_raises_start (h : L.QuietAfter m) (fuel : ℕ) : ¬(L.start fuel m).Raises := by
  rw [start_raises_iff]
  rintro (⟨v, hgives, hraises⟩ | ⟨m₁, hgoes, hraises⟩)
  · exact h.2 m .refl v hgives hraises
  · have hquiet : L.Quiet m₁ :=
      ⟨fun m' hreach => h.1 m' (.head' hgoes hreach), fun m' hreach => h.2 m' (hreach.head hgoes)⟩
    exact not_raises_run fuel hquiet hraises

theorem start_keeps_iff : L.Keeps m (L.start · m) ↔ L.QuietAfter m := by
  constructor
  · intro h
    have hround : ∀ m', Relation.TransGen L.Goes m m' → ¬(L.round m').Raises := by
      intro m' htrans
      obtain ⟨m₁, hgoes, hreach⟩ := Relation.TransGen.head'_iff.mp htrans
      refine h.not_raises htrans.to_reflTransGen fun hraises => ?_
      obtain ⟨least, hraised⟩ := raises_of_goes hreach hraises
      exact ⟨least, fun fuel hle => start_raises_iff.mpr (.inr ⟨m₁, hgoes, hraised fuel hle⟩)⟩
    simp only [round_raises, not_or, not_exists, not_and] at hround
    refine ⟨fun m' htrans => (hround m' htrans).1, fun m' hreach v hgives hraises => ?_⟩
    rcases Relation.reflTransGen_iff_eq_or_transGen.mp hreach with rfl | htrans
    · refine h.not_raises .refl (fun _ => ⟨0, fun fuel _ => ?_⟩)
        (round_raises.mpr (.inr ⟨v, hgives, hraises⟩))
      exact start_raises_iff.mpr (.inl ⟨v, hgives, hraises⟩)
    · exact (hround m' htrans).2 v hgives hraises
  · intro hquiet exn hmeets
    obtain ⟨least, hleast⟩ := throws_of_meets hmeets
    refine ⟨least, fun fuel hle => ⟨?_, not_raises_start hquiet fuel⟩⟩
    exact start_throws_iff.mpr (hleast (fuel + 1) (Nat.le_succ_of_le hle))

end Loop

end Calls
