import Mathlib.Data.Nat.Notation

/-!
# Code that asks its environment

A `Dialogue` reads and changes a state, raises exceptions, and asks its environment, whose answers
are given as a list.  When the list is used up the dialogue waits: a run on a list of answers is
the state of affairs after these answers, and a run on a longer list is what comes later.  Code
without a defined behaviour ends in a fault, which cannot be caught.

`wp` is the weakest precondition of a dialogue.  Its simp lemmas take sequences apart; a loop is
proved with an invariant and a measure (`wp_loop`).
-/

/-- Why a dialogue has no value. -/
inductive Abnormal (ε φ : Type)
  | raised (e : ε)
  | waiting
  | fault (f : φ)
  deriving DecidableEq

/-- A state, and the answers to come. -/
structure Env (σ ρ : Type) where
  state : σ
  answers : List ρ

def Dialogue (σ ρ ε φ α : Type) : Type :=
  Env σ ρ → Except (Abnormal ε φ) α × Env σ ρ

namespace Dialogue

variable {σ ρ ε φ α β γ : Type}

instance : Monad (Dialogue σ ρ ε φ) where
  pure a := fun s => (.ok a, s)
  bind t f := fun s =>
    match t s with
    | (.ok a, s') => f a s'
    | (.error x, s') => (.error x, s')

def get : Dialogue σ ρ ε φ σ := fun s => (.ok s.state, s)

def modify (f : σ → σ) : Dialogue σ ρ ε φ Unit := fun s => (.ok (), { s with state := f s.state })

def raise (e : ε) : Dialogue σ ρ ε φ α := fun s => (.error (.raised e), s)

def fault (f : φ) : Dialogue σ ρ ε φ α := fun s => (.error (.fault f), s)

def wait : Dialogue σ ρ ε φ α := fun s => (.error .waiting, s)

def ask : Dialogue σ ρ ε φ ρ := fun s =>
  match s.answers with
  | [] => (.error .waiting, s)
  | r :: answers => (.ok r, { s with answers := answers })

/-- `try_bind t f h`: exceptions of `f` are not handled. -/
def tryBind (t : Dialogue σ ρ ε φ α) (f : α → Dialogue σ ρ ε φ β) (h : ε → Dialogue σ ρ ε φ β) :
    Dialogue σ ρ ε φ β := fun s =>
  match t s with
  | (.ok a, s') => f a s'
  | (.error (.raised e), s') => h e s'
  | (.error .waiting, s') => (.error .waiting, s')
  | (.error (.fault x), s') => (.error (.fault x), s')

def catch' (t : Dialogue σ ρ ε φ α) (h : ε → Dialogue σ ρ ε φ α) : Dialogue σ ρ ε φ α :=
  t.tryBind pure h

def finalize (t : Dialogue σ ρ ε φ α) (f : Dialogue σ ρ ε φ Unit) : Dialogue σ ρ ε φ α :=
  t.tryBind (fun a => do f; pure a) fun e => do f; raise e

/-- At most `n` turns of a loop: `.inl` is the argument of the next turn. -/
def iterate (body : β → Dialogue σ ρ ε φ (β ⊕ α)) : ℕ → β → Dialogue σ ρ ε φ α
  | 0, _ => wait
  | n + 1, b => body b >>= fun r =>
    match r with
    | .inl b' => iterate body n b'
    | .inr a => pure a

/-- A loop with a measure that bounds the number of turns. -/
def loop (measure : β → Env σ ρ → ℕ) (body : β → Dialogue σ ρ ε φ (β ⊕ α)) (b : β) :
    Dialogue σ ρ ε φ α :=
  fun s => iterate body (measure b s + 1) b s

theorem get_bind (f : σ → Dialogue σ ρ ε φ α) (s : Env σ ρ) : (get >>= f) s = f s.state s := rfl

theorem bind_eq (t : Dialogue σ ρ ε φ β) (f : β → Dialogue σ ρ ε φ α) (s : Env σ ρ) :
    (t >>= f) s = match t s with
      | (.ok b, s') => f b s'
      | (.error x, s') => (.error x, s') := rfl

theorem bind_assoc (t : Dialogue σ ρ ε φ γ) (f : γ → Dialogue σ ρ ε φ β)
    (g : β → Dialogue σ ρ ε φ α) : (t >>= f) >>= g = t >>= fun a => f a >>= g := by
  funext s
  rw [bind_eq, bind_eq, bind_eq]
  rcases t s with ⟨_ | _, _⟩ <;> rfl

/-! ## Weakest preconditions -/

variable {Q Q' : α → Env σ ρ → Prop} {A A' : Abnormal ε φ → Env σ ρ → Prop} {s : Env σ ρ}

/-- The dialogue ends with a value and in a state that meet `Q`, or abnormally as `A` says. -/
def wp (t : Dialogue σ ρ ε φ α) (Q : α → Env σ ρ → Prop) (A : Abnormal ε φ → Env σ ρ → Prop)
    (s : Env σ ρ) : Prop :=
  match t s with
  | (.ok a, s') => Q a s'
  | (.error x, s') => A x s'

@[simp] theorem wp_pure (a : α) : wp (pure a : Dialogue σ ρ ε φ α) Q A s ↔ Q a s := Iff.rfl

@[simp] theorem wp_get {Q : σ → Env σ ρ → Prop} :
    wp (get : Dialogue σ ρ ε φ σ) Q A s ↔ Q s.state s := Iff.rfl

@[simp] theorem wp_modify {Q : Unit → Env σ ρ → Prop} (f : σ → σ) :
    wp (modify f : Dialogue σ ρ ε φ Unit) Q A s ↔ Q () { s with state := f s.state } := Iff.rfl

@[simp] theorem wp_raise (e : ε) : wp (raise e : Dialogue σ ρ ε φ α) Q A s ↔ A (.raised e) s :=
  Iff.rfl

@[simp] theorem wp_fault (f : φ) : wp (fault f : Dialogue σ ρ ε φ α) Q A s ↔ A (.fault f) s :=
  Iff.rfl

@[simp] theorem wp_wait : wp (wait : Dialogue σ ρ ε φ α) Q A s ↔ A .waiting s := Iff.rfl

@[simp] theorem wp_ask {Q : ρ → Env σ ρ → Prop} :
    wp (ask : Dialogue σ ρ ε φ ρ) Q A s ↔
      (s.answers = [] → A .waiting s) ∧
      ∀ r answers, s.answers = r :: answers → Q r { s with answers := answers } := by
  unfold wp ask
  cases hs : s.answers <;> simp

@[simp] theorem wp_ite (c : Prop) [Decidable c] (t u : Dialogue σ ρ ε φ α) :
    wp (if c then t else u) Q A s ↔ (c → wp t Q A s) ∧ (¬ c → wp u Q A s) := by
  split <;> simp_all

@[simp] theorem wp_bind (t : Dialogue σ ρ ε φ β) (f : β → Dialogue σ ρ ε φ α) :
    wp (t >>= f) Q A s ↔ wp t (fun b => wp (f b) Q A) A s := by
  unfold wp
  rw [bind_eq]
  rcases t s with ⟨_ | b, s'⟩ <;> simp

@[simp] theorem wp_tryBind (t : Dialogue σ ρ ε φ β) (f : β → Dialogue σ ρ ε φ α)
    (h : ε → Dialogue σ ρ ε φ α) :
    wp (t.tryBind f h) Q A s ↔
      wp t (fun b => wp (f b) Q A) (fun x s' => (∀ e, x = .raised e → wp (h e) Q A s') ∧
        ((∀ e, x ≠ .raised e) → A x s')) s := by
  unfold wp tryBind
  rcases t s with ⟨(_ | _ | _) | b, s'⟩ <;> simp

theorem wp_mono {t : Dialogue σ ρ ε φ α} (h : wp t Q A s) (hQ : ∀ a s', Q a s' → Q' a s')
    (hA : ∀ x s', A x s' → A' x s') : wp t Q' A' s := by
  unfold wp at h ⊢
  rcases ht : t s with ⟨x | a, s'⟩ <;> simp only [ht] at h ⊢
  · exact hA x s' h
  · exact hQ a s' h

theorem wp_congr {t u : Dialogue σ ρ ε φ α} (h : t s = u s) : wp t Q A s ↔ wp u Q A s := by
  unfold wp
  rw [h]

/-- A dialogue is known when its value and its last state are. -/
theorem eq_of_wp {t : Dialogue σ ρ ε φ α} {a : α} {s' : Env σ ρ}
    (h : wp t (fun b s'' => b = a ∧ s'' = s') (fun _ _ => False) s) : t s = (.ok a, s') := by
  unfold wp at h
  rcases ht : t s with ⟨x | b, s''⟩ <;> simp only [ht] at h
  rw [h.1, h.2]

theorem wp_and {t : Dialogue σ ρ ε φ α} (h : wp t Q A s) (h' : wp t Q' A' s) :
    wp t (fun a s' => Q a s' ∧ Q' a s') (fun x s' => A x s' ∧ A' x s') s := by
  unfold wp at h h' ⊢
  rcases ht : t s with ⟨x | a, s'⟩ <;> simp only [ht] at h h' ⊢ <;> exact ⟨h, h'⟩

theorem wp_trivial (t : Dialogue σ ρ ε φ α) : wp t (fun _ _ => True) (fun _ _ => True) s := by
  unfold wp
  split <;> trivial

/-- A loop, with the invariant `I`, of which every turn decreases the measure. -/
theorem wp_loop {measure : β → Env σ ρ → ℕ} {body : β → Dialogue σ ρ ε φ (β ⊕ α)}
    (I : β → Env σ ρ → Prop)
    (hbody : ∀ b s, I b s → wp (body b)
      (fun r s' => (∀ b', r = .inl b' → I b' s' ∧ measure b' s' < measure b s) ∧
        ∀ a, r = .inr a → Q a s') A s)
    {b : β} (hb : I b s) : wp (loop measure body b) Q A s := by
  have hturns : ∀ n b s, I b s → measure b s < n → wp (iterate body n b) Q A s := by
    intro n
    induction n with
    | zero =>
      intro b s _ hn
      exact absurd hn (Nat.not_lt_zero _)
    | succ n ih =>
      intro b s hb hn
      unfold iterate
      rw [wp_bind]
      refine wp_mono (hbody b s hb) (fun r s' hr => ?_) fun _ _ h => h
      cases r with
      | inl b' =>
        obtain ⟨hb', hlt⟩ := hr.1 b' rfl
        exact ih b' s' hb' (Nat.lt_of_lt_of_le hlt (Nat.le_of_lt_succ hn))
      | inr a => exact hr.2 a rfl
  exact hturns _ b s hb (Nat.lt_succ_self _)

/-! ## Sessions -/

/-- What one of the dialogues of a session has come to. -/
structure Entry (σ ρ ε φ ι α : Type) where
  op : ι
  outcome : Except (Abnormal ε φ) α
  after : Env σ ρ

variable {ι : Type}

/-- Dialogues one after the other: an exception ends one of them, a wait or a fault ends all. -/
def session (run : ι → Dialogue σ ρ ε φ α) : List ι → Env σ ρ →
    List (Entry σ ρ ε φ ι α) × Env σ ρ
  | [], s => ([], s)
  | op :: ops, s =>
    match run op s with
    | (.ok a, s') =>
      let (entries, last) := session run ops s'
      (⟨op, .ok a, s'⟩ :: entries, last)
    | (.error (.raised e), s') =>
      let (entries, last) := session run ops s'
      (⟨op, .error (.raised e), s'⟩ :: entries, last)
    | (.error x, s') => ([⟨op, .error x, s'⟩], s')

/-- Every dialogue of a session starts in a state that meets the condition. -/
def Along (run : ι → Dialogue σ ρ ε φ α) (C : ι → Env σ ρ → Prop) : List ι → Env σ ρ → Prop
  | [], _ => True
  | op :: ops, s =>
    C op s ∧
      match run op s with
      | (.ok _, s') | (.error (.raised _), s') => Along run C ops s'
      | (.error _, _) => True

instance Along.decide (run : ι → Dialogue σ ρ ε φ α) (C : ι → Env σ ρ → Prop)
    [∀ op s, Decidable (C op s)] : ∀ ops s, Decidable (Along run C ops s)
  | [], _ => isTrue trivial
  | op :: ops, s =>
    have : Decidable (match run op s with
        | (.ok _, s') | (.error (.raised _), s') => Along run C ops s'
        | (.error _, _) => True) :=
      match run op s with
      | (.ok _, s') | (.error (.raised _), s') => Along.decide run C ops s'
      | (.error .waiting, _) | (.error (.fault _), _) => isTrue trivial
    instDecidableAnd

theorem along_trivial (run : ι → Dialogue σ ρ ε φ α) (ops : List ι) :
    ∀ s : Env σ ρ, Along run (fun _ _ => True) ops s := by
  induction ops with
  | nil => exact fun _ => trivial
  | cons op ops ih =>
    intro s
    unfold Along
    refine ⟨trivial, ?_⟩
    split
    · exact ih _
    · exact ih _
    · trivial

/-- Between two dialogues `I` holds; `J` holds at the end too. -/
theorem session_rule_along {run : ι → Dialogue σ ρ ε φ α} {C : ι → Env σ ρ → Prop}
    (I J : List (Entry σ ρ ε φ ι α) → Env σ ρ → Prop) (hIJ : ∀ past s, I past s → J past s)
    (hstep : ∀ past s op, I past s → C op s →
      wp (run op) (fun a s' => I (past ++ [⟨op, .ok a, s'⟩]) s')
        (fun x s' => J (past ++ [⟨op, .error x, s'⟩]) s' ∧
          ∀ e, x = .raised e → I (past ++ [⟨op, .error x, s'⟩]) s') s)
    (ops : List ι) : ∀ (past : List (Entry σ ρ ε φ ι α)) (s : Env σ ρ), I past s →
      Along run C ops s → J (past ++ (session run ops s).1) (session run ops s).2 := by
  induction ops with
  | nil =>
    intro past s h _
    simpa [session] using hIJ past s h
  | cons op ops ih =>
    rintro past s h ⟨hC, halong⟩
    have hop := hstep past s op h hC
    unfold wp at hop
    unfold session
    rcases hrun : run op s with ⟨x | a, s'⟩ <;> simp only [hrun] at hop halong ⊢
    · cases x with
      | raised e => simpa using ih _ s' (hop.2 e rfl) halong
      | waiting => exact hop.1
      | fault f => exact hop.1
    · simpa using ih _ s' hop halong

theorem session_rule {run : ι → Dialogue σ ρ ε φ α}
    (I J : List (Entry σ ρ ε φ ι α) → Env σ ρ → Prop) (hIJ : ∀ past s, I past s → J past s)
    (hstep : ∀ past s op, I past s → wp (run op) (fun a s' => I (past ++ [⟨op, .ok a, s'⟩]) s')
      (fun x s' => J (past ++ [⟨op, .error x, s'⟩]) s' ∧
        ∀ e, x = .raised e → I (past ++ [⟨op, .error x, s'⟩]) s') s)
    (ops : List ι) (past : List (Entry σ ρ ε φ ι α)) (s : Env σ ρ) (h : I past s) :
    J (past ++ (session run ops s).1) (session run ops s).2 :=
  session_rule_along I J hIJ (fun past s op h _ => hstep past s op h) ops past s h
    (along_trivial run ops s)

theorem eq_after_of_getLast? (run : ι → Dialogue σ ρ ε φ α) (ops : List ι) :
    ∀ (s : Env σ ρ) (e : Entry σ ρ ε φ ι α), (session run ops s).1.getLast? = some e →
      (session run ops s).2 = e.after := by
  induction ops with
  | nil => simp [session]
  | cons op ops ih =>
    intro s e he
    unfold session at he ⊢
    have hrest : ∀ (first : Entry σ ρ ε φ ι α) (s' : Env σ ρ),
        (first :: (session run ops s').1).getLast? = some e → s' = first.after →
        (session run ops s').2 = e.after := by
      intro first s' hlast hfirst
      rw [List.getLast?_cons] at hlast
      cases hentries : (session run ops s').1.getLast? with
      | some last =>
        rw [hentries] at hlast
        cases hlast
        exact ih s' _ hentries
      | none =>
        rw [hentries] at hlast
        cases hlast
        have hnil := List.getLast?_eq_none_iff.mp hentries
        cases ops with
        | nil => exact hfirst
        | cons op' ops' =>
          unfold session at hnil
          rcases hrun : run op' s' with ⟨(_ | _ | _) | _, s''⟩ <;> simp [hrun] at hnil
    rcases hrun : run op s with ⟨(x | _ | f) | a, s'⟩ <;> simp only [hrun] at he ⊢
    · exact hrest _ s' he rfl
    · cases he
      rfl
    · cases he
      rfl
    · exact hrest _ s' he rfl

/-- A session whose values are known: `I` holds of what is still to be done. -/
theorem session_known {τ : Type} (run : ι → Dialogue σ ρ ε φ α) (op : τ → ι) (value : τ → α)
    (I : List τ → Env σ ρ → Prop)
    (hstep : ∀ t todo s, I (t :: todo) s →
      wp (run (op t)) (fun a s' => a = value t ∧ I todo s') (fun _ _ => False) s)
    (todo : List τ) : ∀ s : Env σ ρ, I todo s →
      (session run (todo.map op) s).1.map (·.outcome) = todo.map (fun t => .ok (value t)) ∧
        I [] (session run (todo.map op) s).2 := by
  induction todo with
  | nil => exact fun s h => ⟨rfl, h⟩
  | cons t todo ih =>
    intro s h
    have hop := hstep t todo s h
    unfold wp at hop
    rw [List.map_cons]
    unfold session
    rcases hrun : run (op t) s with ⟨x | a, s'⟩ <;> simp only [hrun] at hop ⊢
    obtain ⟨rfl, hrest⟩ := hop
    obtain ⟨houtcomes, hlast⟩ := ih s' hrest
    exact ⟨by rw [List.map_cons, List.map_cons, houtcomes], hlast⟩

end Dialogue
