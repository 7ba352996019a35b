import Lwt.Ppx.Expansion

/-!
# The expansion keeps the meaning

A program in which no identifier begins with `__ppx_lwt_`, and which does not bind the operators
that `for%lwt` uses, has the same traces as its expansion, and comes to rest after the same ones
(`expansion_keeps_the_meaning`).

The relation of `Expansion` is a simulation.  `sim_eval`, `sim_select`, `sim_apply`, `sim_ret` and
`sim_throw` say what the expansion does where the source makes one step: at least one step, to a
configuration that is related again, so that the expansion goes on for ever only where the source
does.  Where the source stops, the expansion stops after some steps, and both have the same events
(`event_rel`), or both are stuck at a value of a wrong type and have none.

The steps of the expansion that the source does not make are those of the generated code: the
application of the curried functions of `Lwt` (`call₃_ends`), the comparison and the addition of
`for%lwt` (`forLoop_turn`, `forNext_applies`), and the handlers that raise again what they catch
(`StackRel.settle`).
-/

namespace Lwt.Ppx

open Io.Slices Relation

/-! ## Silent steps -/

/-- One silent step. -/
def Goes (c d : Config) : Prop := configStep c = some d

/-- The configuration after `n` silent steps. -/
def runs : ℕ → Config → Option Config
  | 0, c => some c
  | n + 1, c => (configStep c).bind (runs n)

theorem reflTransGen_of_runs {n : ℕ} {c d : Config} (h : runs n c = some d) :
    ReflTransGen Goes c d := by
  induction n generalizing c with
  | zero =>
    cases h
    exact .refl
  | succ n ih =>
    obtain ⟨c', hstep, hrest⟩ := Option.bind_eq_some_iff.mp h
    exact .head hstep (ih hrest)

theorem transGen_of_runs {n : ℕ} {c d : Config} (h : runs (n + 1) c = some d) :
    TransGen Goes c d := by
  obtain ⟨c', hstep, hrest⟩ := Option.bind_eq_some_iff.mp h
  exact .head' hstep (reflTransGen_of_runs hrest)

/-- There is no event from this configuration. -/
def Mute (c : Config) : Prop := ∀ known e, State.event ⟨c, known⟩ e = none

/-- The expansion goes where the source goes, and stops where the source stops. -/
def Sim (c c' : Config) : Prop :=
  match configStep c with
  | some d => ∃ d', TransGen Goes c' d' ∧ ConfigRel d d'
  | none => ∃ c'', ReflTransGen Goes c' c'' ∧ configStep c'' = none ∧
      (ConfigRel c c'' ∨ Mute c ∧ Mute c'')

namespace Sim

variable {c c' d d' : Config}

theorem step (h : configStep c = some d) (hsteps : TransGen Goes c' d') (hrel : ConfigRel d d') :
    Sim c c' := by
  rw [Sim, h]
  exact ⟨d', hsteps, hrel⟩

theorem single (d d' : Config) (h : configStep c = some d) (h' : configStep c' = some d')
    (hrel : ConfigRel d d') : Sim c c' := step h (.single h') hrel

theorem stuck (h : configStep c = none) (h' : configStep c' = none) (hmute : Mute c)
    (hmute' : Mute c') : Sim c c' := by
  rw [Sim, h]
  exact ⟨c', .refl, h', .inr ⟨hmute, hmute'⟩⟩

theorem stops (h : configStep c = none) (h' : configStep c' = none) (hrel : ConfigRel c c') :
    Sim c c' := by
  rw [Sim, h]
  exact ⟨c', .refl, h', .inl hrel⟩

/-- The expansion may go on first. -/
theorem of_steps (hsteps : ReflTransGen Goes c' d') (h : Sim c d') : Sim c c' := by
  unfold Sim at h ⊢
  split at h
  · obtain ⟨d, hd, hrel⟩ := h
    exact ⟨d, hd.trans_right hsteps, hrel⟩
  · obtain ⟨d, hd, hstop⟩ := h
    exact ⟨d, hsteps.trans hd, hstop⟩

end Sim

/-! ### Configurations without an event -/

theorem mute_eval (e : Expr) (ρ : Env) (K : Stack) : Mute (.eval e ρ, K) := by
  intro known ev
  cases ev <;> rfl

theorem mute_ret {f : Frame} (v : Val) (K : Stack) (hf : f ≠ .boundary) :
    Mute (.ret v, f :: K) := by
  cases f with
  | boundary => exact absurd rfl hf
  | _ =>
    intro known ev
    cases ev <;> rfl

theorem mute_throw {f : Frame} (x : Val) (K : Stack) (hf : f ≠ .boundary) :
    Mute (.throw x, f :: K) := by
  cases f with
  | boundary => exact absurd rfl hf
  | _ =>
    intro known ev
    cases ev <;> rfl

/-- The values whose call is an event. -/
def Val.callsOutside : Val → Bool
  | .lwtFunction _ _ | .outer _ => true
  | _ => false

theorem mute_apply {f : Val} (v : Val) (K : Stack) (hf : f.callsOutside = false) :
    Mute (.apply f v, K) := by
  cases f with
  | lwtFunction g args | outer x => cases hf
  | _ =>
    intro known ev
    cases ev <;> rfl

/-! ## Handlers that raise again -/

theorem throw_reraise (x : Val) (ρ : Env) (K : Stack) :
    TransGen Goes (.throw x, .tryWith Cases.reraiseCase ρ :: K) (.throw x, K) :=
  transGen_of_runs (n := 7) rfl

theorem select_reraise (v otherwise : Val) (ρ : Env) (K : Stack) :
    TransGen Goes (.select .value v otherwise Cases.reraiseCase ρ, K) (.throw v, K) :=
  transGen_of_runs (n := 6) rfl

/-- A stack whose first frame is the frame of the source. -/
inductive Settled : Stack → Stack → Prop
  | first : Settled [.boundary] [.boundary]
  | boundary {K K' : Stack} : StackRel K K' → Settled (.boundary :: K) (.boundary :: K')
  | frame {f : Frame} {fs : List Frame} {K K' : Stack} : FrameRel f fs → StackRel K K' →
      Settled (f :: K) (fs ++ K')

/-- The handlers that raise again are passed. -/
theorem StackRel.settle {K K' : Stack} (h : StackRel K K') : ∃ K₁, Settled K K₁ ∧
    (∀ v, ReflTransGen Goes (.ret v, K') (.ret v, K₁)) ∧
    ∀ x, ReflTransGen Goes (.throw x, K') (.throw x, K₁) := by
  induction h with
  | first => exact ⟨_, .first, fun _ => .refl, fun _ => .refl⟩
  | boundary h => exact ⟨_, .boundary h, fun _ => .refl, fun _ => .refl⟩
  | frame hf h => exact ⟨_, .frame hf h, fun _ => .refl, fun _ => .refl⟩
  | reraise ρ' _ ih =>
    obtain ⟨K₁, hsettled, hret, hthrow⟩ := ih
    exact ⟨K₁, hsettled, fun v => .head rfl (hret v),
      fun x => (throw_reraise x ρ' _).to_reflTransGen.trans (hthrow x)⟩

/-! ## Calls of the functions of `Lwt` -/

section Calls

variable (f : LwtFunction) (cases handler : Cases) (a : Expr) (ρ : Env) (v w : Val) (K : Stack)

theorem call₂_begins : TransGen Goes
    (.eval (Expr.call₂ f a (.function cases)) ρ, K)
    (.eval a ρ, .argument (.lwtFunction f) ρ :: .function (.closure ρ cases) :: K) :=
  transGen_of_runs (n := 3) rfl

theorem call₃_begins : TransGen Goes
    (.eval (Expr.call₃ f (.function handler) a (.function cases)) ρ, K)
    (.eval a ρ, .argument (.apply (.lwtFunction f) (.function handler)) ρ ::
      .function (.closure ρ cases) :: K) :=
  transGen_of_runs (n := 3) rfl

theorem call₂_ends (hf : f.arity = 2) : TransGen Goes
    (.ret v, .argument (.lwtFunction f) ρ :: .function w :: K)
    (.apply (.lwtFunction f (.cons v .nil)) w, K) := by
  refine transGen_of_runs (n := 4) ?_
  simp [runs, configStep, returnStep, evalStep, applyStep, Vals.length, Vals.snoc, hf]

theorem call₃_ends (hf : f.arity = 3) : TransGen Goes
    (.ret v, .argument (.apply (.lwtFunction f) (.function handler)) ρ :: .function w :: K)
    (.apply (.lwtFunction f (.cons (.closure ρ handler) (.cons v .nil))) w, K) := by
  refine transGen_of_runs (n := 9) ?_
  simp [runs, configStep, returnStep, evalStep, applyStep, Vals.length, Vals.snoc, hf]

theorem call₃_functions (hf : f.arity = 3) (cases' : Cases) : TransGen Goes
    (.eval (Expr.call₃ f (.function handler) (.function cases') (.function cases)) ρ, K)
    (.apply (.lwtFunction f (.cons (.closure ρ handler) (.cons (.closure ρ cases') .nil)))
      (.closure ρ cases), K) :=
  ((call₃_begins f cases handler (.function cases') ρ K).tail rfl).trans
    (call₃_ends f handler ρ (.closure ρ cases') (.closure ρ cases) K hf)

end Calls

/-! ## The cases of a handler -/

theorem Pat.matches_of_isCatchall : ∀ {p : Pat} (v : Val) (ρ : Env), p.isCatchall = true →
    (p.matches v ρ).isSome = true
  | .any, _, _, _ | .var _, _, _, _ => rfl
  | .aliased p _, v, ρ, h => by
      rw [Pat.matches, Option.isSome_map]
      exact p.matches_of_isCatchall v ρ h
  | .constraint p, v, ρ, h => p.matches_of_isCatchall v ρ h

/-- Where a case does not match, the others are left. -/
theorem CasesRel.next {o : Outcome} {v otherwise otherwise' : Val} {ρ : Env} {p : CasePat}
    {rhs : Expr} {rest cases' : Cases}
    (h : CasesRel o v otherwise otherwise' (.cons p rhs rest) cases')
    (hmatch : p.matches o v ρ = none) : ∃ rest', cases' = .cons p (expand rhs) rest' ∧
      CasesRel o v otherwise otherwise' rest rest' := by
  cases h with
  | same _ hother => exact ⟨_, rfl, .same rest hother⟩
  | reraise => exact ⟨_, rfl, .reraise v otherwise' rest⟩
  | caught _ _ hwild =>
    refine ⟨_, rfl, .caught otherwise otherwise' ?_⟩
    simp only [Cases.hasWildcard, Bool.or_eq_true] at hwild
    refine hwild.resolve_left fun hcatch => ?_
    cases p with
    | value p =>
      have hsome := p.matches_of_isCatchall v ρ hcatch
      rw [show p.matches v ρ = none from hmatch] at hsome
      cases hsome
    | exn p => cases hcatch

theorem CasesRel.rhs {o : Outcome} {v otherwise otherwise' : Val} {p : CasePat} {rhs : Expr}
    {rest cases' : Cases} (h : CasesRel o v otherwise otherwise' (.cons p rhs rest) cases') :
    ∃ rest', cases' = .cons p (expand rhs) rest' := by
  cases h <;> exact ⟨_, rfl⟩

theorem CasesRel.guarded {o : Outcome} {v otherwise otherwise' : Val} {p : CasePat}
    {guard rhs : Expr} {rest cases' : Cases}
    (h : CasesRel o v otherwise otherwise' (.guarded p guard rhs rest) cases') :
    ∃ rest', cases' = .guarded p (expand guard) (expand rhs) rest' ∧
      CasesRel o v otherwise otherwise' rest rest' := by
  cases h with
  | same _ hother => exact ⟨_, rfl, .same rest hother⟩
  | reraise => exact ⟨_, rfl, .reraise v otherwise' rest⟩
  | caught _ _ hwild => exact ⟨_, rfl, .caught otherwise otherwise' hwild⟩

section Simulation

variable {ρ ρ' : Env} {v v' : Val} {K K' : Stack}

theorem sim_select {o : Outcome} {otherwise otherwise' : Val} {cases cases' : Cases}
    (hv : ValRel v v') (hplain : cases.isPlain = true) (hρ : EnvRel ρ ρ')
    (h : CasesRel o v otherwise otherwise' cases cases') (hK : StackRel K K') :
    Sim (.select o v otherwise cases ρ, K) (.select o v' otherwise' cases' ρ', K') := by
  cases cases with
  | nil =>
    -- no case is left: the source raises, and the expansion raises again
    cases h with
    | same _ hother => exact .step rfl (.single rfl) (.throw hother hK)
    | reraise => exact .step rfl (select_reraise v' otherwise' ρ' K') (.throw hv hK)
    | caught _ _ hwild => cases hwild
  | cons p rhs rest =>
    simp only [Cases.isPlain, Bool.and_eq_true] at hplain
    have hrel := CasePat.matches_rel o hplain.1.1 hv hρ
    cases hmatch : p.matches o v ρ with
    | none =>
      obtain ⟨rest', rfl, hrest⟩ := h.next hmatch
      rw [hmatch] at hrel
      refine .single (.select o v otherwise rest ρ, K)
        (.select o v' otherwise' rest' ρ', K') ?_ ?_
        (.select hv hplain.2 hρ hrest hK)
      · simp only [configStep, selectStep, hmatch]
      · simp only [configStep, selectStep, Interaction.eq_none_of_rel hrel]
    | some ρ₁ =>
      obtain ⟨rest', rfl⟩ := h.rhs
      rw [hmatch] at hrel
      obtain ⟨ρ₁', hmatch', hρ₁⟩ := Interaction.exists_of_rel_left hrel
      refine .single (.eval rhs ρ₁, K)
        (.eval (expand rhs) ρ₁', K') ?_ ?_
        (.eval hplain.1.2 hρ₁ hK)
      · simp only [configStep, selectStep, hmatch]
      · simp only [configStep, selectStep, hmatch']
  | guarded p guard rhs rest =>
    obtain ⟨rest', rfl, hrest⟩ := h.guarded
    simp only [Cases.isPlain, Bool.and_eq_true] at hplain
    have hrel := CasePat.matches_rel o hplain.1.1.1 hv hρ
    cases hmatch : p.matches o v ρ with
    | none =>
      rw [hmatch] at hrel
      refine .single (.select o v otherwise rest ρ, K)
        (.select o v' otherwise' rest' ρ', K') ?_ ?_
        (.select hv hplain.2 hρ hrest hK)
      · simp only [configStep, selectStep, hmatch]
      · simp only [configStep, selectStep, Interaction.eq_none_of_rel hrel]
    | some ρ₁ =>
      rw [hmatch] at hrel
      obtain ⟨ρ₁', hmatch', hρ₁⟩ := Interaction.exists_of_rel_left hrel
      -- the guard is evaluated with the other cases in its frame
      refine .single (.eval guard ρ₁, .guard o v otherwise rhs ρ₁ rest ρ :: K)
        (.eval (expand guard) ρ₁',
          .guard o v' otherwise' (expand rhs) ρ₁' rest' ρ' :: K') ?_ ?_
        (.eval hplain.1.1.2 hρ₁ (.frame (.guard hv hplain.1.2 hρ₁ hplain.2 hρ hrest) hK))
      · simp only [configStep, selectStep, hmatch]
      · simp only [configStep, selectStep, hmatch']

/-! ## Evaluation -/

theorem lookup_rel {x : Name} (hx : isInternal x = false) (hρ : EnvRel ρ ρ') :
    Option.Rel ValRel ((ρ.find x).or ((operator x).map .operator))
      ((ρ'.find x).or ((operator x).map .operator)) := by
  refine Interaction.rel_or (hρ.find hx) ?_
  cases operator x with
  | none => exact .none
  | some o => exact .some (.operator o)

theorem bindNext_rel {bindings : Bindings} {e : Expr} {acc acc' : Env}
    (hbindings : bindings.isPlain = true) (he : e.isPlain = true) (hρ : EnvRel ρ ρ')
    (hacc : EnvRel acc acc') (hK : StackRel K K') :
    ConfigRel (bindNext e ρ acc bindings K)
      (bindNext (expand e) ρ' acc' (expandBindings bindings) K') := by
  cases bindings with
  | nil => exact .eval he hacc hK
  | cons p e' rest =>
    simp only [Bindings.isPlain, Bool.and_eq_true] at hbindings
    exact .eval hbindings.1.2 hρ
      (.frame (.binding hbindings.1.1 hbindings.2 he hρ hacc) hK)

/-- The generated code of a body of `let%lwt` calls `Lwt.backtrace_bind` for the next promise. -/
theorem awaitNext_rel {i : ℕ} {rest : Bindings} {promises : Vals} {e : Expr}
    (hrest : rest.isPlain = true) (he : e.isPlain = true) (hρ : EnvRel ρ ρ')
    (h : Gathered ρ' i rest promises .nil) (hK : StackRel K K') :
    ∃ d', ReflTransGen Goes (.eval (genBinds (expand e) i (expandBindings rest)) ρ', K') d' ∧
      ConfigRel (awaitNext ρ e rest promises, K) d' := by
  cases h with
  | nil => exact ⟨_, .refl, .eval he hρ hK⟩
  | cons hfind hv hgathered =>
    rename_i p e' rest v v' promises
    simp only [Bindings.isPlain, Bool.and_eq_true] at hrest
    have hpromise : Goes (.eval (.var (genName i)) ρ',
        .argument (.apply (.lwtFunction .backtraceBind) Expr.addBacktrace) ρ' ::
          .function (.closure ρ' (.cons (.value p)
            (genBinds (expand e) (i + 1) (expandBindings rest)) .nil)) :: K')
        (.ret v', .argument (.apply (.lwtFunction .backtraceBind) Expr.addBacktrace) ρ' ::
          .function (.closure ρ' (.cons (.value p)
            (genBinds (expand e) (i + 1) (expandBindings rest)) .nil)) :: K') := by
      simp [Goes, configStep, evalStep, hfind]
    refine ⟨_, (((call₃_begins .backtraceBind _ addBacktraceCases _ ρ' K').tail hpromise).trans
      (call₃_ends .backtraceBind addBacktraceCases ρ' v' _ K' rfl)).to_reflTransGen, ?_⟩
    exact .apply (.lwtFunction _ (.cons (.addBacktrace ρ') (.cons hv .nil)))
      (.awaiting hρ hrest.1.1 hrest.2 he hgathered) hK

/-- The next binding of `let%lwt`; its promise will have the generated name. -/
theorem letLwtNext_rel {bindings todo : Bindings} {promises : Vals} {e : Expr} {acc' : Env}
    (hbindings : bindings.isPlain = true) (htodo : todo.isPlain = true) (he : e.isPlain = true)
    (hρ : EnvRel ρ ρ') (hacc : EnvRel ρ acc') (h : Gathered acc' 0 bindings promises todo)
    (hK : StackRel K K') :
    ∃ d', ReflTransGen Goes (bindNext (genBinds (expand e) 0 (expandBindings bindings)) ρ' acc'
        (genBindings promises.length (expandBindings todo)) K') d' ∧
      ConfigRel (letLwtNext bindings promises e ρ todo K) d' := by
  cases todo with
  | nil => exact awaitNext_rel hbindings he hacc h hK
  | cons p e' rest =>
    simp only [Bindings.isPlain, Bool.and_eq_true] at htodo
    exact ⟨_, .refl, .eval htodo.1.2 hρ
      (.frame (.letLwt htodo.2 hbindings he hρ hacc h) hK)⟩

theorem ValRel.thunk {e : Expr} (he : e.isPlain = true) (hρ : EnvRel ρ ρ') :
    ValRel (thunkIn ρ e) (thunkIn ρ' (expand e)) := by
  refine .closure hρ ?_
  simp only [Cases.isPlain, CasePat.isPlain, Pat.isPlain, he, Bool.and_true]

theorem Cases.isPlain_values : ∀ {cs : Cases}, cs.isPlain = true → cs.values.isPlain = true
  | .nil, _ => rfl
  | .cons (.value p) _ rest, h => by
      simp only [Cases.isPlain, Bool.and_eq_true] at h
      simp only [values, Cases.isPlain, Bool.and_eq_true]
      exact ⟨h.1, isPlain_values h.2⟩
  | .guarded (.value p) _ _ rest, h => by
      simp only [Cases.isPlain, Bool.and_eq_true] at h
      simp only [values, Cases.isPlain, Bool.and_eq_true]
      exact ⟨h.1, isPlain_values h.2⟩
  | .cons (.exn _) _ rest, h | .guarded (.exn _) _ _ rest, h => by
      simp only [Cases.isPlain, Bool.and_eq_true] at h
      rw [values]
      exact isPlain_values h.2

theorem Cases.isPlain_exns : ∀ {cs : Cases}, cs.isPlain = true → cs.exns.isPlain = true
  | .nil, _ => rfl
  | .cons (.exn p) _ rest, h => by
      simp only [Cases.isPlain, Bool.and_eq_true] at h
      simp only [exns, Cases.isPlain, Bool.and_eq_true]
      exact ⟨h.1, isPlain_exns h.2⟩
  | .guarded (.exn p) _ _ rest, h => by
      simp only [Cases.isPlain, Bool.and_eq_true] at h
      simp only [exns, Cases.isPlain, Bool.and_eq_true]
      exact ⟨h.1, isPlain_exns h.2⟩
  | .cons (.value _) _ rest, h | .guarded (.value _) _ _ rest, h => by
      simp only [Cases.isPlain, Bool.and_eq_true] at h
      rw [exns]
      exact isPlain_exns h.2

theorem expand_forLwt {x : Name} {start bound body : Expr} {dir : Direction}
    (hstart : start.isAlone = false) : expand (.lwt (.forDo (some x) start dir bound body)) =
      forWith x dir (expand bound) (expand body) (.apply (.var loopName) (expand start)) := by
  cases start with
  | finallyAlone f => cases hstart
  | _ => rfl

theorem sim_lwt {e : Expr} (he : e.isPlain = true) (hρ : EnvRel ρ ρ') (hK : StackRel K K') :
    Sim (.eval (.lwt e) ρ, K) (.eval (expand (.lwt e)) ρ', K') := by
  cases e with
  | sequence a b =>
    simp only [Expr.isPlain, Bool.and_eq_true] at he
    exact .step rfl (call₃_begins .backtraceBind _ addBacktraceCases (expand a) ρ' K')
      (.eval he.1 hρ (.frame (.sequenceLwt he.2 hρ) hK))
  | letIn bindings e =>
    simp only [Expr.isPlain, Bool.and_eq_true] at he
    have hnone : Gathered ρ' 0 bindings .nil bindings := .nil ρ' 0 bindings
    obtain ⟨d', hsteps, hrel⟩ := letLwtNext_rel he.1 he.1 he.2 hρ hρ hnone hK
    exact .step rfl (.head' rfl hsteps) hrel
  | matchWith e cases =>
    simp only [Expr.isPlain, Bool.and_eq_true] at he
    refine .step rfl (call₃_functions .tryBind _ _ ρ' K' rfl _) (.apply ?_ ?_ hK)
    · refine .lwtFunction _ (.cons (.thunk he.1 hρ) (.cons ?_ .nil))
      rw [← Cases.expandCases_values]
      exact .closure hρ (Cases.isPlain_values he.2)
    · rw [← Cases.expandCases_exns]
      exact .handler hρ (Cases.isPlain_exns he.2)
  | assertion e =>
    exact .step rfl (transGen_of_runs (n := 2) rfl)
      (.eval he hρ (.frame (.assertLwt ρ') (.reraise ρ' hK)))
  | whileDo cond body =>
    simp only [Expr.isPlain, Bool.and_eq_true] at he
    exact .step rfl (transGen_of_runs (n := 8) rfl)
      (.eval he.1 (.internal isInternal_loopName hρ)
        (.frame (.whileLwtCond he.1 he.2 hρ) hK))
  | forDo x start dir bound body =>
    cases x with
    | none => exact .stuck rfl rfl (mute_eval _ _ _) (mute_eval _ _ _)
    | some x =>
      simp only [Expr.isPlain, Option.all_some, Bool.and_eq_true, Bool.not_eq_true'] at he
      rw [expand_forLwt he.1.1.2.2]
      exact .single _ _ rfl rfl (.eval he.1.2 hρ
        (.frame (.forLwtBound dir he.1.1.1 he.1.1.2.1 he.2 hρ) hK))
  | tryWith e cases =>
    simp only [Expr.isPlain, Bool.and_eq_true] at he
    exact .step rfl (call₃_functions .backtraceCatch _ addBacktraceCases ρ' K' rfl _)
      (.apply (.lwtFunction _ (.cons (.addBacktrace ρ') (.cons (.thunk he.1 hρ) .nil)))
        (.handler hρ he.2) hK)
  | ifThenElse cond a b =>
    simp only [Expr.isPlain, Bool.and_eq_true] at he
    exact .step rfl (call₂_begins .bind _ (expand cond) ρ' K')
      (.eval he.1.1 hρ (.frame (.ifLwt he.1.2 he.2 hρ) hK))
  | ifThen cond a =>
    simp only [Expr.isPlain, Bool.and_eq_true] at he
    exact .step rfl (call₂_begins .bind _ (expand cond) ρ' K')
      (.eval he.1 hρ (.frame (.ifLwt (b := Expr.returnUnit) he.2 rfl hρ) hK))
  | _ => exact .stuck rfl rfl (mute_eval _ _ _) (mute_eval _ _ _)

theorem sim_eval {e : Expr} (he : e.isPlain = true) (hρ : EnvRel ρ ρ') (hK : StackRel K K') :
    Sim (.eval e ρ, K) (.eval (expand e) ρ', K') := by
  cases e with
  | var x =>
    simp only [Expr.isPlain, Bool.not_eq_true'] at he
    have hrel := lookup_rel he hρ
    -- a name that is not bound can be that of an operator
    cases hfind : (ρ.find x).or ((operator x).map .operator) with
    | none =>
      refine .stuck ?_ ?_ (mute_eval _ _ _) (mute_eval _ _ _)
      · simp only [configStep, evalStep, hfind, Option.map_none]
      · rw [hfind] at hrel
        simp only [expand, configStep, evalStep, Interaction.eq_none_of_rel hrel,
          Option.map_none]
    | some v =>
      rw [hfind] at hrel
      obtain ⟨v', hfind', hv⟩ := Interaction.exists_of_rel_left hrel
      refine .single (.ret v, K) (.ret v', K') ?_ ?_ (.ret hv hK)
      · simp only [configStep, evalStep, hfind, Option.map_some]
      · simp only [expand, configStep, evalStep, hfind', Option.map_some]
  | const c => exact .single _ _ rfl rfl (.ret (.const c) hK)
  | construct c e => exact .single _ _ rfl rfl (.eval he hρ (.frame (.construct c) hK))
  | pair a b =>
    simp only [Expr.isPlain, Bool.and_eq_true] at he
    exact .single _ _ rfl rfl (.eval he.2 hρ (.frame (.pairSecond he.1 hρ) hK))
  | outer x => exact .single _ _ rfl rfl (.ret (.outer x) hK)
  | lwtFunction f => exact .single _ _ rfl rfl (.ret (.lwtFunction f .nil) hK)
  | reraise => exact .single _ _ rfl rfl (.ret .reraise hK)
  | function cases => exact .single _ _ rfl rfl (.ret (.closure hρ he) hK)
  | apply f a =>
    simp only [Expr.isPlain, Bool.and_eq_true] at he
    exact .single _ _ rfl rfl (.eval he.2 hρ (.frame (.argument he.1 hρ) hK))
  | letIn bindings e =>
    simp only [Expr.isPlain, Bool.and_eq_true] at he
    exact .single _ _ rfl rfl (bindNext_rel he.1 he.2 hρ hρ hK)
  | letRec f cases e =>
    simp only [Expr.isPlain, Bool.and_eq_true] at he
    exact .single _ _ rfl rfl
      (.eval he.2 (.cons he.1.1 (.recClosure hρ he.1.1 he.1.2) hρ) hK)
  | sequence a b =>
    simp only [Expr.isPlain, Bool.and_eq_true] at he
    exact .single _ _ rfl rfl (.eval he.1 hρ (.frame (.sequence he.2 hρ) hK))
  | ifThenElse cond a b =>
    simp only [Expr.isPlain, Bool.and_eq_true] at he
    exact .single _ _ rfl rfl (.eval he.1.1 hρ (.frame (.ifThenElse he.1.2 he.2 hρ) hK))
  | ifThen cond a =>
    simp only [Expr.isPlain, Bool.and_eq_true] at he
    exact .single _ _ rfl rfl (.eval he.1 hρ (.frame (.ifThen he.2 hρ) hK))
  | matchWith e cases =>
    simp only [Expr.isPlain, Bool.and_eq_true] at he
    exact .single _ _ rfl rfl (.eval he.1 hρ (.frame (.matchWith he.2 hρ) hK))
  | tryWith e cases =>
    simp only [Expr.isPlain, Bool.and_eq_true] at he
    exact .single _ _ rfl rfl (.eval he.1 hρ (.frame (.tryWith he.2 hρ) hK))
  | whileDo cond body =>
    simp only [Expr.isPlain, Bool.and_eq_true] at he
    exact .single _ _ rfl rfl (.eval he.1 hρ (.frame (.whileCond he.1 he.2 hρ) hK))
  | forDo x start dir bound body =>
    simp only [Expr.isPlain, Bool.and_eq_true] at he
    refine .single _ (.eval (expand start) ρ',
      .forStart x dir (expand bound) (expand body) ρ' :: K') rfl ?_
      (.eval he.1.1.2.1 hρ (.frame (.forStart dir he.1.1.1 he.1.2 he.2 hρ) hK))
    cases x <;> rfl
  | assertion e => exact .single _ _ rfl rfl (.eval he hρ (.frame .assertion hK))
  | lwt e => exact sim_lwt he hρ hK
  | finallyOf e f =>
    simp only [Expr.isPlain, Bool.and_eq_true] at he
    exact .step rfl (call₃_functions .backtraceFinalize _ addBacktraceCases ρ' K' rfl _)
      (.apply (.lwtFunction _ (.cons (.addBacktrace ρ') (.cons (.thunk he.1 hρ) .nil)))
        (.thunk he.2 hρ) hK)
  | finallyAlone f => exact .stuck rfl rfl (mute_eval _ _ _) (mute_eval _ _ _)

/-! ## The loop of `for%lwt` -/

theorem operator_compName (dir : Direction) : operator dir.compName = some (.comp dir) := by
  cases dir <;> rfl

theorem operator_opName (dir : Direction) : operator dir.opName = some (.plus dir) := by
  cases dir <;> rfl

theorem isInternal_compName (dir : Direction) : isInternal dir.compName = false := by
  cases dir <;> rfl

theorem isInternal_opName (dir : Direction) : isInternal dir.opName = false := by
  cases dir <;> rfl

theorem find_cons_ne {x y : Name} (h : x ≠ y) : (Env.cons x v ρ).find y = ρ.find y := if_neg h

theorem find_forLoopEnv (dir : Direction) {x : Name} (hx : isBindable x = true)
    (hρ : EnvRel ρ ρ') (w b : Val) (body : Expr) :
    (Env.cons x w (forLoopEnv ρ' x dir b body)).find x = some w ∧
    (Env.cons x w (forLoopEnv ρ' x dir b body)).find boundName = some b ∧
    (Env.cons x w (forLoopEnv ρ' x dir b body)).find loopName =
      some (.recClosure (.cons boundName b ρ') loopName (forLoopCases x dir body)) ∧
    (Env.cons x w (forLoopEnv ρ' x dir b body)).find dir.compName = none ∧
    (Env.cons x w (forLoopEnv ρ' x dir b body)).find dir.opName = none := by
  have hne : ∀ y, isInternal y = true → x ≠ y := by
    rintro _ hy rfl
    rw [not_internal_of_bindable hx] at hy
    cases hy
  have hop : ∀ y, (operator y).isSome = true → isInternal y = false →
      (Env.cons x w (forLoopEnv ρ' x dir b body)).find y = none := by
    intro y hy hinternal
    have hxy : x ≠ y := by
      rintro rfl
      rw [operator_of_bindable hx] at hy
      cases hy
    have hne' : ∀ z, isInternal z = true → z ≠ y := by
      rintro _ hz rfl
      rw [hinternal] at hz
      cases hz
    rw [find_cons_ne hxy, forLoopEnv, find_cons_ne (hne' _ isInternal_loopName),
      find_cons_ne (hne' _ isInternal_boundName)]
    exact hρ.find_operator hy hinternal
  refine ⟨if_pos rfl, ?_, ?_, hop _ ?_ (isInternal_compName dir), hop _ ?_ (isInternal_opName dir)⟩
  · rw [find_cons_ne (hne _ isInternal_boundName)]
    rfl
  · rw [find_cons_ne (hne _ isInternal_loopName)]
    rfl
  · rw [operator_compName, Option.isSome_some]
  · rw [operator_opName, Option.isSome_some]

theorem forLoop_compares (dir : Direction) {x : Name} (hx : isBindable x = true)
    (hρ : EnvRel ρ ρ') (w b : Val) (body : Expr) (L : Stack) :
    TransGen Goes
      (.apply (.recClosure (.cons boundName b ρ') loopName (forLoopCases x dir body)) w, L)
      (.apply (.operator (.comp dir)) w, .function b :: .ifThenElse Expr.returnUnit
        (Expr.call₂ .bind body (forNextExpansion x dir))
        (.cons x w (forLoopEnv ρ' x dir b body)) :: L) := by
  obtain ⟨hfind, hbound, -, hcomp, -⟩ := find_forLoopEnv dir hx hρ w b body
  generalize hρ₃ : Env.cons x w (forLoopEnv ρ' x dir b body) = ρ₃ at *
  have hcall : runs 2 (.apply (.recClosure (.cons boundName b ρ') loopName
      (forLoopCases x dir body)) w, L) = some (.eval (.ifThenElse
        (.apply (.apply (.var dir.compName) (.var x)) (.var boundName)) Expr.returnUnit
        (Expr.call₂ .bind body (forNextExpansion x dir))) ρ₃, L) := by
    subst hρ₃
    rfl
  refine (transGen_of_runs hcall).trans (transGen_of_runs (n := 8) ?_)
  simp [runs, configStep, evalStep, returnStep, hfind, hbound, hcomp, operator_compName]

theorem comp_applies (dir : Direction) (i n : Int63) (K : Stack) :
    TransGen Goes (.apply (.operator (.comp dir)) (.int i), .function (.int n) :: K)
      (.ret (.bool (dir.comp i n)), K) :=
  transGen_of_runs (n := 2) rfl

theorem forLoop_turn (dir : Direction) {x : Name} (i bound : Int63) {body : Expr}
    (hx : isBindable x = true) (hbody : body.isPlain = true) (hρ : EnvRel ρ ρ')
    (hK : StackRel K K') :
    ∃ d', TransGen Goes (.apply (.recClosure (.cons boundName (.int bound) ρ') loopName
        (forLoopCases x dir (expand body))) (.int i), K') d' ∧
      ConfigRel (forLwtTurn x i dir bound body ρ K) d' := by
  have hcompares := (forLoop_compares dir hx hρ (.int i) (.int bound) (expand body) K').trans
    (comp_applies dir i bound _)
  unfold forLwtTurn
  split
  · rename_i hcomp
    rw [hcomp] at hcompares
    exact ⟨(.ret .returnUnit, K'), hcompares.trans (transGen_of_runs (n := 1) rfl),
      .ret (.outer _) hK⟩
  · rename_i hcomp
    rw [Bool.not_eq_true] at hcomp
    rw [hcomp] at hcompares
    exact ⟨_,
      (hcompares.tail rfl).trans (call₂_begins .bind (forNextCases x dir) (expand body) _ K'),
      .eval hbody (.cons hx (.const _) (.internal isInternal_loopName
        (.internal isInternal_boundName hρ))) (.frame (.forLwtBody i dir bound hx hbody hρ) hK)⟩

theorem forNext_applies (dir : Direction) {x : Name} (i bound : Int63) (body : Expr)
    (hx : isBindable x = true) (hρ : EnvRel ρ ρ') (L : Stack) :
    TransGen Goes
      (.apply (.closure (.cons x (.int i) (forLoopEnv ρ' x dir (.int bound) body))
        (forNextCases x dir)) .unit, L)
      (.apply (.recClosure (.cons boundName (.int bound) ρ') loopName (forLoopCases x dir body))
        (.int (dir.op i)), L) := by
  obtain ⟨hfind, -, hloop, -, hop⟩ := find_forLoopEnv dir hx hρ (.int i) (.int bound) body
  generalize hρ₃ : Env.cons x (.int i) (forLoopEnv ρ' x dir (.int bound) body) = ρ₃ at *
  have hplus : dir.plus i 1 = dir.op i := by cases dir <;> rfl
  have hcall : runs 2 (.apply (.closure ρ₃ (forNextCases x dir)) .unit, L) =
      some (.eval (.apply (.var loopName)
        (.apply (.apply (.var dir.opName) (.var x)) (.const (.int 1)))) ρ₃, L) := rfl
  refine (transGen_of_runs hcall).trans (transGen_of_runs (n := 14) ?_)
  simp only [runs, configStep, evalStep, returnStep, applyStep, hfind, hloop, hop, operator_opName,
    Val.int, Option.bind_some, Option.some_or, Option.none_or, Option.map_some, hplus]

/-! ## Applications -/

theorem CasesRel.handler (v otherwise : Val) (cases : Cases) :
    CasesRel .value v v otherwise cases (expandCases cases).addWildcardCase := by
  unfold Cases.addWildcardCase
  split
  · rename_i hwild
    rw [Cases.hasWildcard_expandCases] at hwild
    exact .caught v otherwise hwild
  · exact .reraise v otherwise cases

theorem addBacktrace_applies (ρ : Env) (x : Val) (L : Stack) :
    TransGen Goes (.apply (.closure ρ addBacktraceCases) x, L) (.ret x, L) :=
  transGen_of_runs (n := 11) rfl

theorem unit_fails (e : Expr) {v : Val} (ρ : Env) (L : Stack) (hv : v ≠ .unit) :
    TransGen Goes (.select .value v .matchFailure (.cons (.value (.const .unit)) e .nil) ρ, L)
      (.throw .matchFailure, L) := by
  have hnot : CasePat.matches .value (.value (.const .unit)) v ρ = none := by
    cases v with
    | const c =>
      have hne : ¬ Const.unit = c := by
        rintro rfl
        exact hv rfl
      simp [CasePat.matches, Pat.matches, hne]
    | _ => rfl
  refine transGen_of_runs (n := 1) ?_
  simp only [runs, configStep, selectStep, hnot, Option.bind_some]

theorem ne_unit (hv : ValRel v v') (h : v ≠ .unit) : v' ≠ .unit := by
  rintro rfl
  cases hv
  exact h rfl

theorem sim_whileLoop {cond body : Expr} (hρ : EnvRel ρ ρ') (hcond : cond.isPlain = true)
    (hbody : body.isPlain = true) (hv : ValRel v v') (hK : StackRel K K') :
    Sim (.apply (.whileLoop ρ cond body) v, K)
      (.apply (.recClosure ρ' loopName (whileLoopCases (expand cond) (expand body))) v', K') := by
  by_cases hunit : v = .unit
  · subst hunit
    cases hv
    exact .step rfl (transGen_of_runs (n := 2) rfl) (.eval hcond (.internal isInternal_loopName hρ)
      (.frame (.whileLwtCond hcond hbody hρ) hK))
  · refine .step (d := (.throw .matchFailure, K)) ?_
      (.head rfl (unit_fails _ _ K' (ne_unit hv hunit))) (.throw (.const _) hK)
    rw [configStep, applyStep]
    exact fun h => hunit h

/-- What waits for the promise of the body of `for%lwt`. -/
theorem sim_forNext (dir : Direction) {x : Name} (i bound : Int63) {body : Expr}
    (hρ : EnvRel ρ ρ') (hx : isBindable x = true) (hbody : body.isPlain = true) (hv : ValRel v v')
    (hK : StackRel K K') :
    Sim (.apply (.forNext ρ x dir i bound body) v, K) (.apply (.closure
      (.cons x (.int i) (forLoopEnv ρ' x dir (.int bound) (expand body))) (forNextCases x dir)) v',
      K') := by
  by_cases hunit : v = .unit
  · subst hunit
    cases hv
    obtain ⟨d', hturn, hrel⟩ := forLoop_turn dir (dir.op i) bound hx hbody hρ hK
    exact .step rfl ((forNext_applies dir i bound (expand body) hx hρ K').trans hturn) hrel
  · refine .step (d := (.throw .matchFailure, K)) ?_
      (.head rfl (unit_fails _ _ K' (ne_unit hv hunit))) (.throw (.const _) hK)
    rw [configStep, applyStep]
    exact fun h => hunit h

/-- What waits for the promise of a binding. -/
theorem sim_awaiting {p : Pat} {rest : Bindings} {promises : Vals} {e : Expr} {i : ℕ}
    (hρ : EnvRel ρ ρ') (hp : p.isPlain = true) (hrest : rest.isPlain = true)
    (he : e.isPlain = true) (h : Gathered ρ' i rest promises .nil) (hv : ValRel v v')
    (hK : StackRel K K') :
    Sim (.apply (.awaiting ρ p rest promises e) v, K) (.apply (.closure ρ'
      (.cons (.value p) (genBinds (expand e) i (expandBindings rest)) .nil)) v', K') := by
  have hrel := p.matches_rel hp hv hρ
  cases hmatch : p.matches v ρ with
  | none =>
    rw [hmatch] at hrel
    have hmatch' := Interaction.eq_none_of_rel hrel
    refine .step (d := (.throw .matchFailure, K)) ?_ (transGen_of_runs (n := 2) ?_)
      (.throw (.const _) hK)
    · simp only [configStep, applyStep, hmatch]
    · simp only [runs, configStep, applyStep, selectStep, CasePat.matches, hmatch',
        Option.bind_some]
      rfl
  | some ρ₁ =>
    rw [hmatch] at hrel
    obtain ⟨ρ₁', hmatch', hρ₁⟩ := Interaction.exists_of_rel_left hrel
    obtain ⟨d', hsteps, hd⟩ := awaitNext_rel hrest he hρ₁ (h.matched hp hmatch') hK
    refine .step (d := (awaitNext ρ₁ e rest promises, K)) ?_
      ((transGen_of_runs (n := 1) ?_).trans_left hsteps) hd
    · simp only [configStep, applyStep, hmatch]
    · simp only [runs, configStep, applyStep, selectStep, CasePat.matches, hmatch',
        Option.bind_some]

theorem sim_apply {f f' : Val} (hf : ValRel f f') (hv : ValRel v v') (hK : StackRel K K') :
    Sim (.apply f v, K) (.apply f' v', K') := by
  have stuck : ∀ {g g' : Val}, configStep (.apply g v, K) = none →
      configStep (.apply g' v', K') = none → g.callsOutside = false → g'.callsOutside = false →
      Sim (.apply g v, K) (.apply g' v', K') := fun h h' hg hg' =>
    .stuck h h' (mute_apply v K hg) (mute_apply v' K' hg')
  cases hf with
  -- what is not a function is stuck in both
  | const c => exact stuck rfl rfl rfl rfl
  | construct c h => exact stuck rfl rfl rfl rfl
  | pair h h' => exact stuck rfl rfl rfl rfl
  | outer x => exact .stops rfl rfl (.apply (.outer x) hv hK)
  | lwtFunction f hargs =>
    rename_i args args'
    by_cases hlt : args.length + 1 < f.arity
    · refine .single (.ret (.lwtFunction f (args.snoc v)), K)
        (.ret (.lwtFunction f (args'.snoc v')), K') ?_ ?_
        (.ret (.lwtFunction f (hargs.snoc hv)) hK)
      · rw [configStep, applyStep, if_pos hlt]
      · rw [configStep, applyStep, if_pos (hargs.length_eq ▸ hlt)]
    -- all the arguments are there: the call is an event
    · refine .stops ?_ ?_ (.apply (.lwtFunction f hargs) hv hK)
      · rw [configStep, applyStep, if_neg hlt]
      · rw [configStep, applyStep, if_neg (hargs.length_eq ▸ hlt)]
  | reraise => exact .single _ _ rfl rfl (.throw hv hK)
  | operator o =>
    cases hv with
    | const c =>
      cases c with
      | int n => exact .single _ _ rfl rfl (.ret (.operatorWith o n) hK)
      | _ => exact stuck rfl rfl rfl rfl
    | _ => exact stuck rfl rfl rfl rfl
  | operatorWith o n =>
    cases hv with
    | const c =>
      cases c with
      | int m =>
        cases o with
        | comp dir => exact .single _ _ rfl rfl (.ret (.const _) hK)
        | plus dir => exact .single _ _ rfl rfl (.ret (.const _) hK)
      | _ => cases o <;> exact stuck rfl rfl rfl rfl
    | _ => cases o <;> exact stuck rfl rfl rfl rfl
  | closure hρ hcases =>
    exact .single _ _ rfl rfl (.select hv hcases hρ (.same _ (.const _)) hK)
  | recClosure hρ hx hcases =>
    exact .single _ _ rfl rfl (.select hv hcases (.cons hx (.recClosure hρ hx hcases) hρ)
      (.same _ (.const _)) hK)
  | addBacktrace ρ' => exact .step rfl (addBacktrace_applies ρ' v' K') (.ret hv hK)
  | handler hρ hcases =>
    exact .single _ _ rfl rfl (.select hv hcases hρ (.handler _ _ _) hK)
  | awaiting hρ hp hrest he hgathered => exact sim_awaiting hρ hp hrest he hgathered hv hK
  | whileLoop hρ hcond hbody => exact sim_whileLoop hρ hcond hbody hv hK
  | forNext dir i bound hρ hx hbody => exact sim_forNext dir i bound hρ hx hbody hv hK

/-! ## Returns -/

theorem branch_cases (hv : ValRel v v') :
    (v = .bool true ∧ v' = .bool true) ∨ (v = .bool false ∧ v' = .bool false) ∨
      ((∀ c d, branch c d v = none) ∧ ∀ c d, branch c d v' = none) := by
  cases hv with
  | const c =>
    cases c with
    | bool b =>
      cases b with
      | true => exact .inl ⟨rfl, rfl⟩
      | false => exact .inr (.inl ⟨rfl, rfl⟩)
    | _ => exact .inr (.inr ⟨fun _ _ => rfl, fun _ _ => rfl⟩)
  | _ => exact .inr (.inr ⟨fun _ _ => rfl, fun _ _ => rfl⟩)

theorem sim_branch {f f' : Frame} {yes no yes' no' : Config} (hv : ValRel v v')
    (hf : ∀ w, returnStep w f K = branch yes no w)
    (hf' : ∀ w, returnStep w f' K' = branch yes' no' w)
    (hyes : ∃ d', ReflTransGen Goes yes' d' ∧ ConfigRel yes d')
    (hno : ∃ d', ReflTransGen Goes no' d' ∧ ConfigRel no d') :
    Sim (.ret v, f :: K) (.ret v', f' :: K') := by
  rcases branch_cases hv with ⟨rfl, rfl⟩ | ⟨rfl, rfl⟩ | ⟨hnone, hnone'⟩
  · obtain ⟨d', hsteps, hrel⟩ := hyes
    exact .step (hf _) (.head' (hf' _) hsteps) hrel
  · obtain ⟨d', hsteps, hrel⟩ := hno
    exact .step (hf _) (.head' (hf' _) hsteps) hrel
  · refine .stuck ((hf v).trans (hnone _ _)) ((hf' v').trans (hnone' _ _)) (mute_ret v K ?_)
      (mute_ret v' K' ?_)
    · rintro rfl
      cases hf (.bool true)
    · rintro rfl
      cases hf' (.bool true)

theorem int_cases (hv : ValRel v v') :
    (∃ n, v = .int n ∧ v' = .int n) ∨ ((∀ n, v ≠ .int n) ∧ ∀ n, v' ≠ .int n) := by
  cases hv with
  | const c =>
    cases c with
    | int n => exact .inl ⟨n, rfl, rfl⟩
    | _ => exact .inr ⟨nofun, nofun⟩
  | _ => exact .inr ⟨nofun, nofun⟩

theorem operator_stuck (o : Operator) {w : Val} (L : Stack) (hw : ∀ n, w ≠ .int n) :
    configStep (.apply (.operator o) w, L) = none := by
  cases w with
  | const c =>
    cases c with
    | int n => exact absurd rfl (hw n)
    | _ => rfl
  | _ => rfl

theorem operatorWith_stuck (o : Operator) (i : Int63) {w : Val} (L : Stack)
    (hw : ∀ n, w ≠ .int n) : configStep (.apply (.operatorWith o i) w, L) = none := by
  cases w with
  | const c =>
    cases c with
    | int n => exact absurd rfl (hw n)
    | _ => cases o <;> rfl
  | _ => cases o <;> rfl

theorem forStart_stuck (x : Option Name) (dir : Direction) (bound body : Expr) (ρ : Env)
    (K : Stack) (hv : ∀ n, v ≠ .int n) :
    configStep (.ret v, .forStart x dir bound body ρ :: K) = none := by
  cases v with
  | const c =>
    cases c with
    | int n => exact absurd rfl (hv n)
    | _ => rfl
  | _ => rfl

theorem forBound_stuck (x : Option Name) (start : Int63) (dir : Direction) (body : Expr) (ρ : Env)
    (K : Stack) (hv : ∀ n, v ≠ .int n) :
    configStep (.ret v, .forBound x start dir body ρ :: K) = none := by
  cases v with
  | const c =>
    cases c with
    | int n => exact absurd rfl (hv n)
    | _ => rfl
  | _ => rfl

/-- The first turn of `for%lwt`, or an index or a bound that is not an integer. -/
theorem sim_forLwtStart (dir : Direction) {x : Name} {bound bound' : Val} {body : Expr}
    (hx : isBindable x = true) (hbound : ValRel bound bound') (hbody : body.isPlain = true)
    (hρ : EnvRel ρ ρ') (hv : ValRel v v') (hK : StackRel K K') :
    Sim (.ret v, .forLwtStart x dir bound body ρ :: K)
      (.ret v', .argument (.var loopName) (forLoopEnv ρ' x dir bound' (expand body)) :: K') := by
  have hloop : TransGen Goes
      (.ret v', .argument (.var loopName) (forLoopEnv ρ' x dir bound' (expand body)) :: K')
      (.apply (.recClosure (.cons boundName bound' ρ') loopName
        (forLoopCases x dir (expand body))) v', K') := transGen_of_runs (n := 2) rfl
  have hmute := mute_ret (f := .forLwtStart x dir bound body ρ) v K nofun
  have hcompares := (forLoop_compares dir hx hρ v' bound' (expand body) K').to_reflTransGen
  rcases int_cases hv with ⟨n, rfl, rfl⟩ | ⟨hne, hne'⟩
  · rcases int_cases hbound with ⟨m, rfl, rfl⟩ | ⟨hnb, hnb'⟩
    · obtain ⟨d', hturn, hrel⟩ := forLoop_turn dir n m hx hbody hρ hK
      exact .step rfl (hloop.trans hturn) hrel
    -- the bound is not an integer: the expansion is stuck later, at the second argument of `>`
    · have happlies := reflTransGen_of_runs (n := 2) (c := (.apply (.operator (.comp dir)) (.int n),
        .function bound' :: .ifThenElse Expr.returnUnit
          (Expr.call₂ .bind (expand body) (forNextExpansion x dir))
          (.cons x (.int n) (forLoopEnv ρ' x dir bound' (expand body))) :: K')) rfl
      refine .of_steps (hloop.to_reflTransGen.trans (hcompares.trans happlies))
        (.stuck ?_ (operatorWith_stuck _ n _ hnb') hmute (mute_apply _ _ rfl))
      cases bound with
      | const c =>
        cases c with
        | int m => exact absurd rfl (hnb m)
        | _ => rfl
      | _ => rfl
  · refine .of_steps (hloop.to_reflTransGen.trans hcompares)
      (.stuck ?_ (operator_stuck _ _ hne') hmute (mute_apply _ _ rfl))
    cases v with
    | const c =>
      cases c with
      | int n => exact absurd rfl (hne n)
      | _ => rfl
    | _ => rfl

theorem Vals.length_snoc : ∀ (vs : Vals) (w : Val), (vs.snoc w).length = vs.length + 1
  | .nil, _ => rfl
  | .cons _ rest, w => congrArg (· + 1) (rest.length_snoc w)

theorem forTurn_rel {x : Option Name} (i : Int63) (dir : Direction) (bound : Int63) {body : Expr}
    (hx : x.all isBindable = true) (hbody : body.isPlain = true) (hρ : EnvRel ρ ρ')
    (hK : StackRel K K') :
    ConfigRel (forTurn x i dir bound body ρ K) (forTurn x i dir bound (expand body) ρ' K') := by
  unfold forTurn
  split
  · exact .ret (.const _) hK
  · cases x with
    | none => exact .eval hbody hρ (.frame (.forBody i dir bound hx hbody hρ) hK)
    | some x =>
      exact .eval hbody (.cons hx (.const _) hρ) (.frame (.forBody i dir bound hx hbody hρ) hK)

theorem sim_binding {p : Pat} {rest : Bindings} {e : Expr} {acc acc' : Env}
    (hp : p.isPlain = true) (hrest : rest.isPlain = true) (he : e.isPlain = true)
    (hρ : EnvRel ρ ρ') (hacc : EnvRel acc acc') (hv : ValRel v v') (hK : StackRel K K') :
    Sim (.ret v, .binding p rest e ρ acc :: K)
      (.ret v', .binding p (expandBindings rest) (expand e) ρ' acc' :: K') := by
  have hrel := p.matches_rel hp hv hacc
  cases hmatch : p.matches v acc with
  | none =>
    rw [hmatch] at hrel
    have hmatch' := Interaction.eq_none_of_rel hrel
    refine .single (.throw .matchFailure, K) (.throw .matchFailure, K') ?_ ?_
      (.throw (.const _) hK)
    · simp only [configStep, returnStep, hmatch]
    · simp only [configStep, returnStep, hmatch']
  | some acc₁ =>
    rw [hmatch] at hrel
    obtain ⟨acc₁', hmatch', hacc₁⟩ := Interaction.exists_of_rel_left hrel
    refine .single (bindNext e ρ acc₁ rest K)
      (bindNext (expand e) ρ' acc₁' (expandBindings rest) K') ?_ ?_
      (bindNext_rel hrest he hρ hacc₁ hK)
    · simp only [configStep, returnStep, hmatch]
    · simp only [configStep, returnStep, hmatch']

theorem sim_frame {f : Frame} {fs : List Frame} (hf : FrameRel f fs) (hv : ValRel v v')
    (hK : StackRel K K') : Sim (.ret v, f :: K) (.ret v', fs ++ K') := by
  cases hf with
  | argument he hρ => exact .single _ _ rfl rfl (.eval he hρ (.frame (.function hv) hK))
  | function hw => exact .single _ _ rfl rfl (.apply hv hw hK)
  | construct c => exact .single _ _ rfl rfl (.ret (.construct c hv) hK)
  | pairSecond he hρ => exact .single _ _ rfl rfl (.eval he hρ (.frame (.pairFirst hv) hK))
  | pairFirst hw => exact .single _ _ rfl rfl (.ret (.pair hv hw) hK)
  | binding hp hrest he hρ hacc => exact sim_binding hp hrest he hρ hacc hv hK
  | sequence he hρ => exact .single _ _ rfl rfl (.eval he hρ hK)
  | ifThenElse ha hb hρ =>
    exact sim_branch hv (fun _ => rfl) (fun _ => rfl) ⟨_, .refl, .eval ha hρ hK⟩
      ⟨_, .refl, .eval hb hρ hK⟩
  | ifThen ha hρ =>
    exact sim_branch hv (fun _ => rfl) (fun _ => rfl) ⟨_, .refl, .eval ha hρ hK⟩
      ⟨_, .refl, .ret (.const _) hK⟩
  | matchWith hcases hρ =>
    exact .single _ _ rfl rfl (.select hv hcases hρ (.same _ (.const _)) hK)
  | tryWith => exact .single _ _ rfl rfl (.ret hv hK)
  | guard hw hrhs hρ₁ hrest hρ hcases =>
    exact sim_branch hv (fun _ => rfl) (fun _ => rfl) ⟨_, .refl, .eval hrhs hρ₁ hK⟩
      ⟨_, .refl, .select hw hrest hρ hcases hK⟩
  | whileCond hcond hbody hρ =>
    exact sim_branch hv (fun _ => rfl) (fun _ => rfl)
      ⟨_, .refl, .eval hbody hρ (.frame (.whileBody hcond hbody hρ) hK)⟩
      ⟨_, .refl, .ret (.const _) hK⟩
  | whileBody hcond hbody hρ =>
    exact .single _ _ rfl rfl (.eval hcond hρ (.frame (.whileCond hcond hbody hρ) hK))
  | forStart dir hx hbound hbody hρ =>
    rcases int_cases hv with ⟨n, rfl, rfl⟩ | ⟨hne, hne'⟩
    · exact .single _ _ rfl rfl (.eval hbound hρ (.frame (.forBound n dir hx hbody hρ) hK))
    · exact .stuck (forStart_stuck _ _ _ _ _ _ hne) (forStart_stuck _ _ _ _ _ _ hne')
        (mute_ret v K nofun) (mute_ret v' K' nofun)
  | forBound start dir hx hbody hρ =>
    rcases int_cases hv with ⟨n, rfl, rfl⟩ | ⟨hne, hne'⟩
    · exact .single _ _ rfl rfl (forTurn_rel start dir n hx hbody hρ hK)
    · exact .stuck (forBound_stuck _ _ _ _ _ _ hne) (forBound_stuck _ _ _ _ _ _ hne')
        (mute_ret v K nofun) (mute_ret v' K' nofun)
  | forBody i dir bound hx hbody hρ =>
    by_cases heq : i = bound
    · refine .single (.ret .unit, K) (.ret .unit, K') ?_ ?_ (.ret (.const _) hK)
      · rw [configStep, returnStep, if_pos heq]
      · exact if_pos heq
    · refine .single _ _ ?_ ?_ (forTurn_rel (dir.op i) dir bound hx hbody hρ hK)
      · rw [configStep, returnStep, if_neg heq]
      · exact if_neg heq
  | assertion =>
    exact sim_branch hv (fun _ => rfl) (fun _ => rfl) ⟨_, .refl, .ret (.const _) hK⟩
      ⟨_, .refl, .throw (.const _) hK⟩
  | sequenceLwt he hρ =>
    exact .step rfl (call₃_ends .backtraceBind addBacktraceCases _ v' _ K' rfl)
      (.apply (.lwtFunction _ (.cons (.addBacktrace _) (.cons hv .nil))) (.thunk he hρ) hK)
  | letLwt htodo hbindings he hρ hacc hgathered =>
    rename_i p e' todo bindings promises e ρ ρ' acc'
    -- the promise gets the next of the generated names
    have hsnoc := hgathered.snoc hv
    rw [Nat.zero_add] at hsnoc
    have hacc' : EnvRel ρ (.cons (genName promises.length) v' acc') :=
      .internal (isInternal_genName promises.length) hacc
    obtain ⟨d', hsteps, hrel⟩ := letLwtNext_rel hbindings htodo he hρ hacc' hsnoc hK
    rw [Vals.length_snoc] at hsteps
    exact .step rfl (.head' rfl hsteps) hrel
  | ifLwt ha hb hρ =>
    rename_i a b ρ ρ'
    have hplain : (ifCases a b).isPlain = true := by
      simp only [ifCases, Cases.isPlain, CasePat.isPlain, Pat.isPlain, ha, hb, Bool.and_true]
    have hcases : ValRel (.closure ρ (ifCases a b))
        (.closure ρ' (ifCases (expand a) (expand b))) := .closure hρ hplain
    exact .step rfl (call₂_ends .bind ρ' v' _ K' rfl)
      (.apply (.lwtFunction _ (.cons hv .nil)) hcases hK)
  | whileLwtCond hcond hbody hρ =>
    exact sim_branch hv (fun _ => rfl) (fun _ => rfl)
      ⟨_, reflTransGen_of_runs (n := 4) rfl,
        .eval hbody (.internal isInternal_loopName hρ) (.frame (.whileLwtBody hcond hbody hρ) hK)⟩
      ⟨_, reflTransGen_of_runs (n := 1) rfl, .ret (.outer _) hK⟩
  | whileLwtBody hcond hbody hρ =>
    exact .step rfl (call₂_ends .bind _ v' _ K' rfl)
      (.apply (.lwtFunction _ (.cons hv .nil)) (.whileLoop hρ hcond hbody) hK)
  | forLwtBound dir hx hstart hbody hρ =>
    exact .step rfl (transGen_of_runs (n := 2) rfl)
      (.eval hstart (.internal isInternal_loopName (.internal isInternal_boundName hρ))
        (.frame (.forLwtStart dir hx hv hbody hρ) hK))
  | forLwtStart dir hx hbound hbody hρ => exact sim_forLwtStart dir hx hbound hbody hρ hv hK
  | forLwtBody i dir bound hx hbody hρ =>
    exact .step rfl (call₂_ends .bind _ v' _ K' rfl)
      (.apply (.lwtFunction _ (.cons hv .nil)) (.forNext dir i bound hρ hx hbody) hK)
  | assertLwt ρ' =>
    exact sim_branch hv (fun _ => rfl) (fun _ => rfl)
      ⟨_, reflTransGen_of_runs (n := 3) rfl, .apply (.lwtFunction _ .nil) (.const _) hK⟩
      ⟨_, reflTransGen_of_runs (n := 1) rfl, .throw (.const _) hK⟩

theorem sim_ret (hv : ValRel v v') (hK : StackRel K K') : Sim (.ret v, K) (.ret v', K') := by
  obtain ⟨K₁, hsettled, hret, -⟩ := hK.settle
  refine .of_steps (hret v') ?_
  cases hsettled with
  | first => exact .stops rfl rfl (.ret hv .first)
  | boundary h => exact .stops rfl rfl (.ret hv (.boundary h))
  | frame hf h => exact sim_frame hf hv h

theorem sim_throw {x x' : Val} (hx : ValRel x x') (hK : StackRel K K') :
    Sim (.throw x, K) (.throw x', K') := by
  obtain ⟨K₁, hsettled, -, hthrow⟩ := hK.settle
  refine .of_steps (hthrow x') ?_
  cases hsettled with
  | first => exact .stops rfl rfl (.throw hx .first)
  | boundary h => exact .stops rfl rfl (.throw hx (.boundary h))
  | frame hf h =>
    cases hf with
    | tryWith hcases hρ => exact .single _ _ rfl rfl (.select hx hcases hρ (.same _ hx) h)
    | matchWith hcases hρ => exact .single _ _ rfl rfl (.select hx hcases hρ (.same _ hx) h)
    -- these are two frames of the expansion
    | sequenceLwt | ifLwt | whileLwtBody | forLwtBody | assertLwt =>
      exact .step rfl (transGen_of_runs (n := 1) rfl) (.throw hx h)
    | _ => exact .single _ _ rfl rfl (.throw hx h)

end Simulation

theorem sim {c c' : Config} (h : ConfigRel c c') : Sim c c' := by
  cases h with
  | eval he hρ hK => exact sim_eval he hρ hK
  | ret hv hK => exact sim_ret hv hK
  | throw hx hK => exact sim_throw hx hK
  | apply hf hv hK => exact sim_apply hf hv hK
  | select hv hcases hρ h hK => exact sim_select hv hcases hρ h hK
  | outside hK => exact .stops rfl rfl (.outside hK)
  | idle => exact .stops rfl rfl .idle

/-! ## Events -/

/-- The outside has been given related values. -/
def StateRel (s t : State) : Prop :=
  ConfigRel s.config t.config ∧ List.Forall₂ ValRel s.known t.known

theorem flatMap_parts {vs vs' : List Val} (h : List.Forall₂ ValRel vs vs') :
    List.Forall₂ ValRel (vs.flatMap Val.parts) (vs'.flatMap Val.parts) := by
  induction h with
  | nil => exact .nil
  | cons hv _ ih => exact List.rel_append hv.parts ih

theorem shapes_eq {vs vs' : List Val} (h : List.Forall₂ ValRel vs vs') :
    vs.map Val.shape = vs'.map Val.shape := by
  induction h with
  | nil => rfl
  | cons hv _ ih => rw [List.map_cons, List.map_cons, hv.shape_eq, ih]

theorem FrameRel.ne_boundary {f : Frame} {fs : List Frame} (h : FrameRel f fs) :
    f ≠ .boundary ∧ ∃ f' fs', fs = f' :: fs' ∧ f' ≠ .boundary := by
  cases h <;> exact ⟨by simp, _, _, rfl, by simp⟩

theorem StackRel.exists_cons {K K' : Stack} (h : StackRel K K') :
    ∃ f L f' L', K = f :: L ∧ K' = f' :: L' := by
  induction h with
  | first => exact ⟨_, _, _, _, rfl, rfl⟩
  | boundary => exact ⟨_, _, _, _, rfl, rfl⟩
  | frame hf =>
    obtain ⟨-, _, _, rfl, -⟩ := hf.ne_boundary
    exact ⟨_, _, _, _, rfl, rfl⟩
  | reraise ρ' _ ih =>
    obtain ⟨f, L, -, -, rfl, -⟩ := ih
    exact ⟨_, _, _, _, rfl, rfl⟩

section Events

variable {v v' : Val} {K K' : Stack} {known known' : List Val}

/-- After a call, or a return, to the outside. -/
theorem goesOut_rel {c c' : Config} {vs vs' : List Val}
    (hknown : List.Forall₂ ValRel known known') (hvs : List.Forall₂ ValRel vs vs')
    (hout : ConfigRel (.outside, K) (.outside, K')) :
    StateRel (State.goesOut ⟨c, known⟩ vs K) (State.goesOut ⟨c', known'⟩ vs' K') :=
  ⟨hout, List.rel_append hknown (flatMap_parts hvs)⟩

theorem event_returns (hv : ValRel v v') (hout : ConfigRel (.outside, K) (.outside, K'))
    (hknown : List.Forall₂ ValRel known known') (e : Event) :
    Option.Rel StateRel (State.event ⟨(.ret v, .boundary :: K), known⟩ e)
      (State.event ⟨(.ret v', .boundary :: K'), known'⟩ e) := by
  cases e with
  | returns shape =>
    simp only [State.event, hv.shape_eq]
    split
    · exact .some (goesOut_rel hknown (.cons hv .nil) hout)
    · exact .none
  | _ => exact .none

theorem event_raises (hv : ValRel v v') (hout : ConfigRel (.outside, K) (.outside, K'))
    (hknown : List.Forall₂ ValRel known known') (e : Event) :
    Option.Rel StateRel (State.event ⟨(.throw v, .boundary :: K), known⟩ e)
      (State.event ⟨(.throw v', .boundary :: K'), known'⟩ e) := by
  cases e with
  | raises shape =>
    simp only [State.event, hv.shape_eq]
    split
    · exact .some (goesOut_rel hknown (.cons hv .nil) hout)
    · exact .none
  | _ => exact .none

theorem event_apply {f f' : Val} (hf : ValRel f f') (hv : ValRel v v') (hK : StackRel K K')
    (hknown : List.Forall₂ ValRel known known') (e : Event) :
    Option.Rel StateRel (State.event ⟨(.apply f v, K), known⟩ e)
      (State.event ⟨(.apply f' v', K'), known'⟩ e) := by
  cases hf with
  | lwtFunction g hargs =>
    have hvs := (hargs.snoc hv).toList
    cases e with
    | calls g' shapes =>
      simp only [State.event, shapes_eq hvs]
      split
      · exact .some (goesOut_rel hknown hvs (.outside hK))
      · exact .none
    | _ => exact .none
  | outer x =>
    cases e with
    | applies y shape =>
      simp only [State.event, hv.shape_eq]
      split
      · exact .some (goesOut_rel hknown (.cons hv .nil) (.outside hK))
      · exact .none
    | _ => exact .none
  | _ => cases e <;> exact .none

theorem event_invokes (hK : StackRel (.boundary :: K) (.boundary :: K'))
    (hknown : List.Forall₂ ValRel known known') (i : ℕ) (g : Given) :
    Option.Rel StateRel (State.event ⟨(.outside, K), known⟩ (.invokes i g))
      (State.event ⟨(.outside, K'), known'⟩ (.invokes i g)) := by
  simp only [State.event]
  exact Interaction.rel_bind (known_rel hknown i) fun _ _ hf =>
    Interaction.rel_map (g.value_rel hknown) fun _ _ hv => ⟨.apply hf hv hK, hknown⟩

theorem event_outside (hK : StackRel K K') (hknown : List.Forall₂ ValRel known known')
    (e : Event) : Option.Rel StateRel (State.event ⟨(.outside, K), known⟩ e)
      (State.event ⟨(.outside, K'), known'⟩ e) := by
  obtain ⟨f, L, f', L', rfl, rfl⟩ := hK.exists_cons
  cases e with
  | invokes i g => exact event_invokes (.boundary hK) hknown i g
  | answers g =>
    simp only [State.event]
    exact Interaction.rel_map (g.value_rel hknown) fun _ _ hv => ⟨.ret hv hK, hknown⟩
  | fails g =>
    simp only [State.event]
    exact Interaction.rel_map (g.value_rel hknown) fun _ _ hv => ⟨.throw hv hK, hknown⟩
  | _ => exact .none

theorem event_idle (hknown : List.Forall₂ ValRel known known') (e : Event) :
    Option.Rel StateRel (State.event ⟨(.outside, []), known⟩ e)
      (State.event ⟨(.outside, []), known'⟩ e) := by
  cases e with
  | invokes i g => exact event_invokes .first hknown i g
  | _ => exact .none

theorem event_rel {c c' : Config} (h : ConfigRel c c') (hstops : configStep c' = none)
    (hknown : List.Forall₂ ValRel known known') (e : Event) :
    Option.Rel StateRel (State.event ⟨c, known⟩ e) (State.event ⟨c', known'⟩ e) := by
  cases h with
  | eval => cases e <;> exact .none
  | select => cases e <;> exact .none
  | apply hf hv hK => exact event_apply hf hv hK hknown e
  | outside hK => exact event_outside hK hknown e
  | idle => exact event_idle hknown e
  | ret hv hK =>
    cases hK with
    | first => exact event_returns hv .idle hknown e
    | boundary h => exact event_returns hv (.outside h) hknown e
    | frame hf _ =>
      obtain ⟨hne, _, _, rfl, hne'⟩ := hf.ne_boundary
      rw [mute_ret _ _ hne known e, List.cons_append, mute_ret _ _ hne' known' e]
      exact .none
    -- the expansion has not stopped here, but leaves the handler
    | reraise => cases hstops
  | throw hx hK =>
    cases hK with
    | first => exact event_raises hx .idle hknown e
    | boundary h => exact event_raises hx (.outside h) hknown e
    | frame hf _ =>
      obtain ⟨hne, _, _, rfl, hne'⟩ := hf.ne_boundary
      rw [mute_throw _ _ hne known e, List.cons_append, mute_throw _ _ hne' known' e]
      exact .none
    | reraise => cases hstops

end Events

/-! ## The expansion keeps the meaning -/

theorem goes_with {t : State} {c d : Config} (h : Goes c d) :
    machine.Goes { t with config := c } { t with config := d } := by
  simp only [Interaction.Program.Goes, machine, show configStep c = some d from h, Option.map_some]

theorem simulation : Interaction.Simulation machine machine StateRel where
  silent := by
    rintro s s' t ⟨hconfig, hknown⟩ hgoes
    obtain ⟨d, hstep, rfl⟩ := Option.map_eq_some_iff.mp hgoes
    have hsim := sim hconfig
    simp only [Sim, hstep] at hsim
    obtain ⟨d', hsteps, hrel⟩ := hsim
    exact ⟨{ t with config := d' },
      TransGen.lift (fun c => { t with config := c }) (fun _ _ => goes_with) _ _ hsteps, hrel,
      hknown⟩
  stops := by
    rintro s t ⟨hconfig, hknown⟩ hstops
    have hstep : configStep s.config = none := Option.map_eq_none_iff.mp hstops
    have hsim := sim hconfig
    simp only [Sim, hstep] at hsim
    obtain ⟨c, hsteps, hstop, hrel⟩ := hsim
    refine ⟨{ t with config := c },
      ReflTransGen.lift (fun c => { t with config := c }) (fun _ _ => goes_with) _ _ hsteps,
      Option.map_eq_none_iff.mpr hstop, fun e => ?_⟩
    -- either both have the same events, or both are stuck
    rcases hrel with hrel | ⟨hmute, hmute'⟩
    · exact event_rel hrel hstop hknown e
    · change Option.Rel StateRel (State.event s e) (State.event { t with config := c } e)
      rw [show State.event s e = none from hmute s.known e,
        show State.event { t with config := c } e = none from hmute' t.known e]
      exact .none

/-- A program that uses no name of the expansion and binds none of the operators of `for%lwt`, and
what the mapper makes of it, go through the same events with what is outside of them, whatever the
outside does, and come to rest after the same events. -/
theorem expansion_keeps_the_meaning {e e' : Expr} (hplain : e.isPlain = true)
    (h : expression e = .ok e') (events : List Event) :
    (machine.Trace (start e) events ↔ machine.Trace (start e') events) ∧
      (machine.Rests (start e) events ↔ machine.Rests (start e') events) := by
  have hrel : StateRel (start e) (start e') := by
    rw [expression_eq_expand h]
    exact ⟨.eval hplain .nil .first, .nil⟩
  exact ⟨simulation.trace_iff hrel, simulation.rests_iff hrel⟩

/-- `let%lwt x = f () and y = g () in try%lwt x with Not_found -> y` -/
def firstOrSecond : Expr :=
  .lwt (.letIn
    (.cons (.var "x") (.apply (.outer "f") Expr.unit)
      (.cons (.var "y") (.apply (.outer "g") Expr.unit) .nil))
    (.lwt (.tryWith (.var "x")
      (.cons (.value (.const (.constructor "Not_found"))) (.var "y") .nil))))

/-- Both functions are called before the first promise is waited for, the body waits for both, and
an exception that is not `Not_found` is raised again. -/
def firstOrSecondEvents : List Event :=
  [.applies "f" (.const .unit), .answers (.outer "p"),
    .applies "g" (.const .unit), .answers (.outer "q"),
    .calls .backtraceBind [.function, .outer "p", .function], .invokes 4 (.const (.int 1)),
    .calls .backtraceBind [.function, .outer "q", .function], .answers (.outer "r"),
    .returns (.outer "r"), .invokes 7 (.const (.bool true)),
    .calls .backtraceCatch [.function, .function, .function],
    .invokes 11 (.const (.constructor "Failure")), .raises (.const (.constructor "Failure"))]

theorem expression_firstOrSecond : expression firstOrSecond = .ok (expand firstOrSecond) :=
  expression_of_isAccepted (by decide)

theorem expansion_keeps_the_meaning_first_or_second :
    ∃ e, expression firstOrSecond = .ok e ∧ machine.Trace (start e) firstOrSecondEvents := by
  have htrace : machine.Trace (start firstOrSecond) firstOrSecondEvents :=
    Interaction.Program.trace_of_follow (n := 60) rfl
  exact ⟨_, expression_firstOrSecond,
    (expansion_keeps_the_meaning (by decide) expression_firstOrSecond _).1.mp htrace⟩

end Lwt.Ppx
