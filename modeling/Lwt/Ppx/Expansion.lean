import Lwt.Ppx.Semantics

/-!
# A program and its expansion

The states of a program and of its expansion are related by what they hold: a value of the source
and a value of the expansion are related if they are functions with the same cases, up to the
expansion, in related environments, and what `%lwt` gives to the functions of `Lwt` is related to
the functions of the expansion.  The environments of the expansion have the generated names in
addition.  One frame of the source is related to the frames of the expansion, and a handler that
raises again what it catches, which is what `assert%lwt` leaves on the stack, to no frame.
-/

namespace Lwt.Ppx

open Io.Slices Relation

/-! ## Names -/

/-- The name is one that the expansion may generate. -/
def isInternal (x : Name) : Bool := lwtPrefix.toList.isPrefixOf x.toList

/-- A program may bind the name. -/
def isBindable (x : Name) : Bool := !isInternal x && (operator x).isNone

theorem isInternal_append (x : Name) : isInternal (lwtPrefix ++ x) = true := by
  rw [isInternal, String.toList_append, List.isPrefixOf_iff_prefix]
  exact List.prefix_append _ _

theorem isInternal_genName (i : ℕ) : isInternal (genName i) = true := isInternal_append _

theorem isInternal_loopName : isInternal loopName = true := isInternal_append _

theorem isInternal_boundName : isInternal boundName = true := isInternal_append _

theorem genName_injective {i j : ℕ} (h : genName i = genName j) : i = j := by
  have hlist : lwtPrefix.toList ++ (toString i).toList =
      lwtPrefix.toList ++ (toString j).toList := by
    rw [← String.toList_append, ← String.toList_append]
    exact congrArg String.toList h
  have hdigits : (Nat.repr i).toList = (Nat.repr j).toList := List.append_cancel_left hlist
  rw [Nat.toList_repr, Nat.toList_repr] at hdigits
  calc i = Nat.ofDigitChars 10 (Nat.toDigits 10 i) 0 := Nat.ofDigitChars_ten_toDigits.symm
    _ = Nat.ofDigitChars 10 (Nat.toDigits 10 j) 0 := by rw [hdigits]
    _ = j := Nat.ofDigitChars_ten_toDigits

theorem not_internal_of_bindable {x : Name} (h : isBindable x = true) : isInternal x = false := by
  simp only [isBindable, Bool.and_eq_true, Bool.not_eq_true'] at h
  exact h.1

theorem operator_of_bindable {x : Name} (h : isBindable x = true) : operator x = none := by
  simp only [isBindable, Bool.and_eq_true, Option.isNone_iff_eq_none] at h
  exact h.2

/-! ## Programs without the names of the expansion -/

def Pat.isPlain : Pat → Bool
  | any | const _ => true
  | var x => isBindable x
  | aliased p x => p.isPlain && isBindable x
  | constraint p | construct _ p => p.isPlain
  | pair p q | or p q => p.isPlain && q.isPlain

def CasePat.isPlain : CasePat → Bool
  | value p | exn p => p.isPlain

/-- The expression is `[%finally f]`, without one that it is applied to. -/
def Expr.isAlone : Expr → Bool
  | finallyAlone _ => true
  | _ => false

mutual

/-- No name of the expansion is used, no operator of `for%lwt` is bound, and no `for%lwt` starts at
a `[%finally]`, which has no meaning there but an expansion. -/
def Expr.isPlain : Expr → Bool
  | .var x => !isInternal x
  | .const _ | .outer _ | .lwtFunction _ | .reraise => true
  | .construct _ e | .assertion e | .lwt e | .finallyAlone e => e.isPlain
  | .pair a b | .apply a b | .sequence a b | .ifThen a b | .whileDo a b | .finallyOf a b =>
    a.isPlain && b.isPlain
  | .function cases => cases.isPlain
  | .letIn bindings e => bindings.isPlain && e.isPlain
  | .letRec f cases e => isBindable f && cases.isPlain && e.isPlain
  | .matchWith e cases | .tryWith e cases => e.isPlain && cases.isPlain
  | .ifThenElse a b c => a.isPlain && b.isPlain && c.isPlain
  | .forDo x start _ bound body =>
    x.all isBindable && (start.isPlain && !start.isAlone) && bound.isPlain && body.isPlain

def Cases.isPlain : Cases → Bool
  | .nil => true
  | .cons p rhs rest => p.isPlain && rhs.isPlain && rest.isPlain
  | .guarded p guard rhs rest => p.isPlain && guard.isPlain && rhs.isPlain && rest.isPlain

def Bindings.isPlain : Bindings → Bool
  | .nil => true
  | .cons p e rest => p.isPlain && e.isPlain && rest.isPlain

end

/-! ## Related values -/

/-- The cases of `fun exn -> try Lwt.reraise exn with exn -> exn`. -/
def addBacktraceCases : Cases :=
  .cons (.value (.var "exn"))
    (.tryWith (.apply .reraise (.var "exn"))
      (.cons (.value (.var "exn")) (.var "exn") .nil)) .nil

/-- The case `fun () -> __ppx_lwt_loop (x OP 1)`. -/
def forNextCases (x : Name) (dir : Direction) : Cases :=
  .cons (.value (.const .unit))
    (.apply (.var loopName) (.apply (.apply (.var dir.opName) (.var x)) (.const (.int 1)))) .nil

/-- The environment of a turn of the loop of `for%lwt`, before its index. -/
def forLoopEnv (ρ : Env) (x : Name) (dir : Direction) (bound : Val) (body : Expr) : Env :=
  .cons loopName (.recClosure (.cons boundName bound ρ) loopName (forLoopCases x dir body))
    (.cons boundName bound ρ)

mutual

/-- A value of the source and a value of the expansion. -/
inductive ValRel : Val → Val → Prop
  | const (c : Const) : ValRel (.const c) (.const c)
  | construct (c : Name) {v v' : Val} : ValRel v v' → ValRel (.construct c v) (.construct c v')
  | pair {v v' w w' : Val} : ValRel v v' → ValRel w w' → ValRel (.pair v w) (.pair v' w')
  | outer (x : Name) : ValRel (.outer x) (.outer x)
  | lwtFunction (f : LwtFunction) {args args' : Vals} : ValsRel args args' →
      ValRel (.lwtFunction f args) (.lwtFunction f args')
  | reraise : ValRel .reraise .reraise
  | operator (o : Operator) : ValRel (.operator o) (.operator o)
  | operatorWith (o : Operator) (n : Int63) : ValRel (.operatorWith o n) (.operatorWith o n)
  | closure {ρ ρ' : Env} {cases : Cases} : EnvRel ρ ρ' → cases.isPlain = true →
      ValRel (.closure ρ cases) (.closure ρ' (expandCases cases))
  | recClosure {ρ ρ' : Env} {f : Name} {cases : Cases} : EnvRel ρ ρ' → isBindable f = true →
      cases.isPlain = true → ValRel (.recClosure ρ f cases) (.recClosure ρ' f (expandCases cases))
  | addBacktrace (ρ' : Env) : ValRel .addBacktrace (.closure ρ' addBacktraceCases)
  | handler {ρ ρ' : Env} {cases : Cases} : EnvRel ρ ρ' → cases.isPlain = true →
      ValRel (.handler ρ cases) (.closure ρ' (expandCases cases).addWildcardCase)
  | awaiting {ρ ρ' : Env} {p : Pat} {rest : Bindings} {promises : Vals} {e : Expr} {i : ℕ} :
      EnvRel ρ ρ' → p.isPlain = true → rest.isPlain = true → e.isPlain = true →
      Gathered ρ' i rest promises .nil →
      ValRel (.awaiting ρ p rest promises e) (.closure ρ'
        (.cons (.value p) (genBinds (expand e) i (expandBindings rest)) .nil))
  | whileLoop {ρ ρ' : Env} {cond body : Expr} : EnvRel ρ ρ' → cond.isPlain = true →
      body.isPlain = true → ValRel (.whileLoop ρ cond body)
        (.recClosure ρ' loopName (whileLoopCases (expand cond) (expand body)))
  | forNext {ρ ρ' : Env} {x : Name} (dir : Direction) (i bound : Int63) {body : Expr} :
      EnvRel ρ ρ' → isBindable x = true → body.isPlain = true →
      ValRel (.forNext ρ x dir i bound body) (.closure
        (.cons x (.int i) (forLoopEnv ρ' x dir (.int bound) (expand body))) (forNextCases x dir))

inductive ValsRel : Vals → Vals → Prop
  | nil : ValsRel .nil .nil
  | cons {v v' : Val} {rest rest' : Vals} : ValRel v v' → ValsRel rest rest' →
      ValsRel (.cons v rest) (.cons v' rest')

inductive EnvRel : Env → Env → Prop
  | nil : EnvRel .nil .nil
  | cons {x : Name} {v v' : Val} {ρ ρ' : Env} : isBindable x = true → ValRel v v' → EnvRel ρ ρ' →
      EnvRel (.cons x v ρ) (.cons x v' ρ')
  | internal {x : Name} {v' : Val} {ρ ρ' : Env} : isInternal x = true → EnvRel ρ ρ' →
      EnvRel ρ (.cons x v' ρ')

/-- The promises of the first bindings of a list, from number `i` on, have their generated names in
the environment of the expansion; the other bindings are left. -/
inductive Gathered : Env → ℕ → Bindings → Vals → Bindings → Prop
  | nil (ρ' : Env) (i : ℕ) (left : Bindings) : Gathered ρ' i left .nil left
  | cons {ρ' : Env} {i : ℕ} {p : Pat} {e : Expr} {rest left : Bindings} {v v' : Val}
      {promises : Vals} : ρ'.find (genName i) = some v' → ValRel v v' →
      Gathered ρ' (i + 1) rest promises left →
      Gathered ρ' i (.cons p e rest) (.cons v promises) left

end

/-! ## Environments -/

namespace EnvRel

variable {ρ ρ' : Env} {x : Name}

theorem find (hx : isInternal x = false) : ∀ {ρ ρ' : Env}, EnvRel ρ ρ' →
    Option.Rel ValRel (ρ.find x) (ρ'.find x)
  | _, _, .nil => .none
  | _, _, .cons (x := y) _ hv h => by
      by_cases heq : y = x
      · rw [Env.find, Env.find, if_pos heq, if_pos heq]
        exact .some hv
      · rw [Env.find, Env.find, if_neg heq, if_neg heq]
        exact h.find hx
  | _, _, .internal (x := y) hy h => by
      have hne : y ≠ x := by
        rintro rfl
        rw [hx] at hy
        cases hy
      rw [Env.find, if_neg hne]
      exact h.find hx

theorem find_operator (hx : (operator x).isSome = true) (hinternal : isInternal x = false) :
    ∀ {ρ ρ' : Env}, EnvRel ρ ρ' → ρ'.find x = none
  | _, _, .nil => rfl
  | _, _, .cons (x := y) hy _ h => by
      have hne : y ≠ x := by
        rintro rfl
        rw [operator_of_bindable hy] at hx
        cases hx
      rw [Env.find, if_neg hne]
      exact h.find_operator hx hinternal
  | _, _, .internal (x := y) hy h => by
      have hne : y ≠ x := by
        rintro rfl
        rw [hinternal] at hy
        cases hy
      rw [Env.find, if_neg hne]
      exact h.find_operator hx hinternal

end EnvRel

/-- A pattern of the program matches related values alike. -/
theorem Pat.matches_rel : ∀ {p : Pat} {v v' : Val} {ρ ρ' : Env}, p.isPlain = true → ValRel v v' →
    EnvRel ρ ρ' → Option.Rel EnvRel (p.matches v ρ) (p.matches v' ρ')
  | .any, _, _, _, _, _, _, hρ => .some hρ
  | .var _, _, _, _, _, hp, hv, hρ => .some (.cons hp hv hρ)
  | .aliased p x, v, v', ρ, ρ', hp, hv, hρ => by
      simp only [isPlain, Bool.and_eq_true] at hp
      simp only [Pat.matches]
      exact Interaction.rel_map (p.matches_rel hp.1 hv hρ) fun _ _ h => .cons hp.2 hv h
  | .constraint p, _, _, _, _, hp, hv, hρ => p.matches_rel hp hv hρ
  | .const c, _, _, _, _, _, hv, hρ => by
      cases hv with
      | const d =>
        simp only [Pat.matches]
        split
        · exact .some hρ
        · exact .none
      | _ => exact .none
  | .construct c p, _, _, _, _, hp, hv, hρ => by
      cases hv with
      | construct d hv =>
        simp only [Pat.matches]
        split
        · exact p.matches_rel hp hv hρ
        · exact .none
      | _ => exact .none
  | .pair p q, _, _, ρ, ρ', hp, hv, hρ => by
      simp only [isPlain, Bool.and_eq_true] at hp
      cases hv with
      | @pair v v' w w' hv hw =>
        simp only [Pat.matches]
        exact Interaction.rel_bind (p.matches_rel hp.1 hv hρ) fun _ _ h => q.matches_rel hp.2 hw h
      | _ => exact .none
  | .or p q, v, v', ρ, ρ', hp, hv, hρ => by
      simp only [isPlain, Bool.and_eq_true] at hp
      simp only [Pat.matches]
      exact Interaction.rel_or (p.matches_rel hp.1 hv hρ) (q.matches_rel hp.2 hv hρ)

theorem CasePat.matches_rel (o : Outcome) {p : CasePat} {v v' : Val} {ρ ρ' : Env}
    (hp : p.isPlain = true) (hv : ValRel v v') (hρ : EnvRel ρ ρ') :
    Option.Rel EnvRel (p.matches o v ρ) (p.matches o v' ρ') := by
  cases o with
  | value =>
    cases p with
    | value p => exact p.matches_rel hp hv hρ
    | exn p => exact .none
  | exn =>
    cases p with
    | value p => exact .none
    | exn p => exact p.matches_rel hp hv hρ

theorem Pat.find_matches {x : Name} (hx : isInternal x = true) : ∀ {p : Pat} {v : Val} {ρ ρ₁ : Env},
    p.isPlain = true → p.matches v ρ = some ρ₁ → ρ₁.find x = ρ.find x
  | .any, _, _, _, _, h => by rw [Option.some.inj h]
  | .var y, _, _, _, hp, h => by
      cases h
      have hne : y ≠ x := by
        rintro rfl
        rw [not_internal_of_bindable hp] at hx
        cases hx
      rw [Env.find, if_neg hne]
  | .aliased p y, v, ρ, _, hp, h => by
      simp only [isPlain, Bool.and_eq_true] at hp
      obtain ⟨ρ₂, h₂, rfl⟩ := Option.map_eq_some_iff.mp h
      have hne : y ≠ x := by
        rintro rfl
        rw [not_internal_of_bindable hp.2] at hx
        cases hx
      rw [Env.find, if_neg hne]
      exact p.find_matches hx hp.1 h₂
  | .constraint p, _, _, _, hp, h => p.find_matches hx hp h
  | .const c, v, ρ, _, _, h => by
      cases v with
      | const d =>
        simp only [Pat.matches, Option.ite_none_right_eq_some] at h
        rw [Option.some.inj h.2]
      | _ => cases h
  | .construct c p, v, _, _, hp, h => by
      cases v with
      | construct d v =>
        simp only [Pat.matches, Option.ite_none_right_eq_some] at h
        exact p.find_matches hx hp h.2
      | _ => cases h
  | .pair p q, v, _, _, hp, h => by
      simp only [isPlain, Bool.and_eq_true] at hp
      cases v with
      | pair v w =>
        obtain ⟨ρ₂, h₂, h₃⟩ := Option.bind_eq_some_iff.mp h
        rw [q.find_matches hx hp.2 h₃, p.find_matches hx hp.1 h₂]
      | _ => cases h
  | .or p q, _, _, _, hp, h => by
      simp only [isPlain, Bool.and_eq_true] at hp
      rcases Option.or_eq_some_iff.mp h with h | ⟨-, h⟩
      · exact p.find_matches hx hp.1 h
      · exact q.find_matches hx hp.2 h

namespace Gathered

variable {ρ' : Env} {v v' : Val}

theorem congr {ρ₁ : Env} : ∀ {i : ℕ} {bindings left : Bindings} {promises : Vals},
    Gathered ρ' i bindings promises left →
    (∀ j, i ≤ j → j < i + promises.length → ρ₁.find (genName j) = ρ'.find (genName j)) →
    Gathered ρ₁ i bindings promises left
  | i, _, _, _, .nil _ _ left, _ => .nil ρ₁ i left
  | i, _, _, .cons v promises, .cons hfind hv h, heq => by
      refine .cons ((heq i (Nat.le_refl i) ?_).trans hfind) hv (h.congr fun j hle hlt => ?_)
      · simp only [Vals.length]
        omega
      · refine heq j (by omega) ?_
        simp only [Vals.length]
        omega

theorem matched {i : ℕ} {bindings left : Bindings} {promises : Vals} {p : Pat} {ρ₁ : Env}
    (h : Gathered ρ' i bindings promises left) (hp : p.isPlain = true)
    (hmatch : p.matches v ρ' = some ρ₁) : Gathered ρ₁ i bindings promises left :=
  h.congr fun _ _ _ => p.find_matches (isInternal_genName _) hp hmatch

theorem snoc : ∀ {i : ℕ} {bindings left : Bindings} {promises : Vals} {p : Pat} {e : Expr},
    Gathered ρ' i bindings promises (.cons p e left) → ValRel v v' →
    Gathered (.cons (genName (i + promises.length)) v' ρ') i bindings (promises.snoc v) left
  | i, _, left, _, p, e, .nil _ _ _, hv =>
    .cons (if_pos rfl) hv (.nil _ _ _)
  | i, _, left, .cons w promises, p, e, .cons hfind hw h, hv => by
      have hne : genName (i + (Vals.cons w promises).length) ≠ genName i := by
        intro heq
        have hi := genName_injective heq
        simp only [Vals.length] at hi
        omega
      refine .cons ?_ hw ?_
      · rw [Env.find, if_neg hne]
        exact hfind
      · rw [Vals.length, Nat.add_comm promises.length 1, ← Nat.add_assoc]
        exact h.snoc hv

end Gathered

/-! ## Lists of values -/

namespace ValsRel

theorem snoc {v v' : Val} (hv : ValRel v v') : ∀ {vs vs' : Vals}, ValsRel vs vs' →
    ValsRel (vs.snoc v) (vs'.snoc v')
  | _, _, .nil => .cons hv .nil
  | _, _, .cons hw h => .cons hw (h.snoc hv)

theorem length_eq : ∀ {vs vs' : Vals}, ValsRel vs vs' → vs.length = vs'.length
  | _, _, .nil => rfl
  | _, _, .cons _ h => congrArg (· + 1) h.length_eq

theorem toList : ∀ {vs vs' : Vals}, ValsRel vs vs' → List.Forall₂ ValRel vs.toList vs'.toList
  | _, _, .nil => .nil
  | _, _, .cons hv h => .cons hv h.toList

end ValsRel

namespace ValRel

theorem shape_eq : ∀ {v v' : Val}, ValRel v v' → v.shape = v'.shape
  | _, _, .construct c h => congrArg (Shape.construct c) h.shape_eq
  | _, _, .pair h h' => congrArg₂ Shape.pair h.shape_eq h'.shape_eq
  | _, _, .const _ | _, _, .outer _ | _, _, .lwtFunction _ _ | _, _, .reraise | _, _, .operator _
  | _, _, .operatorWith _ _ | _, _, .closure _ _ | _, _, .recClosure _ _ _ | _, _, .addBacktrace _
  | _, _, .handler _ _ | _, _, .awaiting _ _ _ _ _ | _, _, .whileLoop _ _ _
  | _, _, .forNext _ _ _ _ _ _ => rfl

theorem parts : ∀ {v v' : Val}, ValRel v v' → List.Forall₂ ValRel v.parts v'.parts
  | _, _, h@(.construct _ h') => .cons h h'.parts
  | _, _, h@(.pair h' h'') => .cons h (List.rel_append h'.parts h''.parts)
  | _, _, h@(.const _) | _, _, h@(.outer _) | _, _, h@(.lwtFunction _ _) | _, _, h@(.reraise)
  | _, _, h@(.operator _) | _, _, h@(.operatorWith _ _) | _, _, h@(.closure _ _)
  | _, _, h@(.recClosure _ _ _) | _, _, h@(.addBacktrace _) | _, _, h@(.handler _ _)
  | _, _, h@(.awaiting _ _ _ _ _) | _, _, h@(.whileLoop _ _ _) | _, _, h@(.forNext _ _ _ _ _ _) =>
    .cons h .nil

end ValRel

theorem known_rel {known known' : List Val} (h : List.Forall₂ ValRel known known') (i : ℕ) :
    Option.Rel ValRel known[i]? known'[i]? := by
  induction h generalizing i with
  | nil => exact .none
  | cons hv _ ih =>
    cases i with
    | zero => exact .some hv
    | succ i => exact ih i

theorem Given.value_rel {known known' : List Val} (h : List.Forall₂ ValRel known known') :
    ∀ g : Given, Option.Rel ValRel (g.value known) (g.value known')
  | .const c => .some (.const c)
  | .outer x => .some (.outer x)
  | .construct c g => by
      simp only [Given.value]
      exact Interaction.rel_map (g.value_rel h) fun _ _ hv => .construct c hv
  | .pair g g₁ => by
      simp only [Given.value]
      exact Interaction.rel_bind (g.value_rel h) fun _ _ hv =>
        Interaction.rel_map (g₁.value_rel h) fun _ _ hw => .pair hv hw
  | .known i => known_rel h i

/-! ## Related states -/

/-- The cases that are left to be tried, with what is raised where there is none.  A handler of the
source raises its argument again; the expansion has a case for it, unless a case catches all. -/
inductive CasesRel : Outcome → Val → Val → Val → Cases → Cases → Prop
  | same {o : Outcome} {v otherwise otherwise' : Val} (cases : Cases) :
      ValRel otherwise otherwise' →
      CasesRel o v otherwise otherwise' cases (expandCases cases)
  | reraise (v otherwise' : Val) (cases : Cases) :
      CasesRel .value v v otherwise' cases ((expandCases cases).append Cases.reraiseCase)
  | caught {v : Val} (otherwise otherwise' : Val) {cases : Cases} : cases.hasWildcard = true →
      CasesRel .value v otherwise otherwise' cases (expandCases cases)

/-- The environment of `__ppx_lwt_loop` for `while%lwt`. -/
def whileLoopEnv (ρ : Env) (cond body : Expr) : Env :=
  .cons loopName (.recClosure ρ loopName (whileLoopCases cond body)) ρ

/-- A frame of the source, and the frames of the expansion, the next one first. -/
inductive FrameRel : Frame → List Frame → Prop
  | argument {f : Expr} {ρ ρ' : Env} : f.isPlain = true → EnvRel ρ ρ' →
      FrameRel (.argument f ρ) [.argument (expand f) ρ']
  | function {v v' : Val} : ValRel v v' → FrameRel (.function v) [.function v']
  | construct (c : Name) : FrameRel (.construct c) [.construct c]
  | pairSecond {a : Expr} {ρ ρ' : Env} : a.isPlain = true → EnvRel ρ ρ' →
      FrameRel (.pairSecond a ρ) [.pairSecond (expand a) ρ']
  | pairFirst {v v' : Val} : ValRel v v' → FrameRel (.pairFirst v) [.pairFirst v']
  | binding {p : Pat} {rest : Bindings} {e : Expr} {ρ ρ' acc acc' : Env} : p.isPlain = true →
      rest.isPlain = true → e.isPlain = true → EnvRel ρ ρ' → EnvRel acc acc' →
      FrameRel (.binding p rest e ρ acc) [.binding p (expandBindings rest) (expand e) ρ' acc']
  | sequence {b : Expr} {ρ ρ' : Env} : b.isPlain = true → EnvRel ρ ρ' →
      FrameRel (.sequence b ρ) [.sequence (expand b) ρ']
  | ifThenElse {a b : Expr} {ρ ρ' : Env} : a.isPlain = true → b.isPlain = true → EnvRel ρ ρ' →
      FrameRel (.ifThenElse a b ρ) [.ifThenElse (expand a) (expand b) ρ']
  | ifThen {a : Expr} {ρ ρ' : Env} : a.isPlain = true → EnvRel ρ ρ' →
      FrameRel (.ifThen a ρ) [.ifThen (expand a) ρ']
  | matchWith {cases : Cases} {ρ ρ' : Env} : cases.isPlain = true → EnvRel ρ ρ' →
      FrameRel (.matchWith cases ρ) [.matchWith (expandCases cases) ρ']
  | tryWith {cases : Cases} {ρ ρ' : Env} : cases.isPlain = true → EnvRel ρ ρ' →
      FrameRel (.tryWith cases ρ) [.tryWith (expandCases cases) ρ']
  | guard {o : Outcome} {v v' otherwise otherwise' : Val} {rhs : Expr} {ρ ρ' ρ₁ ρ₁' : Env}
      {rest rest' : Cases} : ValRel v v' → rhs.isPlain = true → EnvRel ρ₁ ρ₁' →
      rest.isPlain = true → EnvRel ρ ρ' → CasesRel o v otherwise otherwise' rest rest' →
      FrameRel (.guard o v otherwise rhs ρ₁ rest ρ)
        [.guard o v' otherwise' (expand rhs) ρ₁' rest' ρ']
  | whileCond {cond body : Expr} {ρ ρ' : Env} : cond.isPlain = true → body.isPlain = true →
      EnvRel ρ ρ' → FrameRel (.whileCond cond body ρ) [.whileCond (expand cond) (expand body) ρ']
  | whileBody {cond body : Expr} {ρ ρ' : Env} : cond.isPlain = true → body.isPlain = true →
      EnvRel ρ ρ' → FrameRel (.whileBody cond body ρ) [.whileBody (expand cond) (expand body) ρ']
  | forStart {x : Option Name} (dir : Direction) {bound body : Expr} {ρ ρ' : Env} :
      x.all isBindable = true → bound.isPlain = true → body.isPlain = true → EnvRel ρ ρ' →
      FrameRel (.forStart x dir bound body ρ) [.forStart x dir (expand bound) (expand body) ρ']
  | forBound {x : Option Name} (start : Int63) (dir : Direction) {body : Expr} {ρ ρ' : Env} :
      x.all isBindable = true → body.isPlain = true → EnvRel ρ ρ' →
      FrameRel (.forBound x start dir body ρ) [.forBound x start dir (expand body) ρ']
  | forBody {x : Option Name} (i : Int63) (dir : Direction) (bound : Int63) {body : Expr}
      {ρ ρ' : Env} : x.all isBindable = true → body.isPlain = true → EnvRel ρ ρ' →
      FrameRel (.forBody x i dir bound body ρ) [.forBody x i dir bound (expand body) ρ']
  | assertion : FrameRel .assertion [.assertion]
  | sequenceLwt {b : Expr} {ρ ρ' : Env} : b.isPlain = true → EnvRel ρ ρ' →
      FrameRel (.sequenceLwt b ρ)
        [.argument (.apply (.lwtFunction .backtraceBind) Expr.addBacktrace) ρ',
          .function (thunkIn ρ' (expand b))]
  | letLwt {p : Pat} {e' : Expr} {todo bindings : Bindings} {promises : Vals} {e : Expr}
      {ρ ρ' acc' : Env} : todo.isPlain = true → bindings.isPlain = true → e.isPlain = true →
      EnvRel ρ ρ' → EnvRel ρ acc' → Gathered acc' 0 bindings promises (.cons p e' todo) →
      FrameRel (.letLwt todo bindings promises e ρ)
        [.binding (.var (genName promises.length))
          (genBindings (promises.length + 1) (expandBindings todo))
          (genBinds (expand e) 0 (expandBindings bindings)) ρ' acc']
  | ifLwt {a b : Expr} {ρ ρ' : Env} : a.isPlain = true → b.isPlain = true → EnvRel ρ ρ' →
      FrameRel (.ifLwt a b ρ) [.argument (.lwtFunction .bind) ρ',
        .function (.closure ρ' (ifCases (expand a) (expand b)))]
  | whileLwtCond {cond body : Expr} {ρ ρ' : Env} : cond.isPlain = true → body.isPlain = true →
      EnvRel ρ ρ' → FrameRel (.whileLwtCond cond body ρ)
        [.ifThenElse (Expr.call₂ .bind (expand body) (.var loopName)) Expr.returnUnit
          (whileLoopEnv ρ' (expand cond) (expand body))]
  | whileLwtBody {cond body : Expr} {ρ ρ' : Env} : cond.isPlain = true → body.isPlain = true →
      EnvRel ρ ρ' → FrameRel (.whileLwtBody cond body ρ)
        [.argument (.lwtFunction .bind) (whileLoopEnv ρ' (expand cond) (expand body)),
          .function (.recClosure ρ' loopName (whileLoopCases (expand cond) (expand body)))]
  | forLwtBound {x : Name} {start : Expr} (dir : Direction) {body : Expr} {ρ ρ' : Env} :
      isBindable x = true → start.isPlain = true → body.isPlain = true → EnvRel ρ ρ' →
      FrameRel (.forLwtBound x start dir body ρ)
        [.binding (.constraint (.var boundName)) .nil
          (.letRec loopName (forLoopCases x dir (expand body))
            (.apply (.var loopName) (expand start))) ρ' ρ']
  | forLwtStart {x : Name} (dir : Direction) {bound bound' : Val} {body : Expr} {ρ ρ' : Env} :
      isBindable x = true → ValRel bound bound' → body.isPlain = true → EnvRel ρ ρ' →
      FrameRel (.forLwtStart x dir bound body ρ)
        [.argument (.var loopName) (forLoopEnv ρ' x dir bound' (expand body))]
  | forLwtBody {x : Name} (i : Int63) (dir : Direction) (bound : Int63) {body : Expr}
      {ρ ρ' : Env} : isBindable x = true → body.isPlain = true → EnvRel ρ ρ' →
      FrameRel (.forLwtBody x i dir bound body ρ)
        [.argument (.lwtFunction .bind)
          (.cons x (.int i) (forLoopEnv ρ' x dir (.int bound) (expand body))),
          .function (.closure
            (.cons x (.int i) (forLoopEnv ρ' x dir (.int bound) (expand body)))
            (forNextCases x dir))]
  | assertLwt (ρ' : Env) :
      FrameRel .assertLwt [.assertion, .argument (.lwtFunction .lwtReturn) ρ']

/-- The stacks of a program that the outside has called. -/
inductive StackRel : Stack → Stack → Prop
  | first : StackRel [.boundary] [.boundary]
  | boundary {K K' : Stack} : StackRel K K' → StackRel (.boundary :: K) (.boundary :: K')
  | frame {f : Frame} {fs : List Frame} {K K' : Stack} : FrameRel f fs → StackRel K K' →
      StackRel (f :: K) (fs ++ K')
  | reraise (ρ' : Env) {K K' : Stack} : StackRel K K' →
      StackRel K (.tryWith Cases.reraiseCase ρ' :: K')

inductive ConfigRel : Config → Config → Prop
  | eval {e : Expr} {ρ ρ' : Env} {K K' : Stack} : e.isPlain = true → EnvRel ρ ρ' →
      StackRel K K' → ConfigRel (.eval e ρ, K) (.eval (expand e) ρ', K')
  | ret {v v' : Val} {K K' : Stack} : ValRel v v' → StackRel K K' →
      ConfigRel (.ret v, K) (.ret v', K')
  | throw {x x' : Val} {K K' : Stack} : ValRel x x' → StackRel K K' →
      ConfigRel (.throw x, K) (.throw x', K')
  | apply {f f' v v' : Val} {K K' : Stack} : ValRel f f' → ValRel v v' → StackRel K K' →
      ConfigRel (.apply f v, K) (.apply f' v', K')
  | select {o : Outcome} {v v' otherwise otherwise' : Val} {cases cases' : Cases} {ρ ρ' : Env}
      {K K' : Stack} : ValRel v v' → cases.isPlain = true → EnvRel ρ ρ' →
      CasesRel o v otherwise otherwise' cases cases' → StackRel K K' →
      ConfigRel (.select o v otherwise cases ρ, K) (.select o v' otherwise' cases' ρ', K')
  /-- The outside is to answer a call. -/
  | outside {K K' : Stack} : StackRel K K' → ConfigRel (.outside, K) (.outside, K')
  | idle : ConfigRel (.outside, []) (.outside, [])

end Lwt.Ppx
