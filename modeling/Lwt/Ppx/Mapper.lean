import Lwt.Ppx.ForLoop

/-!
# The expansion of `%lwt`

The expressions that `ppx_lwt` reads and writes, and its `mapper`.  `lwtExpression` expands the
first level after a `%lwt`; the mapper then goes through the result, so it meets an expression of
the source once, and a `%lwt` below the first one after it.  What the mapper makes of an expression
is also given by a structural recursion, `expand`, and it reports an error for what is not
`isAccepted` (`expression_eq_ok_iff`).

Locations and attributes are left out, and so are the parts of the language in which `%lwt` plays no
role, such as records, labels, types and modules.  A tuple is a pair, or pairs.
-/

namespace Lwt.Ppx

open Io.Slices

/-! ## Expressions -/

/-- A lower-case identifier, an operator, or a constructor. -/
abbrev Name := String

inductive Const
  | unit
  | bool (b : Bool)
  | int (n : Int63)
  | constructor (c : Name)
  deriving DecidableEq

inductive Pat
  | any
  | var (x : Name)
  | aliased (p : Pat) (x : Name)
  | constraint (p : Pat)
  | const (c : Const)
  | construct (c : Name) (p : Pat)
  | pair (p q : Pat)
  | or (p q : Pat)

/-- The pattern of a case: `p` or `exception p`. -/
inductive CasePat
  | value (p : Pat)
  | exn (p : Pat)

/-- The functions of `Lwt` that the generated code calls. -/
inductive LwtFunction
  | bind
  | backtraceBind
  | tryBind
  | backtraceCatch
  | backtraceFinalize
  | lwtReturn
  deriving DecidableEq

mutual

inductive Expr
  | var (x : Name)
  | const (c : Const)
  | construct (c : Name) (e : Expr)
  | pair (a b : Expr)
  /-- A function or a value of another module. -/
  | outer (x : Name)
  | lwtFunction (f : LwtFunction)
  /-- `Lwt.reraise` -/
  | reraise
  /-- `function` or `fun` -/
  | function (cases : Cases)
  | apply (f a : Expr)
  | letIn (bindings : Bindings) (e : Expr)
  /-- `let rec f = function ... in e` -/
  | letRec (f : Name) (cases : Cases) (e : Expr)
  | sequence (a b : Expr)
  | ifThenElse (cond a b : Expr)
  | ifThen (cond a : Expr)
  | matchWith (e : Expr) (cases : Cases)
  | tryWith (e : Expr) (cases : Cases)
  | whileDo (cond body : Expr)
  /-- `for x = start to bound do body done`, and with `downto`; `none` for `_`. -/
  | forDo (x : Option Name) (start : Expr) (dir : Direction) (bound body : Expr)
  | assertion (e : Expr)
  /-- `[%lwt e]`, which is what `let%lwt`, `match%lwt` and the others are read as. -/
  | lwt (e : Expr)
  /-- `e [%finally f]` and `e [%lwt.finally f]` -/
  | finallyOf (e f : Expr)
  /-- `[%finally f]` and `[%lwt.finally f]` elsewhere -/
  | finallyAlone (f : Expr)

inductive Cases
  | nil
  | cons (p : CasePat) (rhs : Expr) (rest : Cases)
  | guarded (p : CasePat) (guard rhs : Expr) (rest : Cases)

inductive Bindings
  | nil
  | cons (p : Pat) (e : Expr) (rest : Bindings)

end

/-- The errors that the mapper reports. -/
inductive Error
  /-- "match%lwt must contain at least one non-exception pattern." -/
  | onlyExceptions
  /-- "Lwt's finally should be used only with the syntax: \"(<expr>)[%finally ...]\"." -/
  | finallyAlone

/-! ## Cases -/

def Pat.isCatchall : Pat → Bool
  | any | var _ => true
  | aliased p _ | constraint p => p.isCatchall
  | _ => false

def CasePat.isCatchall : CasePat → Bool
  | value p => p.isCatchall
  | exn _ => false

namespace Cases

def append : Cases → Cases → Cases
  | nil, cs => cs
  | cons p rhs rest, cs => cons p rhs (rest.append cs)
  | guarded p g rhs rest, cs => guarded p g rhs (rest.append cs)

/-- There is a case without a guard that catches all values. -/
def hasWildcard : Cases → Bool
  | nil => false
  | cons p _ rest => p.isCatchall || rest.hasWildcard
  | guarded _ _ _ rest => rest.hasWildcard

/-- `exn -> Lwt.reraise exn` -/
def reraiseCase : Cases :=
  .cons (.value (.var "exn")) (.apply .reraise (.var "exn")) .nil

def addWildcardCase (cs : Cases) : Cases := if cs.hasWildcard then cs else cs.append reraiseCase

/-- The cases without an exception pattern. -/
def values : Cases → Cases
  | nil => nil
  | cons (.value p) rhs rest => cons (.value p) rhs rest.values
  | guarded (.value p) g rhs rest => guarded (.value p) g rhs rest.values
  | cons (.exn _) _ rest | guarded (.exn _) _ _ rest => rest.values

/-- The cases with an exception pattern, without `exception`. -/
def exns : Cases → Cases
  | nil => nil
  | cons (.exn p) rhs rest => cons (.value p) rhs rest.exns
  | guarded (.exn p) g rhs rest => guarded (.value p) g rhs rest.exns
  | cons (.value _) _ rest | guarded (.value _) _ _ rest => rest.exns

def isEmpty : Cases → Bool
  | nil => true
  | _ => false

end Cases

/-! ## The first level -/

def lwtPrefix : Name := "__ppx_lwt_"

def genName (i : ℕ) : Name := lwtPrefix ++ toString i

/-- `__ppx_lwt_loop` -/
def loopName : Name := lwtPrefix ++ "loop"

/-- `__ppx_lwt_bound` -/
def boundName : Name := lwtPrefix ++ "bound"

namespace Expr

/-- `fun () -> e` -/
def thunk (e : Expr) : Expr := .function (.cons (.value (.const .unit)) e .nil)

def unit : Expr := .const .unit

/-- `Lwt.return_unit` -/
def returnUnit : Expr := .outer "Lwt.return_unit"

/-- `fun exn -> try Lwt.reraise exn with exn -> exn` -/
def addBacktrace : Expr :=
  .function (.cons (.value (.var "exn"))
    (.tryWith (.apply .reraise (.var "exn"))
      (.cons (.value (.var "exn")) (.var "exn") .nil)) .nil)

/-- The call of a function of `Lwt` with two arguments. -/
def call₂ (f : LwtFunction) (a b : Expr) : Expr := .apply (.apply (.lwtFunction f) a) b

/-- The call of a function of `Lwt` with three arguments. -/
def call₃ (f : LwtFunction) (a b c : Expr) : Expr := .apply (call₂ f a b) c

end Expr

open Lwt.Ppx.Expr in
def lwtSequence (lhs rhs : Expr) : Expr := call₃ .backtraceBind addBacktrace lhs (thunk rhs)

/-- `p = x` becomes `__ppx_lwt_$i = x`. -/
def genBindings : ℕ → Bindings → Bindings
  | _, .nil => .nil
  | i, .cons _ e rest => .cons (.var (genName i)) e (genBindings (i + 1) rest)

open Lwt.Ppx.Expr in
/-- `Lwt.bind __ppx_lwt_$i (fun p -> e)` for each binding. -/
def genBinds (e : Expr) : ℕ → Bindings → Expr
  | _, .nil => e
  | i, .cons p _ rest =>
    call₃ .backtraceBind addBacktrace (.var (genName i))
      (.function (.cons (.value p) (genBinds e (i + 1) rest) .nil))

/-- `let%lwt` -/
def letExpansion (bindings : Bindings) (e : Expr) : Expr :=
  .letIn (genBindings 0 bindings) (genBinds e 0 bindings)

open Lwt.Ppx.Expr in
/-- `match%lwt`: a wildcard case is added to the exceptions, also where there are none. -/
def matchExpansion (e : Expr) (cases : Cases) : Expr :=
  call₃ .tryBind (thunk e) (.function cases.values) (.function cases.exns.addWildcardCase)

open Lwt.Ppx.Expr in
/-- `assert%lwt` -/
def assertExpansion (e : Expr) : Expr :=
  .tryWith (.apply (.lwtFunction .lwtReturn) (.assertion e)) Cases.reraiseCase

open Lwt.Ppx.Expr in
/-- The cases of `__ppx_lwt_loop` for `while%lwt`. -/
def whileLoopCases (cond body : Expr) : Cases :=
  .cons (.value (.const .unit))
    (.ifThenElse cond (call₂ .bind body (.var loopName)) returnUnit) .nil

/-- `while%lwt` -/
def whileExpansion (cond body : Expr) : Expr :=
  .letRec loopName (whileLoopCases cond body) (.apply (.var loopName) Expr.unit)

/-- `>` or `<` -/
def Direction.compName : Direction → Name
  | upto => ">"
  | downto => "<"

/-- `+` or `-` -/
def Direction.opName : Direction → Name
  | upto => "+"
  | downto => "-"

open Lwt.Ppx.Expr in
/-- `fun () -> __ppx_lwt_loop (x OP 1)` -/
def forNextExpansion (x : Name) (dir : Direction) : Expr :=
  thunk (.apply (.var loopName)
    (.apply (.apply (.var dir.opName) (.var x)) (.const (.int 1))))

open Lwt.Ppx.Expr in
/-- The cases of `__ppx_lwt_loop` for `for%lwt`. -/
def forLoopCases (x : Name) (dir : Direction) (body : Expr) : Cases :=
  .cons (.value (.var x))
    (.ifThenElse (.apply (.apply (.var dir.compName) (.var x)) (.var boundName)) returnUnit
      (call₂ .bind body (forNextExpansion x dir))) .nil

/-- The bindings of `for%lwt`, and what follows them. -/
def forWith (x : Name) (dir : Direction) (bound body first : Expr) : Expr :=
  .letIn (.cons (.constraint (.var boundName)) bound .nil)
    (.letRec loopName (forLoopCases x dir body) first)

/-- `__ppx_lwt_loop start`, which has the form of an applied `[%finally]` when `start` is one. -/
def loopStart : Expr → Expr
  | .finallyAlone f => .finallyOf (.var loopName) f
  | start => .apply (.var loopName) start

/-- `for%lwt` -/
def forExpansion (x : Name) (start : Expr) (dir : Direction) (bound body : Expr) : Expr :=
  forWith x dir bound body (loopStart start)

open Lwt.Ppx.Expr in
/-- `try%lwt` -/
def tryExpansion (e : Expr) (cases : Cases) : Expr :=
  call₃ .backtraceCatch addBacktrace (thunk e) (.function cases.addWildcardCase)

/-- `true -> a | false -> b` -/
def ifCases (a b : Expr) : Cases :=
  .cons (.value (.const (.bool true))) a (.cons (.value (.const (.bool false))) b .nil)

open Lwt.Ppx.Expr in
/-- `if%lwt` -/
def ifExpansion (cond a b : Expr) : Expr := call₂ .bind cond (.function (ifCases a b))

open Lwt.Ppx.Expr in
/-- `[%finally]` -/
def finallyExpansion (e f : Expr) : Expr :=
  call₃ .backtraceFinalize addBacktrace (thunk e) (thunk f)

/-- The expansion of the first level after a `%lwt`, other than `e; %lwt e'`; `none` where `%lwt` is
not expanded. -/
def lwtExpression : Expr → Except Error (Option Expr)
  | .letIn bindings e => .ok (some (letExpansion bindings e))
  | .matchWith e cases =>
    if cases.values.isEmpty then .error .onlyExceptions
    else .ok (some (matchExpansion e cases))
  | .assertion e => .ok (some (assertExpansion e))
  | .whileDo cond body => .ok (some (whileExpansion cond body))
  | .forDo (some x) start dir bound body => .ok (some (forExpansion x start dir bound body))
  | .tryWith e cases => .ok (some (tryExpansion e cases))
  | .ifThenElse cond a b => .ok (some (ifExpansion cond a b))
  | .ifThen cond a => .ok (some (ifExpansion cond a Expr.returnUnit))
  | _ => .ok none

/-! ## The mapper -/

mutual

/-- A weight that the expansion of a level reduces. -/
def Expr.weight : Expr → ℕ
  | .var _ | .const _ | .outer _ | .lwtFunction _ | .reraise => 1
  | .construct _ e | .assertion e | .finallyAlone e => e.weight + 1
  | .pair a b | .apply a b | .sequence a b | .ifThen a b | .whileDo a b => a.weight + b.weight + 1
  | .function cases => cases.weight + 1
  | .letIn bindings e => bindings.weight + e.weight + 1
  | .letRec _ cases e | .matchWith e cases | .tryWith e cases => cases.weight + e.weight + 1
  | .ifThenElse a b c | .forDo _ a _ b c => a.weight + b.weight + c.weight + 1
  | .lwt e => 50 * e.weight
  | .finallyOf e f => e.weight + f.weight + 50

def Cases.weight : Cases → ℕ
  | .nil => 1
  | .cons _ rhs rest => rhs.weight + rest.weight + 1
  | .guarded _ guard rhs rest => guard.weight + rhs.weight + rest.weight + 1

def Bindings.weight : Bindings → ℕ
  | .nil => 1
  | .cons _ e rest => e.weight + rest.weight + 1

end

theorem Expr.weight_pos : ∀ e : Expr, 0 < e.weight
  | .lwt e => by
      have hpos := e.weight_pos
      simp only [Expr.weight]
      omega
  | .var _ | .const _ | .outer _ | .lwtFunction _ | .reraise => Nat.one_pos
  | .construct _ _ | .assertion _ | .finallyAlone _ | .pair _ _ | .apply _ _ | .sequence _ _
  | .ifThen _ _ | .whileDo _ _ | .function _ | .letIn _ _ | .letRec _ _ _ | .matchWith _ _
  | .tryWith _ _ | .ifThenElse _ _ _ | .forDo _ _ _ _ _ => Nat.succ_pos _
  | .finallyOf _ _ => by
      simp only [Expr.weight]
      omega

theorem Cases.weight_append (ds : Cases) : ∀ cs : Cases,
    (cs.append ds).weight + 1 = cs.weight + ds.weight
  | .nil => Nat.add_comm _ _
  | .cons _ _ rest | .guarded _ _ _ rest => by
      have ih := weight_append ds rest
      simp only [Cases.append, Cases.weight]
      omega

theorem Cases.weight_addWildcardCase (cs : Cases) : cs.addWildcardCase.weight ≤ cs.weight + 4 := by
  unfold addWildcardCase
  split
  · omega
  · have happend := weight_append reraiseCase cs
    simp only [reraiseCase, Cases.weight, Expr.weight] at happend ⊢
    omega

theorem Cases.weight_values_exns : ∀ cs : Cases,
    cs.values.weight + cs.exns.weight = cs.weight + 1
  | .nil => rfl
  | .cons (.value _) _ rest | .cons (.exn _) _ rest | .guarded (.value _) _ _ rest
  | .guarded (.exn _) _ _ rest => by
      have ih := rest.weight_values_exns
      simp only [Cases.values, Cases.exns, Cases.weight]
      omega

theorem Bindings.weight_genBindings : ∀ (i : ℕ) (bs : Bindings),
    (genBindings i bs).weight = bs.weight
  | _, .nil => rfl
  | i, .cons _ _ rest => by
      simp only [genBindings, Bindings.weight, weight_genBindings (i + 1) rest]

theorem Expr.weight_genBinds (e : Expr) : ∀ (i : ℕ) (bs : Bindings),
    (genBinds e i bs).weight + 20 ≤ e.weight + 20 * bs.weight
  | _, .nil => by simp [genBinds, Bindings.weight]
  | i, .cons _ e' rest => by
      have ih := weight_genBinds e (i + 1) rest
      have hpos := e'.weight_pos
      simp only [genBinds, call₃, call₂, addBacktrace, Expr.weight, Cases.weight, Bindings.weight]
        at ih ⊢
      omega

theorem weight_loopStart (start : Expr) : (loopStart start).weight ≤ start.weight + 50 := by
  unfold loopStart
  split <;> simp only [Expr.weight] <;> omega

/-- The expansion of a level weighs less than the level with its `%lwt`. -/
theorem weight_lwtExpression {e e' : Expr} (h : lwtExpression e = .ok (some e')) :
    e'.weight < (Expr.lwt e).weight := by
  cases e with
  | letIn bindings e =>
    obtain rfl : letExpansion bindings e = e' := by simpa [lwtExpression] using h
    have hbinds := e.weight_genBinds 0 bindings
    have hpos := e.weight_pos
    simp only [letExpansion, Expr.weight, Bindings.weight_genBindings]
    omega
  | matchWith e cases =>
    simp only [lwtExpression] at h
    -- without a value pattern there is no expansion
    split at h
    · cases h
    · obtain rfl : matchExpansion e cases = e' := by simpa using h
      have hparts := cases.weight_values_exns
      have hwild := cases.exns.weight_addWildcardCase
      simp only [matchExpansion, Expr.call₃, Expr.call₂, Expr.thunk, Expr.weight, Cases.weight]
      omega
  | assertion e =>
    obtain rfl : assertExpansion e = e' := by simpa [lwtExpression] using h
    simp only [assertExpansion, Cases.reraiseCase, Expr.weight, Cases.weight]
    omega
  | whileDo cond body =>
    obtain rfl : whileExpansion cond body = e' := by simpa [lwtExpression] using h
    simp only [whileExpansion, whileLoopCases, Expr.call₂, Expr.returnUnit, Expr.unit,
      Expr.weight, Cases.weight]
    omega
  | forDo x start dir bound body =>
    cases x with
    | none => simp [lwtExpression] at h
    | some x =>
      obtain rfl : forExpansion x start dir bound body = e' := by
        simpa [lwtExpression] using h
      -- a start that is a `[%finally]` weighs more in the call of the loop
      have hstart := weight_loopStart start
      have hpos := start.weight_pos
      simp only [forExpansion, forWith, forLoopCases, forNextExpansion, Expr.thunk, Expr.call₂,
        Expr.returnUnit, Expr.weight, Cases.weight, Bindings.weight]
      omega
  | tryWith e cases =>
    obtain rfl : tryExpansion e cases = e' := by simpa [lwtExpression] using h
    have hwild := cases.weight_addWildcardCase
    simp only [tryExpansion, Expr.call₃, Expr.call₂, Expr.thunk, Expr.addBacktrace, Expr.weight,
      Cases.weight]
    omega
  | ifThenElse cond a b =>
    obtain rfl : ifExpansion cond a b = e' := by simpa [lwtExpression] using h
    simp only [ifExpansion, ifCases, Expr.call₂, Expr.weight, Cases.weight]
    omega
  | ifThen cond a =>
    obtain rfl : ifExpansion cond a Expr.returnUnit = e' := by simpa [lwtExpression] using h
    simp only [ifExpansion, ifCases, Expr.call₂, Expr.returnUnit, Expr.weight, Cases.weight]
    omega
  | _ => simp [lwtExpression] at h

mutual

/-- `self#expression` -/
def expression : Expr → Except Error Expr
  | .lwt (.sequence lhs rhs) => do
      -- the components of a pair are evaluated from right to left
      let rhs ← expression rhs
      let lhs ← expression lhs
      return lwtSequence lhs rhs
  | .lwt e =>
    match h : lwtExpression e with
    | .error err => .error err
    | .ok (some e') =>
      have := weight_lwtExpression h
      expression e'
    | .ok none => .ok (.lwt e)
  | .finallyOf e f => superExpression (finallyExpansion e f)
  | .finallyAlone _ => .error .finallyAlone
  | e => superExpression e
termination_by e => 2 * e.weight + 1
decreasing_by
  · simp only [Expr.weight]
    omega
  · simp only [Expr.weight]
    omega
  · omega
  · simp only [finallyExpansion, Expr.call₃, Expr.call₂, Expr.thunk, Expr.addBacktrace,
      Expr.weight, Cases.weight]
    omega
  · omega

/-- `super#expression`: the mapper goes through the parts of an expression. -/
def superExpression : Expr → Except Error Expr
  | .var x => return .var x
  | .const c => return .const c
  | .outer x => return .outer x
  | .lwtFunction f => return .lwtFunction f
  | .reraise => return .reraise
  | .construct c e => return .construct c (← expression e)
  | .pair a b => return .pair (← expression a) (← expression b)
  | .function cases => return .function (← mapCases cases)
  | .apply f a => return .apply (← expression f) (← expression a)
  | .letIn bindings e => return .letIn (← mapBindings bindings) (← expression e)
  | .letRec f cases e => return .letRec f (← mapCases cases) (← expression e)
  | .sequence a b => return .sequence (← expression a) (← expression b)
  | .ifThenElse cond a b =>
    return .ifThenElse (← expression cond) (← expression a) (← expression b)
  | .ifThen cond a => return .ifThen (← expression cond) (← expression a)
  | .matchWith e cases => return .matchWith (← expression e) (← mapCases cases)
  | .tryWith e cases => return .tryWith (← expression e) (← mapCases cases)
  | .whileDo cond body => return .whileDo (← expression cond) (← expression body)
  | .forDo x start dir bound body =>
    return .forDo x (← expression start) dir (← expression bound) (← expression body)
  | .assertion e => return .assertion (← expression e)
  | .lwt e => return .lwt (← expression e)
  | .finallyOf e _ => do
      let _ ← expression e
      .error .finallyAlone
  | .finallyAlone f => return .finallyAlone (← expression f)
termination_by e => 2 * e.weight
decreasing_by
  all_goals try have hpos := Expr.weight_pos e
  all_goals simp only [Expr.weight]
  all_goals omega

def mapCases : Cases → Except Error Cases
  | .nil => return .nil
  | .cons p rhs rest => return .cons p (← expression rhs) (← mapCases rest)
  | .guarded p guard rhs rest =>
    return .guarded p (← expression guard) (← expression rhs) (← mapCases rest)
termination_by cases => 2 * cases.weight
decreasing_by
  all_goals simp only [Cases.weight]
  all_goals omega

def mapBindings : Bindings → Except Error Bindings
  | .nil => return .nil
  | .cons p e rest => return .cons p (← expression e) (← mapBindings rest)
termination_by bindings => 2 * bindings.weight
decreasing_by
  all_goals simp only [Bindings.weight]
  all_goals omega

end

/-! ## What the mapper makes of an expression -/

mutual

/-- The expression that the mapper returns, unless it reports an error. -/
def expand : Expr → Expr
  | .construct c e => .construct c (expand e)
  | .pair a b => .pair (expand a) (expand b)
  | .function cases => .function (expandCases cases)
  | .apply f a => .apply (expand f) (expand a)
  | .letIn bindings e => .letIn (expandBindings bindings) (expand e)
  | .letRec f cases e => .letRec f (expandCases cases) (expand e)
  | .sequence a b => .sequence (expand a) (expand b)
  | .ifThenElse cond a b => .ifThenElse (expand cond) (expand a) (expand b)
  | .ifThen cond a => .ifThen (expand cond) (expand a)
  | .matchWith e cases => .matchWith (expand e) (expandCases cases)
  | .tryWith e cases => .tryWith (expand e) (expandCases cases)
  | .whileDo cond body => .whileDo (expand cond) (expand body)
  | .forDo x start dir bound body =>
    .forDo x (expand start) dir (expand bound) (expand body)
  | .assertion e => .assertion (expand e)
  | .lwt (.sequence lhs rhs) => lwtSequence (expand lhs) (expand rhs)
  | .lwt (.letIn bindings e) => letExpansion (expandBindings bindings) (expand e)
  | .lwt (.matchWith e cases) => matchExpansion (expand e) (expandCases cases)
  | .lwt (.assertion e) => assertExpansion (expand e)
  | .lwt (.whileDo cond body) => whileExpansion (expand cond) (expand body)
  | .lwt (.forDo (some x) (.finallyAlone f) dir bound body) =>
    forWith x dir (expand bound) (expand body) (finallyExpansion (.var loopName) (expand f))
  | .lwt (.forDo (some x) start dir bound body) =>
    forWith x dir (expand bound) (expand body) (.apply (.var loopName) (expand start))
  | .lwt (.tryWith e cases) => tryExpansion (expand e) (expandCases cases)
  | .lwt (.ifThenElse cond a b) => ifExpansion (expand cond) (expand a) (expand b)
  | .lwt (.ifThen cond a) => ifExpansion (expand cond) (expand a) Expr.returnUnit
  | .finallyOf e f => finallyExpansion (expand e) (expand f)
  | e => e

def expandCases : Cases → Cases
  | .nil => .nil
  | .cons p rhs rest => .cons p (expand rhs) (expandCases rest)
  | .guarded p guard rhs rest => .guarded p (expand guard) (expand rhs) (expandCases rest)

def expandBindings : Bindings → Bindings
  | .nil => .nil
  | .cons p e rest => .cons p (expand e) (expandBindings rest)

end

namespace Cases

@[simp] theorem hasWildcard_expandCases : ∀ cs : Cases,
    (expandCases cs).hasWildcard = cs.hasWildcard
  | .nil => rfl
  | .cons p _ rest => congrArg (p.isCatchall || ·) (hasWildcard_expandCases rest)
  | .guarded _ _ _ rest => hasWildcard_expandCases rest

theorem expandCases_append (ds : Cases) : ∀ cs : Cases,
    expandCases (cs.append ds) = (expandCases cs).append (expandCases ds)
  | .nil => rfl
  | .cons p rhs rest => congrArg (Cases.cons p (expand rhs)) (expandCases_append ds rest)
  | .guarded p g rhs rest =>
    congrArg (Cases.guarded p (expand g) (expand rhs)) (expandCases_append ds rest)

theorem expandCases_addWildcardCase (cs : Cases) :
    expandCases cs.addWildcardCase = (expandCases cs).addWildcardCase := by
  unfold addWildcardCase
  rw [hasWildcard_expandCases]
  split
  · rfl
  · exact expandCases_append reraiseCase cs

theorem expandCases_values : ∀ cs : Cases, expandCases cs.values = (expandCases cs).values
  | .nil => rfl
  | .cons (.value p) rhs rest =>
    congrArg (Cases.cons (.value p) (expand rhs)) (expandCases_values rest)
  | .guarded (.value p) g rhs rest =>
    congrArg (Cases.guarded (.value p) (expand g) (expand rhs)) (expandCases_values rest)
  | .cons (.exn _) _ rest | .guarded (.exn _) _ _ rest => expandCases_values rest

theorem expandCases_exns : ∀ cs : Cases, expandCases cs.exns = (expandCases cs).exns
  | .nil => rfl
  | .cons (.exn p) rhs rest =>
    congrArg (Cases.cons (.value p) (expand rhs)) (expandCases_exns rest)
  | .guarded (.exn p) g rhs rest =>
    congrArg (Cases.guarded (.value p) (expand g) (expand rhs)) (expandCases_exns rest)
  | .cons (.value _) _ rest | .guarded (.value _) _ _ rest => expandCases_exns rest

end Cases

theorem expandBindings_genBindings : ∀ (i : ℕ) (bs : Bindings),
    expandBindings (genBindings i bs) = genBindings i (expandBindings bs)
  | _, .nil => rfl
  | i, .cons _ e rest =>
    congrArg (Bindings.cons (.var (genName i)) (expand e))
      (expandBindings_genBindings (i + 1) rest)

theorem expand_genBinds (e : Expr) : ∀ (i : ℕ) (bs : Bindings),
    expand (genBinds e i bs) = genBinds (expand e) i (expandBindings bs)
  | _, .nil => rfl
  | i, .cons p e' rest => by
      simp only [genBinds, Expr.call₃, Expr.call₂, Expr.addBacktrace, expand, expandCases,
        expandBindings, expand_genBinds e (i + 1) rest]

/-- The parts of a level may be expanded before or after the level. -/
theorem expand_lwtExpression {e e' : Expr} (h : lwtExpression e = .ok (some e')) :
    expand e' = expand (.lwt e) := by
  cases e with
  | letIn bindings e =>
    obtain rfl : letExpansion bindings e = e' := by simpa [lwtExpression] using h
    simp only [letExpansion, expand, expandBindings_genBindings, expand_genBinds]
  | matchWith e cases =>
    simp only [lwtExpression] at h
    split at h
    · cases h
    · obtain rfl : matchExpansion e cases = e' := by simpa using h
      simp only [matchExpansion, Expr.call₃, Expr.call₂, Expr.thunk, expand, expandCases,
        Cases.expandCases_values, Cases.expandCases_exns, Cases.expandCases_addWildcardCase]
  | forDo x start dir bound body =>
    cases x with
    | none => simp [lwtExpression] at h
    | some x =>
      obtain rfl : forExpansion x start dir bound body = e' := by
        simpa [lwtExpression] using h
      -- `__ppx_lwt_loop start` is itself expanded when `start` is a `[%finally]`
      cases start <;> rfl
  | tryWith e cases =>
    obtain rfl : tryExpansion e cases = e' := by simpa [lwtExpression] using h
    simp only [tryExpansion, Expr.call₃, Expr.call₂, Expr.thunk, Expr.addBacktrace, expand,
      expandCases, Cases.expandCases_addWildcardCase]
  | assertion _ | whileDo _ _ | ifThenElse _ _ _ | ifThen _ _ =>
    simp only [lwtExpression, Except.ok.injEq, Option.some.injEq] at h
    subst h
    rfl
  | _ => simp [lwtExpression] at h

/-! ## What the mapper accepts -/

mutual

/-- The mapper meets no `match%lwt` without a value pattern, and no `[%finally]` on its own.  Where
a `for%lwt` starts it does not meet one. -/
def Expr.isAccepted : Expr → Bool
  | .var _ | .const _ | .outer _ | .lwtFunction _ | .reraise => true
  | .construct _ e | .assertion e => e.isAccepted
  | .pair a b | .apply a b | .sequence a b | .ifThen a b | .whileDo a b | .finallyOf a b =>
    a.isAccepted && b.isAccepted
  | .function cases => cases.isAccepted
  | .letIn bindings e => bindings.isAccepted && e.isAccepted
  | .letRec _ cases e | .matchWith e cases | .tryWith e cases => e.isAccepted && cases.isAccepted
  | .ifThenElse a b c | .forDo _ a _ b c => a.isAccepted && b.isAccepted && c.isAccepted
  | .lwt (.sequence a b) | .lwt (.whileDo a b) | .lwt (.ifThen a b) => a.isAccepted && b.isAccepted
  | .lwt (.letIn bindings e) => bindings.isAccepted && e.isAccepted
  | .lwt (.matchWith e cases) => !cases.values.isEmpty && (e.isAccepted && cases.isAccepted)
  | .lwt (.assertion e) => e.isAccepted
  | .lwt (.forDo (some _) (.finallyAlone f) _ b c) => f.isAccepted && b.isAccepted && c.isAccepted
  | .lwt (.forDo (some _) a _ b c) | .lwt (.ifThenElse a b c) =>
    a.isAccepted && b.isAccepted && c.isAccepted
  | .lwt (.tryWith e cases) => e.isAccepted && cases.isAccepted
  -- what follows the `%lwt` is not looked at
  | .lwt _ => true
  | .finallyAlone _ => false

def Cases.isAccepted : Cases → Bool
  | .nil => true
  | .cons _ rhs rest => rhs.isAccepted && rest.isAccepted
  | .guarded _ guard rhs rest => guard.isAccepted && rhs.isAccepted && rest.isAccepted

def Bindings.isAccepted : Bindings → Bool
  | .nil => true
  | .cons _ e rest => e.isAccepted && rest.isAccepted

end

/-! ### The mapper and `expand` -/

theorem bind_eq_ok {α β : Type} {x : Except Error α} {f : α → Except Error β} {b : β} :
    x >>= f = .ok b ↔ ∃ a, x = .ok a ∧ f a = .ok b := by
  cases x with
  | error e => simp [bind, Except.bind]
  | ok a => simp [bind, Except.bind]

theorem pure_eq_ok {α : Type} {a b : α} : (pure a : Except Error α) = .ok b ↔ a = b := by
  simp [pure, Except.pure]

/-- What `super#expression` returns: a `%lwt` at the top stays. -/
def expandParts : Expr → Expr
  | .lwt e => .lwt (expand e)
  | .finallyAlone f => .finallyAlone (expand f)
  | e => expand e

theorem expandParts_of_ne {e : Expr} (hlwt : ∀ e', e ≠ .lwt e')
    (halone : ∀ f, e ≠ .finallyAlone f) : expandParts e = expand e := by
  unfold expandParts
  split
  · exact absurd rfl (hlwt _)
  · exact absurd rfl (halone _)
  · rfl

theorem expression_lwt_of_error {e : Expr} {err : Error} (hne : ∀ lhs rhs, e ≠ .sequence lhs rhs)
    (h : lwtExpression e = .error err) : expression (.lwt e) = .error err := by
  rw [expression]
  · split
    · rename_i herr
      rw [Except.error.inj (h.symm.trans herr)]
    · rename_i hsome
      cases h.symm.trans hsome
    · rename_i hnone
      cases h.symm.trans hnone
  · exact hne

theorem expression_lwt_of_some {e e' : Expr} (hne : ∀ lhs rhs, e ≠ .sequence lhs rhs)
    (h : lwtExpression e = .ok (some e')) : expression (.lwt e) = expression e' := by
  rw [expression]
  · split
    · rename_i herr
      cases h.symm.trans herr
    · rename_i hsome
      rw [Option.some.inj (Except.ok.inj (h.symm.trans hsome))]
    · rename_i hnone
      cases h.symm.trans hnone
  · exact hne

theorem expression_lwt_of_none {e : Expr} (hne : ∀ lhs rhs, e ≠ .sequence lhs rhs)
    (h : lwtExpression e = .ok none) : expression (.lwt e) = .ok (.lwt e) := by
  rw [expression]
  · split
    · rename_i herr
      cases h.symm.trans herr
    · rename_i hsome
      cases h.symm.trans hsome
    · rfl
  · exact hne

/-- A `%lwt` that is not expanded stays with all that it holds, and is accepted. -/
theorem expand_lwt_of_none {e : Expr} (hne : ∀ lhs rhs, e ≠ .sequence lhs rhs)
    (h : lwtExpression e = .ok none) :
    expand (.lwt e) = .lwt e ∧ (Expr.lwt e).isAccepted = true := by
  cases e with
  | sequence lhs rhs => exact absurd rfl (hne lhs rhs)
  | matchWith e cases =>
    simp only [lwtExpression] at h
    split at h <;> cases h
  | forDo x start dir bound body =>
    cases x with
    | none => exact ⟨rfl, rfl⟩
    | some x => cases h
  | letIn _ _ | assertion _ | whileDo _ _ | tryWith _ _ | ifThenElse _ _ _ | ifThen _ _ => cases h
  | _ => exact ⟨rfl, rfl⟩

theorem expression_eq_expand {e e' : Expr} (h : expression e = .ok e') : e' = expand e := by
  induction e using expression.induct _
    (fun e => ∀ e', superExpression e = .ok e' → e' = expandParts e)
    (fun bs => ∀ bs', mapBindings bs = .ok bs' → bs' = expandBindings bs)
    (fun cs => ∀ cs', mapCases cs = .ok cs' → cs' = expandCases cs)
    generalizing e' with
  | case1 lhs rhs ihr ihl =>
    simp only [expression, bind_eq_ok, pure_eq_ok] at h
    obtain ⟨b, hb, a, ha, rfl⟩ := h
    rw [ihl ha, ihr hb, expand]
  | case2 e hne err herr =>
    rw [expression_lwt_of_error hne herr] at h
    cases h
  | case3 e hne e₁ he₁ _ ih =>
    rw [expression_lwt_of_some hne he₁] at h
    rw [ih h, expand_lwtExpression he₁]
  | case4 e hne hnone =>
    rw [expression_lwt_of_none hne hnone] at h
    rw [(expand_lwt_of_none hne hnone).1, Except.ok.inj h]
  -- the parts of the expansion of `[%finally]` are mapped, as those of any other expression
  | case5 e f ih =>
    rw [expression] at h
    rw [ih _ h]
    rfl
  | case6 =>
    rw [expression] at h
    cases h
  | case7 e hsequence hlwt hfinally halone ih =>
    rw [expression] at h
    · rw [ih _ h]
      exact expandParts_of_ne hlwt halone
    all_goals assumption
  | case8 _ out h | case9 _ out h | case10 _ out h | case11 _ out h | case12 out h =>
    rw [superExpression, pure_eq_ok] at h
    exact h.symm
  | case13 _ e ih out h | case26 e ih out h | case27 e ih out h | case29 e ih out h =>
    simp only [superExpression, bind_eq_ok, pure_eq_ok] at h
    obtain ⟨a, ha, rfl⟩ := h
    rw [ih ha]
    rfl
  | case14 a b iha ihb out h | case16 a b iha ihb out h | case19 a b iha ihb out h
  | case21 a b iha ihb out h | case24 a b iha ihb out h =>
    simp only [superExpression, bind_eq_ok, pure_eq_ok] at h
    obtain ⟨a', ha, b', hb, rfl⟩ := h
    rw [iha ha, ihb hb]
    rfl
  | case15 cases ih out h =>
    simp only [superExpression, bind_eq_ok, pure_eq_ok] at h
    obtain ⟨cs, hcs, rfl⟩ := h
    rw [ih _ hcs]
    rfl
  | case17 bindings e ihb ihe out h =>
    simp only [superExpression, bind_eq_ok, pure_eq_ok] at h
    obtain ⟨bs, hbs, a, ha, rfl⟩ := h
    rw [ihb _ hbs, ihe ha]
    rfl
  | case18 f cases e ihcs ihe out h =>
    simp only [superExpression, bind_eq_ok, pure_eq_ok] at h
    obtain ⟨cs, hcs, a, ha, rfl⟩ := h
    rw [ihcs _ hcs, ihe ha]
    rfl
  | case20 a b c iha ihb ihc out h =>
    simp only [superExpression, bind_eq_ok, pure_eq_ok] at h
    obtain ⟨a', ha, b', hb, c', hc, rfl⟩ := h
    rw [iha ha, ihb hb, ihc hc]
    rfl
  | case22 e cases ihe ihcs out h | case23 e cases ihe ihcs out h =>
    simp only [superExpression, bind_eq_ok, pure_eq_ok] at h
    obtain ⟨a, ha, cs, hcs, rfl⟩ := h
    rw [ihe ha, ihcs _ hcs]
    rfl
  | case25 x start dir bound body ihs ihb ihbody out h =>
    simp only [superExpression, bind_eq_ok, pure_eq_ok] at h
    obtain ⟨a, ha, b, hb, c, hc, rfl⟩ := h
    rw [ihs ha, ihb hb, ihbody hc]
    cases x <;> rfl
  | case28 e f ih out h =>
    simp only [superExpression, bind_eq_ok] at h
    obtain ⟨a, ha, h⟩ := h
    cases h
  | case30 out h =>
    rw [mapBindings, pure_eq_ok] at h
    rw [← h, expandBindings]
  | case31 p e rest ihe ihr out h =>
    simp only [mapBindings, bind_eq_ok, pure_eq_ok] at h
    obtain ⟨a, ha, b, hb, rfl⟩ := h
    rw [ihe ha, ihr _ hb, expandBindings]
  | case32 out h =>
    rw [mapCases, pure_eq_ok] at h
    rw [← h, expandCases]
  | case33 p rhs rest ihrhs ihrest out h =>
    simp only [mapCases, bind_eq_ok, pure_eq_ok] at h
    obtain ⟨a, ha, b, hb, rfl⟩ := h
    rw [ihrhs ha, ihrest _ hb, expandCases]
  | case34 p guard rhs rest ihguard ihrhs ihrest out h =>
    simp only [mapCases, bind_eq_ok, pure_eq_ok] at h
    obtain ⟨a, ha, b, hb, c, hc, rfl⟩ := h
    rw [ihguard ha, ihrhs hb, ihrest _ hc, expandCases]

/-! ### The programs that are accepted -/

namespace Cases

theorem isAccepted_append (ds : Cases) : ∀ cs : Cases,
    (cs.append ds).isAccepted = (cs.isAccepted && ds.isAccepted)
  | .nil => rfl
  | .cons _ _ rest | .guarded _ _ _ rest => by
      simp only [append, isAccepted, isAccepted_append ds rest, Bool.and_assoc]

@[simp] theorem isAccepted_addWildcardCase (cs : Cases) :
    cs.addWildcardCase.isAccepted = cs.isAccepted := by
  unfold addWildcardCase
  split
  · rfl
  · rw [isAccepted_append, show reraiseCase.isAccepted = true from rfl, Bool.and_true]

theorem isAccepted_values_exns : ∀ cs : Cases,
    (cs.values.isAccepted && cs.exns.isAccepted) = cs.isAccepted
  | .nil => rfl
  | .cons (.value _) _ rest | .cons (.exn _) _ rest | .guarded (.value _) _ _ rest
  | .guarded (.exn _) _ _ rest => by
      simp only [values, exns, isAccepted, ← isAccepted_values_exns rest]
      grind

end Cases

theorem Bindings.isAccepted_genBindings : ∀ (i : ℕ) (bs : Bindings),
    (genBindings i bs).isAccepted = bs.isAccepted
  | _, .nil => rfl
  | i, .cons _ _ rest => by
      simp only [genBindings, isAccepted, isAccepted_genBindings (i + 1) rest]

theorem Expr.isAccepted_genBinds (e : Expr) : ∀ (i : ℕ) (bs : Bindings),
    (genBinds e i bs).isAccepted = e.isAccepted
  | _, .nil => rfl
  | i, .cons _ _ rest => by
      simp only [genBinds, call₃, call₂, addBacktrace, Expr.isAccepted, Cases.isAccepted,
        Bool.true_and, Bool.and_true, isAccepted_genBinds e (i + 1) rest]

theorem isAccepted_lwtExpression {e e' : Expr} (h : lwtExpression e = .ok (some e')) :
    e'.isAccepted = (Expr.lwt e).isAccepted := by
  cases e with
  | letIn bindings e =>
    obtain rfl : letExpansion bindings e = e' := by simpa [lwtExpression] using h
    simp only [letExpansion, Expr.isAccepted, Bindings.isAccepted_genBindings,
      Expr.isAccepted_genBinds]
  | matchWith e cases =>
    simp only [lwtExpression] at h
    split at h
    · cases h
    · rename_i hvalues
      obtain rfl : matchExpansion e cases = e' := by simpa using h
      have hparts := cases.isAccepted_values_exns
      simp only [matchExpansion, Expr.call₃, Expr.call₂, Expr.thunk, Expr.isAccepted,
        Cases.isAccepted, Cases.isAccepted_addWildcardCase, ← hparts, hvalues]
      simp [Bool.and_assoc]
  | forDo x start dir bound body =>
    cases x with
    | none => simp [lwtExpression] at h
    | some x =>
      obtain rfl : forExpansion x start dir bound body = e' := by
        simpa [lwtExpression] using h
      cases start <;>
        simp [forExpansion, forWith, loopStart, forLoopCases, forNextExpansion, Expr.thunk,
          Expr.call₂, Expr.returnUnit, Expr.isAccepted, Cases.isAccepted,
          Bindings.isAccepted] <;>
        grind
  | tryWith e cases =>
    obtain rfl : tryExpansion e cases = e' := by simpa [lwtExpression] using h
    simp [tryExpansion, Expr.call₃, Expr.call₂, Expr.thunk, Expr.addBacktrace, Expr.isAccepted,
      Cases.isAccepted]
  | assertion _ | whileDo _ _ | ifThenElse _ _ _ | ifThen _ _ =>
    simp only [lwtExpression, Except.ok.injEq, Option.some.injEq] at h
    subst h
    simp [assertExpansion, whileExpansion, whileLoopCases, ifExpansion, ifCases,
      Cases.reraiseCase, Expr.call₂, Expr.returnUnit, Expr.unit, Expr.isAccepted,
      Cases.isAccepted, Bool.and_assoc]
  | _ => simp [lwtExpression] at h

section IsOk

variable {α β γ δ : Type} (x : Except Error α) (y : Except Error β) (z : Except Error γ)

theorem isOk_map (f : α → δ) : (x >>= fun a => pure (f a)).isOk = x.isOk := by
  cases x <;> rfl

theorem isOk_map₂ (f : α → β → δ) :
    (x >>= fun a => y >>= fun b => pure (f a b)).isOk = (x.isOk && y.isOk) := by
  cases x with
  | error => rfl
  | ok a => exact isOk_map y (f a)

theorem isOk_map₃ (f : α → β → γ → δ) :
    (x >>= fun a => y >>= fun b => z >>= fun c => pure (f a b c)).isOk =
      (x.isOk && y.isOk && z.isOk) := by
  cases x with
  | error => rfl
  | ok a => exact isOk_map₂ y z (f a)

end IsOk

theorem isAccepted_lwt_of_error {e : Expr} {err : Error} (h : lwtExpression e = .error err) :
    (Expr.lwt e).isAccepted = false := by
  cases e with
  | matchWith e cases =>
    simp only [lwtExpression] at h
    split at h
    · rename_i hvalues
      simp only [Expr.isAccepted, hvalues, Bool.not_true, Bool.false_and]
    · cases h
  | forDo x _ _ _ _ => cases x <;> cases h
  | _ => cases h

theorem isOk_expression (e : Expr) : (expression e).isOk = e.isAccepted := by
  induction e using expression.induct _
    (fun e => (∀ e', e ≠ .lwt e') → (∀ e' f, e ≠ .finallyOf e' f) → (∀ f, e ≠ .finallyAlone f) →
      (superExpression e).isOk = e.isAccepted)
    (fun bs => (mapBindings bs).isOk = bs.isAccepted)
    (fun cs => (mapCases cs).isOk = cs.isAccepted) with
  | case1 lhs rhs ihr ihl =>
    rw [expression, isOk_map₂, ihr, ihl, Bool.and_comm]
    rfl
  | case2 e hne err herr =>
    -- `[%lwt ..]`: the mapper expands first, and maps what it gets
    rw [expression_lwt_of_error hne herr, isAccepted_lwt_of_error herr]
    rfl
  | case3 e hne e₁ he₁ _ ih =>
    rw [expression_lwt_of_some hne he₁, ih, isAccepted_lwtExpression he₁]
  | case4 e hne hnone =>
    rw [expression_lwt_of_none hne hnone, (expand_lwt_of_none hne hnone).2]
    rfl
  | case5 e f ih =>
    rw [expression, ih (by intro _ h; cases h) (by intro _ _ h; cases h) (by intro _ h; cases h)]
    simp only [finallyExpansion, Expr.call₃, Expr.call₂, Expr.thunk, Expr.addBacktrace,
      Expr.isAccepted, Cases.isAccepted, Bool.true_and, Bool.and_true]
  | case6 =>
    rw [expression]
    rfl
  | case7 e hsequence hlwt hfinally halone ih =>
    -- the forms that the mapper leaves to `super#expression`
    rw [expression]
    · exact ih hlwt hfinally halone
    all_goals assumption
  | case8 | case9 | case10 | case11 | case12 =>
    rw [superExpression]
    rfl
  | case13 _ e ih | case26 e ih =>
    rw [superExpression, isOk_map, ih, Expr.isAccepted]
  | case27 e ih hlwt => exact absurd rfl (hlwt e)
  | case28 e f ih _ hfinally => exact absurd rfl (hfinally e f)
  | case29 e ih _ _ halone => exact absurd rfl (halone e)
  | case14 a b iha ihb | case16 a b iha ihb | case19 a b iha ihb | case21 a b iha ihb
  | case24 a b iha ihb =>
    rw [superExpression, isOk_map₂, iha, ihb, Expr.isAccepted]
  | case15 cases ih => rw [superExpression, isOk_map, ih, Expr.isAccepted]
  | case17 bindings e ihb ihe => rw [superExpression, isOk_map₂, ihb, ihe, Expr.isAccepted]
  | case18 f cases e ihcs ihe =>
    rw [superExpression, isOk_map₂, ihcs, ihe, Expr.isAccepted, Bool.and_comm]
  | case20 a b c iha ihb ihc => rw [superExpression, isOk_map₃, iha, ihb, ihc, Expr.isAccepted]
  | case22 e cases ihe ihcs | case23 e cases ihe ihcs =>
    rw [superExpression, isOk_map₂, ihe, ihcs, Expr.isAccepted]
  | case25 x start dir bound body ihs ihb ihbody =>
    rw [superExpression, isOk_map₃, ihs, ihb, ihbody, Expr.isAccepted]
  | case30 =>
    rw [mapBindings]
    rfl
  | case31 p e rest ihe ihr => rw [mapBindings, isOk_map₂, ihe, ihr, Bindings.isAccepted]
  | case32 =>
    rw [mapCases]
    rfl
  | case33 p rhs rest ihrhs ihrest =>
    rw [mapCases, isOk_map₂, ihrhs, ihrest, Cases.isAccepted]
  | case34 p guard rhs rest ihguard ihrhs ihrest =>
    rw [mapCases, isOk_map₃, ihguard, ihrhs, ihrest, Cases.isAccepted]

theorem expression_of_isAccepted {e : Expr} (h : e.isAccepted = true) :
    expression e = .ok (expand e) := by
  rw [← isOk_expression] at h
  cases hok : expression e with
  | error err =>
    rw [hok] at h
    cases h
  | ok e' => rw [expression_eq_expand hok]

/-- The mapper, which goes through the code that it has generated, expands all at once the programs
that it accepts, and reports an error for the others. -/
theorem expression_eq_ok_iff {e e' : Expr} :
    expression e = .ok e' ↔ e.isAccepted = true ∧ e' = expand e := by
  constructor
  · intro h
    refine ⟨?_, expression_eq_expand h⟩
    rw [← isOk_expression, h]
    rfl
  · rintro ⟨haccepted, rfl⟩
    exact expression_of_isAccepted haccepted

end Lwt.Ppx
