import Lwt.Library.Interaction
import Lwt.Ppx.Mapper

/-!
# What `%lwt` means

A program is run by a machine with a control and a stack of frames.  What is outside the program,
the functions of `Lwt` among it, is a party of its own: the program calls it, and returns to it what
it has been called for; and the outside answers the calls, and applies the functions that it has
been given, whenever it has control and to any value.  The events of a run are these calls, returns
and answers.  A function that is given away is known to the outside by its place in a list, so an
event does not show how the program represents it.

An expression after a `%lwt` has a meaning of its own here, apart from its expansion: which function
of `Lwt` is called with which promises, and what the functions given to it do.  For instance
`let%lwt` first evaluates all the expressions that are bound, and waits for their promises in the
order of the bindings; `while%lwt` evaluates its condition anew when the promise of the body is
fulfilled.  There are no names in these meanings other than the names of the program.

The operators that `for%lwt` needs are those of the integers, so they are stuck for other values.
-/

namespace Lwt.Ppx

open Io.Slices

/-! ## Values -/

/-- The operators `>` and `<`, `+` and `-`. -/
inductive Operator
  | comp (dir : Direction)
  | plus (dir : Direction)

def operator (x : Name) : Option Operator :=
  if x = Direction.upto.compName then some (.comp .upto)
  else if x = Direction.downto.compName then some (.comp .downto)
  else if x = Direction.upto.opName then some (.plus .upto)
  else if x = Direction.downto.opName then some (.plus .downto)
  else none

/-- `i + n` or `i - n` -/
def Direction.plus : Direction → Int63 → Int63 → Int63
  | upto, i, n => i + n
  | downto, i, n => i - n

mutual

inductive Val
  | const (c : Const)
  | construct (c : Name) (v : Val)
  | pair (v w : Val)
  /-- A value of the outside: a promise, or a function. -/
  | outer (x : Name)
  /-- A function of `Lwt`, with the arguments that it has so far. -/
  | lwtFunction (f : LwtFunction) (args : Vals)
  | reraise
  | operator (o : Operator)
  | operatorWith (o : Operator) (n : Int63)
  | closure (ρ : Env) (cases : Cases)
  | recClosure (ρ : Env) (f : Name) (cases : Cases)
  /-- The function that adds to the backtrace of an exception, and returns it. -/
  | addBacktrace
  /-- The handler of `try%lwt` and `match%lwt`, which raises again what no case catches. -/
  | handler (ρ : Env) (cases : Cases)
  /-- What waits for the promise of a binding of `let%lwt`: the pattern, the bindings after it with
  their promises, and the body. -/
  | awaiting (ρ : Env) (p : Pat) (rest : Bindings) (promises : Vals) (e : Expr)
  /-- What waits for the promise of the body of `while%lwt`. -/
  | whileLoop (ρ : Env) (cond body : Expr)
  /-- What waits for the promise of the body of `for%lwt`, for the index `i`. -/
  | forNext (ρ : Env) (x : Name) (dir : Direction) (i bound : Int63) (body : Expr)

inductive Vals
  | nil
  | cons (v : Val) (rest : Vals)

inductive Env
  | nil
  | cons (x : Name) (v : Val) (rest : Env)

end

namespace Vals

def snoc : Vals → Val → Vals
  | nil, w => cons w nil
  | cons v rest, w => cons v (rest.snoc w)

def length : Vals → ℕ
  | nil => 0
  | cons _ rest => rest.length + 1

def toList : Vals → List Val
  | nil => []
  | cons v rest => v :: rest.toList

end Vals

def Env.find : Env → Name → Option Val
  | nil, _ => none
  | cons y v ρ, x => if y = x then some v else ρ.find x

namespace Val

def unit : Val := .const .unit

/-- `Lwt.return_unit` -/
def returnUnit : Val := .outer "Lwt.return_unit"

def int (n : Int63) : Val := .const (.int n)

def bool (b : Bool) : Val := .const (.bool b)

/-- `Match_failure`, without the location. -/
def matchFailure : Val := .const (.constructor "Match_failure")

/-- `Assert_failure`, without the location. -/
def assertFailure : Val := .const (.constructor "Assert_failure")

end Val

def LwtFunction.arity : LwtFunction → ℕ
  | bind => 2
  | backtraceBind | tryBind | backtraceCatch | backtraceFinalize => 3
  | lwtReturn => 1

/-- The environment with what the pattern binds, if the value matches it. -/
def Pat.matches : Pat → Val → Env → Option Env
  | any, _, ρ => some ρ
  | var x, v, ρ => some (.cons x v ρ)
  | aliased p x, v, ρ => (p.matches v ρ).map (.cons x v)
  | constraint p, v, ρ => p.matches v ρ
  | const c, .const d, ρ => if c = d then some ρ else none
  | construct c p, .construct d v, ρ => if c = d then p.matches v ρ else none
  | pair p q, .pair v w, ρ => (p.matches v ρ).bind (q.matches w)
  | or p q, v, ρ => (p.matches v ρ).or (q.matches v ρ)
  | _, _, _ => none

/-- What the cases are tried for: a value, or an exception that was raised. -/
inductive Outcome
  | value
  | exn

def CasePat.matches : Outcome → CasePat → Val → Env → Option Env
  | .value, value p, v, ρ => p.matches v ρ
  | .exn, exn p, x, ρ => p.matches x ρ
  | _, _, _, _ => none

/-! ## The machine -/

inductive Control
  | eval (e : Expr) (ρ : Env)
  | ret (v : Val)
  | throw (x : Val)
  | apply (f v : Val)
  /-- The cases are tried for `v`; where there is none, `otherwise` is raised. -/
  | select (o : Outcome) (v otherwise : Val) (cases : Cases) (ρ : Env)
  /-- The outside has control. -/
  | outside

inductive Frame
  /-- The argument of an application is evaluated, and then the function. -/
  | argument (f : Expr) (ρ : Env)
  | function (arg : Val)
  | construct (c : Name)
  | pairSecond (a : Expr) (ρ : Env)
  | pairFirst (w : Val)
  /-- A binding: its pattern, the rest, and the environment of the body so far. -/
  | binding (p : Pat) (rest : Bindings) (e : Expr) (ρ acc : Env)
  | sequence (b : Expr) (ρ : Env)
  | ifThenElse (a b : Expr) (ρ : Env)
  | ifThen (a : Expr) (ρ : Env)
  | matchWith (cases : Cases) (ρ : Env)
  | tryWith (cases : Cases) (ρ : Env)
  /-- The guard of a case, which is `rhs` in `ρ'`. -/
  | guard (o : Outcome) (v otherwise : Val) (rhs : Expr) (ρ' : Env) (rest : Cases) (ρ : Env)
  | whileCond (cond body : Expr) (ρ : Env)
  | whileBody (cond body : Expr) (ρ : Env)
  | forStart (x : Option Name) (dir : Direction) (bound body : Expr) (ρ : Env)
  | forBound (x : Option Name) (start : Int63) (dir : Direction) (body : Expr) (ρ : Env)
  | forBody (x : Option Name) (i : Int63) (dir : Direction) (bound : Int63) (body : Expr) (ρ : Env)
  | assertion
  | sequenceLwt (b : Expr) (ρ : Env)
  /-- The bindings of `let%lwt` that are left, all of them, and the promises so far. -/
  | letLwt (todo bindings : Bindings) (promises : Vals) (e : Expr) (ρ : Env)
  | ifLwt (a b : Expr) (ρ : Env)
  | whileLwtCond (cond body : Expr) (ρ : Env)
  | whileLwtBody (cond body : Expr) (ρ : Env)
  | forLwtBound (x : Name) (start : Expr) (dir : Direction) (body : Expr) (ρ : Env)
  | forLwtStart (x : Name) (dir : Direction) (bound : Val) (body : Expr) (ρ : Env)
  | forLwtBody (x : Name) (i : Int63) (dir : Direction) (bound : Int63) (body : Expr) (ρ : Env)
  | assertLwt
  /-- The outside has applied a function of the program. -/
  | boundary

abbrev Stack := List Frame

abbrev Config := Control × Stack

/-- The next binding, or the body. -/
def bindNext (e : Expr) (ρ acc : Env) : Bindings → Stack → Config
  | .nil, K => (.eval e acc, K)
  | .cons p e' rest, K => (.eval e' ρ, .binding p rest e ρ acc :: K)

/-- The next promise of `let%lwt`, or the body. -/
def awaitNext (ρ : Env) (e : Expr) : Bindings → Vals → Control
  | .cons p _ rest, .cons v promises =>
    .apply (.lwtFunction .backtraceBind (.cons .addBacktrace (.cons v .nil)))
      (.awaiting ρ p rest promises e)
  | _, _ => .eval e ρ

/-- The next binding of `let%lwt`, or the wait for the first promise. -/
def letLwtNext (bindings : Bindings) (promises : Vals) (e : Expr) (ρ : Env) :
    Bindings → Stack → Config
  | .nil, K => (awaitNext ρ e bindings promises, K)
  | .cons _ e' rest, K => (.eval e' ρ, .letLwt rest bindings promises e ρ :: K)

/-- The turn of a loop for the index `i`. -/
def forTurn (x : Option Name) (i : Int63) (dir : Direction) (bound : Int63) (body : Expr) (ρ : Env)
    (K : Stack) : Config :=
  if dir.comp i bound then (.ret .unit, K)
  else
    (.eval body (match x with | some x => .cons x (.int i) ρ | none => ρ),
      .forBody x i dir bound body ρ :: K)

/-- The turn of `for%lwt` for the index `i`. -/
def forLwtTurn (x : Name) (i : Int63) (dir : Direction) (bound : Int63) (body : Expr) (ρ : Env)
    (K : Stack) : Config :=
  if dir.comp i bound then (.ret .returnUnit, K)
  else (.eval body (.cons x (.int i) ρ), .forLwtBody x i dir bound body ρ :: K)

/-- `fun () -> e` -/
def thunkIn (ρ : Env) (e : Expr) : Val := .closure ρ (.cons (.value (.const .unit)) e .nil)

/-- The meaning of an expression after a `%lwt`. -/
def lwtStep : Expr → Env → Stack → Option Config
  | .sequence a b, ρ, K => some (.eval a ρ, .sequenceLwt b ρ :: K)
  | .letIn bindings e, ρ, K => some (letLwtNext bindings .nil e ρ bindings K)
  | .matchWith e cases, ρ, K =>
    some (.apply
      (.lwtFunction .tryBind (.cons (thunkIn ρ e) (.cons (.closure ρ cases.values) .nil)))
      (.handler ρ cases.exns), K)
  | .assertion e, ρ, K => some (.eval e ρ, .assertLwt :: K)
  | .whileDo cond body, ρ, K => some (.eval cond ρ, .whileLwtCond cond body ρ :: K)
  | .forDo (some x) start dir bound body, ρ, K =>
    some (.eval bound ρ, .forLwtBound x start dir body ρ :: K)
  | .tryWith e cases, ρ, K =>
    some (.apply (.lwtFunction .backtraceCatch (.cons .addBacktrace (.cons (thunkIn ρ e) .nil)))
      (.handler ρ cases), K)
  | .ifThenElse cond a b, ρ, K => some (.eval cond ρ, .ifLwt a b ρ :: K)
  | .ifThen cond a, ρ, K => some (.eval cond ρ, .ifLwt a Expr.returnUnit ρ :: K)
  | _, _, _ => none

def evalStep : Expr → Env → Stack → Option Config
  | .var x, ρ, K => ((ρ.find x).or ((operator x).map .operator)).map fun v => (.ret v, K)
  | .const c, _, K => some (.ret (.const c), K)
  | .construct c e, ρ, K => some (.eval e ρ, .construct c :: K)
  | .pair a b, ρ, K => some (.eval b ρ, .pairSecond a ρ :: K)
  | .outer x, _, K => some (.ret (.outer x), K)
  | .lwtFunction f, _, K => some (.ret (.lwtFunction f .nil), K)
  | .reraise, _, K => some (.ret .reraise, K)
  | .function cases, ρ, K => some (.ret (.closure ρ cases), K)
  | .apply f a, ρ, K => some (.eval a ρ, .argument f ρ :: K)
  | .letIn bindings e, ρ, K => some (bindNext e ρ ρ bindings K)
  | .letRec f cases e, ρ, K => some (.eval e (.cons f (.recClosure ρ f cases) ρ), K)
  | .sequence a b, ρ, K => some (.eval a ρ, .sequence b ρ :: K)
  | .ifThenElse cond a b, ρ, K => some (.eval cond ρ, .ifThenElse a b ρ :: K)
  | .ifThen cond a, ρ, K => some (.eval cond ρ, .ifThen a ρ :: K)
  | .matchWith e cases, ρ, K => some (.eval e ρ, .matchWith cases ρ :: K)
  | .tryWith e cases, ρ, K => some (.eval e ρ, .tryWith cases ρ :: K)
  | .whileDo cond body, ρ, K => some (.eval cond ρ, .whileCond cond body ρ :: K)
  | .forDo x start dir bound body, ρ, K => some (.eval start ρ, .forStart x dir bound body ρ :: K)
  | .assertion e, ρ, K => some (.eval e ρ, .assertion :: K)
  | .lwt e, ρ, K => lwtStep e ρ K
  | .finallyOf e f, ρ, K =>
    some (.apply (.lwtFunction .backtraceFinalize
      (.cons .addBacktrace (.cons (thunkIn ρ e) .nil))) (thunkIn ρ f), K)
  | .finallyAlone _, _, _ => none

def applyStep : Val → Val → Stack → Option Config
  | .closure ρ cases, v, K => some (.select .value v .matchFailure cases ρ, K)
  | .recClosure ρ f cases, v, K =>
    some (.select .value v .matchFailure cases (.cons f (.recClosure ρ f cases) ρ), K)
  | .reraise, x, K => some (.throw x, K)
  | .operator o, .const (.int n), K => some (.ret (.operatorWith o n), K)
  | .operatorWith (.comp dir) n, .const (.int m), K => some (.ret (.bool (dir.comp n m)), K)
  | .operatorWith (.plus dir) n, .const (.int m), K => some (.ret (.int (dir.plus n m)), K)
  | .lwtFunction f args, v, K =>
    if args.length + 1 < f.arity then some (.ret (.lwtFunction f (args.snoc v)), K) else none
  | .addBacktrace, x, K => some (.ret x, K)
  | .handler ρ cases, x, K => some (.select .value x x cases ρ, K)
  | .awaiting ρ p rest promises e, v, K =>
    match p.matches v ρ with
    | some ρ' => some (awaitNext ρ' e rest promises, K)
    | none => some (.throw .matchFailure, K)
  | .whileLoop ρ cond body, .const .unit, K => some (.eval cond ρ, .whileLwtCond cond body ρ :: K)
  | .whileLoop _ _ _, _, K => some (.throw .matchFailure, K)
  | .forNext ρ x dir i bound body, .const .unit, K =>
    some (forLwtTurn x (dir.op i) dir bound body ρ K)
  | .forNext _ _ _ _ _ _, _, K => some (.throw .matchFailure, K)
  | _, _, _ => none

def selectStep (o : Outcome) (v otherwise : Val) (ρ : Env) : Cases → Stack → Config
  | .nil, K => (.throw otherwise, K)
  | .cons p rhs rest, K =>
    match p.matches o v ρ with
    | some ρ' => (.eval rhs ρ', K)
    | none => (.select o v otherwise rest ρ, K)
  | .guarded p guard rhs rest, K =>
    match p.matches o v ρ with
    | some ρ' => (.eval guard ρ', .guard o v otherwise rhs ρ' rest ρ :: K)
    | none => (.select o v otherwise rest ρ, K)

/-- A condition. -/
def branch (yes no : Config) : Val → Option Config
  | .const (.bool true) => some yes
  | .const (.bool false) => some no
  | _ => none

def returnStep (v : Val) : Frame → Stack → Option Config
  | .argument f ρ, K => some (.eval f ρ, .function v :: K)
  | .function arg, K => some (.apply v arg, K)
  | .construct c, K => some (.ret (.construct c v), K)
  | .pairSecond a ρ, K => some (.eval a ρ, .pairFirst v :: K)
  | .pairFirst w, K => some (.ret (.pair v w), K)
  | .binding p rest e ρ acc, K =>
    match p.matches v acc with
    | some acc' => some (bindNext e ρ acc' rest K)
    | none => some (.throw .matchFailure, K)
  | .sequence b ρ, K => some (.eval b ρ, K)
  | .ifThenElse a b ρ, K => branch (.eval a ρ, K) (.eval b ρ, K) v
  | .ifThen a ρ, K => branch (.eval a ρ, K) (.ret .unit, K) v
  | .matchWith cases ρ, K => some (.select .value v .matchFailure cases ρ, K)
  | .tryWith _ _, K => some (.ret v, K)
  | .guard o w otherwise rhs ρ' rest ρ, K =>
    branch (.eval rhs ρ', K) (.select o w otherwise rest ρ, K) v
  | .whileCond cond body ρ, K =>
    branch (.eval body ρ, .whileBody cond body ρ :: K) (.ret .unit, K) v
  | .whileBody cond body ρ, K => some (.eval cond ρ, .whileCond cond body ρ :: K)
  | .forStart x dir bound body ρ, K =>
    match v with
    | .const (.int n) => some (.eval bound ρ, .forBound x n dir body ρ :: K)
    | _ => none
  | .forBound x start dir body ρ, K =>
    match v with
    | .const (.int n) => some (forTurn x start dir n body ρ K)
    | _ => none
  | .forBody x i dir bound body ρ, K =>
    if i = bound then some (.ret .unit, K) else some (forTurn x (dir.op i) dir bound body ρ K)
  | .assertion, K => branch (.ret .unit, K) (.throw .assertFailure, K) v
  | .sequenceLwt b ρ, K =>
    some (.apply (.lwtFunction .backtraceBind (.cons .addBacktrace (.cons v .nil))) (thunkIn ρ b),
      K)
  | .letLwt todo bindings promises e ρ, K =>
    some (letLwtNext bindings (promises.snoc v) e ρ todo K)
  | .ifLwt a b ρ, K =>
    some (.apply (.lwtFunction .bind (.cons v .nil)) (.closure ρ (ifCases a b)), K)
  | .whileLwtCond cond body ρ, K =>
    branch (.eval body ρ, .whileLwtBody cond body ρ :: K) (.ret .returnUnit, K) v
  | .whileLwtBody cond body ρ, K =>
    some (.apply (.lwtFunction .bind (.cons v .nil)) (.whileLoop ρ cond body), K)
  | .forLwtBound x start dir body ρ, K => some (.eval start ρ, .forLwtStart x dir v body ρ :: K)
  | .forLwtStart x dir bound body ρ, K =>
    match v, bound with
    | .const (.int n), .const (.int m) => some (forLwtTurn x n dir m body ρ K)
    | _, _ => none
  | .forLwtBody x i dir bound body ρ, K =>
    some (.apply (.lwtFunction .bind (.cons v .nil)) (.forNext ρ x dir i bound body), K)
  | .assertLwt, K =>
    branch (.apply (.lwtFunction .lwtReturn .nil) .unit, K) (.throw .assertFailure, K) v
  | .boundary, _ => none

def throwStep (x : Val) : Frame → Stack → Option Config
  | .tryWith cases ρ, K => some (.select .value x x cases ρ, K)
  | .matchWith cases ρ, K => some (.select .exn x x cases ρ, K)
  | .boundary, _ => none
  | _, K => some (.throw x, K)

def configStep : Config → Option Config
  | (.eval e ρ, K) => evalStep e ρ K
  | (.apply f v, K) => applyStep f v K
  | (.select o v otherwise cases ρ, K) => some (selectStep o v otherwise ρ cases K)
  | (.ret v, f :: K) => returnStep v f K
  | (.throw x, f :: K) => throwStep x f K
  | _ => none

/-! ## The outside -/

/-- What an event shows of a value. -/
inductive Shape
  | const (c : Const)
  | construct (c : Name) (s : Shape)
  | pair (s t : Shape)
  | outer (x : Name)
  | function
  deriving DecidableEq

def Val.shape : Val → Shape
  | .const c => .const c
  | .construct c v => .construct c v.shape
  | .pair v w => .pair v.shape w.shape
  | .outer x => .outer x
  | _ => .function

/-- A value and its components. -/
def Val.parts : Val → List Val
  | .construct c v => .construct c v :: v.parts
  | .pair v w => .pair v w :: (v.parts ++ w.parts)
  | v => [v]

/-- A value that the outside makes, of its own values and of those that it has been given. -/
inductive Given
  | const (c : Const)
  | construct (c : Name) (g : Given)
  | pair (g h : Given)
  | outer (x : Name)
  | known (i : ℕ)

def Given.value (known : List Val) : Given → Option Val
  | const c => some (.const c)
  | construct c g => (g.value known).map (.construct c)
  | pair g h => (g.value known).bind fun v => (h.value known).map (.pair v)
  | outer x => some (.outer x)
  | .known i => known[i]?

inductive Event
  /-- The program calls a function of `Lwt`. -/
  | calls (f : LwtFunction) (args : List Shape)
  /-- The program applies a value of the outside. -/
  | applies (x : Name) (arg : Shape)
  /-- The program returns to the outside, or raises an exception. -/
  | returns (result : Shape)
  | raises (exn : Shape)
  /-- The outside applies a value that it has been given. -/
  | invokes (i : ℕ) (arg : Given)
  /-- The outside returns from the last call, or raises an exception. -/
  | answers (result : Given)
  | fails (exn : Given)

structure State where
  config : Config
  /-- The values that the outside has been given. -/
  known : List Val

/-- The program goes out with these values. -/
def State.goesOut (s : State) (vs : List Val) (K : Stack) : State :=
  ⟨(.outside, K), s.known ++ vs.flatMap Val.parts⟩

def State.event (s : State) (e : Event) : Option State :=
  match s.config, e with
  | (.apply (.lwtFunction f args) v, K), .calls g shapes =>
    if f = g ∧ ((args.snoc v).toList.map Val.shape) = shapes then
      some (s.goesOut (args.snoc v).toList K)
    else none
  | (.apply (.outer x) v, K), .applies y shape =>
    if x = y ∧ v.shape = shape then some (s.goesOut [v] K) else none
  | (.ret v, .boundary :: K), .returns shape =>
    if v.shape = shape then some (s.goesOut [v] K) else none
  | (.throw x, .boundary :: K), .raises shape =>
    if x.shape = shape then some (s.goesOut [x] K) else none
  | (.outside, K), .invokes i g =>
    s.known[i]?.bind fun f => (g.value s.known).map fun v =>
      { s with config := (.apply f v, .boundary :: K) }
  | (.outside, f :: K), .answers g =>
    (g.value s.known).map fun v => { s with config := (.ret v, f :: K) }
  | (.outside, f :: K), .fails g =>
    (g.value s.known).map fun x => { s with config := (.throw x, f :: K) }
  | _, _ => none

/-- The machine as a program that interacts with the outside. -/
def machine : Interaction.Program State Event where
  silent s := (configStep s.config).map fun c => { s with config := c }
  event := State.event

/-- The program is about to be run by the outside. -/
def start (e : Expr) : State := ⟨(.eval e .nil, [.boundary]), []⟩

end Lwt.Ppx
