import Lwt.Library.Tickets
import Lwt.Library.Total
import Lwt.Library.Transition

/-!
# `Lwt_pool`

The functions of `lwt_pool.ml`, with any number of uses of one pool under way.  A use goes
through stages, each ended by something outside the pool: the promise of `create`,
`validate`, `dispose` or of the user's function is resolved, or the promise it waits for is
woken.  A step is what the code does from one such moment to the next, so that all orders
of these moments are covered; a function of the user that fails at once is one whose
promise is rejected in the next step.  The user's `check` is called in the middle of
`check_and_release`: its call and its end are two steps, and whatever it does with the pool
comes between them.

Members are known by the number of the call of `create` that made them.  The fields `alive`
and `disposed` are ghost: the members created, or being created, whose disposal is not
complete, and the calls of `dispose` so far.
-/

namespace Lwt

open Tickets Table Transition

/-- What follows the disposal of a member. -/
inductive AfterDispose
  /-- `create_member p`, after a validation that gave `false` -/
  | createMember
  /-- `replace_disposed p; reraise e`, after a validation that failed -/
  | replaceDisposed
  /-- the end of the use -/
  | endUse
  deriving DecidableEq

/-- Where a call of `use` stands. -/
inductive UseState
  /-- the promise made by `add_task_r` is pending -/
  | waiting
  /-- it has been given a member, and its callbacks are yet to run -/
  | handed (c : ℕ)
  /-- it has been rejected by `replace_disposed` -/
  | refused
  /-- it has been rejected by `cancel`, and its cancel callback is yet to run -/
  | canceled
  | unlinked
  | creating (c : ℕ)
  | validating (c : ℕ)
  /-- the user's function has the member; `cleared` is the reference read at its start -/
  | using (c cleared : ℕ)
  /-- `check` is running; `cleared` is what the reference held when it was called -/
  | checking (c : ℕ) (cleared : Bool)
  | disposing (c : ℕ) (k : AfterDispose)
  | ended
  deriving DecidableEq

/-- The member in the hands of a use; one whose disposal has started is not. -/
def UseState.held : UseState → Multiset ℕ
  | .handed c | .creating c | .validating c | .using c _ | .checking c _ => {c}
  | _ => 0

/-- The member that a use has to do with, until its disposal has ended. -/
def UseState.owned : UseState → Multiset ℕ
  | .handed c | .creating c | .validating c | .using c _ | .checking c _ | .disposing c _ => {c}
  | _ => 0

/-- `'a Lwt_pool.t`, with everything under way.  The references that `cleared` has held are
numbered; all but the last hold `true`. -/
structure Pool where
  max : ℕ
  count : ℤ
  list : List ℕ
  waiters : List ℕ
  cleared : ℕ
  uses : List UseState
  /-- the creations in `replace_disposed`: the use that gets the member, and the member -/
  replacing : List (Option (ℕ × ℕ))
  /-- the calls of `clear`: what is left of `elements`, the first being disposed of -/
  clearing : List (List ℕ)
  created : ℕ
  alive : List ℕ
  disposed : List ℕ
  deriving DecidableEq

namespace Pool

/-- `create m`. -/
def create (max : ℕ) : Pool := ⟨max, 0, [], [], 0, [], [], [], 0, [], []⟩

def setUse (p : Pool) (u : ℕ) (st : UseState) : Pool := { p with uses := p.uses.set u st }

/-- `p.create ()`: a new member is being created. -/
def newMember (p : Pool) : Pool :=
  { p with created := p.created + 1, alive := p.created :: p.alive }

/-- `create_member p` up to the promise of `p.create ()`, with the stage of its use. -/
def createMember (p : Pool) : Pool × UseState :=
  ({ p with count := p.count + 1 }.newMember, .creating p.created)

/-- `Lwt.wakeup_later` of the resolver of the use `u`: ignored if its promise has been
canceled. -/
def wakeupLater (p : Pool) (u : ℕ) (st : UseState) : Pool :=
  if p.uses[u]? = some .waiting then p.setUse u st else p

/-- `release p c`. -/
def release (p : Pool) (c : ℕ) : Pool :=
  match p.waiters with
  | u :: waiters => { p with waiters := waiters }.wakeupLater u (.handed c)
  | [] => { p with list := p.list ++ [c] }

/-- `dispose p c` up to the promise of `p.dispose c`. -/
def dispose (p : Pool) (c : ℕ) : Pool := { p with disposed := c :: p.disposed }

/-- The rest of `dispose p c`. -/
def disposeDone (p : Pool) (c : ℕ) : Pool :=
  { p with count := p.count - 1, alive := p.alive.erase c }

/-- `replace_disposed p`. -/
def replaceDisposed (p : Pool) : Pool :=
  match p.waiters with
  | [] => p
  | u :: waiters =>
    { p with waiters := waiters, replacing := p.replacing ++ [some (u, p.created)] }.newMember

/-- `acquire p`, with the stage of the use. -/
def acquire (p : Pool) : Pool × UseState :=
  match p.list with
  | [] =>
    if p.count < p.max then p.createMember
    else ({ p with waiters := p.waiters ++ [p.uses.length] }, .waiting)
  | c :: list => ({ p with list := list }, .validating c)

/-- `use p f`, up to the promise of `acquire p`. -/
def use (p : Pool) : Pool :=
  let (p', st) := p.acquire
  { p' with uses := p'.uses ++ [st] }

/-- The end of `check_and_release p c cleared`, or the same after a use that did not fail; the
stage of the use is `disposing` or `ended`. -/
def giveBack (p : Pool) (u c : ℕ) (keep : Bool) : Pool :=
  if keep then (p.setUse u .ended).release c
  else (p.dispose c).setUse u (.disposing c .endUse)

/-- `Lwt_list.iter_s (dispose p) elements`, at the next element. -/
def disposeNext (p : Pool) (i : ℕ) (elements : List ℕ) : Pool :=
  match elements with
  | [] => { p with clearing := p.clearing.set i [] }
  | c :: rest => { p.dispose c with clearing := p.clearing.set i (c :: rest) }

/-- `clear p`. -/
def clear (p : Pool) : Pool :=
  let i := p.clearing.length
  { p with list := [], cleared := p.cleared + 1, clearing := p.clearing ++ [[]] }.disposeNext i
    p.list.reverse

def reject (p : Pool) (u : ℕ) : Pool :=
  if p.uses[u]? = some .waiting then p.setUse u .canceled else p

/-- A call of `Lwt.cancel` that reaches the promises of the waiting uses `us`. -/
def cancel (p : Pool) (us : List ℕ) : Pool := us.foldl reject p

/-- How a validation ends. -/
inductive Validation
  | valid
  | invalid
  | fails

/-- How the user's function ends. -/
inductive Outcome
  | ok
  | fails

/-- How `check` ends: the last result that it has given, `false` if there is none, or an
exception. -/
inductive Checked
  | gives (ok : Bool)
  | raises

/-- What can happen to a pool. -/
inductive Step
  | use
  | createEnds (u : ℕ) (ok : Bool)
  | validateEnds (u : ℕ) (r : Validation)
  | bodyEnds (u : ℕ) (r : Outcome)
  | checkEnds (u : ℕ) (r : Checked)
  | disposeEnds (u : ℕ) (ok : Bool)
  | replaceEnds (i : ℕ) (ok : Bool)
  | clear
  | clearDisposeEnds (i : ℕ) (ok : Bool)
  | cancel (us : List ℕ)
  | runCancelCallbacks (u : ℕ)
  | runCallbacks (u : ℕ)

/-- The end of a creation in `create_member`. -/
def createEnds (p : Pool) (u c : ℕ) (ok : Bool) : Pool :=
  if ok then p.setUse u (.using c p.cleared)
  else { p with count := p.count - 1, alive := p.alive.erase c }.setUse u .ended

/-- The end of a validation in `validate_and_return`. -/
def validateEnds (p : Pool) (u c : ℕ) : Validation → Pool
  | .valid => p.setUse u (.using c p.cleared)
  | .invalid => (p.dispose c).setUse u (.disposing c .createMember)
  | .fails => (p.dispose c).setUse u (.disposing c .replaceDisposed)

/-- The end of the user's function in `use`, up to the call of `check` if it has failed. -/
def bodyEnds (p : Pool) (u c cleared : ℕ) : Outcome → Pool
  | .ok => p.giveBack u c (cleared = p.cleared)
  | .fails => p.setUse u (.checking c (cleared ≠ p.cleared))

/-- The rest of `check_and_release p c cleared`. -/
def checkEnds (p : Pool) (u c : ℕ) (cleared : Bool) : Checked → Pool
  | .gives ok => p.giveBack u c (!cleared && ok)
  | .raises => p.setUse u .ended

/-- The end of a disposal, in a use. -/
def disposeEnds (p : Pool) (u c : ℕ) (k : AfterDispose) (ok : Bool) : Pool :=
  if ok then
    let p := p.disposeDone c
    match k with
    | .createMember =>
      let (p', st) := p.createMember
      p'.setUse u st
    | .replaceDisposed => p.replaceDisposed.setUse u .ended
    | .endUse => p.setUse u .ended
  else p.setUse u .ended

/-- The end of a creation in `replace_disposed`. -/
def replaceEnds (p : Pool) (i u c : ℕ) (ok : Bool) : Pool :=
  let p := { p with replacing := p.replacing.set i none }
  if ok then p.wakeupLater u (.handed c)
  else { p with alive := p.alive.erase c }.wakeupLater u .refused

def step (p : Pool) : Step → Option Pool
  | .use => some p.use
  | .createEnds u ok =>
    match p.uses[u]? with
    | some (.creating c) => some (p.createEnds u c ok)
    | _ => none
  | .validateEnds u r =>
    match p.uses[u]? with
    | some (.validating c) => some (p.validateEnds u c r)
    | _ => none
  | .bodyEnds u r =>
    match p.uses[u]? with
    | some (.using c cleared) => some (p.bodyEnds u c cleared r)
    | _ => none
  | .checkEnds u r =>
    match p.uses[u]? with
    | some (.checking c cleared) => some (p.checkEnds u c cleared r)
    | _ => none
  | .disposeEnds u ok =>
    match p.uses[u]? with
    | some (.disposing c k) => some (p.disposeEnds u c k ok)
    | _ => none
  | .replaceEnds i ok =>
    match p.replacing[i]? with
    | some (some (u, c)) => some (p.replaceEnds i u c ok)
    | _ => none
  | .clear => some p.clear
  | .clearDisposeEnds i ok =>
    match p.clearing[i]? with
    | some (c :: rest) =>
      some (if ok then (p.disposeDone c).disposeNext i rest
        else { p with clearing := p.clearing.set i [] })
    | _ => none
  | .cancel us => some (p.cancel us)
  | .runCancelCallbacks u =>
    if p.uses[u]? = some .canceled then
      some { p.setUse u .unlinked with waiters := p.waiters.filter (· ≠ u) }
    else none
  | .runCallbacks u =>
    match p.uses[u]? with
    | some (.handed c) => some (p.setUse u (.validating c))
    | some .refused | some .unlinked => some (p.setUse u .ended)
    | _ => none

/-- The cases of `step`. -/
inductive Stepped (p : Pool) : Step → Pool → Prop
  | use : Stepped p .use p.use
  | createEnds (u c : ℕ) (ok : Bool) (hu : p.uses[u]? = some (.creating c)) :
      Stepped p (.createEnds u ok) (p.createEnds u c ok)
  | validateEnds (u c : ℕ) (r : Validation) (hu : p.uses[u]? = some (.validating c)) :
      Stepped p (.validateEnds u r) (p.validateEnds u c r)
  | bodyEnds (u c cleared : ℕ) (r : Outcome) (hu : p.uses[u]? = some (.using c cleared)) :
      Stepped p (.bodyEnds u r) (p.bodyEnds u c cleared r)
  | checkEnds (u c : ℕ) (cleared : Bool) (r : Checked)
      (hu : p.uses[u]? = some (.checking c cleared)) :
      Stepped p (.checkEnds u r) (p.checkEnds u c cleared r)
  | disposeEnds (u c : ℕ) (k : AfterDispose) (ok : Bool)
      (hu : p.uses[u]? = some (.disposing c k)) :
      Stepped p (.disposeEnds u ok) (p.disposeEnds u c k ok)
  | replaceEnds (i u c : ℕ) (ok : Bool) (hi : p.replacing[i]? = some (some (u, c))) :
      Stepped p (.replaceEnds i ok) (p.replaceEnds i u c ok)
  | clear : Stepped p .clear p.clear
  | clearDisposed (i c : ℕ) (rest : List ℕ) (hi : p.clearing[i]? = some (c :: rest)) :
      Stepped p (.clearDisposeEnds i true) ((p.disposeDone c).disposeNext i rest)
  | clearFails (i c : ℕ) (rest : List ℕ) (hi : p.clearing[i]? = some (c :: rest)) :
      Stepped p (.clearDisposeEnds i false) { p with clearing := p.clearing.set i [] }
  | cancel (us : List ℕ) : Stepped p (.cancel us) (p.cancel us)
  | runCancelCallbacks (u : ℕ) (hu : p.uses[u]? = some .canceled) :
      Stepped p (.runCancelCallbacks u)
        { p.setUse u .unlinked with waiters := p.waiters.filter (· ≠ u) }
  | runHanded (u c : ℕ) (hu : p.uses[u]? = some (.handed c)) :
      Stepped p (.runCallbacks u) (p.setUse u (.validating c))
  | runEnded (u : ℕ) (st : UseState) (hu : p.uses[u]? = some st)
      (hst : st = .refused ∨ st = .unlinked) : Stepped p (.runCallbacks u) (p.setUse u .ended)

theorem step_cases {p p' : Pool} {a : Step} (hstep : p.step a = some p') : Stepped p a p' := by
  cases a with
  | use => cases hstep; exact .use
  | clear => cases hstep; exact .clear
  | cancel us => cases hstep; exact .cancel us
  | runCancelCallbacks u =>
    simp only [step, Option.ite_none_right_eq_some, Option.some.injEq] at hstep
    obtain ⟨hu, rfl⟩ := hstep
    exact .runCancelCallbacks u hu
  | createEnds | validateEnds | bodyEnds | checkEnds | disposeEnds | replaceEnds =>
    simp only [step] at hstep
    split at hstep <;> cases hstep
    constructor
    assumption
  | clearDisposeEnds i ok =>
    simp only [step] at hstep
    split at hstep <;> cases hstep
    cases ok <;> constructor <;> assumption
  | runCallbacks u =>
    simp only [step] at hstep
    split at hstep <;> cases hstep
    · exact .runHanded u _ ‹_›
    · exact .runEnded u _ ‹_› (.inl rfl)
    · exact .runEnded u _ ‹_› (.inr rfl)

end Pool

end Lwt
