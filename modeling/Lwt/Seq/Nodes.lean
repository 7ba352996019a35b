import Lwt.Seq.Joins

/-!
# Sequences of promised nodes

A node of a `Lwt_seq` is forced by a call, which may raise, and which returns the promise of `Nil`
or of an element with the suspension of the next node.  A sequence is given by the suspension of
its first node, a state of some type `S`, and `force`.  So it may be infinite, and what its
suspensions do is arbitrary.

The recursive functions of the module are loops.  The copy that shadows a function and guards its
first suspension with `Lwt.apply` is the `start` of its loop, the function itself is its `run`.
-/

namespace Lwt.Seq

open Calls

/-- A `node`. -/
inductive Node (α S : Type)
  | nil
  | cons (a : α) (next : S)

/-- The suspensions of a sequence that is computed from another one: that of its first node, and
those that the recursive function makes. -/
inductive Derived (S T : Type)
  | first (s : S)
  | rest (t : T)

variable {ω ε α β A R S S₁ S₂ T U : Type}

def Node.mapNext (g : S → T) : Node α S → Node α T
  | nil => nil
  | cons a next => cons a (g next)

/-! ## Folds -/

/-- `aux` in the functions that traverse a sequence. -/
def foldLoop (force : S → Call ω ε (Node α S)) (f : A → α → Call ω ε A) (finish : A → Call ω ε R) :
    Loop ω ε (A × S) (fun _ => Node α S) R where
  node m := force m.2
  next m
    | .nil => do
      let r ← finish m.1
      return .inr r
    | .cons x next => do
      let acc ← f m.1 x
      return .inl (acc, next)

section Traversals

variable (force : S → Call ω ε (Node α S)) (fuel : ℕ)

def foldLeftLoop (f : A → α → Plain ω ε A) : Loop ω ε (A × S) (fun _ => Node α S) A :=
  foldLoop force (fun acc x => (f acc x).call) .fulfilled

def foldLeft (f : A → α → Plain ω ε A) (acc : A) (seq : S) : Call ω ε A :=
  (foldLeftLoop force f).start fuel (acc, seq)

def foldLeftSLoop (f : A → α → Call ω ε A) : Loop ω ε (A × S) (fun _ => Node α S) A :=
  foldLoop force f .fulfilled

def foldLeftS (f : A → α → Call ω ε A) (acc : A) (seq : S) : Call ω ε A :=
  (foldLeftSLoop force f).start fuel (acc, seq)

def iterLoop (f : α → Plain ω ε Unit) : Loop ω ε (Unit × S) (fun _ => Node α S) Unit :=
  foldLoop force (fun _ x => (f x).call) .fulfilled

def iter (f : α → Plain ω ε Unit) (seq : S) : Call ω ε Unit :=
  (iterLoop force f).start fuel ((), seq)

def iterSLoop (f : α → Call ω ε Unit) : Loop ω ε (Unit × S) (fun _ => Node α S) Unit :=
  foldLoop force (fun _ x => f x) .fulfilled

def iterS (f : α → Call ω ε Unit) (seq : S) : Call ω ε Unit :=
  (iterSLoop force f).start fuel ((), seq)

/-- The accumulator is the function `f` of the source. -/
def toListLoop : Loop ω ε ((List α → List α) × S) (fun _ => Node α S) (List α) :=
  foldLoop force (fun f h => .fulfilled fun x => f (h :: x)) fun f => .fulfilled (f [])

def toList (seq : S) : Call ω ε (List α) := (toListLoop force).start fuel (fun x => x, seq)

/-- `p :: acc` -/
def keepPromise (f : α → Call ω ε Unit) (acc : List (Promise ω ε Unit)) (x : α) :
    Call ω ε (List (Promise ω ε Unit)) := do
  let p ← detach (f x)
  return p :: acc

/-- The promises of the calls of `f` are kept up to the end of the sequence. -/
def iterPLoop (f : α → Call ω ε Unit) :
    Loop ω ε (List (Promise ω ε Unit) × S) (fun _ => Node α S) Unit :=
  foldLoop force (keepPromise f) join

def iterP (f : α → Call ω ε Unit) (seq : S) : Call ω ε Unit :=
  (iterPLoop force f).start fuel ([], seq)

/-- The sequence that `iter_n` traverses: its first suspension is `fun () -> Lwt.apply seq ()`. -/
def forceApplied : Derived S S → Call ω ε (Node α S)
  | .first seq => (force seq).guarded
  | .rest seq => force seq

/-- `iter_n` waits if no further promise may run. -/
def capacity (invalidArgument : String → ε) (running : List (Promise ω ε Unit)) (available : ℤ) :
    Call ω ε (List (Promise ω ε Unit) × ℤ) :=
  if available > 0 then .fulfilled (running, available)
  else do
    let (complete, running) ← nchooseSplit invalidArgument running
    return (running, available + complete.length)

/-- `loop` in `iter_n`.  The state has `running`, `available` and the sequence. -/
def iterNLoop (invalidArgument : String → ε) (f : α → Call ω ε Unit) :
    Loop ω ε (List (Promise ω ε Unit) × ℤ × Derived S S)
      (fun _ => List (Promise ω ε Unit) × ℤ) Unit where
  node m := capacity invalidArgument m.1 m.2.1
  next m v := do
    match ← forceApplied force m.2.2 with
    | .nil =>
      let r ← join v.1
      return .inr r
    | .cons elt seq =>
      let p ← detach (f elt)
      return .inl (p :: v.1, v.2 - 1, .rest seq)

def iterN (invalidArgument : String → ε) (maxConcurrency : ℤ) (f : α → Call ω ε Unit) (seq : S) :
    Call ω ε Unit :=
  if maxConcurrency ≤ 0 then
    .raised (invalidArgument
      s!"Lwt_seq.iter_n: max_concurrency must be > 0, {maxConcurrency} given")
  else (iterNLoop force invalidArgument f).run fuel ([], maxConcurrency, .first seq)

end Traversals

/-! ## Sequences from sequences -/

/-- The suspensions of `append seq1 seq2`.  Those of `seq2` follow them. -/
inductive Appended (S₁ S₂ : Type)
  | first (seq1 : S₁) (seq2 : S₂)
  | rest (seq1 : S₁) (seq2 : S₂)
  | second (seq2 : S₂)

section Append

variable (force₁ : S₁ → Call ω ε (Node α S₁)) (force₂ : S₂ → Call ω ε (Node α S₂))

def appendNode (seq2 : S₂) : Node α S₁ → Call ω ε (Node α (Appended S₁ S₂))
  | .nil => do
    let node ← force₂ seq2
    return node.mapNext .second
  | .cons x next => .fulfilled (.cons x (.rest next seq2))

def append : Appended S₁ S₂ → Call ω ε (Node α (Appended S₁ S₂))
  | .first seq1 seq2 => (force₁ seq1).guarded >>= appendNode force₂ seq2
  | .rest seq1 seq2 => force₁ seq1 >>= appendNode force₂ seq2
  | .second seq2 => do
    let node ← force₂ seq2
    return node.mapNext .second

end Append

section Maps

variable (force : S → Call ω ε (Node α S)) (fuel : ℕ)

/-- The function that is given to `>|=` may raise, which rejects the promise. -/
def mapNode (f : α → Plain ω ε β) : Node α S → Call ω ε (Node β (Derived S S))
  | .nil => .fulfilled .nil
  | .cons x next => do
    let x ← (f x).call.guarded
    return .cons x (.rest next)

def map (f : α → Plain ω ε β) : Derived S S → Call ω ε (Node β (Derived S S))
  | .first seq => (force seq).guarded >>= mapNode f
  | .rest seq => force seq >>= mapNode f

def mapSNode (f : α → Call ω ε β) : Node α S → Call ω ε (Node β (Derived S S))
  | .nil => .fulfilled .nil
  | .cons x next => do
    let x ← f x
    return .cons x (.rest next)

def mapS (f : α → Call ω ε β) : Derived S S → Call ω ε (Node β (Derived S S))
  | .first seq => (force seq).guarded >>= mapSNode f
  | .rest seq => force seq >>= mapSNode f

/-- The functions that leave out elements go on to the next element that they keep. -/
def selectLoop (f : α → Call ω ε (Option β)) :
    Loop ω ε S (fun _ => Node α S) (Node β (Derived S S)) where
  node := force
  next _
    | .nil => .fulfilled (.inr .nil)
    | .cons x next => do
      match ← f x with
      | none => return .inl next
      | some y => return .inr (.cons y (.rest next))

def select (f : α → Call ω ε (Option β)) : Derived S S → Call ω ε (Node β (Derived S S))
  | .first seq => (selectLoop force f).start fuel seq
  | .rest seq => (selectLoop force f).run fuel seq

def filterMap (f : α → Plain ω ε (Option β)) : Derived S S → Call ω ε (Node β (Derived S S)) :=
  select force fuel fun x => (f x).call

def filterMapS (f : α → Call ω ε (Option β)) : Derived S S → Call ω ε (Node β (Derived S S)) :=
  select force fuel f

/-- The element is kept if the call gives `true`. -/
def keepIf (f : α → Call ω ε Bool) (x : α) : Call ω ε (Option α) := do
  let ok ← f x
  return if ok then some x else none

def filter (f : α → Plain ω ε Bool) : Derived S S → Call ω ε (Node α (Derived S S)) :=
  select force fuel (keepIf fun x => (f x).call)

def filterS (f : α → Call ω ε Bool) : Derived S S → Call ω ε (Node α (Derived S S)) :=
  select force fuel (keepIf f)

/-- The calls of `flat_map f seq ()` and of `flat_map_app f seq tail ()`. -/
inductive Flat (S T : Type)
  | flatMap (seq : S)
  | flatMapApp (seq : T) (tail : S)

def flatMapLoop (forceSub : T → Call ω ε (Node β T)) (f : α → Plain ω ε T) :
    Loop ω ε (Flat S T) (fun
      | .flatMap _ => Node α S
      | .flatMapApp _ _ => Node β T) (Node β (Derived S (Flat S T))) where
  node
    | .flatMap seq => force seq
    | .flatMapApp seq _ => forceSub seq
  next
    | .flatMap _, .nil => .fulfilled (.inr .nil)
    | .flatMap _, .cons x next => do
      let seq ← (f x).call
      return .inl (.flatMapApp seq next)
    | .flatMapApp _ tail, .nil => .fulfilled (.inl (.flatMap tail))
    | .flatMapApp _ tail, .cons x next =>
      .fulfilled (.inr (.cons x (.rest (.flatMapApp next tail))))

def flatMap (forceSub : T → Call ω ε (Node β T)) (f : α → Plain ω ε T) :
    Derived S (Flat S T) → Call ω ε (Node β (Derived S (Flat S T)))
  | .first seq => (flatMapLoop force forceSub f).start fuel (.flatMap seq)
  | .rest m => (flatMapLoop force forceSub f).run fuel m

end Maps

/-! ## Sequences from other values -/

def unfold (f : U → Plain ω ε (Option (α × U))) (u : U) : Call ω ε (Node α U) := do
  match ← (f u).call.guarded with
  | none => return .nil
  | some (x, u) => return .cons x u

def unfoldLwtNode : Option (α × U) → Call ω ε (Node α (Derived U U))
  | none => .fulfilled .nil
  | some (x, u) => .fulfilled (.cons x (.rest u))

def unfoldLwt (f : U → Call ω ε (Option (α × U))) :
    Derived U U → Call ω ε (Node α (Derived U U))
  | .first u => (f u).guarded >>= unfoldLwtNode
  | .rest u => f u >>= unfoldLwtNode

def ofList : List α → Call ω ε (Node α (List α))
  | [] => .fulfilled .nil
  | h :: t => .fulfilled (.cons h t)

/-- The suspensions of a `Seq.t` do not return promises. -/
def ofSeq (force : S → Plain ω ε (Node α S)) (seq : S) : Call ω ε (Node α S) :=
  (force seq).call.guarded

def ofSeqLwtNode : Node (Promise ω ε α) S → Call ω ε (Node α (Derived S S))
  | .nil => .fulfilled .nil
  | .cons x next => do
    let x ← x.call
    return .cons x (.rest next)

def ofSeqLwt (force : S → Plain ω ε (Node (Promise ω ε α) S)) :
    Derived S S → Call ω ε (Node α (Derived S S))
  | .first seq => (force seq).call.guarded >>= ofSeqLwtNode
  | .rest seq => (force seq).call >>= ofSeqLwtNode

end Lwt.Seq
