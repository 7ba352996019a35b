import Lwt.Seq.Nodes

/-!
# Exceptions that escape

The functions of `Lwt_seq` guard their first suspension with `Lwt.apply`, and rely on `bind` for
what follows, which "is only needed on the first iteration because we are within a callback".  But
`bind` calls its function without a handler when the promise is fulfilled already.  So what raises
after suspensions that were all fulfilled at once escapes, and after the first wait nothing does.

For each function there is a condition on the suspensions and on the function that is given: what
the call passes at once.  An exception that ends the call is that of the promise it returns if and
only if nothing on this way raises (`exceptions_kept_iff`).
-/

namespace Lwt.Seq

open Calls Relation

variable {ω ε α β A R S S₁ S₂ T U : Type} {force : S → Call ω ε (Node α S)}

/-- An exception that ends `c` is that of the promise that `call` returns. -/
def Kept (c call : Call ω ε R) : Prop := ∀ exn, c.Throws exn → call.RejectedWith exn

/-! ## Folds -/

/-- An element is passed at once. -/
def Passes (force : S → Call ω ε (Node α S)) (f : A → α → Call ω ε A) (m m' : A × S) : Prop :=
  ∃ x, (force m.2).Gives (.cons x m'.2) ∧ (f m.1 x).Gives m'.1

/-- As long as elements are passed at once, neither a suspension after the first one nor a call
of `f` raises. -/
structure FoldQuiet (force : S → Call ω ε (Node α S)) (f : A → α → Call ω ε A) (m : A × S) :
    Prop where
  suspensions : ∀ m', TransGen (Passes force f) m m' → ¬(force m'.2).Raises
  calls : ∀ m', ReflTransGen (Passes force f) m m' →
    ∀ x next, (force m'.2).Gives (.cons x next) → ¬(f m'.1 x).Raises

theorem foldLoop_goes {f : A → α → Call ω ε A} {finish : A → Call ω ε R} :
    (foldLoop force f finish).Goes = Passes force f := by
  funext m m'
  refine propext ?_
  unfold Loop.Goes Loop.round Passes
  rw [Call.gives_bind]
  constructor
  · rintro ⟨node, hnode, hnext⟩
    cases node with
    | nil =>
      obtain ⟨r, _, hr⟩ := Call.gives_bind.mp hnext
      cases hr
    | cons x next =>
      obtain ⟨acc, hacc, hr⟩ := Call.gives_bind.mp hnext
      cases hr
      exact ⟨x, hnode, hacc⟩
  · rintro ⟨x, hnode, hacc⟩
    exact ⟨.cons x m'.2, hnode, Call.gives_bind.mpr ⟨m'.1, hacc, rfl⟩⟩

theorem foldLoop_keeps_iff {f : A → α → Call ω ε A} {finish : A → Call ω ε R}
    (hfinish : ∀ acc, ¬(finish acc).Raises) (m : A × S) :
    (foldLoop force f finish).Keeps m ((foldLoop force f finish).start · m) ↔
      FoldQuiet force f m := by
  rw [Loop.start_keeps_iff]
  unfold Loop.QuietAfter Loop.QuietNext
  rw [foldLoop_goes]
  constructor
  · rintro ⟨hsuspensions, hcalls⟩
    refine ⟨hsuspensions, fun m' hreach x next hgives hraises => ?_⟩
    exact hcalls m' hreach _ hgives (Call.raises_bind.mpr (.inl hraises))
  · rintro ⟨hsuspensions, hcalls⟩
    refine ⟨hsuspensions, fun m' hreach node hgives hraises => ?_⟩
    cases node with
    | nil =>
      rcases Call.raises_bind.mp hraises with h | ⟨_, _, h⟩
      · exact hfinish _ h
      · exact h
    | cons x next =>
      rcases Call.raises_bind.mp hraises with h | ⟨_, _, h⟩
      · exact hcalls m' hreach x next hgives h
      · exact h

/-! ## The functions that leave out elements -/

/-- An element is left out at once. -/
def Drops (force : S → Call ω ε (Node α S)) (f : α → Call ω ε (Option β)) (seq seq' : S) : Prop :=
  ∃ x, (force seq).Gives (.cons x seq') ∧ (f x).Gives none

/-- As long as elements are left out at once, neither a suspension nor a call of `f` raises.  The
first suspension of the sequence may. -/
def SelectQuiet (force : S → Call ω ε (Node α S)) (f : α → Call ω ε (Option β)) (seq : S)
    (suspended : S → S → Prop) : Prop :=
  (∀ seq', suspended seq seq' → ¬(force seq').Raises) ∧
    ∀ seq', ReflTransGen (Drops force f) seq seq' →
      ∀ x next, (force seq').Gives (.cons x next) → ¬(f x).Raises

theorem selectLoop_goes {f : α → Call ω ε (Option β)} :
    (selectLoop force f).Goes = Drops force f := by
  funext seq seq'
  refine propext ?_
  unfold Loop.Goes Loop.round Drops
  rw [Call.gives_bind]
  constructor
  · rintro ⟨node, hnode, hnext⟩
    cases node with
    | nil => cases hnext
    | cons x next =>
      obtain ⟨y, hy, hr⟩ := Call.gives_bind.mp hnext
      cases y with
      | none =>
        cases hr
        exact ⟨x, hnode, hy⟩
      | some y => cases hr
  · rintro ⟨x, hnode, hx⟩
    exact ⟨.cons x seq', hnode, Call.gives_bind.mpr ⟨none, hx, rfl⟩⟩

theorem selectLoop_quietNext {f : α → Call ω ε (Option β)} {seq : S} :
    (selectLoop force f).QuietNext seq ↔ ∀ seq', ReflTransGen (Drops force f) seq seq' →
      ∀ x next, (force seq').Gives (.cons x next) → ¬(f x).Raises := by
  unfold Loop.QuietNext
  rw [selectLoop_goes]
  constructor
  · intro h seq' hreach x next hgives hraises
    exact h seq' hreach _ hgives (Call.raises_bind.mpr (.inl hraises))
  · intro h seq' hreach node hgives hraises
    cases node with
    | nil => exact hraises
    | cons x next =>
      rcases Call.raises_bind.mp hraises with hf | ⟨y, _, hy⟩
      · exact h seq' hreach x next hgives hf
      · cases y <;> exact hy

theorem select_first_keeps_iff (f : α → Call ω ε (Option β)) (seq : S) :
    (selectLoop force f).Keeps seq (fun fuel => select force fuel f (.first seq)) ↔
      SelectQuiet force f seq (TransGen (Drops force f)) := by
  unfold SelectQuiet
  rw [← selectLoop_quietNext, ← selectLoop_goes]
  exact Loop.start_keeps_iff

theorem select_rest_keeps_iff (f : α → Call ω ε (Option β)) (seq : S) :
    (selectLoop force f).Keeps seq (fun fuel => select force fuel f (.rest seq)) ↔
      SelectQuiet force f seq (ReflTransGen (Drops force f)) := by
  unfold SelectQuiet
  rw [← selectLoop_quietNext, ← selectLoop_goes]
  exact Loop.run_keeps_iff

/-! ## The functions that force one suspension -/

theorem kept_first_iff {M : Type} {c : Call ω ε M} {k : M → Call ω ε R} :
    Kept (c >>= k) (c.guarded >>= k) ↔ ∀ v, c.Gives v → ¬(k v).Raises := by
  have hthrows : ∀ exn, (c.guarded >>= k).Throws exn ↔ (c >>= k).Throws exn := by
    intro exn
    simp only [Call.throws_bind, Call.throws_guarded, Call.settles_guarded]
  have hraises : (c.guarded >>= k).Raises ↔ ∃ v, c.Gives v ∧ (k v).Raises := by
    simp only [Call.raises_bind, Call.gives_guarded, Call.not_raises_guarded, false_or]
  constructor
  · intro h v hgives hk
    have hcall := hraises.mpr ⟨v, hgives, hk⟩
    obtain ⟨exn, hexn⟩ := hcall.throws
    exact (h exn ((hthrows exn).mp hexn)).2 hcall
  · intro h exn hexn
    refine ⟨(hthrows exn).mpr hexn, fun hcall => ?_⟩
    obtain ⟨v, hgives, hk⟩ := hraises.mp hcall
    exact h v hgives hk

theorem kept_rest_iff {M : Type} {c : Call ω ε M} {k : M → Call ω ε R} :
    Kept (c >>= k) (c >>= k) ↔ ¬c.Raises ∧ ∀ v, c.Gives v → ¬(k v).Raises := by
  refine Call.rejected_iff.trans ?_
  rw [Call.raises_bind]
  simp only [not_or, not_exists, not_and]

theorem mapNode_not_raises (f : α → Plain ω ε β) (node : Node α S) : ¬(mapNode f node).Raises := by
  cases node with
  | nil => exact id
  | cons x next =>
    intro hraises
    rcases Call.raises_bind.mp hraises with h | ⟨_, _, h⟩
    · exact Call.not_raises_guarded _ h
    · exact h

theorem mapSNode_raises {f : α → Call ω ε β} {c : Call ω ε (Node α S)} :
    (∀ node, c.Gives node → ¬(mapSNode f node).Raises) ↔
      ∀ x next, c.Gives (.cons x next) → ¬(f x).Raises := by
  constructor
  · exact fun h x next hgives hf => h _ hgives (Call.raises_bind.mpr (.inl hf))
  · intro h node hgives hraises
    cases node with
    | nil => exact hraises
    | cons x next =>
      rcases Call.raises_bind.mp hraises with hf | ⟨_, _, hf⟩
      · exact h x next hgives hf
      · exact hf

theorem appendNode_raises {force₂ : T → Call ω ε (Node α T)} {seq2 : T}
    {c : Call ω ε (Node α S)} :
    (∀ node, c.Gives node → ¬(appendNode force₂ seq2 node).Raises) ↔
      (c.Gives .nil → ¬(force₂ seq2).Raises) := by
  constructor
  · exact fun h hgives hraises => h _ hgives (Call.raises_bind.mpr (.inl hraises))
  · intro h node hgives hraises
    cases node with
    | nil =>
      rcases Call.raises_bind.mp hraises with hf | ⟨_, _, hf⟩
      · exact h hgives hf
      · exact hf
    | cons x next => exact hraises

theorem unfoldLwtNode_not_raises (node : Option (α × U)) :
    ¬(unfoldLwtNode node : Call ω ε (Node α (Derived U U))).Raises := by
  cases node <;> exact id

theorem append_second_kept_iff {force₂ : T → Call ω ε (Node α T)} {seq2 : T} :
    Kept (append force force₂ (.second seq2)) (append force force₂ (.second seq2)) ↔
      ¬(force₂ seq2).Raises := by
  refine kept_rest_iff.trans (and_iff_left ?_)
  exact fun _ _ => id

/-! ## `flat_map` -/

/-- An element of the sequence or the end of a sequence that `f` has given is passed at once. -/
def FlatPasses (force : S → Call ω ε (Node α S)) (forceSub : T → Call ω ε (Node β T))
    (f : α → Plain ω ε T) : Flat S T → Flat S T → Prop
  | .flatMap seq, m => ∃ x next sub, (force seq).Gives (.cons x next) ∧ (f x).call.Gives sub ∧
      m = .flatMapApp sub next
  | .flatMapApp seq tail, m => (forceSub seq).Gives .nil ∧ m = .flatMap tail

/-- The suspension that is forced next raises. -/
def Flat.Raises (force : S → Call ω ε (Node α S)) (forceSub : T → Call ω ε (Node β T)) :
    Flat S T → Prop
  | .flatMap seq => (force seq).Raises
  | .flatMapApp seq _ => (forceSub seq).Raises

def FlatQuiet (force : S → Call ω ε (Node α S)) (forceSub : T → Call ω ε (Node β T))
    (f : α → Plain ω ε T) (m : Flat S T) (suspended : Flat S T → Flat S T → Prop) : Prop :=
  (∀ m', suspended m m' → ¬m'.Raises force forceSub) ∧
    ∀ seq, ReflTransGen (FlatPasses force forceSub f) m (.flatMap seq) →
      ∀ x next, (force seq).Gives (.cons x next) → ¬(f x).call.Raises

section FlatMap

variable {forceSub : T → Call ω ε (Node β T)} {f : α → Plain ω ε T}

theorem flatMapLoop_goes :
    (flatMapLoop force forceSub f).Goes = FlatPasses force forceSub f := by
  funext m m'
  refine propext ?_
  unfold Loop.Goes Loop.round
  rw [Call.gives_bind]
  cases m with
  | flatMap seq =>
    constructor
    · rintro ⟨node, hnode, hnext⟩
      cases node with
      | nil => cases hnext
      | cons x next =>
        obtain ⟨sub, hsub, hr⟩ := Call.gives_bind.mp hnext
        cases hr
        exact ⟨x, next, sub, hnode, hsub, rfl⟩
    · rintro ⟨x, next, sub, hnode, hsub, rfl⟩
      exact ⟨.cons x next, hnode, Call.gives_bind.mpr ⟨sub, hsub, rfl⟩⟩
  | flatMapApp sub tail =>
    constructor
    · rintro ⟨node, hnode, hnext⟩
      cases node with
      | nil =>
        cases hnext
        exact ⟨hnode, rfl⟩
      | cons x next => cases hnext
    · rintro ⟨hnode, rfl⟩
      exact ⟨.nil, hnode, rfl⟩

theorem flatMapLoop_quietNext {m : Flat S T} :
    (flatMapLoop force forceSub f).QuietNext m ↔
      ∀ seq, ReflTransGen (FlatPasses force forceSub f) m (.flatMap seq) →
        ∀ x next, (force seq).Gives (.cons x next) → ¬(f x).call.Raises := by
  unfold Loop.QuietNext
  rw [flatMapLoop_goes]
  constructor
  · intro h seq hreach x next hgives hraises
    exact h _ hreach (.cons x next) hgives (Call.raises_bind.mpr (.inl hraises))
  · intro h m' hreach node hgives hraises
    cases m' with
    | flatMap seq =>
      cases node with
      | nil => exact hraises
      | cons x next =>
        rcases Call.raises_bind.mp hraises with hf | ⟨_, _, hf⟩
        · exact h seq hreach x next hgives hf
        · exact hf
    | flatMapApp sub tail => cases node <;> exact hraises

theorem flatMapLoop_raises {m : Flat S T} :
    ((flatMapLoop force forceSub f).node m).Raises ↔ m.Raises force forceSub := by
  cases m <;> exact Iff.rfl

theorem flatMap_first_keeps_iff (seq : S) :
    (flatMapLoop force forceSub f).Keeps (.flatMap seq)
        (fun fuel => flatMap force fuel forceSub f (.first seq)) ↔
      FlatQuiet force forceSub f (.flatMap seq) (TransGen (FlatPasses force forceSub f)) := by
  unfold FlatQuiet
  rw [← flatMapLoop_quietNext]
  simp only [← flatMapLoop_goes, ← flatMapLoop_raises (f := f)]
  exact Loop.start_keeps_iff

theorem flatMap_rest_keeps_iff (m : Flat S T) :
    (flatMapLoop force forceSub f).Keeps m (fun fuel => flatMap force fuel forceSub f (.rest m)) ↔
      FlatQuiet force forceSub f m (ReflTransGen (FlatPasses force forceSub f)) := by
  unfold FlatQuiet
  rw [← flatMapLoop_quietNext]
  simp only [← flatMapLoop_goes, ← flatMapLoop_raises (f := f)]
  exact Loop.run_keeps_iff

end FlatMap

/-! ## `iter_n` -/

section IterN

variable {invalidArgument : String → ε} {f : α → Call ω ε Unit}
  {m m' : List (Promise ω ε Unit) × ℤ × Derived S S}

/-- An element is passed at once, after a wait for the capacity that is over at once. -/
def IterNPasses (force : S → Call ω ε (Node α S)) (invalidArgument : String → ε)
    (f : α → Call ω ε Unit) (m m' : List (Promise ω ε Unit) × ℤ × Derived S S) : Prop :=
  ∃ running available elt next p,
    (capacity invalidArgument m.1 m.2.1).Gives (running, available) ∧
    (forceApplied force m.2.2).Gives (.cons elt next) ∧ (detach (f elt)).Gives p ∧
    m' = (p :: running, available - 1, .rest next)

def IterNQuiet (force : S → Call ω ε (Node α S)) (invalidArgument : String → ε)
    (f : α → Call ω ε Unit) (m : List (Promise ω ε Unit) × ℤ × Derived S S) : Prop :=
  ∀ m', ReflTransGen (IterNPasses force invalidArgument f) m m' →
    (∃ v, (capacity invalidArgument m'.1 m'.2.1).Gives v) →
      ¬(forceApplied force m'.2.2).Raises ∧
      ∀ elt next, (forceApplied force m'.2.2).Gives (.cons elt next) → ¬(f elt).Raises

theorem capacity_length {running running' : List (Promise ω ε Unit)} {available available' : ℤ}
    (h : (capacity invalidArgument running available).Gives (running', available')) :
    (running'.length : ℤ) + available' = running.length + available := by
  unfold capacity at h
  split at h
  · cases h
    rfl
  · obtain ⟨⟨complete, pending⟩, hsplit, hgives⟩ := Call.gives_bind.mp h
    cases hgives
    have hlength := nchooseSplit_length hsplit
    omega

theorem not_raises_capacity {running : List (Promise ω ε Unit)} {available : ℤ}
    (h : 0 < (running.length : ℤ) + available) :
    ¬(capacity invalidArgument running available).Raises := by
  unfold capacity
  split
  · exact id
  · intro hraises
    have hrunning : running ≠ [] := by
      rintro rfl
      rw [List.length_nil] at h
      omega
    rcases Call.raises_bind.mp hraises with hf | ⟨_, _, hf⟩
    · exact not_raises_nchooseSplit hrunning hf
    · exact hf

theorem iterNLoop_goes :
    (iterNLoop force invalidArgument f).Goes = IterNPasses force invalidArgument f := by
  funext m m'
  refine propext ?_
  unfold Loop.Goes Loop.round IterNPasses
  rw [Call.gives_bind]
  constructor
  · rintro ⟨⟨running, available⟩, hcapacity, hnext⟩
    obtain ⟨node, hnode, hnext⟩ := Call.gives_bind.mp hnext
    cases node with
    | nil =>
      obtain ⟨r, _, hr⟩ := Call.gives_bind.mp hnext
      cases hr
    | cons elt next =>
      obtain ⟨p, hp, hr⟩ := Call.gives_bind.mp hnext
      cases hr
      exact ⟨running, available, elt, next, p, hcapacity, hnode, hp, rfl⟩
  · rintro ⟨running, available, elt, next, p, hcapacity, hnode, hp, rfl⟩
    exact ⟨(running, available), hcapacity,
      Call.gives_bind.mpr ⟨_, hnode, Call.gives_bind.mpr ⟨p, hp, rfl⟩⟩⟩

theorem iterN_capacity (hreach : ReflTransGen (IterNPasses force invalidArgument f) m m') :
    (m'.1.length : ℤ) + m'.2.1 = m.1.length + m.2.1 := by
  induction hreach with
  | refl => rfl
  | tail _ hpass ih =>
    obtain ⟨running, available, elt, next, p, hcapacity, _, _, rfl⟩ := hpass
    have hlength := capacity_length hcapacity
    rw [List.length_cons]
    push_cast
    omega

theorem iterNLoop_next_raises {v : List (Promise ω ε Unit) × ℤ} :
    ¬((iterNLoop force invalidArgument f).next m v).Raises ↔
      ¬(forceApplied force m.2.2).Raises ∧
        ∀ elt next, (forceApplied force m.2.2).Gives (.cons elt next) → ¬(f elt).Raises := by
  unfold iterNLoop
  rw [Call.raises_bind, not_or]
  refine and_congr_right fun _ => ⟨?_, ?_⟩
  · intro h elt next hgives hraises
    exact h ⟨_, hgives, Call.raises_bind.mpr (.inl (detach_raises.mpr hraises))⟩
  · rintro h ⟨node, hgives, hraises⟩
    cases node with
    | nil =>
      rcases Call.raises_bind.mp hraises with hf | ⟨_, _, hf⟩
      · exact not_raises_join _ hf
      · exact hf
    | cons elt next =>
      rcases Call.raises_bind.mp hraises with hf | ⟨_, _, hf⟩
      · exact h elt next hgives (detach_raises.mp hf)
      · exact hf

theorem iterN_keeps_iff (n : ℕ) (seq : S) :
    (iterNLoop force invalidArgument f).Keeps ([], n + 1, .first seq)
        (fun fuel => iterN force fuel invalidArgument (n + 1) f seq) ↔
      IterNQuiet force invalidArgument f ([], n + 1, .first seq) := by
  have hcall : ∀ fuel, iterN force fuel invalidArgument (n + 1) f seq =
      (iterNLoop force invalidArgument f).run fuel ([], n + 1, .first seq) :=
    fun fuel => if_neg (by omega)
  simp only [hcall]
  rw [Loop.run_keeps_iff]
  unfold Loop.Quiet Loop.QuietNext IterNQuiet
  simp only [iterNLoop_goes, iterNLoop_next_raises]
  constructor
  · rintro ⟨_, hnext⟩ m' hreach ⟨v, hv⟩
    exact hnext m' hreach v hv
  · intro h
    refine ⟨fun m' hreach => ?_, fun m' hreach v hv => h m' hreach ⟨v, hv⟩⟩
    have hlength := iterN_capacity hreach
    rw [List.length_nil] at hlength
    refine not_raises_capacity ?_
    push_cast at hlength
    omega

end IterN

/-! ## All functions -/

/-- An exception that ends a call of a function of `Lwt_seq` is that of the promise it returns, if
and only if nothing on the way that the call passes at once raises.  The first suspension of the
sequence may, and so may the function of `map`.  The nodes of the new sequences after the first
one have an unguarded suspension. -/
theorem exceptions_kept_iff (force : S → Call ω ε (Node α S)) :
    (∀ (f : A → α → Plain ω ε A) acc seq,
      (foldLeftLoop force f).Keeps (acc, seq) (foldLeft force · f acc seq) ↔
        FoldQuiet force (fun acc x => (f acc x).call) (acc, seq)) ∧
    (∀ (f : A → α → Call ω ε A) acc seq,
      (foldLeftSLoop force f).Keeps (acc, seq) (foldLeftS force · f acc seq) ↔
        FoldQuiet force f (acc, seq)) ∧
    (∀ (f : α → Plain ω ε Unit) seq,
      (iterLoop force f).Keeps ((), seq) (iter force · f seq) ↔
        FoldQuiet force (fun _ x => (f x).call) ((), seq)) ∧
    (∀ (f : α → Call ω ε Unit) seq,
      (iterSLoop force f).Keeps ((), seq) (iterS force · f seq) ↔
        FoldQuiet force (fun _ x => f x) ((), seq)) ∧
    (∀ (f : α → Call ω ε Unit) seq,
      (iterPLoop force f).Keeps ([], seq) (iterP force · f seq) ↔
        FoldQuiet force (keepPromise f) ([], seq)) ∧
    (∀ (invalidArgument : String → ε) (n : ℕ) (f : α → Call ω ε Unit) seq,
      (iterNLoop force invalidArgument f).Keeps ([], n + 1, .first seq)
          (iterN force · invalidArgument (n + 1) f seq) ↔
        IterNQuiet force invalidArgument f ([], n + 1, .first seq)) ∧
    (∀ seq, (toListLoop force).Keeps (fun x => x, seq) (toList force · seq) ↔
      FoldQuiet force (fun f h => .fulfilled fun x => f (h :: x)) (fun x => x, seq)) ∧
    (∀ (force₂ : T → Call ω ε (Node α T)) seq1 seq2,
      (Kept (force seq1 >>= appendNode force₂ seq2) (append force force₂ (.first seq1 seq2)) ↔
        ((force seq1).Gives .nil → ¬(force₂ seq2).Raises)) ∧
      (Kept (force seq1 >>= appendNode force₂ seq2) (append force force₂ (.rest seq1 seq2)) ↔
        ¬(force seq1).Raises ∧ ((force seq1).Gives .nil → ¬(force₂ seq2).Raises)) ∧
      (Kept (append force force₂ (.second seq2)) (append force force₂ (.second seq2)) ↔
        ¬(force₂ seq2).Raises)) ∧
    (∀ (f : α → Plain ω ε β) seq,
      Kept (force seq >>= mapNode f) (map force f (.first seq)) ∧
      (Kept (force seq >>= mapNode f) (map force f (.rest seq)) ↔ ¬(force seq).Raises)) ∧
    (∀ (f : α → Call ω ε β) seq,
      (Kept (force seq >>= mapSNode f) (mapS force f (.first seq)) ↔
        ∀ x next, (force seq).Gives (.cons x next) → ¬(f x).Raises) ∧
      (Kept (force seq >>= mapSNode f) (mapS force f (.rest seq)) ↔
        ¬(force seq).Raises ∧ ∀ x next, (force seq).Gives (.cons x next) → ¬(f x).Raises)) ∧
    (∀ (f : α → Plain ω ε Bool) seq,
      ((selectLoop force (keepIf fun x => (f x).call)).Keeps seq (filter force · f (.first seq)) ↔
        SelectQuiet force (keepIf fun x => (f x).call) seq
          (TransGen (Drops force (keepIf fun x => (f x).call)))) ∧
      ((selectLoop force (keepIf fun x => (f x).call)).Keeps seq (filter force · f (.rest seq)) ↔
        SelectQuiet force (keepIf fun x => (f x).call) seq
          (ReflTransGen (Drops force (keepIf fun x => (f x).call))))) ∧
    (∀ (f : α → Call ω ε Bool) seq,
      ((selectLoop force (keepIf f)).Keeps seq (filterS force · f (.first seq)) ↔
        SelectQuiet force (keepIf f) seq (TransGen (Drops force (keepIf f)))) ∧
      ((selectLoop force (keepIf f)).Keeps seq (filterS force · f (.rest seq)) ↔
        SelectQuiet force (keepIf f) seq (ReflTransGen (Drops force (keepIf f))))) ∧
    (∀ (f : α → Plain ω ε (Option β)) seq,
      ((selectLoop force fun x => (f x).call).Keeps seq (filterMap force · f (.first seq)) ↔
        SelectQuiet force (fun x => (f x).call) seq
          (TransGen (Drops force fun x => (f x).call))) ∧
      ((selectLoop force fun x => (f x).call).Keeps seq (filterMap force · f (.rest seq)) ↔
        SelectQuiet force (fun x => (f x).call) seq
          (ReflTransGen (Drops force fun x => (f x).call)))) ∧
    (∀ (f : α → Call ω ε (Option β)) seq,
      ((selectLoop force f).Keeps seq (filterMapS force · f (.first seq)) ↔
        SelectQuiet force f seq (TransGen (Drops force f))) ∧
      ((selectLoop force f).Keeps seq (filterMapS force · f (.rest seq)) ↔
        SelectQuiet force f seq (ReflTransGen (Drops force f)))) ∧
    (∀ (forceSub : T → Call ω ε (Node β T)) (f : α → Plain ω ε T) seq m,
      ((flatMapLoop force forceSub f).Keeps (.flatMap seq)
          (flatMap force · forceSub f (.first seq)) ↔
        FlatQuiet force forceSub f (.flatMap seq) (TransGen (FlatPasses force forceSub f))) ∧
      ((flatMapLoop force forceSub f).Keeps m (flatMap force · forceSub f (.rest m)) ↔
        FlatQuiet force forceSub f m (ReflTransGen (FlatPasses force forceSub f)))) ∧
    ∀ (f : U → Call ω ε (Option (α × U))) u,
      Kept (f u >>= unfoldLwtNode) (unfoldLwt f (.first u)) ∧
      (Kept (f u >>= unfoldLwtNode) (unfoldLwt f (.rest u)) ↔ ¬(f u).Raises) := by
  have hpure : ∀ {A : Type} (acc : A), ¬(Call.fulfilled acc : Call ω ε A).Raises := fun _ => id
  -- loops by their rules; nodes made on demand, by what the first suspension gives
  refine ⟨fun f acc seq => foldLoop_keeps_iff hpure _, fun f acc seq => foldLoop_keeps_iff hpure _,
    fun f seq => foldLoop_keeps_iff (fun _ => hpure ()) _,
    fun f seq => foldLoop_keeps_iff (fun _ => hpure ()) _,
    fun f seq => foldLoop_keeps_iff not_raises_join _,
    fun invalidArgument n f seq => iterN_keeps_iff n seq,
    fun seq => foldLoop_keeps_iff (fun _ => hpure _) _,
    fun force₂ seq1 seq2 => ⟨?_, ?_, append_second_kept_iff⟩, fun f seq => ⟨?_, ?_⟩,
    fun f seq => ⟨?_, ?_⟩,
    fun f seq => ⟨select_first_keeps_iff _ seq, select_rest_keeps_iff _ seq⟩,
    fun f seq => ⟨select_first_keeps_iff _ seq, select_rest_keeps_iff _ seq⟩,
    fun f seq => ⟨select_first_keeps_iff _ seq, select_rest_keeps_iff _ seq⟩,
    fun f seq => ⟨select_first_keeps_iff _ seq, select_rest_keeps_iff _ seq⟩,
    fun forceSub f seq m => ⟨flatMap_first_keeps_iff seq, flatMap_rest_keeps_iff m⟩,
    fun f u => ⟨?_, ?_⟩⟩
  · exact kept_first_iff.trans appendNode_raises
  · exact kept_rest_iff.trans (and_congr_right fun _ => appendNode_raises)
  · exact kept_first_iff.mpr fun node _ => mapNode_not_raises f node
  · exact kept_rest_iff.trans (and_iff_left fun node _ => mapNode_not_raises f node)
  · exact kept_first_iff.trans mapSNode_raises
  · exact kept_rest_iff.trans (and_congr_right fun _ => mapSNode_raises)
  · exact kept_first_iff.mpr fun node _ => unfoldLwtNode_not_raises node
  · exact kept_rest_iff.trans (and_iff_left fun node _ => unfoldLwtNode_not_raises node)

/-- A sequence with one element, which is there at once; its second suspension raises. -/
def broken : Bool → Call Empty Unit (Node Unit Bool)
  | true => .fulfilled (.cons () false)
  | false => .raised ()

/-- `fold_left` and `to_list` raise the exception of the second suspension. -/
theorem exceptions_escape :
    ¬((foldLeftLoop broken fun _ _ => (⟨[], .ok ()⟩ : Plain Empty Unit Unit)).Keeps ((), true)
        (foldLeft broken · (fun _ _ => ⟨[], .ok ()⟩) () true)) ∧
      ¬(toListLoop broken).Keeps (fun x => x, true) (toList broken · true) := by
  refine ⟨fun h => ?_, fun h => ?_⟩
  · obtain ⟨least, hleast⟩ := h () ⟨((), false), .single rfl, rfl⟩
    exact (hleast (least + 1) (Nat.le_succ _)).2 trivial
  · obtain ⟨least, hleast⟩ := h () ⟨(fun x => [()] ++ x, false), .single rfl, rfl⟩
    exact (hleast (least + 1) (Nat.le_succ _)).2 trivial

end Lwt.Seq
