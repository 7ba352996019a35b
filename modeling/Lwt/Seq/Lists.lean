import Lwt.Seq.Nodes

/-!
# Sequences and lists

`Spells` relates a sequence to the list of its elements, whatever the waits of its nodes are, and
to the events that forcing it records.  Each function on sequences is related to the function on
lists: on a sequence that spells `l`, it gives one that spells what the function on lists makes of
`l`.  The events are those of the user function, so they tell that it is called once for each
element, in order.

A list has as many elements as its sequence has nodes, and this bounds the rounds of the loops.
-/

namespace Lwt.Seq

open Calls

variable {ω ε α β A R S S₁ S₂ T U : Type} {force : S → Call ω ε (Node α S)} {seq : S}
  {events : List ω} {l : List α}

/-- Forcing the sequence to its end gives the elements of a list, and records events. -/
inductive Spells (force : S → Call ω ε (Node α S)) : S → List ω → List α → Prop
  | nil {seq : S} {events : List ω} (h : (force seq).Comes events .nil) :
      Spells force seq events []
  | cons {seq next : S} {events events' : List ω} {x : α} {l : List α}
      (h : (force seq).Comes events (.cons x next)) (hrest : Spells force next events' l) :
      Spells force seq (events ++ events') (x :: l)

theorem Spells.of_comes {seq' : S} (h : Spells force seq events l)
    (hcomes : ∀ events node, (force seq).Comes events node → (force seq').Comes events node) :
    Spells force seq' events l := by
  cases h with
  | nil h => exact .nil (hcomes _ _ h)
  | cons h hrest => exact .cons (hcomes _ _ h) hrest

/-! ## Folds -/

/-- The rounds of a fold over the elements of a list, with the events of the suspensions and of
`f`. -/
inductive Folds (force : S → Call ω ε (Node α S)) (f : A → α → Call ω ε A) :
    A → S → List α → List ω → A → Prop
  | nil {acc : A} {seq : S} {events : List ω} (h : (force seq).Comes events .nil) :
      Folds force f acc seq [] events acc
  | cons {acc acc' last : A} {seq next : S} {events events' events'' : List ω} {x : α} {l : List α}
      (h : (force seq).Comes events (.cons x next)) (hf : (f acc x).Comes events' acc')
      (hrest : Folds force f acc' next l events'' last) :
      Folds force f acc seq (x :: l) (events ++ events' ++ events'') last

theorem Folds.run {f : A → α → Call ω ε A} {finish : A → Call ω ε R} {acc last : A} {r : R}
    (h : Folds force f acc seq l events last) (hfinish : (finish last).Comes [] r) :
    ∀ fuel > l.length, ((foldLoop force f finish).run fuel (acc, seq)).Comes events r := by
  induction h with
  | nil h =>
    intro fuel hlt
    obtain ⟨fuel, rfl⟩ := Nat.exists_eq_add_of_le' hlt
    refine Loop.run_comes_ends (h.bind_silent ?_)
    exact hfinish.bind_silent (Call.comes_fulfilled _)
  | cons h hf _ ih =>
    intro fuel hlt
    obtain ⟨fuel, rfl⟩ := Nat.exists_eq_add_of_le' hlt
    refine Loop.run_comes_leads (h.bind ?_)
      (ih hfinish _ (Nat.lt_of_succ_le (Nat.le_add_left _ _)))
    exact hf.bind_silent (Call.comes_fulfilled _)

theorem Folds.comes {f : A → α → Call ω ε A} {finish : A → Call ω ε R} {acc last : A} {r : R}
    {fuel : ℕ} (h : Folds force f acc seq l events last) (hfinish : (finish last).Comes [] r)
    (hle : l.length ≤ fuel) : ((foldLoop force f finish).start fuel (acc, seq)).Comes events r :=
  Loop.start_comes_iff.mpr (h.run hfinish _ (Nat.lt_succ_of_le hle))

/-- A traversal gives the left fold, and its events are those of `f`. -/
theorem Spells.folds {f : A → α → Call ω ε A} {g : A → α → A} {note : α → List ω}
    (hf : ∀ acc x, (f acc x).Comes (note x) (g acc x)) (acc : A) (h : Spells force seq [] l) :
    Folds force f acc seq l (l.flatMap note) (l.foldl g acc) := by
  generalize hevents : ([] : List ω) = events at h
  induction h generalizing acc with
  | nil h =>
    subst hevents
    exact .nil h
  | cons h hrest ih =>
    obtain ⟨rfl, rfl⟩ := List.append_eq_nil_iff.mp hevents.symm
    rw [List.flatMap_cons, List.foldl_cons, ← List.nil_append (note _)]
    exact .cons h (hf acc _) (ih (g acc _) rfl)

theorem Spells.toList {fuel : ℕ} (h : Spells force seq events l) (hle : l.length ≤ fuel) :
    (toList force fuel seq).Comes events l := by
  have hfolds : ∀ k : List α → List α, Folds force
      (fun f h => .fulfilled fun x => f (h :: x)) k seq l events fun x => k (l ++ x) := by
    clear hle
    induction h with
    | nil h => exact fun k => .nil h
    | cons h _ ih =>
      intro k
      have hcons := Folds.cons h (Call.comes_fulfilled _) (ih fun x => k (_ :: x))
      rw [List.append_nil] at hcons
      exact hcons
  have hlast : (Call.fulfilled (l ++ []) : Call ω ε (List α)).Comes [] l := by
    rw [List.append_nil]
    exact Call.comes_fulfilled l
  exact (hfolds fun x => x).comes hlast hle

/-! ## Maps -/

theorem Spells.derived {derived : Derived S S → Call ω ε (Node β (Derived S S))}
    {k : Node α S → Call ω ε (Node β (Derived S S))} {g : α → β} {note : α → List ω}
    (hfirst : ∀ seq, derived (.first seq) = (force seq).guarded >>= k)
    (hrest : ∀ seq, derived (.rest seq) = force seq >>= k) (hnil : (k .nil).Comes [] .nil)
    (hcons : ∀ x next, (k (.cons x next)).Comes (note x) (.cons (g x) (.rest next)))
    (h : Spells force seq [] l) :
    Spells derived (.first seq) (l.flatMap note) (l.map g) := by
  have hspells : ∀ {seq l}, Spells force seq [] l →
      Spells derived (.rest seq) (l.flatMap note) (l.map g) := by
    intro seq l h
    generalize hevents : ([] : List ω) = events at h
    induction h with
    | nil h =>
      refine .nil ?_
      rw [hrest]
      exact (hevents ▸ h).bind_silent hnil
    | cons h _ ih =>
      obtain ⟨rfl, rfl⟩ := List.append_eq_nil_iff.mp hevents.symm
      refine .cons ?_ (ih rfl)
      rw [hrest]
      exact h.bind (hcons _ _)
  refine (hspells h).of_comes fun events node hcomes => ?_
  rw [hfirst, Call.comes_guarded_bind, ← hrest]
  exact hcomes

theorem Spells.map {f : α → Plain ω ε β} {g : α → β} {note : α → List ω}
    (hf : ∀ x, f x = ⟨note x, .ok (g x)⟩) (h : Spells force seq [] l) :
    Spells (map force f) (.first seq) (l.flatMap note) (l.map g) := by
  refine h.derived (fun _ => rfl) (fun _ => rfl) (Call.comes_fulfilled _) fun x next => ?_
  have hcall := Call.comes_guarded.mpr (Plain.comes_call (ε := ε) (note x) (g x))
  rw [← hf x] at hcall
  exact hcall.bind_silent (Call.comes_fulfilled _)

theorem Spells.mapS {f : α → Call ω ε β} {g : α → β} {note : α → List ω}
    (hf : ∀ x, (f x).Comes (note x) (g x)) (h : Spells force seq [] l) :
    Spells (mapS force f) (.first seq) (l.flatMap note) (l.map g) :=
  h.derived (fun _ => rfl) (fun _ => rfl) (Call.comes_fulfilled _)
    fun x _ => (hf x).bind_silent (Call.comes_fulfilled _)

/-! ## The functions that leave out elements -/

/-- A run of the loop goes up to the first element that is kept. -/
theorem selectLoop_run {f : α → Call ω ε (Option β)} {g : α → Option β} {note : α → List ω}
    (hf : ∀ x, (f x).Comes (note x) (g x)) (h : Spells force seq [] l) :
    ∀ fuel > l.length,
      (l.filterMap g = [] ∧
        ((selectLoop force f).run fuel seq).Comes (l.flatMap note) .nil) ∨
      ∃ y next l' passed, l.filterMap g = y :: l'.filterMap g ∧
        l.flatMap note = passed ++ l'.flatMap note ∧ l'.length < l.length ∧
        ((selectLoop force f).run fuel seq).Comes passed (.cons y (.rest next)) ∧
        Spells force next [] l' := by
  generalize hevents : ([] : List ω) = events at h
  induction h with
  | nil h =>
    intro fuel hlt
    obtain ⟨fuel, rfl⟩ := Nat.exists_eq_add_of_le' hlt
    refine .inl ⟨rfl, Loop.run_comes_ends ?_⟩
    exact (hevents ▸ h).bind_silent (Call.comes_fulfilled _)
  | @cons seq next _ _ x l h hrest ih =>
    obtain ⟨rfl, rfl⟩ := List.append_eq_nil_iff.mp hevents.symm
    intro fuel hlt
    obtain ⟨fuel, rfl⟩ := Nat.exists_eq_add_of_le' hlt
    cases hg : g x with
    | none =>
      have hround : ((selectLoop force f).round seq).Comes (note x) (.inl next) := by
        refine h.bind (Call.Comes.bind_silent (hf x) ?_)
        rw [hg]
        exact Call.comes_fulfilled _
      rw [List.filterMap_cons_none hg, List.flatMap_cons]
      rcases ih rfl (fuel + l.length + 1) (by omega) with
        ⟨hnone, hrun⟩ | ⟨y, next', l', passed, hy, hpassed, hlen, hrun, hspells⟩
      · exact .inl ⟨hnone, Loop.run_comes_leads hround hrun⟩
      · refine .inr ⟨y, next', l', note x ++ passed, hy, ?_, Nat.lt_succ_of_lt hlen,
          Loop.run_comes_leads hround hrun, hspells⟩
        rw [hpassed, List.append_assoc]
    | some y =>
      refine .inr ⟨y, next, l, note x, List.filterMap_cons_some hg, List.flatMap_cons,
        Nat.lt_succ_self _, Loop.run_comes_ends ?_, hrest⟩
      refine h.bind (Call.Comes.bind_silent (hf x) ?_)
      rw [hg]
      exact Call.comes_fulfilled _

theorem Spells.select {f : α → Call ω ε (Option β)} {g : α → Option β} {note : α → List ω}
    (hf : ∀ x, (f x).Comes (note x) (g x)) (h : Spells force seq [] l) {fuel : ℕ}
    (hfuel : l.length < fuel) :
    Spells (select force fuel f) (.first seq) (l.flatMap note) (l.filterMap g) := by
  have hrests : ∀ n, ∀ {seq l}, l.length = n → n < fuel → Spells force seq [] l →
      Spells (Seq.select force fuel f) (.rest seq) (l.flatMap note) (l.filterMap g) := by
    intro n
    induction n using Nat.strong_induction_on with
    | _ n ih =>
      intro seq l hlen hlt h
      rcases selectLoop_run hf h fuel (by omega) with
        ⟨hnone, hrun⟩ | ⟨y, next, l', passed, hy, hpassed, hless, hrun, hrest⟩
      · rw [hnone]
        exact .nil hrun
      · rw [hy, hpassed]
        exact .cons hrun (ih l'.length (by omega) rfl (by omega) hrest)
  rcases selectLoop_run hf h (fuel + 1) (by omega) with
    ⟨hnone, hrun⟩ | ⟨y, next, l', passed, hy, hpassed, hless, hrun, hrest⟩
  · rw [hnone]
    exact .nil (Loop.start_comes_iff.mpr hrun)
  · rw [hy, hpassed]
    exact .cons (Loop.start_comes_iff.mpr hrun) (hrests l'.length rfl (by omega) hrest)

theorem keepIf_comes {f : α → Call ω ε Bool} {g : α → Bool} {note : α → List ω}
    (hf : ∀ x, (f x).Comes (note x) (g x)) (x : α) :
    (keepIf f x).Comes (note x) (if g x then some x else none) :=
  (hf x).bind_silent (Call.comes_fulfilled _)

theorem filterMap_keepIf (g : α → Bool) (l : List α) :
    l.filterMap (fun x => if g x then some x else none) = l.filter g := by
  rw [← List.filterMap_eq_filter]
  rfl

/-! ## `append` -/

theorem Spells.append {force₁ : S₁ → Call ω ε (Node α S₁)} {force₂ : S₂ → Call ω ε (Node α S₂)}
    {seq1 : S₁} {seq2 : S₂} {events' : List ω} {l' : List α} (h₁ : Spells force₁ seq1 events l)
    (h₂ : Spells force₂ seq2 events' l') :
    Spells (append force₁ force₂) (.first seq1 seq2) (events ++ events') (l ++ l') := by
  have hsecond : ∀ {seq2 events' l'}, Spells force₂ seq2 events' l' →
      Spells (Seq.append force₁ force₂) (.second seq2) events' l' := by
    intro seq2 events' l' h
    induction h with
    | nil h => exact .nil (h.bind_silent (Call.comes_fulfilled _))
    | cons h _ ih => exact .cons (h.bind_silent (Call.comes_fulfilled _)) ih
  have hrest : Spells (Seq.append force₁ force₂) (.rest seq1 seq2) (events ++ events')
      (l ++ l') := by
    induction h₁ with
    | nil h =>
      cases hsecond h₂ with
      | nil hnode => exact .nil (h.bind hnode)
      | cons hnode hrest =>
        rw [← List.append_assoc]
        exact .cons (h.bind hnode) hrest
    | cons h _ ih =>
      rw [List.append_assoc]
      exact .cons (h.bind_silent (Call.comes_fulfilled _)) ih
  exact hrest.of_comes fun events node hcomes => Call.comes_guarded_bind.mpr hcomes

/-! ## `flat_map` -/

/-- What is left of a sequence of sequences, with the rest of the sequence that `f` gave last. -/
inductive FlatSpells (force : S → Call ω ε (Node α S)) (forceSub : T → Call ω ε (Node β T))
    (g : α → List β) : Flat S T → List β → List α → Prop
  | flatMap {seq : S} {l : List α} (h : Spells force seq [] l) :
      FlatSpells force forceSub g (.flatMap seq) [] l
  | flatMapApp {seq : T} {tail : S} {k : List β} {l : List α} (hsub : Spells forceSub seq [] k)
      (h : Spells force tail [] l) :
      FlatSpells force forceSub g (.flatMapApp seq tail) k l

/-- A call gives the next element, with what is left then, or the end. -/
inductive FlatNode (force : S → Call ω ε (Node α S)) (forceSub : T → Call ω ε (Node β T))
    (g : α → List β) (note : α → List ω) (bound : ℕ)
    (c : Call ω ε (Node β (Derived S (Flat S T)))) : List ω → List β → Prop
  | nil {events : List ω} (h : c.Comes events .nil) :
      FlatNode force forceSub g note bound c events []
  | cons {events : List ω} {y : β} {m : Flat S T} {k : List β} {l : List α}
      (h : c.Comes events (.cons y (.rest m))) (hm : FlatSpells force forceSub g m k l)
      (hle : l.length ≤ bound) :
      FlatNode force forceSub g note bound c (events ++ l.flatMap note) (y :: (k ++ l.flatMap g))

section FlatMap

variable {forceSub : T → Call ω ε (Node β T)} {f : α → Plain ω ε T} {sub : α → T}
  {g : α → List β} {note : α → List ω} {m m' : Flat S T} {k : List β} {bound fuel : ℕ}
  {events' : List ω}

theorem FlatNode.leads (h : ((flatMapLoop force forceSub f).round m).Comes events (.inl m'))
    (hrest : FlatNode force forceSub g note bound ((flatMapLoop force forceSub f).run fuel m')
      events' k) :
    FlatNode force forceSub g note bound ((flatMapLoop force forceSub f).run (fuel + 1) m)
      (events ++ events') k := by
  cases hrest with
  | nil hrest => exact .nil (Loop.run_comes_leads h hrest)
  | cons hrest hm hle =>
    rw [← List.append_assoc]
    exact .cons (Loop.run_comes_leads h hrest) hm hle

/-- The sequence that `f` gave last has an element, or is at its end. -/
theorem flatMapApp_run {seq : T} {tail : S} (hsub : Spells forceSub seq [] k)
    (h : Spells force tail [] l) (hle : l.length ≤ bound)
    (htail : FlatNode force forceSub g note bound
      ((flatMapLoop force forceSub f).run fuel (.flatMap tail)) (l.flatMap note) (l.flatMap g)) :
    FlatNode force forceSub g note bound
      ((flatMapLoop force forceSub f).run (fuel + 1) (.flatMapApp seq tail)) (l.flatMap note)
      (k ++ l.flatMap g) := by
  generalize hevents : ([] : List ω) = events at hsub
  cases hsub with
  | nil hnode =>
    subst hevents
    rw [← List.nil_append (l.flatMap note)]
    exact htail.leads (hnode.bind_silent (Call.comes_fulfilled _))
  | cons hnode hrest =>
    obtain ⟨rfl, rfl⟩ := List.append_eq_nil_iff.mp hevents.symm
    rw [← List.nil_append (l.flatMap note)]
    refine .cons (Loop.run_comes_ends ?_) (.flatMapApp hrest h) hle
    exact hnode.bind_silent (Call.comes_fulfilled _)

/-- A run of the loop goes up to the next element, through the sequences that are empty. -/
theorem flatMap_run (hf : ∀ x, f x = ⟨note x, .ok (sub x)⟩)
    (hsub : ∀ x, Spells forceSub (sub x) [] (g x)) (h : Spells force seq [] l)
    (hle : l.length ≤ bound) : ∀ fuel > 2 * l.length,
      FlatNode force forceSub g note bound
        ((flatMapLoop force forceSub f).run fuel (.flatMap seq)) (l.flatMap note)
        (l.flatMap g) := by
  generalize hevents : ([] : List ω) = events at h
  induction h with
  | nil h =>
    subst hevents
    intro fuel hlt
    obtain ⟨fuel, rfl⟩ := Nat.exists_eq_add_of_le' hlt
    exact .nil (Loop.run_comes_ends (h.bind_silent (Call.comes_fulfilled _)))
  | @cons seq next _ _ x l h hrest ih =>
    obtain ⟨rfl, rfl⟩ := List.append_eq_nil_iff.mp hevents.symm
    intro fuel hlt
    rw [List.length_cons] at hle hlt
    obtain ⟨fuel, rfl⟩ : ∃ fewer, fuel = fewer + 1 + 1 := ⟨fuel - 2, by omega⟩
    rw [List.flatMap_cons, List.flatMap_cons]
    refine FlatNode.leads ?_ (flatMapApp_run (hsub x) hrest (by omega)
      (ih (by omega) rfl fuel (by omega)))
    refine h.bind (Call.Comes.bind_silent ?_ (Call.comes_fulfilled _))
    rw [hf]
    exact Plain.comes_call _ _

theorem FlatSpells.node (hf : ∀ x, f x = ⟨note x, .ok (sub x)⟩)
    (hsub : ∀ x, Spells forceSub (sub x) [] (g x)) (h : FlatSpells force forceSub g m k l)
    (hle : l.length ≤ bound) (hfuel : 2 * bound + 1 < fuel) :
    FlatNode force forceSub g note bound ((flatMapLoop force forceSub f).run fuel m)
      (l.flatMap note) (k ++ l.flatMap g) := by
  cases h with
  | flatMap h => exact flatMap_run hf hsub h hle fuel (by omega)
  | flatMapApp hk h =>
    obtain ⟨fuel, rfl⟩ : ∃ fewer, fuel = fewer + 1 := ⟨fuel - 1, by omega⟩
    exact flatMapApp_run hk h hle (flatMap_run hf hsub h hle fuel (by omega))

theorem FlatNode.spells {derived : Derived S (Flat S T) → Call ω ε (Node β (Derived S (Flat S T)))}
    {c : Call ω ε (Node β (Derived S (Flat S T)))} {node : Derived S (Flat S T)}
    (h : FlatNode force forceSub g note bound c events k)
    (hderived : ∀ events v, c.Comes events v → (derived node).Comes events v)
    (hrest : ∀ m k' l, FlatSpells force forceSub g m k' l → l.length ≤ bound →
      (k' ++ l.flatMap g).length < k.length →
      Spells derived (.rest m) (l.flatMap note) (k' ++ l.flatMap g)) :
    Spells derived node events k := by
  cases h with
  | nil h => exact .nil (hderived _ _ h)
  | cons h hm hle => exact .cons (hderived _ _ h) (hrest _ _ _ hm hle (Nat.lt_succ_self _))

theorem Spells.flatMap (hf : ∀ x, f x = ⟨note x, .ok (sub x)⟩)
    (hsub : ∀ x, Spells forceSub (sub x) [] (g x)) (h : Spells force seq [] l)
    (hfuel : 2 * l.length + 1 < fuel) :
    Spells (flatMap force fuel forceSub f) (.first seq) (l.flatMap note) (l.flatMap g) := by
  have hrests : ∀ n, ∀ m k l', (k ++ l'.flatMap g).length = n →
      FlatSpells force forceSub g m k l' → l'.length ≤ l.length →
      Spells (Seq.flatMap force fuel forceSub f) (.rest m) (l'.flatMap note)
        (k ++ l'.flatMap g) := by
    intro n
    induction n using Nat.strong_induction_on with
    | _ n ih =>
      intro m k l' hlen hm hle
      refine (hm.node hf hsub hle hfuel).spells (fun _ _ => id) fun m' k' l'' hm' hle' hlt => ?_
      exact ih _ (hlen ▸ hlt) m' k' l'' rfl hm' hle'
  have hnode := flatMap_run hf hsub h (le_refl l.length) (fuel + 1) (by omega)
  exact hnode.spells (fun _ _ => Loop.start_comes_iff.mpr)
    fun m k l' hm hle _ => hrests _ m k l' rfl hm hle

end FlatMap

/-! ## Sequences from other values -/

/-- The elements that `f` gives from a seed on, and the seeds that it is called with. -/
inductive Unfolds (f : U → Option (α × U)) : U → List U → List α → Prop
  | nil {u : U} (h : f u = none) : Unfolds f u [u] []
  | cons {u u' : U} {us : List U} {x : α} {l : List α} (h : f u = some (x, u'))
      (hrest : Unfolds f u' us l) : Unfolds f u (u :: us) (x :: l)

theorem Unfolds.spells {f : U → Plain ω ε (Option (α × U))} {g : U → Option (α × U)}
    {note : U → List ω} {u : U} {us : List U} (hf : ∀ u, f u = ⟨note u, .ok (g u)⟩)
    (h : Unfolds g u us l) : Spells (unfold f) u (us.flatMap note) l := by
  have hcall : ∀ u, (f u).call.guarded.Comes (note u) (g u) := by
    intro u
    rw [hf]
    exact Call.comes_guarded.mpr (Plain.comes_call _ _)
  induction h with
  | nil h =>
    refine .nil ?_
    rw [List.flatMap_singleton]
    refine (hcall _).bind_silent ?_
    rw [h]
    exact Call.comes_fulfilled _
  | cons h _ ih =>
    rw [List.flatMap_cons]
    refine .cons ((hcall _).bind_silent ?_) ih
    rw [h]
    exact Call.comes_fulfilled _

theorem Unfolds.spells_lwt {f : U → Call ω ε (Option (α × U))} {g : U → Option (α × U)}
    {note : U → List ω} {u : U} {us : List U} (hf : ∀ u, (f u).Comes (note u) (g u))
    (h : Unfolds g u us l) : Spells (unfoldLwt f) (.first u) (us.flatMap note) l := by
  have hrest : Spells (unfoldLwt f) (.rest u) (us.flatMap note) l := by
    induction h with
    | nil h =>
      refine .nil ?_
      rw [List.flatMap_singleton]
      refine (hf _).bind_silent ?_
      rw [h]
      exact Call.comes_fulfilled _
    | cons h _ ih =>
      rw [List.flatMap_cons]
      refine .cons ((hf _).bind_silent ?_) ih
      rw [h]
      exact Call.comes_fulfilled _
  exact hrest.of_comes fun _ _ => Call.comes_guarded_bind.mpr

theorem spells_ofList (l : List α) :
    Spells (ofList : List α → Call ω ε (Node α (List α))) l [] l := by
  induction l with
  | nil => exact .nil (Call.comes_fulfilled _)
  | cons x l ih =>
    have hnode : (ofList (x :: l) : Call ω ε (Node α (List α))).Comes [] (.cons x l) :=
      Call.comes_fulfilled _
    have hcons := Spells.cons hnode ih
    exact hcons

theorem Spells.ofSeq {force : S → Plain ω ε (Node α S)}
    (h : Spells (fun seq => (force seq).call) seq events l) :
    Spells (ofSeq force) seq events l := by
  induction h with
  | nil h => exact .nil (Call.comes_guarded.mpr h)
  | cons h _ ih => exact .cons (Call.comes_guarded.mpr h) ih

/-- The elements of a `Seq.t` of promises that are all fulfilled. -/
inductive SpellsLwt (force : S → Plain ω ε (Node (Promise ω ε α) S)) : S → List α → Prop
  | nil {seq : S} (h : (force seq).call.Comes [] .nil) : SpellsLwt force seq []
  | cons {seq next : S} {p : Promise ω ε α} {x : α} {l : List α}
      (h : (force seq).call.Comes [] (.cons p next)) (hp : p.call.Comes [] x)
      (hrest : SpellsLwt force next l) : SpellsLwt force seq (x :: l)

theorem SpellsLwt.spells {force : S → Plain ω ε (Node (Promise ω ε α) S)}
    (h : SpellsLwt force seq l) : Spells (ofSeqLwt force) (.first seq) [] l := by
  have hrest : Spells (ofSeqLwt force) (.rest seq) [] l := by
    induction h with
    | nil h => exact .nil (h.bind_silent (Call.comes_fulfilled _))
    | @cons seq next p x l h hp _ ih =>
      have hnode : (ofSeqLwt force (.rest seq)).Comes [] (.cons x (.rest next)) :=
        h.bind_silent (hp.bind_silent (Call.comes_fulfilled _))
      have hcons := Spells.cons hnode ih
      exact hcons
  exact hrest.of_comes fun _ _ => Call.comes_guarded_bind.mpr

/-! ## All functions -/

/-- `to_list` gives the list, with enough fuel for it and for the sequence. -/
def Forces (force : ℕ → S → Call ω ε (Node α S)) (seq : S) (events : List ω) (l : List α) : Prop :=
  ∃ least, ∀ fuel ≥ least, (toList (force fuel) fuel seq).Comes events l

theorem Spells.forces {force : ℕ → S → Call ω ε (Node α S)} (least : ℕ)
    (h : ∀ fuel > least, Spells (force fuel) seq events l) : Forces force seq events l :=
  ⟨max (least + 1) l.length, fun fuel hle =>
    (h fuel (le_trans (le_max_left _ _) hle)).toList (le_trans (le_max_right _ _) hle)⟩

/-- Two traversals one after the other, with other waits in the second one. -/
theorem Forces.twice {force force' : ℕ → S → Call ω ε (Node α S)} {events' : List ω}
    (h : Forces force seq events l) (h' : Forces force' seq events' l) :
    ∃ least, ∀ fuel ≥ least,
      (do
        let l₁ ← toList (force fuel) fuel seq
        let l₂ ← toList (force' fuel) fuel seq
        return (l₁, l₂)).Comes (events ++ events') (l, l) := by
  obtain ⟨least, hleast⟩ := h
  obtain ⟨least', hleast'⟩ := h'
  refine ⟨max least least', fun fuel hle => ?_⟩
  refine (hleast fuel (le_trans (le_max_left _ _) hle)).bind ?_
  exact (hleast' fuel (le_trans (le_max_right _ _) hle)).bind_silent (Call.comes_fulfilled _)

/-- Whatever the waits of the nodes and of the user function are, forcing a sequence gives what the
function on lists gives, and the user function is called once for each element, in order: its
calls are recorded by `note`. -/
theorem forcing_agrees (h : Spells force seq [] l) (note : α → List ω) :
    (∀ l : List α, Forces (fun _ => (ofList : _ → Call ω ε _)) l [] l) ∧
    (∀ g : α → β, Forces (fun _ => map force fun x => ⟨note x, .ok (g x)⟩) (.first seq)
      (l.flatMap note) (l.map g)) ∧
    (∀ (f : α → Call ω ε β) g, (∀ x, (f x).Comes (note x) (g x)) →
      Forces (fun _ => mapS force f) (.first seq) (l.flatMap note) (l.map g)) ∧
    (∀ g : α → Bool, Forces (fun fuel => filter force fuel fun x => ⟨note x, .ok (g x)⟩)
      (.first seq) (l.flatMap note) (l.filter g)) ∧
    (∀ (f : α → Call ω ε Bool) g, (∀ x, (f x).Comes (note x) (g x)) →
      Forces (fun fuel => filterS force fuel f) (.first seq) (l.flatMap note) (l.filter g)) ∧
    (∀ g : α → Option β, Forces (fun fuel => filterMap force fuel fun x => ⟨note x, .ok (g x)⟩)
      (.first seq) (l.flatMap note) (l.filterMap g)) ∧
    (∀ (f : α → Call ω ε (Option β)) g, (∀ x, (f x).Comes (note x) (g x)) →
      Forces (fun fuel => filterMapS force fuel f) (.first seq) (l.flatMap note)
        (l.filterMap g)) ∧
    (∀ (forceSub : T → Call ω ε (Node β T)) (sub : α → T) (g : α → List β),
      (∀ x, Spells forceSub (sub x) [] (g x)) →
      Forces (fun fuel => flatMap force fuel forceSub fun x => ⟨note x, .ok (sub x)⟩) (.first seq)
        (l.flatMap note) (l.flatMap g)) ∧
    (∀ (force₂ : T → Call ω ε (Node α T)) seq2 l₂, Spells force₂ seq2 [] l₂ →
      Forces (fun _ => append force force₂) (.first seq seq2) [] (l ++ l₂)) ∧
    (∀ (g : A → α → A) acc, ∃ least, ∀ fuel ≥ least,
      (foldLeft force fuel (fun acc x => ⟨note x, .ok (g acc x)⟩) acc seq).Comes
        (l.flatMap note) (l.foldl g acc)) ∧
    (∀ (f : A → α → Call ω ε A) g acc, (∀ acc x, (f acc x).Comes (note x) (g acc x)) →
      ∃ least, ∀ fuel ≥ least,
        (foldLeftS force fuel f acc seq).Comes (l.flatMap note) (l.foldl g acc)) ∧
    (∀ (g : U → Option (β × U)) (note : U → List ω) u us l, Unfolds g u us l →
      Forces (fun _ => (unfold fun u => ⟨note u, .ok (g u)⟩ : _ → Call ω ε _)) u
        (us.flatMap note) l) ∧
    (∀ (f : U → Call ω ε (Option (β × U))) g (note : U → List ω) u us l,
      (∀ u, (f u).Comes (note u) (g u)) → Unfolds g u us l →
      Forces (fun _ => unfoldLwt f) (.first u) (us.flatMap note) l) ∧
    (∀ (force : T → Plain ω ε (Node β T)) seq l, Spells (fun seq => (force seq).call) seq [] l →
      Forces (fun _ => ofSeq force) seq [] l) ∧
    (∀ (force : T → Plain ω ε (Node (Promise ω ε β) T)) seq l, SpellsLwt force seq l →
      Forces (fun _ => ofSeqLwt force) (.first seq) [] l) ∧
    (∀ (force force' : ℕ → T → Call ω ε (Node β T)) seq events l, Forces force seq events l →
      Forces force' seq events l → ∃ least, ∀ fuel ≥ least,
        (do
          let l₁ ← toList (force fuel) fuel seq
          let l₂ ← toList (force' fuel) fuel seq
          return (l₁, l₂)).Comes (events ++ events) (l, l)) := by
  have hplain : ∀ {R : Type} (g : α → R) x,
      (⟨note x, .ok (g x)⟩ : Plain ω ε R).call.Comes (note x) (g x) :=
    fun g x => Plain.comes_call (note x) (g x)
  refine ⟨fun l => ?_, fun g => ?_, fun f g hf => ?_, fun g => ?_, fun f g hf => ?_, fun g => ?_,
    fun f g hf => ?_, fun forceSub sub g hsub => ?_, fun force₂ seq2 l₂ h₂ => ?_, fun g acc => ?_,
    fun f g acc hf => ?_, fun g note u us l hg => ?_, fun f g note u us l hf hg => ?_,
    fun force seq l h => ?_, fun force seq l h => ?_, fun _ _ _ _ _ => Forces.twice⟩
  · exact Spells.forces 0 fun _ _ => spells_ofList l
  · exact Spells.forces 0 fun _ _ => h.map fun _ => rfl
  · exact Spells.forces 0 fun _ _ => h.mapS hf
  -- `filter` is `filterMap` with a function that keeps or drops
  · rw [← filterMap_keepIf]
    exact Spells.forces _ fun _ hlt => h.select (keepIf_comes (hplain g)) hlt
  · rw [← filterMap_keepIf]
    exact Spells.forces _ fun _ hlt => h.select (keepIf_comes hf) hlt
  · exact Spells.forces _ fun _ hlt => h.select (hplain g) hlt
  · exact Spells.forces _ fun _ hlt => h.select hf hlt
  · exact Spells.forces _ fun _ hlt => h.flatMap (fun _ => rfl) hsub hlt
  · exact Spells.forces 0 fun _ _ => h.append h₂
  · exact ⟨l.length, fun fuel hle =>
      (h.folds (fun acc => hplain (g acc)) acc).comes (Call.comes_fulfilled _) hle⟩
  · exact ⟨l.length, fun fuel hle => (h.folds hf acc).comes (Call.comes_fulfilled _) hle⟩
  · exact Spells.forces 0 fun _ _ => hg.spells fun _ => rfl
  · exact Spells.forces 0 fun _ _ => hg.spells_lwt hf
  · exact Spells.forces 0 fun _ _ => h.ofSeq
  · exact Spells.forces 0 fun _ _ => h.spells

/-- The sequence of 5 and 6, where the first node and the end are there after a wait. -/
def fiveSix : ℕ → Call ℕ Unit (Node ℕ ℕ)
  | 0 => .pending (.fulfilled (.cons 5 1))
  | 1 => .fulfilled (.cons 6 2)
  | _ => .pending (.fulfilled .nil)

theorem spells_fiveSix : Spells fiveSix 0 [] [5, 6] := by
  have hsix : Spells fiveSix 1 ([] ++ []) [6] := .cons ⟨rfl, rfl⟩ (.nil ⟨rfl, rfl⟩)
  have hfive : Spells fiveSix 0 ([] ++ ([] ++ [])) [5, 6] := .cons ⟨rfl, rfl⟩ hsix
  exact hfive

theorem forcing_agrees_fiveSix :
    Forces (fun _ => map fiveSix fun x => ⟨[x], .ok (10 * x)⟩) (.first 0) [5, 6] [50, 60] :=
  (forcing_agrees (A := Unit) (T := Unit) (U := Unit) spells_fiveSix fun x => [x]).2.1 (10 * ·)

end Lwt.Seq
