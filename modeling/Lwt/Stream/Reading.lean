import Lwt.Stream.Single

/-!
# Reading a stream to its end

The elements of a stream are those that a single reader finds who reads it to its end, each read
at any instant after the one before has ended.  `ReadsTo` holds for the streams of the three kinds
of sources, whatever the instants at which the elements come.  `fold`, `find` and `find_map` and
their variants are what the functions of lists are on these elements, and a match leaves the stream
just after it.
-/

namespace Lwt.Single

open Timing Timing.Timed

variable {α β A R S : Type}

namespace Stream

/-- With enough fuel, the elements of the stream are those of `l`; the stream may itself be made of
others with the same fuel. -/
def ReadsTo (s : ℕ → Stream S α) (l : List α) (start : ℕ) : Prop :=
  ∃ n, ∀ fuel, n ≤ fuel → SuppliesList (get fuel) l (s fuel) start

/-! ## The sources -/

variable {s : Stream S α} {l : List α} {coming : List (ℕ × Option α)} {t start fuel : ℕ}

/-- The elements in the queue, and those that are still to be pushed, are `l` before the first end
marker. -/
structure Pushes (coming : List (ℕ × Option α)) (l : List α) (s : Stream S α) : Prop where
  source : s.source = .push coming
  node_le : s.node ≤ s.last
  contents : ∃ rest, s.data.drop s.node ++ coming.map Prod.snd = l.map some ++ none :: rest

theorem pushes_create {rest : List (Option α)}
    (h : coming.map Prod.snd = l.map some ++ none :: rest) : Pushes coming l (create coming) :=
  ⟨rfl, Nat.le_refl 0, rest, h⟩

theorem Pushes.arrived (h : Pushes coming l s) (t : ℕ) :
    Pushes (coming.dropWhile fun c => c.1 ≤ t) l (s.arrived t) := by
  obtain ⟨rest, hcontents⟩ := h.contents
  unfold Stream.arrived
  rw [h.source]
  refine ⟨rfl, ?_, rest, ?_⟩
  · exact Nat.le_trans h.node_le (by simp [last])
  · rw [← hcontents]
    change (s.data ++ _).drop s.node ++ _ = _
    rw [List.drop_append_of_le_length h.node_le, List.append_assoc, ← List.map_append,
      List.takeWhile_append_dropWhile]

theorem Pushes.arrived_ne (h : Pushes coming l s) {c : ℕ × Option α} {rest : List (ℕ × Option α)}
    (hcoming : coming = c :: rest) (ht : c.1 ≤ t) : s.node ≠ (s.arrived t).last := by
  have hle := h.node_le
  unfold Stream.arrived
  rw [h.source, hcoming]
  simp only [last, List.takeWhile_cons, ht, decide_true, if_true, List.length_append,
    List.map_cons, List.length_cons] at hle ⊢
  omega

theorem Pushes.ends_fed (h : Pushes coming l s) (hfuel : 2 ≤ fuel) :
    (fed s.node fuel s).Ends t fun _ s' =>
      s'.node = s.node ∧ s.node ≠ s'.last ∧ ∃ coming', Pushes coming' l s' := by
  obtain ⟨fuel, rfl⟩ := Nat.exists_eq_add_of_le' hfuel
  have harrived := h.arrived t
  by_cases hlast : s.node = (s.arrived t).last
  · obtain ⟨rest, hcontents⟩ := harrived.contents
    rw [node_arrived, hlast, last, List.drop_length, List.nil_append] at hcontents
    cases hcoming : coming.dropWhile fun c => c.1 ≤ t with
    | nil =>
      rw [hcoming] at hcontents
      simp at hcontents
    | cons c later =>
      refine ends_fed_feed hlast ?_
      unfold feed
      rw [harrived.source, hcoming]
      refine Ends.bind (ends_await (ends_pure ⟨node_arrived s t, ?_, ?_⟩))
      · exact harrived.arrived_ne hcoming (Nat.le_max_right t c.1)
      · refine ⟨by simp, ?_, _, harrived.arrived _⟩
        have hne := harrived.arrived_ne hcoming (Nat.le_max_right t c.1)
        rwa [node_arrived] at hne
  · exact ends_fed_ready hlast ⟨node_arrived s t, hlast, _, harrived⟩

theorem Pushes.answers (h : Pushes coming l s) (hne : s.node ≠ s.last) :
    Answers (fun l s _ => ∃ coming, Pushes coming l s) l t
      (s.nodeData s.node, if (s.nodeData s.node).isSome then s.consume s.node else s) := by
  obtain ⟨rest, hcontents⟩ := h.contents
  have hlt : s.node < s.data.length := Nat.lt_of_le_of_ne h.node_le hne
  have hdata : s.nodeData s.node = s.data[s.node] := by
    rw [nodeData, List.getElem?_eq_getElem hlt, Option.join_some]
  rw [List.drop_eq_getElem_cons hlt, List.cons_append] at hcontents
  cases l with
  | nil => exact hdata.trans (List.cons.inj hcontents).1
  | cons a l =>
    obtain ⟨ha, hcontents⟩ := List.cons.inj hcontents
    refine ⟨hdata.trans ha, coming, ?_⟩
    rw [hdata, ha, Option.isSome_some, if_pos rfl, consume, if_pos rfl]
    exact ⟨h.source, hlt, rest, hcontents⟩

theorem Pushes.supplies (h : Pushes coming l s) (hfuel : 2 ≤ fuel) :
    SuppliesList (get fuel) l s start := by
  refine suppliesList_of_answers (fun l s _ => ∃ coming, Pushes coming l s) ?_ ⟨coming, h⟩
  rintro l s start ⟨coming, h⟩ t -
  refine ends_get ((h.ends_fed hfuel).mono ?_)
  rintro t' s' - ⟨hnode, hne, coming', h'⟩
  rw [← hnode] at hne ⊢
  exact h'.answers hne

theorem readsTo_create {rest : List (Option α)}
    (h : coming.map Prod.snd = l.map some ++ none :: rest) (start : ℕ) :
    ReadsTo (fun _ => create coming) l start :=
  ⟨2, fun _ hfuel => (pushes_create h).supplies hfuel⟩

theorem readsTo_from {create : S → Timed (Option α × S)} {state : S}
    (h : SuppliesList create l state start) : ReadsTo (fun _ => «from» create state) l start :=
  ⟨2, fun _ hfuel => (ready_from create state start).supplies hfuel h⟩

theorem readsTo_fromDirect {f : S → Option α × S} {state : S}
    (h : SuppliesList (fun state => (pure (f state) : Timed _)) l state start) :
    ReadsTo (fun _ => fromDirect f state) l start :=
  ⟨2, fun _ hfuel => supplies_fromDirect hfuel rfl rfl h⟩

/-! ## The recursion over the elements -/

/-- The result, and the elements after the one that ended the recursion. -/
def scanList (g : α → A → A ⊕ R) (finish : A → R) : List α → A → R × Option (List α)
  | [], acc => (finish acc, none)
  | x :: l, acc =>
    match g x acc with
    | .inl acc => scanList g finish l acc
    | .inr r => (r, some l)

theorem ends_scanRec {f : ℕ → α → A → Timed (A ⊕ R)} {g : α → A → A ⊕ R} (finish : A → R)
    (hf : ∀ call x acc, (f call x acc).Becomes (g x acc)) {call turns : ℕ} {acc : A}
    (h : SuppliesList (get fuel) l s start) (hturns : l.length < turns) (ht : start ≤ t) :
    (scanRec fuel f finish turns call s.node s acc).Ends t fun t' r =>
      r.1 = (scanList g finish l acc).1 ∧
      ∀ l', (scanList g finish l acc).2 = some l' → SuppliesList (get fuel) l' r.2 t' := by
  induction l generalizing s start t call turns acc with
  | nil =>
    obtain ⟨turns, rfl⟩ := Nat.exists_eq_add_of_lt hturns
    rw [scanRec_eq]
    exact h.ends_bind_nil ht fun t' s' _ => ends_pure ⟨rfl, nofun⟩
  | cons a l ih =>
    obtain ⟨turns, rfl⟩ := Nat.exists_eq_add_of_le' (Nat.one_le_of_lt hturns)
    rw [scanRec_eq]
    refine h.ends_bind_cons ht fun t' s' _ hrest => ?_
    refine Ends.bind ((hf call a acc t').mono fun t'' step hle hstep => ?_)
    subst hstep
    rw [scanList]
    cases g a acc with
    | inl acc => exact ih (hrest.later hle) (Nat.lt_of_succ_lt_succ hturns) (Nat.le_refl t'')
    | inr result =>
      refine ends_pure ⟨rfl, fun l' hl' => ?_⟩
      cases hl'
      exact hrest.later hle

theorem scanList_fold (f : α → A → A) (l : List α) (acc : A) :
    (scanList (fun x acc => (.inl (f x acc) : A ⊕ A)) id l acc).1 =
      l.foldl (fun acc x => f x acc) acc := by
  induction l generalizing acc with
  | nil => rfl
  | cons a l ih => exact ih (f a acc)

theorem scanList_findMap (f : α → Option β) (l : List α) :
    scanList (fun x _ => (f x).elim (.inl ()) fun y => .inr (some y)) (fun _ => none) l () =
      (l.findSome? f,
        if (l.findSome? f).isSome then some (l.dropWhile fun x =>
          (f x).isNone).tail else none) := by
  induction l with
  | nil => rfl
  | cons a l ih =>
    rw [scanList, List.findSome?_cons, List.dropWhile_cons]
    cases hfa : f a with
    | none => simpa using ih
    | some b => simp

end Stream

end Lwt.Single
