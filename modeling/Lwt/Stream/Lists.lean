import Lwt.Stream.Choose

/-!
# The functions of streams and those of lists

With enough fuel and whatever the instants at which the elements come, a single reader finds in the
streams made by the functions of `Lwt_stream` what the functions of lists give.
-/

namespace Lwt.Single

open Timing Timing.Timed

variable {α β A S S' T : Type}

namespace Stream

variable {s : ℕ → Stream S α} {l : List α} {start : ℕ}

/-- With enough fuel, the call comes to an end with a value that satisfies `Q`, at any instant from
`start` on. -/
def ComesTo (m : ℕ → Timed β) (start : ℕ) (Q : ℕ → ℕ → β → Prop) : Prop :=
  ∃ n, ∀ fuel, n ≤ fuel → ∀ t, start ≤ t → (m fuel).Ends t (Q fuel)

/-- The first match, and the stream just after it. -/
def Found (y : Option β) (after : List α) (fuel t : ℕ) (r : Option β × Stream S α) : Prop :=
  r.1 = y ∧ (r.1.isSome → SuppliesList (get fuel) after r.2 t)

/-- A stream of `from` delivers what its function does. -/
theorem readsTo_of_supplies {next : ℕ → S → Timed (Option α × S)} {state : ℕ → S} {n : ℕ}
    (h : ∀ fuel, n ≤ fuel → SuppliesList (next fuel) l (state fuel) start) :
    ReadsTo (fun fuel => «from» (next fuel) (state fuel)) l start := by
  refine ⟨max n 2, fun fuel hfuel => ?_⟩
  have hn : n ≤ fuel := Nat.le_trans (Nat.le_max_left n 2) hfuel
  exact (ready_from _ _ start).supplies (Nat.le_trans (Nat.le_max_right n 2) hfuel) (h fuel hn)

theorem ReadsTo.mapS {f : α → β} {g : ℕ → α → Timed β} (h : ReadsTo s l start)
    (hg : ∀ call x, (g call x).Becomes (f x)) :
    ReadsTo (fun fuel => (s fuel).mapS fuel g) (l.map f) start := by
  obtain ⟨n, h⟩ := h
  exact readsTo_of_supplies fun fuel hfuel => supplies_mapNext hg (h fuel hfuel)

theorem ReadsTo.filterMapS {f : α → Option β} {g : ℕ → α → Timed (Option β)}
    (h : ReadsTo s l start) (hg : ∀ call x, (g call x).Becomes (f x)) :
    ReadsTo (fun fuel => (s fuel).filterMapS fuel g) (l.filterMap f) start := by
  obtain ⟨n, h⟩ := h
  refine readsTo_of_supplies (n := max n (l.length + 1)) fun fuel hfuel => ?_
  exact supplies_filterMapNext hg (h fuel (le_of_max_le_left hfuel)) (le_of_max_le_right hfuel)

theorem ReadsTo.filterS {f : α → Bool} {g : ℕ → α → Timed Bool} (h : ReadsTo s l start)
    (hg : ∀ call x, (g call x).Becomes (f x)) :
    ReadsTo (fun fuel => (s fuel).filterS fuel g) (l.filter f) start := by
  rw [← List.filterMap_eq_filter]
  exact h.filterMapS fun call x => (hg call x).map

theorem ReadsTo.mapListS {f : α → List β} {g : ℕ → α → Timed (List β)} (h : ReadsTo s l start)
    (hg : ∀ call x, (g call x).Becomes (f x)) :
    ReadsTo (fun fuel => (s fuel).mapListS fuel g) (l.flatMap f) start := by
  obtain ⟨n, h⟩ := h
  refine readsTo_of_supplies (n := max n (l.length + 1)) fun fuel hfuel => ?_
  exact supplies_mapListNext hg (h fuel (le_of_max_le_left hfuel)) (le_of_max_le_right hfuel)

theorem ReadsTo.append {s' : ℕ → Stream S' α} {l' : List α} (h : ReadsTo s l start)
    (h' : ReadsTo s' l' start) :
    ReadsTo (fun fuel => append fuel (s fuel) (s' fuel)) (l ++ l') start := by
  obtain ⟨n, h⟩ := h
  obtain ⟨n', h'⟩ := h'
  refine readsTo_of_supplies (n := max (max n n') 2) fun fuel hfuel => ?_
  have hn := le_of_max_le_left hfuel
  exact supplies_appendNext (h fuel (le_of_max_le_left hn)) (h' fuel (le_of_max_le_right hn))
    (le_of_max_le_right hfuel)

theorem ReadsTo.combine {s' : ℕ → Stream S' β} {l' : List β} (h : ReadsTo s l start)
    (h' : ReadsTo s' l' start) :
    ReadsTo (fun fuel => combine fuel (s fuel) (s' fuel)) (l.zip l') start := by
  obtain ⟨n, h⟩ := h
  obtain ⟨n', h'⟩ := h'
  refine readsTo_of_supplies (n := max n n') fun fuel hfuel => ?_
  exact supplies_combineNext (h fuel (le_of_max_le_left hfuel)) (h' fuel (le_of_max_le_right hfuel))

theorem exists_supplies {ss : List (ℕ → Stream S α)} {ls : List (List α)}
    (h : List.Forall₂ (fun s l => ReadsTo s l start) ss ls) :
    ∃ n, ∀ fuel, n ≤ fuel → List.Forall₂ (fun s l => SuppliesList (get fuel) l s start)
      (ss.map fun s => s fuel) ls := by
  induction h with
  | nil => exact ⟨0, fun _ _ => .nil⟩
  | cons hs _ ih =>
    obtain ⟨n, hs⟩ := hs
    obtain ⟨n', ih⟩ := ih
    refine ⟨max n n', fun fuel hfuel => .cons ?_ ?_⟩
    · exact hs fuel (le_of_max_le_left hfuel)
    · exact ih fuel (le_of_max_le_right hfuel)

theorem readsTo_concat {top : ℕ → Stream T (Stream S α)} {ss : List (ℕ → Stream S α)}
    {ls : List (List α)}
    (htop : ∃ n, ∀ fuel, n ≤ fuel → SuppliesList (get fuel) (ss.map fun s =>
    s fuel) (top fuel) start)
    (h : List.Forall₂ (fun s l => ReadsTo s l start) ss ls) :
    ReadsTo (fun fuel => concat fuel (top fuel)) ls.flatten start := by
  obtain ⟨n, htop⟩ := htop
  obtain ⟨n', h⟩ := exists_supplies h
  refine readsTo_of_supplies (n := max (max n n') (ss.length + 2)) fun fuel hfuel => ?_
  have hn := le_of_max_le_left hfuel
  have hlength := le_of_max_le_right hfuel
  refine supplies_concatNext (htop fuel (le_of_max_le_left hn)) (h fuel (le_of_max_le_right hn))
    (Nat.le_trans (Nat.le_add_left 2 ss.length) hlength) ?_
  rw [List.length_map]
  exact Nat.lt_of_succ_lt hlength

theorem comesTo_choose {ss : List (ℕ → Stream S α)} {ls : List (List α)} {random : ℕ → ℕ}
    (h : List.Forall₂ (fun s l => ReadsTo s l start) ss ls) :
    ComesTo (fun fuel => choose fuel random (ss.map fun s => s fuel)) start fun fuel t s =>
      ∃ n, Supplies (get fuel) n (Interleaves fun i => ls[i]?.getD []) s t := by
  obtain ⟨n, h⟩ := exists_supplies h
  refine ⟨max n (ls.length + 2), fun fuel hfuel t ht => ?_⟩
  have hlength := le_of_max_le_right hfuel
  obtain ⟨n, hn⟩ := ends_choose random (h fuel (le_of_max_le_left hfuel))
    (Nat.le_trans (Nat.le_add_left 2 ls.length) hlength) (Nat.lt_of_succ_lt hlength) ht
  exact hn.mono fun _ _ _ hs => ⟨n, hs⟩

theorem ReadsTo.foldS {f : α → A → A} {g : ℕ → α → A → Timed A} {acc : A} (h : ReadsTo s l start)
    (hg : ∀ call x acc, (g call x acc).Becomes (f x acc)) :
    ComesTo (fun fuel => (s fuel).foldS fuel g acc) start fun _ _ r =>
      r.1 = l.foldl (fun acc x => f x acc) acc := by
  obtain ⟨n, h⟩ := h
  refine ⟨max n (l.length + 1), fun fuel hfuel t ht => ?_⟩
  rw [← scanList_fold]
  refine (ends_scanRec id (fun call x acc => (hg call x acc).map) (h fuel (le_of_max_le_left hfuel))
    (le_of_max_le_right hfuel) ht).mono ?_
  exact fun t' r _ hr => hr.1

/-- The recursion of `find` and `find_map` ends with the first match, and leaves the stream just
after it. -/
theorem ReadsTo.comesTo_match {f : α → Option β} {g : ℕ → α → Unit → Timed (Unit ⊕ Option β)}
    (h : ReadsTo s l start) (hg : ∀ call x acc, (g call x acc).Becomes
      ((f x).elim (.inl ()) fun y => .inr (some y))) :
    ComesTo (fun fuel => scanRec fuel g (fun _ => none) fuel 0 (s fuel).node (s fuel) ()) start
      (Found (l.findSome? f) (l.dropWhile fun x => (f x).isNone).tail) := by
  obtain ⟨n, h⟩ := h
  refine ⟨max n (l.length + 1), fun fuel hfuel t ht => ?_⟩
  refine (ends_scanRec (fun _ => none) hg (h fuel (le_of_max_le_left hfuel))
    (le_of_max_le_right hfuel) ht).mono ?_
  rintro t' ⟨y, s'⟩ - ⟨hy, hrest⟩
  rw [scanList_findMap] at hy hrest
  refine ⟨hy, fun hsome => hrest _ ?_⟩
  rw [← show y = l.findSome? f from hy, if_pos hsome]

theorem ReadsTo.findMapS {f : α → Option β} {g : ℕ → α → Timed (Option β)} (h : ReadsTo s l start)
    (hg : ∀ call x, (g call x).Becomes (f x)) :
    ComesTo (fun fuel => (s fuel).findMapS fuel g) start
      (Found (l.findSome? f) (l.dropWhile fun x => (f x).isNone).tail) := by
  refine h.comesTo_match fun call x _ t => ?_
  refine Ends.bind ((hg call x t).mono fun t' y _ hy => ?_)
  subst hy
  cases f x with
  | none => exact ends_pure rfl
  | some y => exact ends_pure rfl

theorem ReadsTo.findS {f : α → Bool} {g : ℕ → α → Timed Bool} (h : ReadsTo s l start)
    (hg : ∀ call x, (g call x).Becomes (f x)) :
    ComesTo (fun fuel => (s fuel).findS fuel g) start
      (Found (l.find? f) (l.dropWhile fun x => !f x).tail) := by
  have hnone : (fun x => !f x) = fun x => (Option.guard f x).isNone := by
    funext x
    cases hx : f x <;> simp [Option.guard, hx]
  rw [List.find?_eq_findSome?_guard, hnone]
  refine h.comesTo_match fun call x _ t => ?_
  refine Ends.bind ((hg call x t).mono fun t' test _ htest => ?_)
  subst htest
  cases hx : f x with
  | false => exact ends_pure (by simp [Option.guard, hx])
  | true => exact ends_pure (by simp [Option.guard, hx])

/-! ## All the functions -/

/-- The streams of the three kinds of sources deliver their lists, and those made by the functions
of streams deliver what the functions of lists make of these. -/
theorem stream_functions_are_list_functions (start : ℕ) :
    -- the sources
    ((∀ {α : Type} (l : List α) (coming : List (ℕ × Option α)) (rest : List (Option α)),
      coming.map Prod.snd = l.map some ++ none :: rest →
        ReadsTo (fun _ => create coming) l start) ∧
    (∀ {α S : Type} (l : List α) (create : S → Timed (Option α × S)) (state : S),
      SuppliesList create l state start → ReadsTo (fun _ => «from» create state) l start) ∧
    (∀ {α S : Type} (l : List α) (f : S → Option α × S) (state : S),
      SuppliesList (fun state => (pure (f state) : Timed _)) l state start →
        ReadsTo (fun _ => fromDirect f state) l start)) ∧
    -- the functions of one stream
    (∀ {α β A S : Type} (s : ℕ → Stream S α) (l : List α), ReadsTo s l start →
      (∀ f : α → β,
        ReadsTo (fun fuel => (s fuel).map fuel f) (l.map f) start ∧
        ∀ g : ℕ → α → Timed β, (∀ call x, (g call x).Becomes (f x)) →
          ReadsTo (fun fuel => (s fuel).mapS fuel g) (l.map f) start) ∧
      (∀ f : α → Bool,
        ReadsTo (fun fuel => (s fuel).filter fuel f) (l.filter f) start ∧
        ∀ g : ℕ → α → Timed Bool, (∀ call x, (g call x).Becomes (f x)) →
          ReadsTo (fun fuel => (s fuel).filterS fuel g) (l.filter f) start) ∧
      (∀ f : α → Option β,
        ReadsTo (fun fuel => (s fuel).filterMap fuel f) (l.filterMap f) start ∧
        ∀ g : ℕ → α → Timed (Option β), (∀ call x, (g call x).Becomes (f x)) →
          ReadsTo (fun fuel => (s fuel).filterMapS fuel g) (l.filterMap f) start) ∧
      (∀ f : α → List β,
        ReadsTo (fun fuel => (s fuel).mapList fuel f) (l.flatMap f) start ∧
        ∀ g : ℕ → α → Timed (List β), (∀ call x, (g call x).Becomes (f x)) →
          ReadsTo (fun fuel => (s fuel).mapListS fuel g) (l.flatMap f) start) ∧
      (∀ (f : α → A → A) (acc : A),
        (ComesTo (fun fuel => (s fuel).fold fuel f acc) start fun _ _ r =>
          r.1 = l.foldl (fun acc x => f x acc) acc) ∧
        ∀ g : ℕ → α → A → Timed A, (∀ call x acc, (g call x acc).Becomes (f x acc)) →
          ComesTo (fun fuel => (s fuel).foldS fuel g acc) start fun _ _ r =>
            r.1 = l.foldl (fun acc x => f x acc) acc) ∧
      (∀ f : α → Bool,
        ComesTo (fun fuel => (s fuel).find fuel f) start
          (Found (l.find? f) (l.dropWhile fun x => !f x).tail) ∧
        ∀ g : ℕ → α → Timed Bool, (∀ call x, (g call x).Becomes (f x)) →
          ComesTo (fun fuel => (s fuel).findS fuel g) start
            (Found (l.find? f) (l.dropWhile fun x => !f x).tail)) ∧
      (∀ f : α → Option β,
        ComesTo (fun fuel => (s fuel).findMap fuel f) start
          (Found (l.findSome? f) (l.dropWhile fun x => (f x).isNone).tail) ∧
        ∀ g : ℕ → α → Timed (Option β), (∀ call x, (g call x).Becomes (f x)) →
          ComesTo (fun fuel => (s fuel).findMapS fuel g) start
            (Found (l.findSome? f) (l.dropWhile fun x => (f x).isNone).tail))) ∧
    -- the functions of several streams
    ((∀ {α S : Type} (s : ℕ → Stream S (List α)) (ls : List (List α)), ReadsTo s ls start →
      ReadsTo (fun fuel => (s fuel).flatten fuel) ls.flatten start) ∧
    (∀ {α S S' : Type} (s : ℕ → Stream S α) (s' : ℕ → Stream S' α) (l l' : List α),
      ReadsTo s l start → ReadsTo s' l' start →
        ReadsTo (fun fuel => append fuel (s fuel) (s' fuel)) (l ++ l') start) ∧
    (∀ {α β S S' : Type} (s : ℕ → Stream S α) (s' : ℕ → Stream S' β) (l : List α) (l' : List β),
      ReadsTo s l start → ReadsTo s' l' start →
        ReadsTo (fun fuel => combine fuel (s fuel) (s' fuel)) (l.zip l') start) ∧
    (∀ {α S T : Type} (top : ℕ → Stream T (Stream S α)) (ss : List (ℕ → Stream S α))
        (ls : List (List α)),
      (∃ n, ∀ fuel, n ≤ fuel →
        SuppliesList (get fuel) (ss.map fun s => s fuel) (top fuel) start) →
      List.Forall₂ (fun s l => ReadsTo s l start) ss ls →
        ReadsTo (fun fuel => concat fuel (top fuel)) ls.flatten start) ∧
    (∀ {α S : Type} (random : ℕ → ℕ) (ss : List (ℕ → Stream S α)) (ls : List (List α)),
      List.Forall₂ (fun s l => ReadsTo s l start) ss ls →
        ComesTo (fun fuel => choose fuel random (ss.map fun s => s fuel)) start fun fuel t s =>
          ∃ n, Supplies (get fuel) n (Interleaves fun i => ls[i]?.getD []) s t)) := by
  refine ⟨⟨?_, ?_, ?_⟩, ?_, ?_, ?_, ?_, ?_, ?_⟩
  · exact fun l coming rest h => readsTo_create h start
  · exact fun l create state h => readsTo_from h
  · exact fun l f state h => readsTo_fromDirect h
  · intro α β A S s l h
    refine ⟨fun f => ⟨?_, fun g hg => h.mapS hg⟩, fun f => ⟨?_, fun g hg => h.filterS hg⟩,
      fun f => ⟨?_, fun g hg => h.filterMapS hg⟩, fun f => ⟨?_, fun g hg => h.mapListS hg⟩,
      fun f acc => ⟨?_, fun g hg => h.foldS hg⟩, fun f => ⟨?_, fun g hg => h.findS hg⟩,
      fun f => ⟨?_, fun g hg => h.findMapS hg⟩⟩
    · exact h.mapS fun _ x => becomes_pure (f x)
    · exact h.filterS fun _ x => becomes_pure (f x)
    · exact h.filterMapS fun _ x => becomes_pure (f x)
    · exact h.mapListS fun _ x => becomes_pure (f x)
    · exact h.foldS fun _ x acc => becomes_pure (f x acc)
    · exact h.findS fun _ x => becomes_pure (f x)
    · exact h.findMapS fun _ x => becomes_pure (f x)
  · intro α S s ls h
    have hflatten := h.mapListS fun _ l => becomes_pure l
    rwa [List.flatMap_id'] at hflatten
  · exact fun s s' l l' h h' => h.append h'
  · exact fun s s' l l' h h' => h.combine h'
  · exact fun top ss ls htop h => readsTo_concat htop h
  · exact fun random ss ls h => comesTo_choose h

/-- The first element comes at the instant 3, and the second one with it. -/
theorem stream_functions_are_list_functions_delayed :
    ReadsTo (fun fuel => (create [(3, some 1), (0, some 4), (7, none)]).map fuel Nat.succ) [2, 5]
      0 := by
  obtain ⟨⟨hcreate, -, -⟩, hone, -⟩ := stream_functions_are_list_functions 0
  exact ((hone (A := ℕ) _ [1, 4] (hcreate [1, 4] _ [] rfl)).1 Nat.succ).1

end Stream

end Lwt.Single
