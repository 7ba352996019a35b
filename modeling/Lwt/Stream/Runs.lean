import Lwt.Library.Total
import Lwt.Stream.Segments

/-!
# Runs of the reads

What one step does to the heads and to the reads (`Moves`), and what follows for two removing
reads that do not overlap: the second one begins behind what the first one has passed, and if no
two removing reads overlap, what they pass is all that leaves the stream.
-/

namespace Lwt

open Table Transition

variable {α : Type}

/-- The read has returned or failed. -/
def Read.ended (r : Read α) : Bool :=
  match r.status with
  | .returned _ | .empty | .failed => true
  | _ => false

namespace Streams

variable {m m' : Streams α}

/-- What a step does to the heads and the reads. -/
inductive Moves (m : Streams α) (a : Step α) (m' : Streams α) : Prop
  | still : Grows m m' → (∀ i < m.nodes.length, m'.node i = m.node i) → m'.reads = m.reads →
      Moves m a m'
  | status (i : ℕ) (r : Read α) (status : ReadStatus α) : Grows m m' →
      (∀ i < m.nodes.length, m'.node i = m.node i) → m.reads[i]? = some r → r.ended = false →
      m'.reads = m.reads.modify i (fun r => { r with status := status }) → Moves m a m'
  | start (reader : ℕ) (op : ReadOp α) : a = .start reader op → Grows m m' →
      (∀ i < m.nodes.length, m'.node i = m.node i) → reader < m.nodes.length →
      m'.reads = m.reads ++ [⟨reader, op, m.node reader, [], .running (op.call (m.node reader))⟩] →
      Moves m a m'
  | pass (i : ℕ) (r : Read α) (x : α) (status : ReadStatus α) : Grows m m' →
      m.reads[i]? = some r → r.ended = false →
      m.elements[r.start + r.taken.length]? = some x →
      (∀ i < m.nodes.length, m'.node i = if r.op.removes = true ∧ i = r.reader ∧
        m.node i = r.start + r.taken.length then m.node i + 1 else m.node i) →
      m'.reads = m.reads.modify i (fun r => { r with status := status, taken := r.taken ++ [x] }) →
      Moves m a m'

theorem Appends.node_eq (h : Appends m m') : ∀ i < m.nodes.length, m'.node i = m.node i := by
  intro i hi
  rw [node, node, h.nodes, List.getElem?_eq_getElem hi]
  rfl

theorem Appends.moves (h : Appends m m') (a : Step α) :
    Moves m a m' := .still h.grows h.node_eq h.reads

theorem consume_node {reader node : ℕ} (hlt : reader < m.nodes.length) {i : ℕ}
    (hi : i < m.nodes.length) : (m.consume reader node).node i =
      if i = reader ∧ m.node i = node then m.node i + 1 else m.node i := by
  unfold consume
  split
  · rename_i heq
    set m₁ : Streams α := { m with nodes := m.nodes.set reader (node + 1) } with hm₁
    have hnode : m₁.node i = if i = reader ∧ m.node i = node then m.node i + 1 else m.node i := by
      by_cases hr : reader = i
      · subst hr
        rw [hm₁, node_set_self hlt, if_pos ⟨rfl, heq.symm⟩, heq]
      · rw [hm₁, node_set_ne hr, if_neg fun h => hr h.1.symm]
    have happends : ∀ q : Streams α, Appends m₁ q →
        q.node i = if i = reader ∧ m.node i = node then m.node i + 1 else m.node i := fun q hq =>
      (hq.node_eq i (by simpa [hm₁] using hi)).trans hnode
    dsimp only
    split
    · split
      · exact happends _ (appends_of_data (List.prefix_refl _) rfl rfl)
      · exact happends _ (appends_of_data (List.prefix_append _ _) rfl rfl)
    · exact happends _ (.refl _)
  · rename_i hne
    rw [if_neg fun h => hne (h.1 ▸ h.2).symm]

theorem doTurn_moves {i : ℕ} {r : Read α} {call : Call α} {reply : Reply α} {t : Turn α}
    {a : Step α}
    (hs : Sound m) (hr : m.reads[i]? = some r) (hended : r.ended = false)
    (ht : m.TurnSound r.op r.start r.taken t) (h : m.doTurn i r.reader call reply t = some m') :
    Moves m a m' := by
  have hread := hs.reads r (List.mem_of_getElem? hr)
  have hset : ∀ status, Moves m a (m.setStatus i status) := fun status =>
    .status i r status ⟨List.prefix_refl _, fun i hi => hi, le_rfl, fun i _ => le_rfl⟩
      (fun _ _ => rfl) hr hended rfl
  have hfed : ∀ {q : Streams α} {fed : Fed} {status}, m.feed reply = some (q, fed) →
      Moves m a (q.setStatus i status) := by
    intro q fed status hq
    have happends := appends_feed hq
    refine .status i r status ⟨happends.grows.elements, happends.grows.ends,
      happends.grows.readers, happends.grows.nodes⟩ happends.node_eq hr hended ?_
    rw [setStatus, happends.reads]
  cases t with
  | feed next =>
    obtain ⟨⟨q, fed⟩, hq, rfl⟩ := Option.map_eq_some_iff.mp h
    cases fed <;> exact hfed hq
  | feedAvailable next acc =>
    obtain ⟨⟨q, fed⟩, hq, rfl⟩ := Option.map_eq_some_iff.mp h
    cases fed <;> exact hfed hq
  | pass node x removes next =>
    cases h
    obtain ⟨rfl, rfl, hx, -⟩ := ht
    have hconsume := consume_spec hs hread.reader_lt hx
    by_cases hremoves : r.op.removes = true
    · simp only [hremoves, if_true]
      refine .pass i r x (next.elim .running .returned) ⟨hconsume.2.1.elements, hconsume.2.1.ends,
        hconsume.2.1.readers,
        hconsume.2.1.nodes⟩ hr hended hx (fun j hj => ?_) ?_
      · refine (consume_node hread.reader_lt hj).trans ?_
        simp [hremoves]
      · dsimp only
        rw [hconsume.2.2.1]
    · simp only [hremoves]
      refine .pass i r x (next.elim .running .returned) ⟨List.prefix_refl _, fun i hi => hi,
        le_rfl, fun i _ => le_rfl⟩ hr
        hended hx (fun j hj => ?_) rfl
      simp [hremoves, Streams.node, last]
  | test x | «return» a | empty =>
    cases h
    exact hset _

theorem Sound.moves {a : Step α} (hs : Sound m) (hown : m.ReadsOwn a)
    (hstep : m.step a = some m') : Moves m a m' := by
  have hset : ∀ {i : ℕ} {r : Read α} status, m.reads[i]? = some r → r.ended = false →
      Moves m a (m.setStatus i status) := fun status hr hended =>
    .status _ _ status ⟨List.prefix_refl _, fun i hi => hi, le_rfl, fun i _ => le_rfl⟩
      (fun _ _ => rfl) hr hended rfl
  cases step_cases hstep with
  | clone reader _ _ _ heq =>
    subst heq
    refine .still (grows_clone m reader) (fun i hi => ?_) rfl
    simp [Streams.node, List.getElem?_append_left hi, List.getElem?_eq_getElem hi]
  | start reader op ha hlt heq =>
    subst heq
    exact .start reader op ha ⟨List.prefix_refl _, fun i hi => hi, le_rfl, fun i _ => le_rfl⟩
      (fun _ _ => rfl) hlt rfl
  | turn i reply r call ha hr hst hturn =>
    subst ha
    have hread := hs.reads _ (List.mem_of_getElem? hr)
    have hgoing := hread.status
    rw [hst] at hgoing
    exact doTurn_moves hs hr (by rw [Read.ended, hst])
      (turn_sound hgoing hread.le (hs.node_le hread.reader_lt) (hown r call hr hst)) hturn
  | tested i r x call _ hr hst hturn =>
    have hstatus := (hs.reads _ (List.mem_of_getElem? hr)).status
    rw [hst] at hstatus
    obtain ⟨hgoing, htests, hx⟩ := hstatus
    exact doTurn_moves hs hr (by rw [Read.ended, hst]) (tested_sound hgoing htests hx) hturn
  | resumed i r k call _ hr hst heq =>
    subst heq
    exact hset _ hr (by rw [Read.ended, hst])
  | fails i r _ hr hst heq =>
    subst heq
    refine hset _ hr ?_
    rcases hst with ⟨k, call, hst⟩ | ⟨x, call, hst⟩ <;> rw [Read.ended, hst]
  | source _ happends => exact happends.moves a

/-! ## Reads that do not overlap -/

/-- What a run keeps: the ended reads, and reads begun later start at the heads of then. -/
structure After (m m' : Streams α) : Prop where
  grows : Grows m m'
  length_le : m.reads.length ≤ m'.reads.length
  ended : ∀ (i : ℕ) r, m.reads[i]? = some r → r.ended = true → m'.reads[i]? = some r
  later : ∀ (j : ℕ) r', m.reads.length ≤ j → m'.reads[j]? = some r' →
    r'.reader < m.nodes.length → m.node r'.reader ≤ r'.start

theorem After.refl (m : Streams α) : After m m :=
  ⟨(Appends.refl m).grows, le_rfl, fun _ _ hr _ => hr, fun _ _ hj hr' _ =>
    absurd (List.getElem?_eq_some_iff.mp hr').1 (not_lt.mpr hj)⟩

private theorem getElem?_modify_ended {i j : ℕ} {r r₀ : Read α} {f : Read α → Read α}
    (hr₀ : m.reads[i]? = some r₀) (hnot : r₀.ended = false) (hr : m.reads[j]? = some r)
    (hended : r.ended = true) : (m.reads.modify i f)[j]? = some r := by
  have hij : i ≠ j := by
    rintro rfl
    cases hr₀.symm.trans hr
    simp [hnot] at hended
  rw [List.getElem?_modify, hr]
  simp [hij]

theorem After.step {q : Streams α} {a : Step α} (h : After m q) (hmoves : Moves q a m') :
    After m m' := by
  have hmodify : ∀ {i : ℕ} {r₀ : Read α} {f : Read α → Read α}, q.reads[i]? = some r₀ →
      r₀.ended = false → Grows q m' → m'.reads = q.reads.modify i f →
      (∀ r, (f r).reader = r.reader ∧ (f r).start = r.start) → After m m' := by
    intro i r₀ f hr₀ hnot hgrows hreads hf
    refine ⟨h.grows.trans hgrows, ?_, fun j r hr hended => ?_, fun j r' hj hr' hlt => ?_⟩
    · rw [hreads, List.length_modify]
      exact h.length_le
    · rw [hreads]
      exact getElem?_modify_ended hr₀ hnot (h.ended j r hr hended) hended
    · rw [hreads, List.getElem?_modify] at hr'
      obtain ⟨r, hr, rfl⟩ := Option.map_eq_some_iff.mp hr'
      by_cases hij : i = j
      · rw [if_pos hij] at hlt ⊢
        rw [(hf r).1] at hlt ⊢
        rw [(hf r).2]
        exact h.later j r hj hr hlt
      · rw [if_neg hij] at hlt ⊢
        exact h.later j r hj hr hlt
  cases hmoves with
  | still hgrows hnodes hreads =>
    exact ⟨h.grows.trans hgrows, hreads ▸ h.length_le, hreads ▸ h.ended, hreads ▸ h.later⟩
  | status i r₀ status hgrows hnodes hr₀ hnot hreads =>
    exact hmodify hr₀ hnot hgrows hreads fun r => ⟨rfl, rfl⟩
  | pass i r₀ x status hgrows hr₀ hnot hx hnodes hreads =>
    exact hmodify hr₀ hnot hgrows hreads fun r => ⟨rfl, rfl⟩
  | start reader op ha hgrows hnodes hlt hreads =>
    refine ⟨h.grows.trans hgrows, ?_, fun j r hr hended => ?_, fun j r' hj hr' hlt' => ?_⟩
    · rw [hreads, List.length_append]
      exact h.length_le.trans (Nat.le_add_right _ _)
    · have hq := h.ended j r hr hended
      rw [hreads, List.getElem?_append_left (List.getElem?_eq_some_iff.mp hq).1, hq]
    · rw [hreads] at hr'
      rcases getElem?_append_singleton hr' with hr' | ⟨-, rfl⟩
      · exact h.later j r' hj hr' hlt'
      · exact h.grows.nodes reader hlt'

/-- A removing read of the stream itself begins when the ones before it have ended. -/
def Alone (m : Streams α) : Step α → Prop
  | .start reader op => reader = 0 → op.removes = true →
      ∀ r ∈ m.reads, r.reader = 0 → r.op.removes = true → r.ended = true
  | _ => True

/-- A removing read of the clone `c` begins when the ones before it have ended. -/
def AloneAt (c : ℕ) (m : Streams α) : Step α → Prop
  | .start reader op => reader = c → op.removes = true →
      ∀ r ∈ m.reads, r.reader = c → r.op.removes = true → r.ended = true
  | _ => True

/-- What a read has removed from the stream itself. -/
def removedBy (r : Read α) : List α := if r.reader = 0 ∧ r.op.removes = true then r.taken else []

/-- What a read has removed from the clone `c`. -/
def removedByAt (c : ℕ) (r : Read α) : List α :=
  if r.reader = c ∧ r.op.removes = true then r.taken else []

/-- What the removing reads have passed, in the order in which they began. -/
def removed (m : Streams α) : List α := m.reads.flatMap removedBy

/-- The same for the clone `c`. -/
def removedFrom (m : Streams α) (c : ℕ) : List α := m.reads.flatMap (removedByAt c)

/-- The removing reads of the clone `c` go on one after the other, from the node `o`. -/
structure Serial (c o : ℕ) (m : Streams α) : Prop where
  nonempty : c < m.nodes.length
  origin : o ≤ m.node c
  removed : m.removedFrom c = (m.elements.take (m.node c)).drop o
  active : ∀ (i : ℕ) r, m.reads[i]? = some r → r.reader = c → r.op.removes = true →
    r.ended = false → r.start + r.taken.length = m.node c ∧
      ∀ (j : ℕ) r', i < j → m.reads[j]? = some r' → ¬ (r'.reader = c ∧ r'.op.removes = true)

variable {c o : ℕ}

private theorem flatMap_modify {i : ℕ} {f : Read α → Read α} {l : List (Read α)}
    (hf : ∀ r, l[i]? = some r → removedByAt c (f r) = removedByAt c r) :
    (l.modify i f).flatMap (removedByAt c) = l.flatMap (removedByAt c) := by
  induction l generalizing i with
  | nil => simp
  | cons r l ih =>
    cases i with
    | zero => simp [hf r rfl]
    | succ i => simp [ih fun r' hr' => hf r' (by simpa using hr')]

private theorem flatMap_modify_append {i : ℕ} {f : Read α → Read α} {l : List (Read α)} {r : Read α}
    {x : α} (hr : l[i]? = some r) (hf : removedByAt c (f r) = removedByAt c r ++ [x])
    (hlast : ∀ (j : ℕ) r', i < j → l[j]? = some r' → removedByAt c r' = []) :
    (l.modify i f).flatMap (removedByAt c) = l.flatMap (removedByAt c) ++ [x] := by
  induction l generalizing i with
  | nil => simp at hr
  | cons r' l ih =>
    cases i with
    | zero =>
      obtain rfl : r' = r := by simpa using hr
      have hnil : l.flatMap (removedByAt c) = [] := by
        rw [List.flatMap_eq_nil_iff]
        intro r'' hr''
        obtain ⟨j, hj⟩ := List.getElem?_of_mem hr''
        exact hlast (j + 1) r'' (Nat.succ_pos _) (by simpa using hj)
      simp [hf, hnil]
    | succ i =>
      simp [ih (by simpa using hr) fun j r'' hij hj =>
        hlast (j + 1) r'' (Nat.succ_lt_succ hij) (by simpa using hj)]

private theorem take_of_prefix {l l' : List α} {n : ℕ} (h : l <+: l') (hn : n ≤ l.length) :
    l'.take n = l.take n := by
  obtain ⟨l'', rfl⟩ := h
  exact List.take_append_of_le_length hn

theorem Serial.step {a : Step α} (h : Serial c o m) (hs : Sound m) (halone : m.AloneAt c a)
    (hmoves : Moves m a m') : Serial c o m' := by
  have hnode : m.node c ≤ m.elements.length := hs.node_le h.nonempty
  have horigin : Grows m m' → o ≤ m'.node c := fun hgrows =>
    h.origin.trans (hgrows.nodes c h.nonempty)
  -- The reads that are active and remove from the stream, after one of the reads has changed.
  have hmodify : ∀ {i : ℕ} {r₀ : Read α} {f : Read α → Read α}, m.reads[i]? = some r₀ →
      r₀.ended = false → m'.reads = m.reads.modify i f →
      (∀ r, (f r).reader = r.reader ∧ (f r).op = r.op) →
      (r₀.reader = c → r₀.op.removes = true →
        (f r₀).start + (f r₀).taken.length = m'.node c) →
      (¬ (r₀.reader = c ∧ r₀.op.removes = true) → m'.node c = m.node c) →
      ∀ (j : ℕ) r, m'.reads[j]? = some r → r.reader = c → r.op.removes = true →
        r.ended = false → r.start + r.taken.length = m'.node c ∧
          ∀ (k : ℕ) r', j < k → m'.reads[k]? = some r' →
            ¬ (r'.reader = c ∧ r'.op.removes = true) := by
    intro i r₀ f hr₀ hnot hreads hf hlen hsame j r hr hreader hremoves hended
    have hback : ∀ {k : ℕ} {r' : Read α}, m'.reads[k]? = some r' → ∃ r₁, m.reads[k]? = some r₁ ∧
        r₁.reader = r'.reader ∧ r₁.op = r'.op ∧ (k ≠ i → r₁ = r') ∧ (k = i → r' = f r₁) := by
      intro k r' hr'
      rw [hreads, List.getElem?_modify] at hr'
      obtain ⟨r₁, hr₁, rfl⟩ := Option.map_eq_some_iff.mp hr'
      by_cases hik : i = k
      · rw [if_pos hik]
        exact ⟨r₁, hr₁, (hf r₁).1.symm, (hf r₁).2.symm, fun hne => absurd hik.symm hne,
          fun _ => rfl⟩
      · rw [if_neg hik]
        exact ⟨r₁, hr₁, rfl, rfl, fun _ => rfl, fun heq => absurd heq.symm hik⟩
    have hothers : ∀ {j : ℕ}, (∀ (k : ℕ) r', j < k → m.reads[k]? = some r' →
        ¬ (r'.reader = c ∧ r'.op.removes = true)) → ∀ (k : ℕ) r', j < k → m'.reads[k]? = some r' →
          ¬ (r'.reader = c ∧ r'.op.removes = true) := by
      intro j hlast k r' hjk hr'
      obtain ⟨r₁, hr₁, hreader₁, hop₁, -⟩ := hback hr'
      rw [← hreader₁, ← hop₁]
      exact hlast k r₁ hjk hr₁
    obtain ⟨r₁, hr₁, hreader₁, hop₁, hne, heq⟩ := hback hr
    by_cases hij : j = i
    · subst hij
      cases hr₀.symm.trans hr₁
      rw [heq rfl]
      have hreader₀ := hreader₁.trans hreader
      have hremoves₀ : r₀.op.removes = true := hop₁ ▸ hremoves
      exact ⟨hlen hreader₀ hremoves₀, hothers (h.active j r₀ hr₀ hreader₀ hremoves₀ hnot).2⟩
    · obtain rfl := hne hij
      obtain ⟨hstart, hlast⟩ := h.active j r₁ hr₁ hreader hremoves hended
      refine ⟨?_, hothers hlast⟩
      -- Only one such read is active, so the one that has changed is another one.
      rw [hstart, hsame]
      rintro ⟨hreader₀, hremoves₀⟩
      rcases Nat.lt_or_gt_of_ne hij with hlt | hlt
      · exact hlast i r₀ hlt hr₀ ⟨hreader₀, hremoves₀⟩
      · exact (h.active i r₀ hr₀ hreader₀ hremoves₀ hnot).2 j r₁ hlt hr₁ ⟨hreader, hremoves⟩
  cases hmoves with
  | still hgrows hnodes hreads =>
    have hzero := hnodes c h.nonempty
    refine ⟨h.nonempty.trans_le hgrows.readers, horigin hgrows, ?_, ?_⟩
    · rw [hzero, take_of_prefix hgrows.elements hnode, ← h.removed, removedFrom, hreads,
        removedFrom]
    · rw [hreads, hzero]
      exact h.active
  | status i r₀ status hgrows hnodes hr₀ hnot hreads =>
    have hzero := hnodes c h.nonempty
    refine ⟨h.nonempty.trans_le hgrows.readers, horigin hgrows, ?_,
      hmodify hr₀ hnot hreads (fun _ => ⟨rfl, rfl⟩) (fun hreader hremoves => ?_) fun _ => hzero⟩
    · rw [hzero, take_of_prefix hgrows.elements hnode, ← h.removed, removedFrom, hreads]
      exact flatMap_modify fun _ _ => rfl
    · rw [hzero]
      exact (h.active i r₀ hr₀ hreader hremoves hnot).1
  | start reader op ha hgrows hnodes hlt hreads =>
    have hzero := hnodes c h.nonempty
    subst ha
    refine ⟨h.nonempty.trans_le hgrows.readers, horigin hgrows, ?_,
      fun i r hr hreader hremoves hended => ?_⟩
    · rw [hzero, take_of_prefix hgrows.elements hnode, ← h.removed, removedFrom, hreads,
        List.flatMap_append, removedFrom]
      simp [removedByAt]
    · rw [hreads] at hr
      rw [hzero, hreads]
      rcases getElem?_append_singleton hr with hr | ⟨rfl, rfl⟩
      · obtain ⟨hstart, hlast⟩ := h.active i r hr hreader hremoves hended
        refine ⟨hstart, fun j r' hij hr' => ?_⟩
        rcases getElem?_append_singleton hr' with hr' | ⟨-, rfl⟩
        · exact hlast j r' hij hr'
        · rintro ⟨hreader', hremoves'⟩
          have hended' := halone hreader' hremoves' r (List.mem_of_getElem? hr) hreader hremoves
          simp [hended] at hended'
      · obtain rfl : reader = c := hreader
        refine ⟨rfl, fun j r' hij hr' => ?_⟩
        have hlen := (List.getElem?_eq_some_iff.mp hr').1
        rw [List.length_append, List.length_singleton] at hlen
        omega
  | pass i r₀ x status hgrows hr₀ hnot hx hnodes hreads =>
    have hzero := hnodes c h.nonempty
    by_cases hactive : r₀.reader = c ∧ r₀.op.removes = true
    · obtain ⟨hreader, hremoves⟩ := hactive
      obtain ⟨hstart, hlast⟩ := h.active i r₀ hr₀ hreader hremoves hnot
      rw [if_pos ⟨hremoves, hreader.symm, hstart.symm⟩] at hzero
      refine ⟨h.nonempty.trans_le hgrows.readers, horigin hgrows, ?_, hmodify hr₀ hnot hreads
        (fun _ => ⟨rfl, rfl⟩) (fun _ _ => ?_) fun hnotactive =>
          absurd ⟨hreader, hremoves⟩ hnotactive⟩
      · have htake : m.elements.take (m.node c + 1) = m.elements.take (m.node c) ++ [x] := by
          rw [List.take_add_one, ← hstart, hx]
          rfl
        have hlt : m.node c + 1 ≤ m.elements.length := by
          rw [← hstart]
          exact (List.getElem?_eq_some_iff.mp hx).1
        have hle : o ≤ (m.elements.take (m.node c)).length := by
          rw [List.length_take, Nat.min_eq_left hnode]
          exact h.origin
        rw [hzero, take_of_prefix hgrows.elements hlt, htake, List.drop_append_of_le_length hle,
          ← h.removed, removedFrom, hreads, flatMap_modify_append hr₀ (x := x) ?_ ?_, removedFrom]
        · simp [removedByAt, hreader, hremoves]
        · intro j r' hij hr'
          exact if_neg (hlast j r' hij hr')
      · dsimp only
        rw [hzero, List.length_append, List.length_singleton, ← hstart]
        omega
    · have hsame : m'.node c = m.node c := by
        rw [hzero, if_neg]
        rintro ⟨hremoves, hreader, -⟩
        exact hactive ⟨hreader.symm, hremoves⟩
      refine ⟨h.nonempty.trans_le hgrows.readers, horigin hgrows, ?_, hmodify hr₀ hnot hreads
        (fun _ => ⟨rfl, rfl⟩) (fun hreader hremoves => absurd ⟨hreader, hremoves⟩ hactive)
          fun _ => hsame⟩
      rw [hsame, take_of_prefix hgrows.elements hnode, ← h.removed, removedFrom, hreads,
        flatMap_modify fun r hr => ?_, removedFrom]
      cases hr₀.symm.trans hr
      simp [removedByAt, hactive]

/-! ## Runs -/

theorem sound_fromSource (source : Source α) (signal : Signal) :
    Sound (fromSource source signal) :=
  ⟨by simp [fromSource], by simp [fromSource]⟩

theorem reach_sound {source : Source α} {signal : Signal}
    (hreach : Reach step ReadsOwn (fromSource source signal) m) : Sound m :=
  hreach.invariant (sound_fromSource source signal) fun _ _ _ hs hok hstep => hs.step hok hstep

theorem reach_after (hs : Sound m) (hreach : Reach step ReadsOwn m m') : After m m' := by
  have hboth : Sound m' ∧ After m m' :=
    hreach.invariant (P := fun q => Sound q ∧ After m q) ⟨hs, .refl m⟩
      fun q a q' hq hok hstep =>
        ⟨hq.1.step hok hstep, hq.2.step (hq.1.moves hok hstep)⟩
  exact hboth.2

theorem Alone.aloneAt {a : Step α} (h : m.Alone a) : m.AloneAt 0 a := by
  cases a <;> exact h

theorem serial_fromSource (source : Source α) (signal : Signal) :
    Serial 0 0 (fromSource source signal) where
  nonempty := by simp [fromSource]
  origin := Nat.zero_le _
  removed := by simp [fromSource, removedFrom, elements, Lwt.elements]
  active := by simp [fromSource]

theorem reach_serial {source : Source α} {signal : Signal}
    (hreach : Reach step (fun m a => m.ReadsOwn a ∧ m.Alone a) (fromSource source signal) m) :
    Serial 0 0 m := by
  have hboth : Sound m ∧ Serial 0 0 m :=
    hreach.invariant (P := fun q => Sound q ∧ Serial 0 0 q)
      ⟨sound_fromSource source signal, serial_fromSource source signal⟩ fun q a q' hq hok hstep =>
        ⟨hq.1.step hok.1 hstep, hq.2.step hq.1 hok.2.aloneAt (hq.1.moves hok.1 hstep)⟩
  exact hboth.2

/-- In every run of a stream in which `nget_rec` and `get_available_up_to_rec` find in the head what
their own node holds, a read passes elements at consecutive indices from the head it began at,
and returns what it is to return of them.  A removing read that has ended lies before every
read of the same clone that begins later, and if the removing reads of the stream do not overlap,
what they pass is the sequence of the elements that have left it. -/
theorem reads_return_segments {source : Source α} {signal : Signal}
    (hreach : Reach step ReadsOwn (fromSource source signal) m) :
    (∀ r ∈ m.reads, r.taken <+: m.elements.drop r.start ∧
      (∀ a, r.status = .returned a → m.Answered r.start r.taken r.op a) ∧
      (r.status = .empty → r.op = .next ∧ m.EndsAt r.start)) ∧
    (∀ (m' : Streams α) (i j : ℕ) r r', Reach step ReadsOwn m m' → m.reads[i]? = some r →
      r.ended = true → r.op.removes = true → m.reads.length ≤ j → m'.reads[j]? = some r' →
      r'.reader = r.reader → m'.reads[i]? = some r ∧ r.start + r.taken.length ≤ r'.start) ∧
    (Reach step (fun m a => m.ReadsOwn a ∧ m.Alone a) (fromSource source signal) m →
      m.removed = m.elements.take (m.node 0)) := by
  have hs := reach_sound hreach
  refine ⟨fun r hr => ?_, fun m' i j r r' hreach' hr hended hremoves hj hr' hreader => ?_,
    fun hserial => (reach_serial hserial).removed⟩
  · have hread := hs.reads r hr
    refine ⟨hread.taken, fun a hst => ?_, fun hst => ?_⟩
    · have hstatus := hread.status
      rwa [hst] at hstatus
    · have hstatus := hread.status
      rwa [hst] at hstatus
  · have hread := hs.reads r (List.mem_of_getElem? hr)
    have hafter := reach_after hs hreach'
    refine ⟨hafter.ended i r hr hended, (hread.behind hremoves).trans ?_⟩
    rw [← hreader]
    exact hafter.later j r' hj hr' (hreader ▸ hread.reader_lt)

/-- A `nget 2` and then a `get` wait for the first element.  The push resumes the newer `get` first,
which removes the element. -/
def getBeforeNget : List (Step ℕ) :=
  [.start 0 (.nget 2), .turn 0 .later, .start 0 .get, .turn 1 .later, .push (some 5), .resume 1,
    .turn 1 .later, .resume 0, .turn 0 .later]

/-- The `nget` finds no data in the new head and returns no element, on a stream that goes on. -/
theorem nget_returns_too_little : ∃ m : Streams ℕ, Reach step (fun _ _ => True) create m ∧
    m.elements = [5] ∧ (∀ i, ¬ m.EndsAt i) ∧ ∃ r ∈ m.reads, r.op = .nget 2 ∧ r.start = 0 ∧
      r.status = .returned (.list []) := by
  obtain ⟨m, hm⟩ : ∃ m, replay step create getBeforeNget = some m := ⟨_, rfl⟩
  have hdata : m.data = [some 5] := by
    cases hm.symm.trans rfl
    rfl
  have hread : m.reads[0]? = some ⟨0, .nget 2, 0, [], .returned (.list [])⟩ := by
    cases hm.symm.trans rfl
    rfl
  refine ⟨m, reach_of_replay _ hm, by rw [elements, hdata]; rfl, fun i => ?_,
    _, List.mem_of_getElem? hread, rfl, rfl, rfl⟩
  -- nothing has closed the stream, so that no end marker is to come either
  rintro ⟨rfl, hlt⟩
  simp [elements, hdata, Lwt.elements] at hlt

/-- The state after `push (Some 5)`, a `nget 1` and its first `k` turns. -/
private def ngetRun (taken : List ℕ) (node : ℕ) (status : ReadStatus ℕ) : Streams ℕ :=
  ⟨[some 5], [node], .push false, false, 0, [.sleeping], 0, [.unused],
  [⟨0, .nget 1, 0, taken, status⟩]⟩

theorem reads_return_segments_nget : ∃ m : Streams ℕ,
    Reach step (fun m a => m.ReadsOwn a ∧ m.Alone a) create m ∧
      m.removed = m.elements.take (m.node 0) ∧ m.removed = [5] ∧
      ∀ r ∈ m.reads, r.taken <+: m.elements.drop r.start := by
  have hown : ∀ {m : Streams ℕ} {r : Read ℕ} {call : Call ℕ}, m.reads = [r] →
      r.status = .running call → m.OwnData r.reader call → m.ReadsOwn (.turn 0 .later) := by
    intro m r call hreads hst hdata r' call' hr' hst'
    obtain rfl : r = r' := by simpa [hreads] using hr'
    cases hst.symm.trans hst'
    exact hdata
  have hreach : Reach step (fun m a => m.ReadsOwn a ∧ m.Alone a) create
      (ngetRun [5] 1 (.returned (.list [5]))) := by
    refine .tail (.turn 0 .later) (.tail (.turn 0 .later) (.tail (.start 0 (.nget 1))
      (.tail (.push (some 5)) .refl ⟨trivial, trivial⟩ rfl) ⟨trivial, ?_⟩
      (u := ngetRun [] 0 (.running (.ngetRec 0 [] 1))) rfl) ⟨?_, trivial⟩
      (u := ngetRun [5] 1 (.running (.ngetRec 1 [5] 0))) rfl) ⟨?_, trivial⟩ rfl
    · intro _ _ r hr
      cases hr
    · exact hown rfl rfl fun _ _ => rfl
    · exact hown rfl rfl fun hlt => absurd hlt (by decide)
  obtain ⟨hsegments, -, hserial⟩ := reads_return_segments (hreach.mono fun _ _ h => h.1)
  exact ⟨_, hreach, hserial hreach, rfl, fun r hr => (hsegments r hr).1⟩

end Streams

end Lwt
