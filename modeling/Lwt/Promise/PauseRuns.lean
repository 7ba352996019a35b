import Lwt.Promise.Pause

/-!
# Runs of the pause promises

Each step keeps `Orderly`, as long as it unlinks no node that its neighbours have ceased to link
to.  A batch is settled when a `wakeup_paused` or an `abandon_paused` takes it: nothing is added
to it afterwards.
-/

namespace Lwt

open Table Transition

namespace Pauses

variable {m m' : Pauses} {seq k : ℕ} {l : List ℕ}

section Orderly

variable (ho : Orderly m)

include ho

/-! ## The steps -/

theorem Orderly.pause : Orderly m.pause := by
  obtain ⟨l, hl, hlen, hwaiting⟩ := ho.waiting
  have hnew : ∀ {n : ℕ} {r : Pause}, m.pause.promises[n]? = some r → m.promises[n]? = some r ∨
      (n = m.promises.length ∧ r = ⟨.pending, m.sequences.length, m.batch⟩) := by
    intro n r hr
    rcases getElem?_append_singleton hr with hold | ⟨hn, hr⟩
    · exact .inl hold
    · exact .inr ⟨hn, hr⟩
  have hold : ∀ {n : ℕ} {r : Pause}, m.promises[n]? = some r → m.pause.promises[n]? = some r :=
    fun hr => (List.getElem?_append_left (List.getElem?_eq_some_iff.mp hr).1).trans hr
  have hlt : ∀ {n : ℕ} {r : Pause}, m.promises[n]? = some r → r.node < m.sequences.length :=
    fun hr => lt_length_of_data (ho.node _ _ hr)
  have hsize : ∀ k, k ≠ m.batch → m.pause.size k = m.size k := fun k hk => by
    simp [Pauses.size, Pauses.pause, Ne.symm hk]
  have hsize' : m.pause.size m.batch = m.size m.batch + 1 := by
    simp [Pauses.size, Pauses.pause]
  have hkeeps : ∀ k, k ≠ m.batch → Keeps m m.pause k := fun k hk =>
    ⟨fun n r hr hb => ⟨r, hold hr, rfl, hb, id⟩, fun n r hr hb => by
      rcases hnew hr with hr | ⟨-, rfl⟩
      · exact ⟨r, hr, rfl, hb, id, id⟩
      · exact absurd hb.symm hk, hsize k hk⟩
  -- the new node is the last of the ring of `paused`
  have hring : Sequences.Ring m.pause.sequences paused (l ++ [m.sequences.length]) := hl.ring.addR
  refine ⟨?_, ?_, ?_, ?_, ?_, ⟨l ++ [m.sequences.length], ⟨?_, hring, ?_, ?_, ?_⟩, ?_, ?_⟩, ?_,
    ho.nested, ho.inner, ?_, ?_, ?_, ho.not_failed⟩
  · intro n r hr
    rcases hnew hr with hr | ⟨rfl, rfl⟩
    · exact (Sequences.data_addR_lt (hlt hr)).trans (ho.node n r hr)
    · exact Sequences.data_addR_self ..
  · intro x n hx
    have hxlt : x < m.sequences.length + 1 := by
      simpa [Pauses.pause] using lt_length_of_data hx
    rcases Nat.lt_succ_iff_lt_or_eq.mp hxlt with hxlt | rfl
    · obtain ⟨r, hr, hnode⟩ := ho.promise x n ((Sequences.data_addR_lt hxlt).symm.trans hx)
      exact ⟨r, hold hr, hnode⟩
    · obtain rfl : m.promises.length = n :=
        Option.some.inj ((Sequences.data_addR_self ..).symm.trans hx)
      exact ⟨⟨.pending, m.sequences.length, m.batch⟩, by simp [Pauses.pause], rfl⟩
  · intro i j r r' hij hr hr'
    rcases hnew hr with hr | ⟨rfl, rfl⟩ <;> rcases hnew hr' with hr' | ⟨rfl, rfl⟩
    · exact ho.increasing i j r r' hij hr hr'
    · exact hlt hr
    · exact absurd (List.getElem?_eq_some_iff.mp hr').1 (by omega)
    · exact absurd hij (lt_irrefl _)
  · intro r hr
    rcases List.mem_append.mp hr with hr | hr
    · exact ho.batch_le r hr
    · simp [List.mem_singleton.mp hr, Pauses.pause]
  · have hcount := ho.count
    simp only [show m.pause.batch = m.batch from rfl, hsize']
    simp [Pauses.pause, hcount]
  · exact (Sequences.data_addR_lt (hl.ring.within paused (by simp))).trans hl.header
  · intro x hx
    rcases List.mem_append.mp hx with hx | hx
    · exact (Sequences.active_addR (hl.ring.within x (List.mem_cons_of_mem _ hx))).trans
        (hl.active x hx)
    · rw [List.mem_singleton.mp hx]
      exact Sequences.active_addR_self ..
  · intro x hx
    rcases List.mem_append.mp hx with hx | hx
    · obtain ⟨n, r, hr, hnode, hbatch⟩ := hl.nodes x hx
      exact ⟨n, r, hold hr, hnode, hbatch⟩
    · exact ⟨m.promises.length, ⟨.pending, m.sequences.length, m.batch⟩, by simp [Pauses.pause],
        (List.mem_singleton.mp hx).symm, rfl⟩
  · refine List.pairwise_append.mpr ⟨hl.sorted, List.pairwise_singleton _ _, fun x hx y hy => ?_⟩
    rw [List.mem_singleton.mp hy]
    exact hl.ring.within x (List.mem_cons_of_mem _ hx)
  · rw [show m.pause.batch = m.batch from rfl, hsize', List.length_append]
    exact Nat.add_le_add_right hlen 1
  · intro n r hr hbatch
    rcases hnew hr with hr | ⟨rfl, rfl⟩
    · obtain ⟨hful, hpending⟩ := hwaiting n r hr hbatch
      exact ⟨hful, fun hst => List.mem_append_left _ (hpending hst)⟩
    · exact ⟨by simp, fun _ => by simp⟩
  -- the rings of the loops do not meet the ring of `paused`
  · refine ho.frames_of_keeps (q := m.pause) le_rfl (fun n r hr hst => ⟨r, hold hr, rfl, hst⟩)
      (fun k hk => hkeeps k hk.ne) fun seq k l' hseq hk h => ?_
    refine h.of_ring (hkeeps k hk.ne) ?_ ?_ ?_
    · exact (Sequences.data_addR_lt (h.ring.within seq (by simp))).trans h.header
    · exact h.ring.addR_other hl.ring (ho.disjoint h hl hseq.ne' hk.ne)
    · exact fun x hx => Sequences.active_addR (h.ring.within x (List.mem_cons_of_mem _ hx))
  · intro n
    rw [show m.pause.log = m.log from rfl, ho.logged n, Option.map_eq_some_iff,
      Option.map_eq_some_iff]
    constructor
    · rintro ⟨r, hr, hst⟩
      exact ⟨r, hold hr, hst⟩
    · rintro ⟨r, hr, hst⟩
      rcases hnew hr with hr | ⟨-, rfl⟩
      · exact ⟨r, hr, hst⟩
      · simp at hst
  · refine log_sorted_of_back ho.log_sorted fun n hn r' hr' => ?_
    rcases hnew hr' with hr' | ⟨rfl, rfl⟩
    · exact ⟨r', hr', rfl⟩
    · have := (ho.logged _).mp hn
      simp at this
  · intro n r hr hst
    rcases hnew hr with hr | ⟨rfl, rfl⟩
    · exact ho.pending n r hr hst
    · exact .inl rfl

theorem Orderly.awake (hloop : m.inLoop = false) (tmp curr k turns : ℕ) :
    .wakeupEach tmp curr false k turns ∉ m.stack := by
  intro hmem
  cases hstack : m.stack with
  | nil => simp [hstack] at hmem
  | cons frame below =>
    rw [hstack] at hmem
    rcases List.mem_cons.mp hmem with rfl | hmem
    · simp [inLoop, hstack] at hloop
    · exact ho.inner tmp curr k turns (by simpa [hstack] using hmem)

theorem Orderly.reject (hloop : m.inLoop = false) (n : ℕ) :
    Orderly (m.reject n) ∧ (m.reject n).inLoop = false := by
  unfold Pauses.reject
  split
  swap
  · exact ⟨ho, hloop⟩
  rename_i node batch hr
  set m' : Pauses := { m.setState n .canceled with stack := .removeSequenceNode node :: m.stack }
    with hm'
  refine ⟨?_, rfl⟩
  have hself : m'.promises[n]? = some ⟨.canceled, node, batch⟩ := getElem?_setState_self hr
  -- the promise keeps its node and its batch
  have hkeeps : ∀ k, Keeps m m' k := fun k =>
    have h : Keeps m (m.setState n .canceled) k := keeps_setState hr rfl (by simp) (by simp)
    ⟨h.forth, h.back, h.size⟩
  have hback : ∀ {i : ℕ} {r' : Pause}, m'.promises[i]? = some r' → ∃ r, m.promises[i]? = some r ∧
      r.node = r'.node ∧ r.batch = r'.batch ∧ (r'.state = .pending → r.state = .pending) ∧
      (r'.state = .fulfilled → r.state = .fulfilled) := by
    intro i r' hr'
    obtain ⟨r, hr, hnode, hbatch, hst⟩ := (hkeeps r'.batch).back i r' hr' rfl
    exact ⟨r, hr, hnode, hbatch, hst⟩
  have hholds : ∀ {seq k l}, Holds m seq k l → Holds m' seq k l := fun h =>
    h.of_ring (hkeeps _) h.header h.ring fun _ _ => rfl
  refine ⟨?_, ?_, ?_, ?_, ?_, ?_, ?_, ho.nested, ?_, ?_, ?_, ?_, ho.not_failed⟩
  · intro i r' hr'
    obtain ⟨r, hr, hnode, -⟩ := hback hr'
    exact hnode ▸ ho.node i r hr
  · intro x i hx
    obtain ⟨r, hr, hnode⟩ := ho.promise x i hx
    obtain ⟨r', hr', hnode', -⟩ := (hkeeps r.batch).forth i r hr rfl
    exact ⟨r', hr', hnode'.trans hnode⟩
  · intro i j r r' hij hr hr'
    obtain ⟨r₁, hr₁, hnode₁, -⟩ := hback hr
    obtain ⟨r₂, hr₂, hnode₂, -⟩ := hback hr'
    exact hnode₁ ▸ hnode₂ ▸ ho.increasing i j r₁ r₂ hij hr₁ hr₂
  · intro r' hr'
    obtain ⟨i, hi⟩ := List.getElem?_of_mem hr'
    obtain ⟨r, hr, -, hbatch, -⟩ := hback hi
    exact hbatch ▸ ho.batch_le r (List.mem_of_getElem? hr)
  · exact ho.count.trans (congrArg Nat.cast (size_setState _).symm)
  · obtain ⟨l, hl, hlen, hwaiting⟩ := ho.waiting
    refine ⟨l, hholds hl, hlen.trans (size_setState _).ge, fun i r' hr' hbatch => ?_⟩
    obtain ⟨r, hr, hnode, hbatch', hpending, hful⟩ := hback hr'
    obtain ⟨hnot, hmem⟩ := hwaiting i r hr (hbatch'.trans hbatch)
    exact ⟨fun h => hnot (hful h), fun h => hnode ▸ hmem (hpending h)⟩
  · intro frame hframe
    rcases List.mem_cons.mp hframe with rfl | hframe
    · exact ⟨n, _, hself, rfl, rfl⟩
    · refine ho.frames_of_keeps (q := m') le_rfl (fun i r hi hst => ?_) (fun k _ => hkeeps k)
        (fun _ _ _ _ _ => hholds) frame hframe
      by_cases hin : n = i
      · subst hin
        cases hr.symm.trans hi
        simp at hst
      · exact ⟨r, (getElem?_setState_ne hin).trans hi, rfl, hst⟩
  · exact ho.awake hloop
  · intro i
    refine (ho.logged i).trans ?_
    rw [Option.map_eq_some_iff, Option.map_eq_some_iff]
    constructor
    · rintro ⟨r, hi, hst⟩
      obtain ⟨r', hr', -, -, hful⟩ := (hkeeps r.batch).forth i r hi rfl
      exact ⟨r', hr', hful hst⟩
    · rintro ⟨r', hr', hst⟩
      obtain ⟨r, hi, -, -, -, hful⟩ := hback hr'
      exact ⟨r, hi, hful hst⟩
  · refine log_sorted_of_back ho.log_sorted fun i _ r' hr' => ?_
    obtain ⟨r, hi, -, hbatch, -⟩ := hback hr'
    exact ⟨r, hi, hbatch⟩
  · intro i r' hr' hst
    obtain ⟨r, hi, -, hbatch, hpending, -⟩ := hback hr'
    exact hbatch ▸ ho.pending i r hi (hpending hst)

theorem Orderly.cancel (hloop : m.inLoop = false) (ns : List ℕ) : Orderly (m.cancel ns) := by
  unfold Pauses.cancel
  induction ns generalizing m with
  | nil => exact ho
  | cons n ns ih => exact ih (ho.reject hloop n).1 (ho.reject hloop n).2

omit ho in
theorem size_eq_zero {k : ℕ} (h : ∀ r ∈ m.promises, r.batch ≠ k) : m.size k = 0 := by
  refine List.countP_eq_zero.mpr fun r hr => ?_
  simpa using h r hr

theorem Orderly.size_succ : m.size (m.batch + 1) = 0 :=
  size_eq_zero fun r hr hbatch => by
    have := ho.batch_le r hr
    omega

theorem Orderly.wakeupPaused (hloop : m.inLoop = false) : Orderly m.wakeupPaused := by
  obtain ⟨l, hl, hlen, hwaiting⟩ := ho.waiting
  have hle : ∀ (n : ℕ) r, m.promises[n]? = some r → r.batch ≤ m.batch := fun n r hr =>
    ho.batch_le r (List.mem_of_getElem? hr)
  have hnew : ∀ (n : ℕ) r, m.promises[n]? = some r → r.batch ≠ m.batch + 1 := fun n r hr hbatch =>
    absurd (hle n r hr) (by omega)
  unfold Pauses.wakeupPaused
  split
  · -- Nothing is waiting: every promise of the batch has been canceled.
    rename_i hempty
    obtain rfl : l = [] := hl.ring.isEmpty_iff.mp hempty
    refine ⟨ho.node, ho.promise, ho.increasing, fun r hr =>
      (ho.batch_le r hr).trans (Nat.le_succ _),
      ?_, ⟨[], ⟨hl.header, hl.ring, by simp, by simp, by simp⟩, by simp,
        fun n r hr hbatch => absurd hbatch (hnew n r hr)⟩, ?_, ho.nested, ho.inner, ho.logged,
      ho.log_sorted, ?_, ho.not_failed⟩
    · exact (congrArg Nat.cast ho.size_succ).symm
    · have hkeeps : ∀ k, Keeps m { m with pausedCount := 0, batch := m.batch + 1 } k := fun k =>
        .of_eq (by rfl) k
      exact ho.frames_of_keeps (Nat.le_succ _) (fun n r hr hst => ⟨r, hr, rfl, hst⟩)
        (fun k _ => hkeeps k) fun seq k l' _ _ h =>
          h.of_ring (hkeeps k) h.header h.ring fun _ _ => rfl
    · intro n r hr hst
      rcases ho.pending n r hr hst with hbatch | hrest
      · exact absurd ((hwaiting n r hr hbatch).2 hst) (by simp)
      · exact .inr hrest
  · rename_i hempty
    -- The nodes go to the ring of `tmp`, which a new loop goes through.
    have hne : l ≠ [] := fun h => hempty (hl.ring.isEmpty_iff.mpr h)
    set tmp := m.sequences.length with htmp
    have hlt : ∀ {seq' k' l'}, Holds m seq' k' l' → ∀ x ∈ seq' :: l', x < tmp := fun h x hx =>
      h.ring.within x hx
    have htmpl : tmp ∉ paused :: l := fun hmem => absurd (hlt hl tmp hmem) (lt_irrefl _)
    have hdisj : ∀ x ∈ [tmp], x ∉ paused :: l := by simpa using htmpl
    have hring := hl.ring.create
    have hringtmp : Sequences.Ring m.sequences.create tmp [] := Sequences.ring_create _
    have hdata : ∀ x, (m.sequences.create.transferR paused tmp).data x = m.sequences.data x :=
      fun x =>
      (Sequences.data_transferR ..).trans (Sequences.data_create_eq ..)
    have hactive : ∀ x < tmp, (m.sequences.create.transferR paused tmp).active x =
        m.sequences.active x := fun x hx =>
      (Sequences.active_transferR ..).trans (Sequences.active_create hx)
    have hdatatmp : m.sequences.data tmp = none := by
      cases hd : m.sequences.data tmp with
      | none => rfl
      | some n => exact absurd (lt_length_of_data hd) (lt_irrefl _)
    dsimp only
    set m' : Pauses := { m with
      sequences := m.sequences.create.transferR paused tmp
      pausedCount := 0
      stack := .wakeupEach tmp ((m.sequences.create.transferR paused tmp).next tmp)
        false m.batch 0 ::
        m.stack
      batch := m.batch + 1 } with hm'
    have hkeeps : ∀ k, Keeps m m' k := Keeps.of_eq rfl
    have hringm : Sequences.Ring m'.sequences tmp l := hring.transferR hne hringtmp hdisj
    have hmoved : Holds m' tmp m.batch l :=
      ⟨(hdata tmp).trans hdatatmp, hringm, fun x hx =>
        (hactive x (hlt hl x (List.mem_cons_of_mem _ hx))).trans (hl.active x hx),
        hl.nodes, hl.sorted⟩
    have hloops : ∀ a ∈ m.loops, a.1 < tmp ∧ a.2 < m.batch := by
      intro a ha
      obtain ⟨frame, hframe, hloop⟩ := List.mem_filterMap.mp ha
      cases frame with
      | removeSequenceNode node => simp [loop] at hloop
      | wakeupEach tmp' curr woken k turns =>
        obtain rfl : (tmp', k) = a := by simpa [loop] using hloop
        obtain ⟨-, hk, done, todo, hwaking⟩ := ho.frames _ hframe
        exact ⟨hlt hwaking.holds tmp' (by simp), hk⟩
    refine ⟨fun n r hr => (hdata _).trans (ho.node n r hr), fun x n hx =>
      ho.promise x n ((hdata x).symm.trans hx), ho.increasing,
      fun r hr => (ho.batch_le r hr).trans (Nat.le_succ _), ?_, ⟨[], ⟨(hdata _).trans hl.header,
        hring.transferR_self hne hringtmp hdisj, by simp, by simp, by simp⟩, by simp,
        fun n r hr hbatch => absurd hbatch (hnew n r hr)⟩, ?_, ?_, ho.awake hloop, ho.logged,
      ho.log_sorted, ?_, ho.not_failed⟩
    · exact (congrArg Nat.cast ho.size_succ).symm
    · intro frame hframe
      rcases List.mem_cons.mp hframe with rfl | hframe
      · refine ⟨(Nat.zero_le _).lt_of_ne fun h => htmpl (by simp [← h, paused]), Nat.lt_succ_self _,
          [], l, ⟨by simpa using hmoved, hringm.head?_self, by simp, ?_, ?_, ?_⟩⟩
        · exact fun n r hr hbatch hst => (hwaiting n r hr hbatch).2 hst
        · exact fun n r hr hbatch hst => absurd hst (hwaiting n r hr hbatch).1
        · rw [Nat.zero_add, (hkeeps m.batch).size]
          exact hlen
      · refine ho.frames_of_keeps (q := m') (Nat.le_succ _) (fun n r hr hst => ⟨r, hr, rfl, hst⟩)
          (fun k _ => hkeeps k) (fun seq k l' hseq hk h => ?_) frame hframe
        refine h.of_ring (hkeeps k) ((hdata _).trans h.header) ?_ fun x hx =>
          hactive x (hlt h x (List.mem_cons_of_mem _ hx))
        exact h.ring.create.transferR_other hring hne hringtmp hdisj fun x hx =>
          ⟨by simpa using (hlt h x hx).ne, ho.disjoint h hl hseq.ne' hk.ne x hx⟩
    · exact List.pairwise_cons.mpr ⟨hloops, ho.nested⟩
    · intro n r hr hst
      rcases ho.pending n r hr hst with hbatch | habandoned | ⟨tmp', hmem⟩
      · exact .inr (.inr ⟨tmp, List.mem_cons.mpr (.inl (by rw [hbatch]))⟩)
      · exact .inr (.inl habandoned)
      · exact .inr (.inr ⟨tmp', List.mem_cons_of_mem _ hmem⟩)

theorem Orderly.abandonPaused : Orderly m.abandonPaused := by
  obtain ⟨l, hl, hlen, hwaiting⟩ := ho.waiting
  have hnew : ∀ (n : ℕ) r, m.promises[n]? = some r → r.batch ≠ m.batch + 1 := fun n r hr hbatch =>
    absurd (ho.batch_le r (List.mem_of_getElem? hr)) (by omega)
  have hkeeps : ∀ k, Keeps m m.abandonPaused k := Keeps.of_eq rfl
  refine ⟨fun n r hr => (Sequences.data_clear ..).trans (ho.node n r hr), fun x n hx =>
    ho.promise x n ((Sequences.data_clear ..).symm.trans hx), ho.increasing,
    fun r hr => (ho.batch_le r hr).trans (Nat.le_succ _), ?_, ⟨[],
      ⟨(Sequences.data_clear ..).trans hl.header,
      hl.ring.clear, by simp, by simp, by simp⟩, by simp,
      fun n r hr hbatch => absurd hbatch (hnew n r hr)⟩, ?_, ho.nested, ho.inner, ho.logged,
    ho.log_sorted, ?_, ho.not_failed⟩
  · exact (congrArg Nat.cast ho.size_succ).symm
  · refine ho.frames_of_keeps (q := m.abandonPaused) (Nat.le_succ _)
      (fun n r hr hst => ⟨r, hr, rfl, hst⟩) (fun k _ => hkeeps k) fun seq k l' hseq hk h => ?_
    refine h.of_ring (hkeeps k) ((Sequences.data_clear ..).trans h.header) ?_ fun x _ =>
      Sequences.active_clear ..
    exact h.ring.clear_other fun hmem =>
      ho.disjoint hl h hseq.ne hk.ne' paused (by simp) hmem
  · intro n r hr hst
    rcases ho.pending n r hr hst with hbatch | habandoned | hrest
    · exact .inr (.inl (List.mem_cons.mpr (.inl hbatch)))
    · exact .inr (.inl (List.mem_cons_of_mem _ habandoned))
    · exact .inr (.inr hrest)

/-- Unlinking the node of a canceled promise, in the sequence that holds it and in the others. -/
theorem Orderly.holds_remove {node n : ℕ} {r : Pause} (hr : m.promises[n]? = some r)
    (hnode : r.node = node) (hunlinks : m.sequences.active node = true → m.sequences.Unlinks node)
    {q : Pauses} (hseq : q.sequences = m.sequences.remove node)
    (hpromises : q.promises = m.promises)
    (h : Holds m seq k l) : Holds q seq k (l.filter (· ≠ node)) := by
  have hdata : ∀ x, q.sequences.data x = m.sequences.data x := fun x => by
    rw [hseq, Sequences.data_remove]
  have hne : node ≠ seq := by
    intro heq
    have hsome := ho.node n r hr
    rw [hnode, heq, h.header] at hsome
    cases hsome
  have hring : Sequences.Ring (m.sequences.remove node) seq (l.filter (· ≠ node)) := by
    by_cases hmem : node ∈ l
    · obtain ⟨l₁, l₂, rfl⟩ := List.append_of_mem hmem
      have hnodup := (List.nodup_cons.mp h.ring.nodup).2
      have hnot : node ∉ l₁ ++ l₂ := (List.nodup_middle.mp hnodup).notMem
      have hfilter : (l₁ ++ node :: l₂).filter (· ≠ node) = l₁ ++ l₂ := by
        rw [List.filter_append, List.filter_cons_of_neg (by simp), ← List.filter_append]
        refine List.filter_eq_self.mpr fun x hx => ?_
        simpa using fun heq : x = node => hnot (heq ▸ hx)
      rw [hfilter]
      exact h.ring.remove (h.active node hmem)
    · have hfilter : l.filter (· ≠ node) = l := by
        refine List.filter_eq_self.mpr fun x hx => ?_
        simpa using fun heq : x = node => hmem (heq ▸ hx)
      rw [hfilter]
      refine h.ring.remove_other ?_ hunlinks
      simp [hne, hmem]
  refine ⟨(hdata seq).trans h.header, hseq ▸ hring, fun x hx => ?_, fun x hx => ?_,
    h.sorted.sublist List.filter_sublist⟩
  · obtain ⟨hx, hxnode⟩ := List.mem_filter.mp hx
    have hxne : x ≠ node := by simpa using hxnode
    rw [hseq, Sequences.active_remove, h.active x hx]
    simpa using hxne
  · rw [hpromises]
    exact h.nodes x (List.mem_filter.mp hx).1

theorem Orderly.remove {node : ℕ} {below : List PauseFrame}
    (hstack : m.stack = .removeSequenceNode node :: below)
    (hunlinks : m.sequences.active node = true → m.sequences.Unlinks node) :
    Orderly { m with sequences := m.sequences.remove node, stack := below } := by
  set m' : Pauses := { m with sequences := m.sequences.remove node, stack := below } with hm'
  obtain ⟨n₀, r₀, hr₀, hnode₀, hst₀⟩ : m.SoundFrame (.removeSequenceNode node) :=
    ho.frames _ (by simp [hstack])
  have hdata : ∀ x, m'.sequences.data x = m.sequences.data x := Sequences.data_remove _ node
  have hholds : ∀ {seq k l}, Holds m seq k l → Holds m' seq k (l.filter (· ≠ node)) := fun h =>
    ho.holds_remove hr₀ hnode₀ hunlinks rfl rfl h
  -- The node removed is that of a canceled promise.
  have hkept : ∀ {n : ℕ} {r : Pause}, m.promises[n]? = some r → r.state ≠ .canceled →
      r.node ≠ node := by
    intro n r hr hst hnode
    obtain ⟨-, rfl⟩ := ho.promise_unique hr hr₀ (hnode.trans hnode₀.symm)
    exact hst hst₀
  have hbelow : ∀ tmp curr k turns, .wakeupEach tmp curr false k turns ∉ below := by
    simpa [hstack] using ho.inner
  have hloops : m'.loops = m.loops := by
    rw [loops, loops, hstack, List.filterMap_cons_none (by rfl)]
  refine ⟨fun n r hr => (hdata _).trans (ho.node n r hr), fun x n hx =>
    ho.promise x n ((hdata x).symm.trans hx), ho.increasing, ho.batch_le, ho.count, ?_, ?_,
    hloops ▸ ho.nested, fun tmp curr k turns hmem =>
    hbelow tmp curr k turns (List.mem_of_mem_tail hmem),
    ho.logged, ho.log_sorted, ?_, ho.not_failed⟩
  · obtain ⟨l, hl, hlen, hwaiting⟩ := ho.waiting
    refine ⟨_, hholds hl, (List.length_filter_le _ _).trans hlen, fun n r hr hbatch => ?_⟩
    obtain ⟨hful, hpending⟩ := hwaiting n r hr hbatch
    refine ⟨hful, fun hst => List.mem_filter.mpr ⟨hpending hst, ?_⟩⟩
    simpa using hkept hr (by simp [hst])
  · intro frame hframe
    have hsound := ho.frames frame (hstack ▸ List.mem_cons_of_mem _ hframe)
    cases frame with
    | removeSequenceNode node' => exact hsound
    | wakeupEach tmp curr woken k turns =>
      obtain ⟨htmp, hk, done, todo, hwaking⟩ := hsound
      cases woken with
      | false => exact absurd hframe (hbelow tmp curr k turns)
      | true =>
        obtain ⟨hne, hcurrent⟩ := hwaking.current rfl
        obtain ⟨x, todo, rfl⟩ := List.exists_cons_of_ne_nil hne
        obtain rfl : x = curr := by simpa using hwaking.curr_eq
        obtain ⟨n, r, hr, hnode, hbatch⟩ := hwaking.holds.nodes x (by simp)
        have hx : x ≠ node := hnode ▸ hkept hr (by simp [hcurrent n r hr hbatch hnode])
        have hfilter : (x :: todo).filter (· ≠ node) = x :: todo.filter (· ≠ node) :=
          List.filter_cons_of_pos (by simpa using hx)
        refine ⟨htmp, hk, done.filter (· ≠ node), x :: todo.filter (· ≠ node), ?_, by simp,
          fun _ => ⟨by simp, hcurrent⟩, ?_, ?_, ?_⟩
        · rw [← hfilter, ← List.filter_append]
          exact hholds hwaking.holds
        · intro n r hr hbatch hst
          refine List.mem_filter.mpr ⟨hwaking.pending n r hr hbatch hst, ?_⟩
          simpa using hkept hr (by simp [hst])
        · intro n r hr hbatch hst y hy
          exact hwaking.passed n r hr hbatch hst y (List.mem_filter.mp hy).1
        · have hle := List.length_filter_le (· ≠ node) todo
          have hturns := hwaking.turns_le
          simp only [List.length_cons] at hturns ⊢
          exact le_trans (by omega) hturns
  · intro n r hr hst
    rw [hloops]
    exact ho.pending n r hr hst

omit ho in
/-- The loop passes a node whose promise is not pending. -/
theorem Waking.advance {tmp curr turns : ℕ} {woken : Bool} {done todo : List ℕ}
    (h : Waking m tmp curr woken k turns done (curr :: todo))
    (hpending : ∀ (n : ℕ) r, m.promises[n]? = some r → r.batch = k → r.state = .pending →
      r.node ∈ todo) :
    Waking m tmp (m.sequences.next curr) false k (turns + 1) (done ++ [curr]) todo where
  holds := by simpa using h.holds
  curr_eq := h.holds.ring.head?_eq
  current := by simp
  pending := hpending
  passed n r hr hbatch hst x hx := by
    refine h.passed n r hr hbatch hst x ?_
    cases woken with
    | false => exact List.mem_cons_of_mem _ hx
    | true => exact hx
  turns_le := by
    have hturns := h.turns_le
    simp only [List.length_cons] at hturns
    omega

theorem Orderly.replace {tmp curr k turns : ℕ} {woken : Bool} {below : List PauseFrame}
    (hstack : m.stack = .wakeupEach tmp curr woken k turns :: below) {curr' turns' : ℕ}
    {woken' : Bool} (hframe : m.SoundFrame (.wakeupEach tmp curr' woken' k turns')) :
    Orderly { m with stack := .wakeupEach tmp curr' woken' k turns' :: below } := by
  have hloops : loops { m with stack := .wakeupEach tmp curr' woken' k turns' :: below } =
      m.loops := by
    rw [loops, loops, hstack, List.filterMap_cons_some (by rfl), List.filterMap_cons_some (by rfl)]
  have hinner : ∀ tmp curr k turns, .wakeupEach tmp curr false k turns ∉ below := by
    simpa [hstack] using ho.inner
  refine ⟨ho.node, ho.promise, ho.increasing, ho.batch_le, ho.count, ?_, ?_, hloops ▸ ho.nested,
    hinner, ho.logged, ho.log_sorted, hloops ▸ ho.pending, ho.not_failed⟩
  · obtain ⟨l, hl, hrest⟩ := ho.waiting
    exact ⟨l, ⟨hl.header, hl.ring, hl.active, hl.nodes, hl.sorted⟩, hrest⟩
  · intro frame hmem
    rcases List.mem_cons.mp hmem with rfl | hmem
    · exact hframe.of_eq rfl rfl rfl
    · exact (ho.frames _ (hstack ▸ List.mem_cons_of_mem _ hmem)).of_eq rfl rfl rfl

theorem Orderly.advance {tmp curr k turns : ℕ} {below : List PauseFrame}
    (hstack : m.stack = .wakeupEach tmp curr true k turns :: below) :
    Orderly (m.advance tmp curr k turns below) := by
  obtain ⟨htmp, hk, done, todo, hwaking⟩ : m.SoundFrame (.wakeupEach tmp curr true k turns) :=
    ho.frames _ (by simp [hstack])
  obtain ⟨hne, -⟩ := hwaking.current rfl
  obtain ⟨x, todo, rfl⟩ := List.exists_cons_of_ne_nil hne
  obtain rfl : x = curr := by simpa using hwaking.curr_eq
  exact ho.replace hstack ⟨htmp, hk, _, _, hwaking.advance hwaking.pending⟩

theorem Orderly.return {tmp k turns : ℕ} {below : List PauseFrame}
    (hstack : m.stack = .wakeupEach tmp tmp false k turns :: below) :
    Orderly { m with stack := below } ∧
      ∀ (n : ℕ) r, m.promises[n]? = some r → r.batch = k → r.state ≠ .pending := by
  obtain ⟨htmp, hk, done, todo, hwaking⟩ : m.SoundFrame (.wakeupEach tmp tmp false k turns) :=
    ho.frames _ (by simp [hstack])
  obtain rfl : todo = [] := by
    cases todo with
    | nil => rfl
    | cons x todo =>
      obtain rfl : x = tmp := by simpa using hwaking.curr_eq
      exact absurd (List.nodup_cons.mp hwaking.holds.ring.nodup).1 (by simp)
  have hended : ∀ (n : ℕ) r, m.promises[n]? = some r → r.batch = k → r.state ≠ .pending :=
    fun n r hr hbatch hst => by simpa [rest] using hwaking.pending n r hr hbatch hst
  refine ⟨?_, hended⟩
  have hloops : m.loops = (tmp, k) :: loops { m with stack := below } := by
    rw [loops, loops, hstack, List.filterMap_cons_some (by rfl)]
  have hnested := ho.nested
  rw [hloops] at hnested
  have hinner : ∀ tmp curr k turns, .wakeupEach tmp curr false k turns ∉ below := by
    simpa [hstack] using ho.inner
  refine ⟨ho.node, ho.promise, ho.increasing, ho.batch_le, ho.count, ?_, ?_,
    (List.pairwise_cons.mp hnested).2,
    fun tmp curr k turns hmem => hinner tmp curr k turns (List.mem_of_mem_tail hmem), ho.logged,
    ho.log_sorted, ?_, ho.not_failed⟩
  · obtain ⟨l, hl, hrest⟩ := ho.waiting
    exact ⟨l, ⟨hl.header, hl.ring, hl.active, hl.nodes, hl.sorted⟩, hrest⟩
  · exact fun frame hmem => (ho.frames _ (hstack ▸ List.mem_cons_of_mem _ hmem)).of_eq rfl rfl rfl
  · intro n r hr hst
    rcases ho.pending n r hr hst with hbatch | habandoned | ⟨tmp', hmem⟩
    · exact .inl hbatch
    · exact .inr (.inl habandoned)
    · rw [hloops] at hmem
      rcases List.mem_cons.mp hmem with heq | hmem
      · exact absurd hst (hended n r hr (Prod.ext_iff.mp heq).2)
      · exact .inr (.inr ⟨tmp', hmem⟩)

theorem Orderly.fulfill {tmp curr k turns n : ℕ} {r : Pause} {below : List PauseFrame}
    {done todo : List ℕ} (hstack : m.stack = .wakeupEach tmp curr false k turns :: below)
    (htmp : paused < tmp) (hk : k < m.batch)
    (hwaking : Waking m tmp curr false k turns done (curr :: todo)) (hr : m.promises[n]? = some r)
    (hnode : r.node = curr) (hbatch : r.batch = k) (hst : r.state = .pending) :
    Orderly { m.setState n .fulfilled with
      stack := .wakeupEach tmp curr true k turns :: below
      log := m.log ++ [n] } := by
  set m' : Pauses := { m.setState n .fulfilled with
    stack := .wakeupEach tmp curr true k turns :: below
    log := m.log ++ [n] } with hm'
  have hself : m'.promises[n]? = some { r with state := .fulfilled } := getElem?_setState_self hr
  have hkeeps : ∀ k', k' ≠ k → Keeps m m' k' := fun k' hk' =>
    have h : Keeps m (m.setState n .fulfilled) k' :=
      keeps_setState hr hst (by simp) fun _ => hbatch ▸ hk'.symm
    ⟨h.forth, h.back, h.size⟩
  have hother : ∀ {i : ℕ}, n ≠ i → m'.promises[i]? = m.promises[i]? := getElem?_setState_ne
  have hback : ∀ {i : ℕ} {r' : Pause}, m'.promises[i]? = some r' → ∃ r₁, m.promises[i]? = some r₁ ∧
      r₁.node = r'.node ∧ r₁.batch = r'.batch ∧ (r'.state = .pending → r₁.state = .pending) := by
    intro i r' hr'
    by_cases hi : n = i
    · subst hi
      cases hself.symm.trans hr'
      exact ⟨r, hr, rfl, rfl, by simp⟩
    · exact ⟨r', (hother hi).symm.trans hr', rfl, rfl, id⟩
  have hforth : ∀ {i : ℕ} {r₁ : Pause}, m.promises[i]? = some r₁ → ∃ r', m'.promises[i]? = some r' ∧
      r'.node = r₁.node ∧ r'.batch = r₁.batch := by
    intro i r₁ hr₁
    by_cases hi : n = i
    · subst hi
      cases hr.symm.trans hr₁
      exact ⟨_, hself, rfl, rfl⟩
    · exact ⟨r₁, (hother hi).trans hr₁, rfl, rfl⟩
  have hholds : ∀ {seq' k' l'}, Holds m seq' k' l' → Holds m' seq' k' l' := fun h =>
    ⟨h.header, h.ring, h.active, fun x hx => by
      obtain ⟨i, r₁, hr₁, hnode₁, hbatch₁⟩ := h.nodes x hx
      obtain ⟨r', hr', hnode', hbatch'⟩ := hforth hr₁
      exact ⟨i, r', hr', hnode'.trans hnode₁, hbatch'.trans hbatch₁⟩, h.sorted⟩
  have hloops : m'.loops = m.loops := by
    rw [loops, loops, hstack, List.filterMap_cons_some (by rfl), List.filterMap_cons_some (by rfl)]
  have hinner : ∀ tmp curr k turns, .wakeupEach tmp curr false k turns ∉ below := by
    simpa [hstack] using ho.inner
  have hsorted : ∀ x ∈ todo, curr < x :=
    (List.pairwise_cons.mp (List.pairwise_append.mp hwaking.holds.sorted).2.1).1
  refine ⟨?_, ?_, ?_, ?_, ?_, ?_, ?_, hloops ▸ ho.nested, hinner, ?_, ?_, ?_, ho.not_failed⟩
  · intro i r' hr'
    obtain ⟨r₁, hr₁, hnode₁, -⟩ := hback hr'
    exact hnode₁ ▸ ho.node i r₁ hr₁
  · intro x i hx
    obtain ⟨r₁, hr₁, hnode₁⟩ := ho.promise x i hx
    obtain ⟨r', hr', hnode', -⟩ := hforth hr₁
    exact ⟨r', hr', hnode'.trans hnode₁⟩
  · intro i j r₁ r₂ hij hr₁ hr₂
    obtain ⟨r₁', hr₁', hnode₁, -⟩ := hback hr₁
    obtain ⟨r₂', hr₂', hnode₂, -⟩ := hback hr₂
    exact hnode₁ ▸ hnode₂ ▸ ho.increasing i j _ _ hij hr₁' hr₂'
  · intro r' hr'
    obtain ⟨i, hi⟩ := List.getElem?_of_mem hr'
    obtain ⟨r₁, hr₁, -, hbatch₁, -⟩ := hback hi
    exact hbatch₁ ▸ ho.batch_le r₁ (List.mem_of_getElem? hr₁)
  · exact ho.count.trans (congrArg Nat.cast (size_setState _).symm)
  · obtain ⟨l, hl, hlen, hwaiting⟩ := ho.waiting
    refine ⟨l, hholds hl, hlen.trans (size_setState _).ge, fun i r' hr' hbatch' => ?_⟩
    obtain ⟨r₁, hr₁, hnode₁, hbatch₁, hpending, hful⟩ :=
      (hkeeps m.batch hk.ne').back i r' hr' hbatch'
    obtain ⟨hnot, hmem⟩ := hwaiting i r₁ hr₁ hbatch₁
    exact ⟨fun h => hnot (hful h), fun h => hnode₁ ▸ hmem (hpending h)⟩
  · intro frame hframe
    rcases List.mem_cons.mp hframe with rfl | hframe
    · refine ⟨htmp, hk, done, curr :: todo, hholds hwaking.holds, by simp, fun _ => ⟨by simp, ?_⟩,
        ?_, ?_, hwaking.turns_le.trans (size_setState _).ge⟩
      · intro i r' hr' _ hnode'
        obtain ⟨r₁, hr₁, hnode₁, -⟩ := hback hr'
        obtain ⟨rfl, rfl⟩ := ho.promise_unique hr hr₁ (hnode.trans (hnode₁.trans hnode').symm)
        cases hself.symm.trans hr'
        rfl
      · intro i r' hr' hbatch' hst'
        have hi : n ≠ i := by
          rintro rfl
          cases hself.symm.trans hr'
          simp at hst'
        have hr₁ := (hother hi).symm.trans hr'
        refine (List.mem_cons.mp (hwaking.pending i r' hr₁ hbatch' hst')).resolve_left fun heq => ?_
        exact hi (ho.promise_unique hr hr₁ (hnode.trans heq.symm)).1
      · intro i r' hr' hbatch' hst' x hx
        by_cases hi : n = i
        · subst hi
          cases hself.symm.trans hr'
          exact hnode ▸ hsorted x hx
        · exact hwaking.passed i r' ((hother hi).symm.trans hr') hbatch' hst' x
            (List.mem_cons_of_mem _ hx)
    · -- The frames below belong to other batches.
      have hsound := ho.frames frame (hstack ▸ List.mem_cons_of_mem _ hframe)
      cases frame with
      | removeSequenceNode node =>
        obtain ⟨i, r₁, hr₁, hnode₁, hst₁⟩ := hsound
        have hi : n ≠ i := by
          rintro rfl
          cases hr.symm.trans hr₁
          simp [hst] at hst₁
        exact ⟨i, r₁, (hother hi).trans hr₁, hnode₁, hst₁⟩
      | wakeupEach tmp₁ curr₁ woken₁ k₁ turns₁ =>
        obtain ⟨htmp₁, hk₁, done₁, todo₁, hwaking₁⟩ := hsound
        have hnested := ho.nested
        rw [loops, hstack, List.filterMap_cons_some (by rfl)] at hnested
        have hlt : k₁ < k := ((List.pairwise_cons.mp hnested).1 (tmp₁, k₁)
          (List.mem_filterMap.mpr ⟨_, hframe, rfl⟩)).2
        exact ⟨htmp₁, hk₁, done₁, todo₁, hwaking₁.of_holds (hkeeps k₁ hlt.ne)
          (hholds hwaking₁.holds)⟩
  · intro i
    rw [hm', List.mem_append, List.mem_singleton, ho.logged i]
    by_cases hi : n = i
    · subst hi
      simp only [or_true, true_iff]
      exact Option.map_eq_some_iff.mpr ⟨_, hself, rfl⟩
    · rw [← hother hi]
      exact ⟨fun h => h.resolve_right (Ne.symm hi), .inl⟩
  · refine List.pairwise_append.mpr ⟨log_sorted_of_back ho.log_sorted fun i _ r' hr' => ?_,
      List.pairwise_singleton _ _, fun i hi j hj => ?_⟩
    · obtain ⟨r₁, hr₁, -, hbatch₁, -⟩ := hback hr'
      exact ⟨r₁, hr₁, hbatch₁⟩
    · intro r₁ r₂ hr₁ hr₂ hbatches
      obtain rfl := List.mem_singleton.mp hj
      cases hself.symm.trans hr₂
      -- What has been fulfilled before belongs to a node that the loop has passed.
      obtain ⟨r₁', hr₁', hful⟩ := Option.map_eq_some_iff.mp ((ho.logged i).mp hi)
      obtain ⟨r₃, hr₃, -, hbatch₃, -⟩ := hback hr₁
      cases hr₁'.symm.trans hr₃
      have hlt : r₁'.node < r.node := hnode ▸ hwaking.passed i r₁' hr₁'
        (hbatch₃.trans (hbatches.trans hbatch)) hful curr (by simp [rest])
      rcases lt_trichotomy i j with hij | rfl | hij
      · exact hij
      · cases hr.symm.trans hr₁'
        exact absurd hlt (lt_irrefl _)
      · exact absurd hlt (ho.increasing j i r r₁' hij hr hr₁').asymm
  · intro i r' hr' hst'
    obtain ⟨r₁, hr₁, -, hbatch₁, hpending⟩ := hback hr'
    rw [hloops]
    exact hbatch₁ ▸ ho.pending i r₁ hr₁ (hpending hst')

theorem Orderly.turn {tmp curr k turns : ℕ} {below : List PauseFrame}
    (hstack : m.stack = .wakeupEach tmp curr false k turns :: below) :
    Orderly (m.turn tmp curr k turns below) := by
  obtain ⟨htmp, hk, done, todo, hwaking⟩ : m.SoundFrame (.wakeupEach tmp curr false k turns) :=
    ho.frames _ (by simp [hstack])
  by_cases hend : curr = tmp
  · subst hend
    rw [Pauses.turn, if_pos rfl]
    exact (ho.return hstack).1
  obtain ⟨x, todo, rfl⟩ : ∃ x t, todo = x :: t := by
    cases todo with
    | nil => exact absurd (by simpa using hwaking.curr_eq.symm) hend
    | cons x todo => exact ⟨x, todo, rfl⟩
  obtain rfl : x = curr := by simpa using hwaking.curr_eq
  obtain ⟨n, r, hr, hnode, hbatch, hdata⟩ := ho.data_of_holds hwaking.holds (x := x) (by simp)
  rw [Pauses.turn, if_neg hend, if_pos (hwaking.holds.active x (by simp)), hdata]
  simp only [hr, Option.map_some]
  cases hst : r.state with
  | pending => exact ho.fulfill hstack htmp hk hwaking hr hnode hbatch hst
  | fulfilled =>
    exact absurd (hnode ▸ hwaking.passed n r hr hbatch hst x (by simp [rest])) (lt_irrefl _)
  | canceled =>
    refine ho.replace hstack ⟨htmp, hk, _, _, hwaking.advance fun i r' hr' hbatch' hst' => ?_⟩
    refine (List.mem_cons.mp (hwaking.pending i r' hr' hbatch' hst')).resolve_left fun heq => ?_
    obtain ⟨-, rfl⟩ := ho.promise_unique hr hr' (hnode.trans heq.symm)
    simp [hst] at hst'

theorem Orderly.step {a : Step} (hunlinks : m.unlinks a = true) (hstep : m.step a = some m') :
    Orderly m' := by
  have hcall : ∀ {q : Pauses}, (if m.inLoop = true then none else some q) = some m' →
      m.inLoop = false ∧ q = m' := by
    intro q hq
    by_cases hloop : m.inLoop = true
    · simp [hloop] at hq
    · exact ⟨by simpa using hloop, by simpa [hloop] using hq⟩
  cases a with
  | pause =>
    obtain ⟨-, rfl⟩ := hcall hstep
    exact ho.pause
  | cancel ns =>
    obtain ⟨hloop, rfl⟩ := hcall hstep
    exact ho.cancel hloop ns
  | wakeupPaused =>
    obtain ⟨hloop, rfl⟩ := hcall hstep
    exact ho.wakeupPaused hloop
  | abandonPaused =>
    obtain ⟨-, rfl⟩ := hcall hstep
    exact ho.abandonPaused
  | proceed =>
    simp only [Pauses.step, Pauses.proceed] at hstep
    split at hstep
    · cases hstep
    · rename_i node below hstack
      cases hstep
      refine ho.remove hstack fun hactive => ?_
      simpa [unlinks, hstack, hactive] using hunlinks
    · rename_i hstack
      cases hstep
      exact ho.advance hstack
    · rename_i hstack
      cases hstep
      exact ho.turn hstack

end Orderly

theorem reach_orderly (hreach : Reach step (fun m a => m.unlinks a = true) create m) : Orderly m :=
  hreach.invariant orderly_create fun _ _ _ ho hok hstep => ho.step hok hstep

/-! ## Earlier batches -/

/-- Nothing is added to the batches that a `wakeup_paused` or `abandon_paused` has taken. -/
structure Settles (m m' : Pauses) : Prop where
  batch_le : m.batch ≤ m'.batch
  abandoned : ∀ k ∈ m'.abandoned, k ∈ m.abandoned ∨ m.batch ≤ k ∧ k < m'.batch
  promises : ∀ k < m.batch, ∀ (n : ℕ) r', m'.promises[n]? = some r' → r'.batch = k →
    ∃ r, m.promises[n]? = some r ∧ r.batch = k
  size : ∀ k < m.batch, m'.size k = m.size k

theorem Settles.refl (m : Pauses) : Settles m m :=
  ⟨le_rfl, fun _ => .inl, fun _ _ _ r hr hk => ⟨r, hr, hk⟩, fun _ _ => rfl⟩

theorem Settles.trans {q : Pauses} (h : Settles m q) (h' : Settles q m') : Settles m m' := by
  refine ⟨h.batch_le.trans h'.batch_le, fun k hmem => ?_, fun k hk n r hr hbatch => ?_,
    fun k hk => ?_⟩
  · rcases h'.abandoned k hmem with hmem | ⟨hle, hlt⟩
    · exact (h.abandoned k hmem).imp_right fun hk => ⟨hk.1, hk.2.trans_le h'.batch_le⟩
    · exact .inr ⟨h.batch_le.trans hle, hlt⟩
  · obtain ⟨r', hr', hbatch'⟩ := h'.promises k (hk.trans_le h.batch_le) n r hr hbatch
    exact h.promises k hk n r' hr' hbatch'
  · exact (h'.size k (hk.trans_le h.batch_le)).trans (h.size k hk)

theorem Settles.of_promises (hbatch : m.batch ≤ m'.batch) (hpromises : m'.promises = m.promises)
    (habandoned : ∀ k ∈ m'.abandoned, k ∈ m.abandoned ∨ m.batch ≤ k ∧ k < m'.batch) :
    Settles m m' :=
  ⟨hbatch, habandoned, fun _ _ n r hr hk => ⟨r, hpromises ▸ hr, hk⟩, fun k _ => by
    simp only [Pauses.size, hpromises]⟩

theorem settles_setState (n : ℕ) (st : PauseState) : Settles m (m.setState n st) := by
  refine ⟨le_rfl, fun _ => .inl, fun k _ i r' hr' hbatch => ?_, fun k _ => size_setState k⟩
  obtain ⟨r, hr, rfl⟩ := getElem?_setState.mp hr'
  refine ⟨r, hr, ?_⟩
  split at hbatch
  · exact hbatch
  · exact hbatch

theorem settles_pause : Settles m m.pause := by
  refine ⟨le_rfl, fun _ => .inl, fun k hk n r hr hbatch => ?_, fun k hk => ?_⟩
  · rcases getElem?_append_singleton hr with hr | ⟨-, rfl⟩
    · exact ⟨r, hr, hbatch⟩
    · exact absurd hbatch hk.ne'
  · simp [Pauses.size, Pauses.pause, hk.ne']

theorem settles_cancel (m : Pauses) (ns : List ℕ) : Settles m (m.cancel ns) := by
  unfold Pauses.cancel
  induction ns generalizing m with
  | nil => exact .refl m
  | cons n ns ih =>
    refine .trans ?_ (ih (m.reject n))
    unfold reject
    split
    · have h := settles_setState (m := m) n .canceled
      exact ⟨h.batch_le, h.abandoned, h.promises, h.size⟩
    · exact .refl m

theorem settles_turn (m : Pauses) (tmp curr k turns : ℕ) (below : List PauseFrame) :
    Settles m (m.turn tmp curr k turns below) := by
  unfold turn
  have hstack : ∀ q : Pauses, q.batch = m.batch → q.promises = m.promises →
      q.abandoned = m.abandoned → Settles m q := fun q hb hp ha =>
    .of_promises hb.ge hp fun _ hmem => .inl (ha ▸ hmem)
  split
  · exact hstack _ rfl rfl rfl
  split
  · split
    · exact hstack _ rfl rfl rfl
    · rename_i n _
      split
      · have h := settles_setState (m := m) n .fulfilled
        exact ⟨h.batch_le, h.abandoned, h.promises, h.size⟩
      · exact hstack _ rfl rfl rfl
      · exact hstack _ rfl rfl rfl
  · exact hstack _ rfl rfl rfl

theorem settles_step {a : Step} (hstep : m.step a = some m') : Settles m m' := by
  have hcall : ∀ {q : Pauses}, (if m.inLoop = true then none else some q) = some m' → q = m' := by
    intro q hq
    by_cases hloop : m.inLoop = true
    · simp [hloop] at hq
    · simpa [hloop] using hq
  cases a with
  | pause => exact hcall hstep ▸ settles_pause
  | cancel ns => exact hcall hstep ▸ settles_cancel m ns
  | wakeupPaused =>
    obtain rfl := hcall hstep
    unfold wakeupPaused
    split
    · exact .of_promises (Nat.le_succ _) rfl fun _ => .inl
    · exact .of_promises (Nat.le_succ _) rfl fun _ => .inl
  | abandonPaused =>
    obtain rfl := hcall hstep
    refine .of_promises (Nat.le_succ _) rfl fun k hmem => ?_
    rcases List.mem_cons.mp hmem with rfl | hmem
    · exact .inr ⟨le_rfl, Nat.lt_succ_self _⟩
    · exact .inl hmem
  | proceed =>
    simp only [step, proceed] at hstep
    split at hstep
    · cases hstep
    · cases hstep
      exact .of_promises le_rfl rfl fun _ => .inl
    · cases hstep
      exact .of_promises le_rfl rfl fun _ => .inl
    · cases hstep
      exact settles_turn ..

theorem reach_settles {ok : Pauses → Step → Prop} (hreach : Reach step ok m m') : Settles m m' :=
  hreach.invariant (.refl m) fun _ _ _ h _ hstep => h.trans (settles_step hstep)

/-! ## Runs -/

/-- The promises of the batch `k` that have been fulfilled, in this order. -/
def served (m : Pauses) (k : ℕ) : List ℕ :=
  m.log.filter fun n => m.promises[n]?.map Pause.batch = some k

theorem Orderly.mem_served (ho : Orderly m) (k n : ℕ) : n ∈ m.served k ↔
    ∃ r, m.promises[n]? = some r ∧ r.batch = k ∧ r.state = .fulfilled := by
  rw [served, List.mem_filter, ho.logged n, decide_eq_true_iff, Option.map_eq_some_iff,
    Option.map_eq_some_iff]
  constructor
  · rintro ⟨⟨r, hr, hst⟩, r', hr', hbatch⟩
    cases hr.symm.trans hr'
    exact ⟨r, hr, hbatch, hst⟩
  · rintro ⟨r, hr, hbatch, hst⟩
    exact ⟨⟨r, hr, hst⟩, r, hr, hbatch⟩

theorem Orderly.served_sorted (ho : Orderly m) (k : ℕ) : (m.served k).Pairwise (· < ·) := by
  refine List.Pairwise.imp_of_mem ?_ (ho.log_sorted.sublist List.filter_sublist)
  intro i j hi hj hlt
  obtain ⟨r, hr, hbatch, -⟩ := (ho.mem_served k i).mp hi
  obtain ⟨r', hr', hbatch', -⟩ := (ho.mem_served k j).mp hj
  exact hlt r r' hr hr' (hbatch.trans hbatch'.symm)

/-- In every run whose steps unlink only nodes that their neighbours link to, `paused` is a ring,
and no promise waits for the next `wakeup_paused` when `paused_count ()` is zero.  A `wakeup_paused`
called in such a run fulfils promises of its batch only, in the order of the calls of `pause` and
each of them once, and raises no exception; its loop makes at most as many turns as there are
promises in the batch, and when it has returned each of them has been fulfilled, or else
canceled.  The promises paused since then are not fulfilled. -/
theorem pauses_served {m₀ : Pauses}
    (hreach₀ : Reach step (fun m a => m.unlinks a = true) create m₀) :
    (∃ l, Sequences.Ring m₀.sequences paused l) ∧
    (m₀.pausedCount = 0 → ∀ (n : ℕ) r, m₀.promises[n]? = some r → r.state = .pending →
      r.batch ∈ m₀.abandoned ∨ ∃ tmp, (tmp, r.batch) ∈ m₀.loops) ∧
    (∀ (n : ℕ) r, m₀.promises[n]? = some r → r.batch = m₀.batch → r.state ≠ .fulfilled) ∧
    ∀ m₁ m, m₀.step .wakeupPaused = some m₁ →
      Reach step (fun m a => m.unlinks a = true) m₁ m →
      m₀.batch ∉ m.failed ∧
      (m.served m₀.batch).Pairwise (· < ·) ∧
      (∀ n, n ∈ m.served m₀.batch ↔
        ∃ r, m.promises[n]? = some r ∧ r.batch = m₀.batch ∧ r.state = .fulfilled) ∧
      (∀ (n : ℕ) r, m.promises[n]? = some r → r.batch = m₀.batch →
        ∃ r₀, m₀.promises[n]? = some r₀ ∧ r₀.batch = m₀.batch) ∧
      (∀ tmp curr woken turns, .wakeupEach tmp curr woken m₀.batch turns ∈ m.stack →
        turns ≤ m₀.size m₀.batch) ∧
      (m.stack ≠ [] → ∃ m', m.step .proceed = some m') ∧
      ((∀ tmp, (tmp, m₀.batch) ∉ m.loops) → ∀ (n : ℕ) r, m.promises[n]? = some r →
        r.batch = m₀.batch → r.state = .fulfilled ∨ r.state = .canceled) := by
  have ho₀ := reach_orderly hreach₀
  obtain ⟨l, hl, hlen, hwaiting⟩ := ho₀.waiting
  refine ⟨⟨l, hl.ring⟩, fun hcount n r hr hst => ?_, fun n r hr hbatch =>
    (hwaiting n r hr hbatch).1, fun m₁ m hstep hreach => ?_⟩
  · refine (ho₀.pending n r hr hst).resolve_left fun hbatch => ?_
    have hsize := ho₀.count
    obtain rfl : l = [] := List.length_eq_zero_iff.mp (by omega)
    simpa using (hwaiting n r hr hbatch).2 hst
  have hreach₁ : Reach step (fun m a => m.unlinks a = true) create m₁ :=
    .tail .wakeupPaused hreach₀ rfl hstep
  have ho : Orderly m := reach_orderly (hreach₁.trans hreach)
  have hold : ∀ k ∈ m₀.abandoned, k < m₀.batch := by
    intro k hk
    rcases (reach_settles hreach₀).abandoned k hk with hmem | hlt
    · simp [create] at hmem
    · exact hlt.2
  obtain ⟨hbatch₁, habandoned₁, hpromises₁, hsize₁⟩ : m₁.batch = m₀.batch + 1 ∧
      m₁.abandoned = m₀.abandoned ∧ m₁.promises = m₀.promises ∧
      m₁.size m₀.batch = m₀.size m₀.batch := by
    have hm₁ : m₀.wakeupPaused = m₁ := by
      by_cases hloop : m₀.inLoop = true
      · simp [step, hloop] at hstep
      · simpa [step, hloop] using hstep
    rw [← hm₁, wakeupPaused]
    split
    · exact ⟨rfl, rfl, rfl, rfl⟩
    · exact ⟨rfl, rfl, rfl, rfl⟩
  have hsettles := reach_settles hreach
  have hlt : m₀.batch < m₁.batch := by omega
  refine ⟨by simp [ho.not_failed], ho.served_sorted _, ho.mem_served _, fun n r hr hbatch => ?_,
    fun tmp curr woken turns hmem => ?_, fun hne => ?_, fun hreturned n r hr hbatch => ?_⟩
  · exact hpromises₁ ▸ hsettles.promises m₀.batch hlt n r hr hbatch
  · obtain ⟨-, -, done, todo, hwaking⟩ := ho.frames _ hmem
    have hturns := hwaking.turns_le
    have hsize := hsettles.size m₀.batch hlt
    omega
  · cases hstack : m.stack with
    | nil => exact absurd hstack hne
    | cons frame below =>
      cases frame with
      | removeSequenceNode node => exact ⟨_, by simp [step, proceed, hstack]; rfl⟩
      | wakeupEach tmp curr woken k turns =>
        cases woken with
        | true => exact ⟨_, by simp [step, proceed, hstack]; rfl⟩
        | false => exact ⟨_, by simp [step, proceed, hstack]; rfl⟩
  · cases hst : r.state with
    | fulfilled => exact .inl rfl
    | canceled => exact .inr rfl
    | pending =>
      -- what is pending has been abandoned, or its loop has not returned
      rcases ho.pending n r hr hst with heq | habandoned | ⟨tmp, hmem⟩
      · have := hsettles.batch_le
        omega
      · rw [hbatch] at habandoned
        rcases hsettles.abandoned _ habandoned with hmem | ⟨hle, -⟩
        · exact absurd (hold _ (habandoned₁ ▸ hmem)) (lt_irrefl _)
        · omega
      · exact absurd (hbatch ▸ hmem) (hreturned tmp)

/-- A promise is paused and forgotten, the next one is paused, and the first one is canceled. -/
def cancelForgottenSteps : List Step :=
  [.pause, .abandonPaused, .pause, .cancel [0], .proceed]

/-- The node of the forgotten promise unlinks that of the new one: `wakeup_paused` returns at once,
and the promise stays pending. -/
theorem pause_lost : ∃ m₀ m₁ : Pauses, Reach step (fun _ _ => True) create m₀ ∧
    m₀.step .wakeupPaused = some m₁ ∧ m₁.stack = [] ∧
    ∃ (n : ℕ) (r : Pause), m₁.promises[n]? = some r ∧ r.batch = m₀.batch ∧ r.state = .pending := by
  have hrun : (replay step create cancelForgottenSteps).any (fun m₀ =>
      (m₀.step .wakeupPaused).any fun m₁ => m₁.stack = [] &&
        m₁.promises[1]?.any fun r => r.batch = m₀.batch && r.state = .pending) = true := by
    decide
  obtain ⟨m₀, hm₀, hm₁⟩ := (Option.any_eq_true _ _).mp hrun
  obtain ⟨m₁, hstep, hlost⟩ := (Option.any_eq_true _ _).mp hm₁
  rw [Bool.and_eq_true, decide_eq_true_eq] at hlost
  obtain ⟨hstack, hpromise⟩ := hlost
  obtain ⟨r, hr, hlost⟩ := (Option.any_eq_true _ _).mp hpromise
  rw [Bool.and_eq_true, decide_eq_true_eq, decide_eq_true_eq] at hlost
  exact ⟨m₀, m₁, reach_of_replay _ hm₀, hstep, hstack, 1, r, hr, hlost⟩

/-- Three promises are paused, the second is canceled in time, and a callback of the first pauses
a fourth one. -/
def pausesSteps : List Step := [.pause, .pause, .pause, .cancel [1], .proceed]

theorem pauses_served_three : ∃ m₀ m₁ m : Pauses, m₀.step .wakeupPaused = some m₁ ∧
    Reach step (fun m a => m.unlinks a = true) m₁ m ∧ m.stack = [] ∧
    (m.served m₀.batch).Pairwise (· < ·) ∧ m₀.batch ∉ m.failed ∧
    (∀ (n : ℕ) r, m.promises[n]? = some r → r.batch = m₀.batch →
      r.state = .fulfilled ∨ r.state = .canceled) := by
  have hrun : (replay (checked step unlinks) create pausesSteps).any (fun m₀ =>
      (m₀.step .wakeupPaused).any fun m₁ =>
        (replay (checked step unlinks) m₁ [.proceed, .pause, .proceed, .proceed, .proceed,
          .proceed]).any fun m => m.stack = []) = true := by
    decide
  obtain ⟨m₀, hm₀, hrun⟩ := (Option.any_eq_true _ _).mp hrun
  obtain ⟨m₁, hstep, hrun⟩ := (Option.any_eq_true _ _).mp hrun
  obtain ⟨m, hm, hstack⟩ := (Option.any_eq_true _ _).mp hrun
  rw [decide_eq_true_eq] at hstack
  have hreach := reach_of_checked _ hm
  obtain ⟨hfailed, hsorted, -, -, -, -, hend⟩ :=
    (pauses_served (reach_of_checked _ hm₀)).2.2.2 m₁ m hstep hreach
  exact ⟨m₀, m₁, m, hstep, hreach, hstack, hsorted, hfailed,
    hend fun tmp => by simp [loops, hstack]⟩

end Pauses

end Lwt
