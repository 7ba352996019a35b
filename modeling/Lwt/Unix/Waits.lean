import Lwt.Unix.Children

/-!
# No status is lost

The termination of a child is reported to one call of `waitpid` or `wait4`, and to one that has
asked for it.  And a call waits only as long as the system has nothing to tell it: when the handler
of `SIGCHLD` is not running and no signal is on its way, each call that waits is about a child that
is there, and none of the children that it is about has anything to report.
-/

namespace Lwt.Children

open Transition Processes

variable {s s' : Processes} {op : Op} {own : ℕ} {children children' : List Child}
  {calls calls' : List Call} {r : Request} {result : WaitResult} {i k choice : ℕ} {c : Child}

theorem getElem?_concat_ne {α : Type} {l : List α} {a : α} {j : ℕ} (hj : j ≠ l.length) :
    (l ++ [a])[j]? = l[j]? := by
  by_cases hlt : j < l.length
  · exact List.getElem?_append_left hlt
  · rw [List.getElem?_eq_none (by simp; omega), List.getElem?_eq_none (by omega)]

theorem set_eq_modify {α : Type} {l : List α} {a : α} (h : l[k]? = some a) (f : α → α) :
    l.set k (f a) = l.modify k f := by
  refine List.ext_getElem? fun j => ?_
  by_cases hkj : k = j
  · subst hkj
    rw [List.getElem?_set_self (List.getElem?_eq_some_iff.mp h).1, List.getElem?_modify_eq, h]
    rfl
  · rw [List.getElem?_set_ne hkj, List.getElem?_modify_ne _ _ hkj]

/-! ## What the system answers -/

theorem own_answered (s : Processes) (result : WaitResult) : (s.answered result).own = s.own := by
  cases result <;> rfl

theorem calls_answered (s : Processes) (result : WaitResult) :
    (s.answered result).calls = s.calls := by
  cases result <;> rfl

/-- A child that the call is about is there, and none of them has anything to report. -/
structure Quiet (own : ℕ) (children : List Child) (r : Request) : Prop where
  child : ∃ (k : ℕ) (c : Child), children[k]? = some c ∧ c.present = true ∧ r.concerns own c = true
  silent : ∀ (k : ℕ) (c : Child), children[k]? = some c → r.concerns own c = true →
    c.report r.untraced = none

theorem quiet_of_running (h : s.doWait4 r choice = some .running) : Quiet s.own s.children r := by
  unfold doWait4 at h
  split at h
  · rename_i hpresent
    split at h
    · split at h
      · split at h
        · obtain ⟨_, -, hrunning⟩ := Option.map_eq_some_iff.mp h
          cases hrunning
        · cases h
      · cases h
    · rename_i hsilent
      obtain ⟨c, hmem, hc⟩ := List.any_eq_true.mp hpresent
      obtain ⟨k, hk⟩ := List.mem_iff_getElem?.mp hmem
      refine ⟨⟨k, c, hk, (Bool.and_eq_true _ _).mp hc⟩, fun k c hk hconcerns => ?_⟩
      by_contra hreport
      refine hsilent (List.any_eq_true.mpr ⟨c, List.mem_of_getElem? hk, ?_⟩)
      rw [hconcerns, Bool.true_and, Option.isSome_iff_ne_none]
      exact hreport
  · cases h

theorem reported_of_doWait4 {status : ProcessStatus}
    (h : s.doWait4 r choice = some (.reported k status)) :
    ∃ c, s.children[k]? = some c ∧ r.concerns s.own c = true ∧
      c.report r.untraced = some status := by
  unfold doWait4 at h
  split at h
  · split at h
    · split at h
      · rename_i c hc
        split at h
        · rename_i hconcerns
          obtain ⟨status', hreport, heq⟩ := Option.map_eq_some_iff.mp h
          cases heq
          exact ⟨c, hc, hconcerns, hreport⟩
        · cases h
      · cases h
    · cases h
  · cases h

/-- A child that is reported, or of which the state changes, keeps its number and its group. -/
theorem concerns_congr (r : Request) (own : ℕ) {c c' : Child} (hpid : c'.pid = c.pid)
    (hgroup : c'.group = c.group) : r.concerns own c' = r.concerns own c := by
  unfold Request.concerns
  rw [hpid, hgroup]

theorem concerns_reported (r : Request) (own : ℕ) (c : Child) :
    r.concerns own c.reported = r.concerns own c := by
  refine concerns_congr r own ?_ ?_
  · unfold Child.reported
    split <;> rfl
  · unfold Child.reported
    split <;> rfl

/-- The children that a call is about change, but not what there is to tell it. -/
theorem Quiet.modify {f : Child → Child} (h : Quiet own children r)
    (hconcerns : ∀ c, children[k]? = some c → r.concerns own (f c) = r.concerns own c)
    (hkeeps : ∀ c, children[k]? = some c → r.concerns own c = true → c.report r.untraced = none →
      (f c).report r.untraced = none ∧ (c.present = true → (f c).present = true)) :
    Quiet own (children.modify k f) r := by
  obtain ⟨j, c, hc, hpresent, hc'⟩ := h.child
  refine ⟨?_, fun j c hc hc' => ?_⟩
  · by_cases hkj : k = j
    · subst hkj
      refine ⟨k, f c, ?_, (hkeeps c hc hc' (h.silent k c hc hc')).2 hpresent, ?_⟩
      · rw [List.getElem?_modify_eq, hc]
        rfl
      · rw [hconcerns c hc, hc']
    · refine ⟨j, c, ?_, hpresent, hc'⟩
      rw [List.getElem?_modify_ne _ _ hkj, hc]
  · by_cases hkj : k = j
    · subst hkj
      rw [List.getElem?_modify_eq] at hc
      obtain ⟨c₀, hc₀, rfl⟩ := Option.map_eq_some_iff.mp hc
      rw [hconcerns c₀ hc₀] at hc'
      exact (hkeeps c₀ hc₀ hc' (h.silent k c₀ hc₀ hc')).1
    · rw [List.getElem?_modify_ne _ _ hkj] at hc
      exact h.silent j c hc hc'

theorem Quiet.answered {r' : Request} (h : Quiet s.own s.children r)
    (hresult : s.doWait4 r' choice = some result) :
    Quiet (s.answered result).own (s.answered result).children r := by
  cases result with
  | running => exact h
  | echild => exact h
  | reported k status =>
    obtain ⟨c, hc, -, hreport⟩ := reported_of_doWait4 hresult
    refine h.modify (fun c _ => concerns_reported r s.own c) fun c' hc' hconcerns hsilent => ?_
    cases hc.symm.trans hc'
    unfold Child.report at hreport hsilent
    unfold Child.reported
    cases hstate : c.state with
    | running =>
      simp only
      refine ⟨?_, fun _ => by simp [Child.present]⟩
      unfold Child.report
      simp
    | terminated termination => simp [hstate] at hsilent
    | reaped termination => simp [hstate] at hreport
    | taken => simp [hstate] at hreport

/-! ## To whom a termination is reported -/

/-- The call at place `i` has returned the status of the child `k`. -/
def Reports (calls : List Call) (i : ℕ) (r : Request) (k : ℕ) (status : ProcessStatus) : Prop :=
  ∃ call, calls[i]? = some call ∧ call.request = r ∧ call.state = .returned (.reported k status)

/-- Each termination that has been reported has been reported to one call, that is about the
child. -/
structure Told (own : ℕ) (children : List Child) (calls : List Call) : Prop where
  found : ∀ (k : ℕ) c t, children[k]? = some c → c.state = .reaped t →
    ∃ i r, Reports calls i r k (.terminated t)
  once : ∀ i j r r' k t t', Reports calls i r k (.terminated t) →
    Reports calls j r' k (.terminated t') → i = j
  right : ∀ i r k status, Reports calls i r k status → ∃ c, children[k]? = some c ∧
    r.concerns own c = true ∧ ∀ t, status = .terminated t → c.state = .reaped t

namespace Told

/-- Nothing is reported. -/
theorem congr (h : Told own children calls)
    (hcalls : ∀ i r k status, Reports calls' i r k status ↔ Reports calls i r k status)
    (hbefore : ∀ (k : ℕ) c, children[k]? = some c → ∃ c', children'[k]? = some c' ∧
      c'.pid = c.pid ∧ c'.group = c.group ∧ ∀ t, c.state = .reaped t → c'.state = .reaped t)
    (hafter : ∀ (k : ℕ) c' t, children'[k]? = some c' → c'.state = .reaped t →
      ∃ c, children[k]? = some c ∧ c.state = .reaped t) : Told own children' calls' := by
  refine ⟨fun k c' t hc' hreaped => ?_, fun i j r r' k t t' hi hj => ?_,
    fun i r k status hi => ?_⟩
  · obtain ⟨c, hc, hreaped'⟩ := hafter k c' t hc' hreaped
    obtain ⟨i, r, hi⟩ := h.found k c t hc hreaped'
    exact ⟨i, r, (hcalls ..).mpr hi⟩
  · exact h.once i j r r' k t t' ((hcalls ..).mp hi) ((hcalls ..).mp hj)
  · obtain ⟨c, hc, hconcerns, hreaped⟩ := h.right i r k status ((hcalls ..).mp hi)
    obtain ⟨c', hc', hpid, hgroup, hkeeps⟩ := hbefore k c hc
    refine ⟨c', hc', ?_, fun t ht => hkeeps t (hreaped t ht)⟩
    rw [concerns_congr r own hpid hgroup, hconcerns]

theorem setChild (h : Told own children calls) (hc : children[k]? = some c) {c' : Child}
    (hpid : c'.pid = c.pid) (hgroup : c'.group = c.group) (hnot : ∀ t, c.state ≠ .reaped t)
    (hnot' : ∀ t, c'.state ≠ .reaped t) : Told own (children.set k c') calls := by
  have hlt := (List.getElem?_eq_some_iff.mp hc).1
  refine h.congr (fun _ _ _ _ => Iff.rfl) (fun j d hd => ?_) fun j d t hd hreaped => ?_
  · by_cases hkj : k = j
    · subst hkj
      cases hc.symm.trans hd
      exact ⟨c', List.getElem?_set_self hlt, hpid, hgroup, fun t ht => absurd ht (hnot t)⟩
    · exact ⟨d, by rw [List.getElem?_set_ne hkj, hd], rfl, rfl, fun _ => id⟩
  · by_cases hkj : k = j
    · subst hkj
      rw [List.getElem?_set_self hlt] at hd
      cases hd
      exact absurd hreaped (hnot' t)
    · rw [List.getElem?_set_ne hkj] at hd
      exact ⟨d, hd, hreaped⟩

theorem answered {call : Call} (h : Told s.own s.children s.calls)
    (hresult : s.doWait4 r choice = some result) (hcall : calls'[i]? = some call)
    (hrequest : call.request = r) (hstate : call.state = .returned result)
    (hsame : ∀ j, j ≠ i → calls'[j]? = s.calls[j]?)
    (hbefore : ∀ call, s.calls[i]? = some call → call.state = .pending) :
    Told s.own (s.answered result).children calls' := by
  have hold : ∀ j r' k status, j ≠ i →
      (Reports calls' j r' k status ↔ Reports s.calls j r' k status) := by
    intro j r' k status hj
    unfold Reports
    rw [hsame j hj]
  have hnone : ∀ r' k status, ¬ Reports s.calls i r' k status := by
    rintro r' k status ⟨call', hcall', -, hreturned⟩
    cases (hbefore call' hcall').symm.trans hreturned
  have hnew : ∀ r' k status, Reports calls' i r' k status → r' = r ∧
      result = .reported k status := by
    rintro r' k status ⟨call', hcall', rfl, hreturned⟩
    cases hcall.symm.trans hcall'
    exact ⟨hrequest, CallState.returned.inj (hstate.symm.trans hreturned)⟩
  have hsilent : (∀ k status, result ≠ .reported k status) →
      Told s.own s.children calls' := by
    intro hne
    refine h.congr (fun j r' k status => ?_) (fun k c hc => ⟨c, hc, rfl, rfl, fun _ => id⟩)
      fun k c t hc hreaped => ⟨c, hc, hreaped⟩
    by_cases hj : j = i
    · subst hj
      exact ⟨fun hr => absurd (hnew r' k status hr).2 (hne k status),
        fun hr => absurd hr (hnone r' k status)⟩
    · exact hold j r' k status hj
  cases result with
  | running => exact hsilent nofun
  | echild => exact hsilent nofun
  | reported k₀ status₀ =>
    obtain ⟨c₀, hc₀, hconcerns, hreport⟩ := reported_of_doWait4 hresult
    have hget : (s.children.modify k₀ Child.reported)[k₀]? = some c₀.reported := by
      rw [List.getElem?_modify_eq, hc₀]
      rfl
    have hnotreaped : ∀ t, c₀.state ≠ .reaped t := by
      intro t ht
      rw [Child.report, ht] at hreport
      cases hreport
    have hreaped : ∀ t, c₀.reported.state = .reaped t ↔ status₀ = .terminated t := by
      intro t
      unfold Child.report at hreport
      unfold Child.reported
      cases hstate₀ : c₀.state with
      | running =>
        rw [hstate₀] at hreport
        simp only at hreport ⊢
        split at hreport
        · obtain ⟨signal, -, rfl⟩ := Option.map_eq_some_iff.mp hreport
          exact ⟨nofun, nofun⟩
        · cases hreport
      | terminated termination =>
        rw [hstate₀] at hreport
        cases hreport
        simp
      | reaped termination => exact absurd hstate₀ (hnotreaped _)
      | taken =>
        rw [hstate₀] at hreport
        cases hreport
    -- Before the call nobody had been told that the child had terminated.
    have hfirst : ∀ j r' t, ¬ Reports s.calls j r' k₀ (.terminated t) := by
      intro j r' t hr
      obtain ⟨c, hc, -, hreaped'⟩ := h.right j r' k₀ _ hr
      cases hc₀.symm.trans hc
      exact hnotreaped t (hreaped' t rfl)
    have hself : Reports calls' i r k₀ status₀ := ⟨call, hcall, hrequest, hstate⟩
    have hcases : ∀ j r' k status, Reports calls' j r' k status →
        j = i ∧ r' = r ∧ k = k₀ ∧ status = status₀ ∨ j ≠ i ∧ Reports s.calls j r' k status := by
      intro j r' k status hr
      by_cases hj : j = i
      · subst hj
        obtain ⟨hr', heq⟩ := hnew r' k status hr
        obtain ⟨hk, hstatus⟩ := WaitResult.reported.inj heq
        exact .inl ⟨rfl, hr', hk.symm, hstatus.symm⟩
      · exact .inr ⟨hj, (hold j r' k status hj).mp hr⟩
    refine ⟨fun k c t hc hreaped' => ?_, fun j j' r' r'' k t t' hj hj' => ?_,
      fun j r' k status hj => ?_⟩
    · change (List.modify _ _ _)[k]? = _ at hc
      by_cases hk : k₀ = k
      · subst hk
        cases hget.symm.trans hc
        exact ⟨i, r, (hreaped t).mp hreaped' ▸ hself⟩
      · rw [List.getElem?_modify_ne _ _ hk] at hc
        obtain ⟨j, r', hj⟩ := h.found k c t hc hreaped'
        have hji : j ≠ i := by
          rintro rfl
          exact hnone _ _ _ hj
        exact ⟨j, r', (hold j r' k _ hji).mpr hj⟩
    · rcases hcases j r' k _ hj with ⟨rfl, -, rfl, -⟩ | ⟨-, hj⟩
      · rcases hcases j' r'' _ _ hj' with ⟨rfl, -⟩ | ⟨-, hj'⟩
        · rfl
        · exact absurd hj' (hfirst j' r'' t')
      · rcases hcases j' r'' _ _ hj' with ⟨rfl, -, rfl, -⟩ | ⟨-, hj'⟩
        · exact absurd hj (hfirst j r' t)
        · exact h.once j j' r' r'' k t t' hj hj'
    · change ∃ c, (List.modify _ _ _)[k]? = some c ∧ _
      rcases hcases j r' k status hj with ⟨rfl, rfl, rfl, rfl⟩ | ⟨-, hj⟩
      · exact ⟨_, hget, by rw [concerns_reported, hconcerns], fun t ht => (hreaped t).mpr ht⟩
      · obtain ⟨c, hc, hconcerns', hreaped'⟩ := h.right j r' k status hj
        by_cases hk : k₀ = k
        · subst hk
          cases hc₀.symm.trans hc
          refine ⟨_, hget, by rw [concerns_reported, hconcerns'], fun t ht => ?_⟩
          exact absurd (hreaped' t ht) (hnotreaped t)
        · exact ⟨c, by rw [List.getElem?_modify_ne _ _ hk, hc], hconcerns', hreaped'⟩

theorem step (h : Told s.own s.children s.calls) (hstep : step s op = some s')
    (hwaits : ∀ x i call, s.waitChildren.active x = true → s.waitChildren.data x = some i →
      s.calls[i]? = some call → call.state = .pending) : Told s'.own s'.children s'.calls := by
  cases step_cases hstep with
  | returned nohang r choice result hresult =>
    -- the new call is the one that has the answer
    have hcalls : (s.answered result).calls = s.calls := calls_answered s result
    have hget : (s.calls ++ [⟨r, 0, .returned result⟩])[s.calls.length]? =
        some ⟨r, 0, .returned result⟩ := List.getElem?_concat_length
    have hadded := h.answered hresult hget rfl rfl (fun j hj => getElem?_concat_ne hj)
      fun call hcall => by rw [List.getElem?_eq_none (Nat.le_refl _)] at hcall; cases hcall
    change Told (s.answered result).own _ ((s.answered result).calls ++ _)
    rw [own_answered, hcalls]
    exact hadded
  | waits r choice =>
    refine h.congr (fun j r' k status => ?_) (fun k c hc => ⟨c, hc, rfl, rfl, fun _ => id⟩)
      fun k c t hc hreaped => ⟨c, hc, hreaped⟩
    change (∃ call, (s.calls ++ _)[j]? = some call ∧ _) ↔ _
    by_cases hj : j = s.calls.length
    · subst hj
      rw [List.getElem?_concat_length]
      refine ⟨?_, ?_⟩
      · rintro ⟨call, hcall, -, hstate⟩
        cases Option.some.inj hcall
        cases hstate
      · rintro ⟨call, hcall, -⟩
        rw [List.getElem?_eq_none (Nat.le_refl _)] at hcall
        cases hcall
    · rw [getElem?_concat_ne hj]
      rfl
  | canceled i call hcall hpending =>
    refine h.congr (fun j r' k status => ?_) (fun k c hc => ⟨c, hc, rfl, rfl, fun _ => id⟩)
      fun k c t hc hreaped => ⟨c, hc, hreaped⟩
    change (∃ call, (s.calls.modify i _)[j]? = some call ∧ _) ↔ _
    by_cases hij : i = j
    · subst hij
      rw [List.getElem?_modify_eq, hcall]
      refine ⟨?_, ?_⟩
      · rintro ⟨call', hcall', -, hstate⟩
        cases Option.some.inj hcall'
        cases hstate
      · rintro ⟨call', hcall', -, hstate⟩
        cases hcall.symm.trans hcall'
        cases hpending.symm.trans hstate
    · rw [List.getElem?_modify_ne _ _ hij]
      rfl
  | resolved => exact h
  | fork pid group =>
    refine h.congr (fun _ _ _ _ => Iff.rfl) (fun k c hc => ⟨c, ?_, rfl, rfl, fun _ => id⟩)
      fun k c t hc hreaped => ?_
    · exact (List.getElem?_append_left (List.getElem?_eq_some_iff.mp hc).1).trans hc
    · by_cases hk : k = s.children.length
      · subst hk
        rw [List.getElem?_concat_length] at hc
        cases Option.some.inj hc
        cases hreaped
      · exact ⟨c, (getElem?_concat_ne hk).symm.trans hc, hreaped⟩
  | terminate k termination c hc hrunning =>
    exact h.setChild hc rfl rfl (fun t ht => nomatch hrunning.symm.trans ht) nofun
  | stop k signal c hc hrunning =>
    have hnot : ∀ t, c.state ≠ .reaped t := fun t ht => nomatch hrunning.symm.trans ht
    exact h.setChild hc rfl rfl hnot hnot
  | resume k c hc hrunning =>
    have hnot : ∀ t, c.state ≠ .reaped t := fun t ht => nomatch hrunning.symm.trans ht
    exact h.setChild hc rfl rfl hnot hnot
  | take k termination c hc hterminated =>
    exact h.setChild hc rfl rfl (fun t ht => nomatch hterminated.symm.trans ht) nofun
  | deliver => exact h
  | ended => exact h
  | passed => exact h
  | stillRunning => exact h
  | handled choice curr i call result hhandler hnext hactive hdata hcall hresult =>
    -- the call of the node has the answer
    have hpending := hwaits _ i call hactive hdata hcall
    have hcalls : (s.answered result).calls = s.calls := calls_answered s result
    have hget : (s.calls.modify i fun call => { call with state := .returned result })[i]? =
        some { call with state := .returned result } := by
      rw [List.getElem?_modify_eq, hcall]
      rfl
    have htold := h.answered hresult hget rfl rfl
      (fun j hj => List.getElem?_modify_ne _ _ (Ne.symm hj)) fun call' hcall' => by
        rw [← Option.some.inj (hcall.symm.trans hcall'), hpending]
    change Told (s.answered result).own _ ((s.answered result).calls.modify i _)
    rw [own_answered, hcalls]
    exact htold
  | leave => exact h

end Told

/-! ## The calls that wait -/

/-- The handler comes to the nodes `rest`. -/
def HandlerAt (links : Sequences ℕ) (rest : List ℕ) : Handler → Prop
  | .idle => rest = []
  | .handling curr user => curr < links.length ∧ (user = true → curr ≠ 0) ∧
      links.Leads 0 rest curr

/-- The nodes of `wait_children` are those of the calls that wait, and the handler has still to come
to the nodes `rest`.  A call waits because there is nothing to tell it, or the handler is going to
come to it. -/
structure Waiting (s : Processes) (left rest : List ℕ) : Prop where
  ring : s.waitChildren.Ring 0 (left ++ rest)
  active : ∀ x, s.waitChildren.active x = true ↔ x ∈ left ++ rest
  call : ∀ x ∈ left ++ rest, ∃ i call, s.waitChildren.data x = some i ∧ s.calls[i]? = some call ∧
    call.state = .pending ∧ call.node = x
  node : ∀ (i : ℕ) call, s.calls[i]? = some call → call.state = .pending →
    call.node ∈ left ++ rest ∧ s.waitChildren.data call.node = some i
  due : ∀ (i : ℕ) call, s.calls[i]? = some call → call.state = .pending →
    Quiet s.own s.children call.request ∨ s.signaled = true ∨ call.node ∈ rest
  handler : HandlerAt s.waitChildren rest s.handler

namespace Waiting

variable {left rest : List ℕ}

/-- Only what there is to tell the calls, and the handler, change. -/
theorem congr {left' rest' : List ℕ} (h : Waiting s left rest)
    (hlist : left' ++ rest' = left ++ rest) (hlinks : s'.waitChildren = s.waitChildren)
    (hcalls : s'.calls = s.calls)
    (hdue : ∀ (i : ℕ) call, s.calls[i]? = some call → call.state = .pending →
      Quiet s'.own s'.children call.request ∨ s'.signaled = true ∨ call.node ∈ rest')
    (hhandler : HandlerAt s.waitChildren rest' s'.handler) : Waiting s' left' rest' := by
  refine ⟨?_, ?_, ?_, ?_, ?_, ?_⟩
  · rw [hlinks, hlist]
    exact h.ring
  · rw [hlinks, hlist]
    exact h.active
  · rw [hlinks, hlist, hcalls]
    exact h.call
  · rw [hlinks, hlist, hcalls]
    exact h.node
  · rw [hcalls]
    exact hdue
  · rw [hlinks]
    exact hhandler

theorem signaled (h : Waiting s left rest) (children : List Child) :
    Waiting { s with children := children, signaled := true } left rest :=
  h.congr rfl rfl rfl (fun _ _ _ _ => .inr (.inl rfl)) h.handler

theorem quietly (h : Waiting s left rest) (hlinks : s'.waitChildren = s.waitChildren)
    (hcalls : s'.calls = s.calls) (hsignaled : s'.signaled = s.signaled)
    (hhandler : s'.handler = s.handler)
    (hquiet : ∀ r, Quiet s.own s.children r → Quiet s'.own s'.children r) :
    Waiting s' left rest := by
  refine h.congr rfl hlinks hcalls (fun i call hcall hpending => ?_) (hhandler ▸ h.handler)
  rw [hsignaled]
  exact (h.due i call hcall hpending).imp_left (hquiet _)

theorem answered (h : Waiting s left rest) (hresult : s.doWait4 r choice = some result) :
    Waiting (s.answered result) left rest := by
  have hsame : (s.answered result).waitChildren = s.waitChildren ∧
      (s.answered result).signaled = s.signaled ∧ (s.answered result).handler = s.handler := by
    cases result <;> exact ⟨rfl, rfl, rfl⟩
  exact h.quietly hsame.1 (calls_answered s result) hsame.2.1 hsame.2.2 fun r hq =>
    hq.answered hresult

theorem addReturned (h : Waiting s left rest) (call : Call) (hreturned : call.state ≠ .pending) :
    Waiting (s.addCall call) left rest := by
  have hold : ∀ (j : ℕ) call', (s.calls ++ [call])[j]? = some call' → call'.state = .pending →
      s.calls[j]? = some call' := by
    intro j call' hcall' hpending
    by_cases hj : j = s.calls.length
    · subst hj
      rw [List.getElem?_concat_length] at hcall'
      cases hcall'
      exact absurd hpending hreturned
    · exact (getElem?_concat_ne hj).symm.trans hcall'
  refine ⟨h.ring, h.active, fun x hx => ?_, fun j call' hcall' hpending => ?_,
    fun j call' hcall' hpending => ?_, h.handler⟩
  · obtain ⟨i, call', hdata, hcall', hrest⟩ := h.call x hx
    have hlt := (List.getElem?_eq_some_iff.mp hcall').1
    exact ⟨i, call', hdata, (List.getElem?_append_left hlt).trans hcall', hrest⟩
  · exact h.node j call' (hold j call' hcall' hpending) hpending
  · exact h.due j call' (hold j call' hcall' hpending) hpending

theorem addWaiting (h : Waiting s left rest) (hcode : s.userCode = true)
    (hquiet : Quiet s.own s.children r) :
    Waiting ({ s with waitChildren := s.waitChildren.addL s.calls.length 0 }.addCall
      ⟨r, s.waitChildren.length, .pending⟩) (s.waitChildren.length :: left) rest := by
  have hwithin : ∀ x ∈ left ++ rest, x < s.waitChildren.length := fun x hx =>
    h.ring.within x (List.mem_cons_of_mem _ hx)
  have hnew : s.waitChildren.length ∉ left ++ rest := fun hmem => Nat.lt_irrefl _ (hwithin _ hmem)
  refine ⟨h.ring.addL, fun x => ?_, fun x hx => ?_, fun j call hcall hpending => ?_,
    fun j call hcall hpending => ?_, ?_⟩
  -- the new node is the only one that becomes active
  · change (s.waitChildren.addL _ 0).active x = true ↔ _
    rw [List.cons_append, List.mem_cons]
    rcases Nat.lt_trichotomy x s.waitChildren.length with hlt | rfl | hgt
    · rw [Sequences.active_addL hlt, h.active x, or_iff_right (Nat.ne_of_lt hlt)]
    · rw [Sequences.active_addL_self]
      exact ⟨fun _ => .inl rfl, fun _ => rfl⟩
    · have hout : (s.waitChildren.addL s.calls.length 0).active x = false := by
        unfold Sequences.active
        rw [List.getElem?_eq_none (by rw [Sequences.length_addL]; omega)]
        rfl
      rw [hout]
      refine ⟨nofun, ?_⟩
      rintro (rfl | hx)
      · exact absurd hgt (Nat.lt_irrefl _)
      · exact absurd (hwithin x hx) (Nat.not_lt_of_lt hgt)
  · change ∃ i call, (s.waitChildren.addL _ 0).data x = some i ∧ (s.calls ++ _)[i]? = some call ∧ _
    rcases List.mem_cons.mp hx with rfl | hx
    · exact ⟨_, _, Sequences.data_addL_self .., List.getElem?_concat_length, rfl, rfl⟩
    · obtain ⟨i, call, hdata, hcall, hrest⟩ := h.call x hx
      have hlt := (List.getElem?_eq_some_iff.mp hcall).1
      exact ⟨i, call, (Sequences.data_addL_lt (hwithin x hx)).trans hdata,
        (List.getElem?_append_left hlt).trans hcall, hrest⟩
  · change (s.calls ++ _)[j]? = _ at hcall
    change _ ∧ (s.waitChildren.addL _ 0).data call.node = some j
    by_cases hj : j = s.calls.length
    · subst hj
      rw [List.getElem?_concat_length] at hcall
      cases Option.some.inj hcall
      exact ⟨List.mem_cons_self .., Sequences.data_addL_self ..⟩
    · rw [getElem?_concat_ne hj] at hcall
      obtain ⟨hmem, hdata⟩ := h.node j call hcall hpending
      exact ⟨List.mem_cons_of_mem _ hmem,
        (Sequences.data_addL_lt (hwithin _ hmem)).trans hdata⟩
  · change (s.calls ++ _)[j]? = _ at hcall
    by_cases hj : j = s.calls.length
    · subst hj
      rw [List.getElem?_concat_length] at hcall
      cases Option.some.inj hcall
      -- the new call may wait: there is nothing to report to it
      exact .inl hquiet
    · rw [getElem?_concat_ne hj] at hcall
      exact h.due j call hcall hpending
  -- the walk in progress has passed the place where the node is added
  · have hhandler := h.handler
    change HandlerAt (s.waitChildren.addL _ 0) rest s.handler
    unfold userCode at hcode
    cases hs : s.handler with
    | idle =>
      rw [hs] at hhandler
      exact hhandler
    | handling curr user =>
      rw [hs] at hhandler hcode
      obtain ⟨hlt, hne, hleads⟩ := hhandler
      refine ⟨?_, hne, hleads.addL hlt (hne hcode)⟩
      rw [Sequences.length_addL]
      exact Nat.lt_succ_of_lt hlt

theorem erase_append (h : Waiting s left rest) (x : ℕ) :
    (left ++ rest).erase x = left.erase x ++ rest.erase x := by
  have hnodup := (List.nodup_cons.mp h.ring.nodup).2
  by_cases hleft : x ∈ left
  · have hrest : x ∉ rest := fun hmem => (List.disjoint_of_nodup_append hnodup) hleft hmem
    rw [List.erase_append_left _ hleft, List.erase_of_not_mem hrest]
  · rw [List.erase_append_right _ hleft, List.erase_of_not_mem hleft]

theorem remove {call : Call} (h : Waiting s left rest) (hcall : s.calls[i]? = some call)
    (hpending : call.state = .pending) (state : CallState) (hstate : state ≠ .pending)
    (handler : Handler)
    (hhandler : HandlerAt (s.waitChildren.remove call.node) (rest.erase call.node) handler) :
    Waiting { { s with waitChildren := s.waitChildren.remove call.node }.setCall i state with
      handler := handler } (left.erase call.node) (rest.erase call.node) := by
  obtain ⟨hmem, hdata⟩ := h.node i call hcall hpending
  have hnodup := (List.nodup_cons.mp h.ring.nodup).2
  have herase : ∀ x, x ∈ left.erase call.node ++ rest.erase call.node ↔
      x ≠ call.node ∧ x ∈ left ++ rest := by
    intro x
    rw [← h.erase_append]
    exact hnodup.mem_erase_iff
  -- another call that is pending was so before
  have hother : ∀ (j : ℕ) call', (s.calls.modify i fun call => { call with state := state })[j]? =
      some call' → call'.state = .pending → s.calls[j]? = some call' ∧ j ≠ i := by
    intro j call' hcall' hpending'
    by_cases hij : i = j
    · subst hij
      rw [List.getElem?_modify_eq, hcall] at hcall'
      cases hcall'
      exact absurd hpending' hstate
    · rw [List.getElem?_modify_ne _ _ hij] at hcall'
      exact ⟨hcall', Ne.symm hij⟩
  -- two pending calls have two nodes
  have hne : ∀ (j : ℕ) call', s.calls[j]? = some call' → call'.state = .pending → j ≠ i →
      call'.node ≠ call.node := by
    intro j call' hcall' hpending' hj heq
    have hdata' := (h.node j call' hcall' hpending').2
    rw [heq] at hdata'
    exact hj (Option.some.inj (hdata'.symm.trans hdata))
  refine ⟨?_, fun x => ?_, fun x hmem' => ?_, fun j call' hcall' hpending' => ?_,
    fun j call' hcall' hpending' => ?_, hhandler⟩
  · rw [← h.erase_append]
    exact h.ring.remove_erase hmem ((h.active _).mpr hmem)
  · change (s.waitChildren.remove call.node).active x = true ↔ _
    rw [Sequences.active_remove, Bool.and_eq_true, h.active, herase, and_comm]
    simp
  · obtain ⟨hxne, hx⟩ := (herase x).mp hmem'
    obtain ⟨j, call', hdata', hcall', hpending', hnode⟩ := h.call x hx
    have hij : i ≠ j := by
      rintro rfl
      cases hcall.symm.trans hcall'
      exact hxne hnode.symm
    refine ⟨j, call', (Sequences.data_remove ..).trans hdata', ?_, hpending', hnode⟩
    exact (List.getElem?_modify_ne _ _ hij).trans hcall'
  · obtain ⟨hcall', hj⟩ := hother j call' hcall' hpending'
    obtain ⟨hmem', hdata'⟩ := h.node j call' hcall' hpending'
    exact ⟨(herase _).mpr ⟨hne j call' hcall' hpending' hj, hmem'⟩,
      (Sequences.data_remove ..).trans hdata'⟩
  · obtain ⟨hcall', hj⟩ := hother j call' hcall' hpending'
    refine (h.due j call' hcall' hpending').imp_right (Or.imp_right fun hrest => ?_)
    exact (List.mem_erase_of_ne (hne j call' hcall' hpending' hj)).mpr hrest

theorem at_node {curr : ℕ} {user : Bool} (h : Waiting s left rest)
    (hhandler : s.handler = .handling curr user) (hnext : s.waitChildren.next curr ≠ 0)
    (hactive : s.waitChildren.active (s.waitChildren.next curr) = true) :
    ∃ rest', rest = s.waitChildren.next curr :: rest' := by
  have hleads := h.handler
  rw [hhandler] at hleads
  rcases hleads.2.2.next hnext with ⟨hinactive, -⟩ | hrest
  · rw [hactive] at hinactive
    cases hinactive
  · exact hrest

theorem step (h : Waiting s left rest) (hstep : step s op = some s') :
    ∃ left' rest', Waiting s' left' rest' := by
  cases step_cases hstep with
  | returned nohang r choice result hresult =>
    exact ⟨left, rest, (h.answered hresult).addReturned _ nofun⟩
  | waits r choice hresult hcode =>
    exact ⟨_, _, h.addWaiting hcode (quiet_of_running hresult)⟩
  | canceled i call hcall hpending hcode =>
    refine ⟨_, _, h.remove hcall hpending .canceled nofun s.handler ?_⟩
    obtain ⟨hmem, hdata⟩ := h.node i call hcall hpending
    have hnode := (h.active _).mpr hmem
    have hhandler := h.handler
    unfold userCode at hcode
    cases hs : s.handler with
    | idle =>
      rw [hs] at hhandler
      obtain rfl : rest = [] := hhandler
      rfl
    | handling curr user =>
      -- the cancel comes from code that the handler runs between two nodes
      rw [hs] at hhandler hcode
      obtain ⟨hlt, hne, hleads⟩ := hhandler
      refine ⟨?_, hne, hleads.remove h.ring hmem hnode (by simp [hdata]) hlt (hne hcode)⟩
      rw [Sequences.length_remove]
      exact hlt
  | resolved => exact ⟨left, rest, h⟩
  | fork pid group =>
    refine ⟨left, rest, h.quietly rfl rfl rfl rfl fun r hq => ?_⟩
    obtain ⟨k, c, hc, hpresent, hconcerns⟩ := hq.child
    refine ⟨⟨k, c, ?_, hpresent, hconcerns⟩, fun j c hc hconcerns => ?_⟩
    · exact (List.getElem?_append_left (List.getElem?_eq_some_iff.mp hc).1).trans hc
    · by_cases hj : j = s.children.length
      · subst hj
        rw [List.getElem?_concat_length] at hc
        -- the new child is running and has nothing to report
        cases hc
        unfold Child.report
        simp
      · exact hq.silent j c ((getElem?_concat_ne hj).symm.trans hc) hconcerns
  | terminate k termination c => exact ⟨left, rest, h.signaled _⟩
  | stop k signal c => exact ⟨left, rest, h.signaled _⟩
  | resume k c => exact ⟨left, rest, h.signaled _⟩
  | take k termination c hc hterminated =>
    refine ⟨left, rest, h.quietly rfl rfl rfl rfl fun r hq => ?_⟩
    -- a child that has terminated is not silent, so no quiet call is about it
    change Quiet s.own (s.children.set k _) r
    rw [set_eq_modify hc fun c => { c with state := .taken }]
    refine hq.modify (fun c _ => concerns_congr r s.own rfl rfl) fun c' hc' _ hsilent => ?_
    cases hc.symm.trans hc'
    rw [Child.report, hterminated] at hsilent
    cases hsilent
  | deliver hidle =>
    have hrest : rest = [] := by
      have hhandler := h.handler
      rwa [hidle] at hhandler
    subst hrest
    have hring := h.ring
    rw [List.append_nil] at hring
    refine ⟨[], left, h.congr (by simp) rfl rfl (fun i call hcall hpending => ?_) ?_⟩
    · exact .inr (.inr (by simpa using (h.node i call hcall hpending).1))
    · exact ⟨hring.within 0 (List.mem_cons_self ..), nofun, .start hring⟩
  | ended choice curr hhandler hnext =>
    have hleads := h.handler
    rw [hhandler] at hleads
    obtain rfl := hleads.2.2.nil_of_end h.ring hnext
    exact ⟨left, [], h.congr rfl rfl rfl h.due rfl⟩
  | passed choice curr hhandler hnext hactive =>
    have hleads := h.handler
    rw [hhandler] at hleads
    refine ⟨left, rest, h.congr rfl rfl rfl h.due ?_⟩
    rcases hleads.2.2.next hnext with ⟨-, hlt, -, hleads'⟩ | ⟨rest', rfl⟩
    · exact ⟨hlt, nofun, hleads'⟩
    · rw [(h.active _).mpr (by simp)] at hactive
      cases hactive
  | stillRunning choice curr i call hhandler hnext hactive hdata hcall hresult =>
    obtain ⟨rest', hrest⟩ := h.at_node hhandler hnext hactive
    subst hrest
    have hring := h.ring
    refine ⟨left ++ [s.waitChildren.next curr], rest', h.congr (by simp) rfl rfl
      (fun j call' hcall' hpending => ?_) ⟨hring.within _ (by simp), nofun, .step hring⟩⟩
    rcases h.due j call' hcall' hpending with hquiet | hsignaled | hmem
    · exact .inl hquiet
    · exact .inr (.inl hsignaled)
    · rcases List.mem_cons.mp hmem with hnode | hmem
      · have hdata' := (h.node j call' hcall' hpending).2
        rw [hnode, hdata] at hdata'
        cases hdata'
        cases hcall.symm.trans hcall'
        exact .inl (quiet_of_running hresult)
      · exact .inr (.inr hmem)
  | handled choice curr i call result hhandler hnext hactive hdata hcall hresult =>
    obtain ⟨rest', hrest⟩ := h.at_node hhandler hnext hactive
    subst hrest
    obtain ⟨i', call₀, hdata', hcall', hpending, hnode⟩ :=
      h.call (s.waitChildren.next curr) (by simp)
    cases hdata.symm.trans hdata'
    cases hcall.symm.trans hcall'
    have hcalls : (s.answered result).calls[i]? = some call := by
      rw [calls_answered, hcall]
    have hlinks : (s.answered result).waitChildren = s.waitChildren := by
      cases result <;> rfl
    have hremoved := (h.answered hresult).remove hcalls hpending (.returned result) nofun
      (.handling (s.waitChildren.next curr) true)
    rw [hlinks, hnode] at hremoved
    refine ⟨_, _, hremoved ⟨?_, fun _ => hnext, ?_⟩⟩
    · rw [Sequences.length_remove]
      exact h.ring.within _ (by simp)
    · have hring := h.ring
      rw [List.append_cons] at hring
      have hnodup := (List.nodup_append.mp (List.nodup_cons.mp h.ring.nodup).2).2.1
      have hleads := (Sequences.Leads.step h.ring).remove hring (by simp) hactive
        (by simp [hdata]) (h.ring.within _ (by simp)) hnext
      rw [List.erase_of_not_mem (List.nodup_cons.mp hnodup).1] at hleads
      rwa [List.erase_cons_head]
  | leave curr hhandler =>
    have hleads := h.handler
    rw [hhandler] at hleads
    exact ⟨left, rest, h.congr rfl rfl rfl h.due ⟨hleads.1, nofun, hleads.2.2⟩⟩

end Waiting

theorem waiting_init (own : ℕ) : Waiting (init own) [] [] := by
  refine ⟨Sequences.ring_create [], fun x => ?_, nofun, nofun, nofun, rfl⟩
  change Sequences.active (Sequences.create []) x = true ↔ _
  cases x with
  | zero => exact ⟨nofun, nofun⟩
  | succ x => exact ⟨nofun, nofun⟩

theorem reach_told (h : Reach step (fun _ _ => True) (init own) s) :
    (∃ left rest, Waiting s left rest) ∧ Told s.own s.children s.calls := by
  refine h.invariant
    (P := fun s => (∃ left rest, Waiting s left rest) ∧ Told s.own s.children s.calls)
    ⟨⟨[], [], waiting_init own⟩, nofun, ?_, ?_⟩ ?_
  · rintro i j r r' k t t' ⟨call, hcall, -⟩
    cases hcall
  · rintro i r k status ⟨call, hcall, -⟩
    cases hcall
  · rintro s op s' ⟨⟨left, rest, hwaiting⟩, htold⟩ - hstep
    refine ⟨hwaiting.step hstep, htold.step hstep fun x i call hactive hdata hcall => ?_⟩
    obtain ⟨i', call', hdata', hcall', hpending, -⟩ :=
      hwaiting.call x ((hwaiting.active x).mp hactive)
    cases hdata.symm.trans hdata'
    cases hcall.symm.trans hcall'
    exact hpending

/-- The termination of a child that has been reaped has been returned by exactly one call, that was
about this child; and what a call has returned is the status of a child that it was about. -/
theorem terminations_are_reported_once (h : Reach step (fun _ _ => True) (init own) s) :
    (∀ (k : ℕ) c t, s.children[k]? = some c → c.state = .reaped t →
      ∃! i, ∃ r t', Reports s.calls i r k (.terminated t')) ∧
    ∀ i r k status, Reports s.calls i r k status → ∃ c, s.children[k]? = some c ∧
      r.concerns s.own c = true ∧ ∀ t, status = .terminated t → c.state = .reaped t := by
  obtain ⟨-, htold⟩ := reach_told h
  refine ⟨fun k c t hc hreaped => ?_, htold.right⟩
  obtain ⟨i, r, hi⟩ := htold.found k c t hc hreaped
  refine ⟨i, ⟨r, t, hi⟩, ?_⟩
  rintro j ⟨r', t', hj⟩
  exact htold.once j i r' r k t' t hj hi

/-- A call for any child, one for the first child and one for the second.  The first child
terminates and the second is stopped; the callbacks of the call that is told cancel another one. -/
def waitOps : List Op :=
  [.fork 2 1, .fork 3 1, .wait4 false ⟨2, false⟩ 0, .wait4 false ⟨-1, false⟩ 0,
    .wait4 false ⟨3, false⟩ 0, .terminate 0 (.wexited 0), .stop 1 19, .deliver, .turn 0, .turn 0,
    .cancel 0, .leave, .turn 0, .turn 0]

theorem terminations_are_reported_once_any : ∃ s, replay step (init 1) waitOps = some s ∧
    ∃! i, ∃ r t', Reports s.calls i r 0 (.terminated t') := by
  obtain ⟨s, c, hs, hc, hreaped⟩ : ∃ s c, replay step (init 1) waitOps = some s ∧
      s.children[0]? = some c ∧ c.state = .reaped (.wexited 0) := ⟨_, _, rfl, rfl, rfl⟩
  exact ⟨s, hs, (terminations_are_reported_once (reach_of_replay _ hs)).1 0 c _ hc hreaped⟩

/-- When the handler is not running and no signal is on its way, there is nothing to tell the calls
that wait; and they are the calls in `wait_children`. -/
theorem waiting_calls_are_quiet (h : Reach step (fun _ _ => True) (init own) s)
    (hidle : s.handler = .idle) (hsignaled : s.signaled = false) {call : Call}
    (hcall : s.calls[i]? = some call) (hpending : call.state = .pending) :
    Quiet s.own s.children call.request ∧ s.waitChildren.active call.node = true ∧
      s.waitChildren.data call.node = some i := by
  obtain ⟨⟨left, rest, hwaiting⟩, -⟩ := reach_told h
  obtain ⟨hmem, hdata⟩ := hwaiting.node i call hcall hpending
  have hrest : rest = [] := by
    have hhandler := hwaiting.handler
    rwa [hidle] at hhandler
  refine ⟨?_, (hwaiting.active _).mpr hmem, hdata⟩
  rcases hwaiting.due i call hcall hpending with hquiet | hsignal | hmem
  · exact hquiet
  · rw [hsignaled] at hsignal
    cases hsignal
  · rw [hrest] at hmem
    cases hmem

theorem waiting_calls_are_quiet_stopped : ∃ s, replay step (init 1) waitOps = some s ∧
    Quiet s.own s.children ⟨3, false⟩ := by
  obtain ⟨s, hs, hidle, hsignaled, hcall⟩ : ∃ s, replay step (init 1) waitOps = some s ∧
      s.handler = .idle ∧ s.signaled = false ∧ s.calls[2]? = some ⟨⟨3, false⟩, 3, .pending⟩ :=
    ⟨_, rfl, rfl, rfl, rfl⟩
  exact ⟨s, hs, (waiting_calls_are_quiet (reach_of_replay _ hs) hidle hsignaled hcall rfl).1⟩

end Lwt.Children
