import Lwt.Promise.Cancel
import Lwt.Promise.Delivery
import Lwt.Promise.Spared

/-!
# What `pick` gives

`pick` counts the resolved promises of its list and walks the list again to find the one it
has drawn, canceling the pending ones it comes to.  A cancellation can resolve members
further on, and the walk takes them for promises that were counted.  In a call in which it
comes to no such member (`Config.walksSteadily`) the result is one of those resolved at
the call.  If all members are pending, the call attaches one removable callback to each of
them (`pick_pending`).
-/

namespace Lwt

open Heap Table Transition

variable {U : Type} {strict : Prop} {c₀ c c' : Config U} {a : Label U} {u : U} {ps : List Pid}

/-! ## The walk -/

theorem Heap.Compressed.isResolved_eq {h h' : Heap U} (hwf : h.WellFormed) (hc : Compressed h h')
    (q : Pid) : h'.isResolved q = h.isResolved q := by
  rw [Heap.isResolved, Heap.isResolved, hc.stateOf_eq hwf]

/-- Of the members that a walk with the number `n` passes over or takes, none has been
resolved since the heap was `h₀`. -/
def walkSteady (h₀ h : Heap U) : List Pid → ℕ → Bool
  | [], _ => true
  | p :: ps, n =>
    if h.isResolved p then
      h₀.isResolved p &&
        (match n with
          | 0 => true
          | n + 1 => walkSteady h₀ h ps n)
    else true

theorem walkSteady_congr {h₀ h h' : Heap U} (heq : ∀ q, h'.isResolved q = h.isResolved q)
    (ps : List Pid) (n : ℕ) : walkSteady h₀ h' ps n = walkSteady h₀ h ps n := by
  induction ps generalizing n with
  | nil => rfl
  | cons p ps ih =>
    cases n with
    | zero => simp only [walkSteady, heq]
    | succ n => simp only [walkSteady, heq, ih]

theorem walkSteady_of_eq {h₀ h : Heap U} (heq : ∀ q, h.isResolved q = h₀.isResolved q)
    (ps : List Pid) (n : ℕ) : walkSteady h₀ h ps n = true := by
  induction ps generalizing n with
  | nil => rfl
  | cons p ps ih =>
    cases n with
    | zero => simp [walkSteady, heq]
    | succ n => simp [walkSteady, heq, ih]

/-- A walk that starts with fewer promises to pass over than there are stops: at a pending
promise, or at the one it takes. -/
theorem walk_cases {h₀ : Heap U} {rest : List Pid} {n : ℕ} (hwf : c.heap.WellFormed)
    (hfinal : ∀ q, h₀.isResolved q = true → c.heap.isResolved q = true)
    (hn : n < rest.countP h₀.isResolved) :
    ∃ done p rest' h', rest = done ++ p :: rest' ∧
      (walkSteady h₀ c.heap rest n = true → ∀ q ∈ done, h₀.isResolved q = true) ∧
      ((∃ n', n' < rest'.countP h₀.isResolved ∧
          nthResolvedAndCancelPending c rest n =
            cancel ({ c with heap := h' }.push [.nthResolvedAndCancelPending rest' n']) p) ∨
        ((walkSteady h₀ c.heap rest n = true → h₀.isResolved p = true) ∧
          nthResolvedAndCancelPending c rest n =
            ({ c with heap := h' }.push [.iterCancel rest', .returnPromise p]).ret .unit)) := by
  induction rest generalizing c n with
  | nil => simp at hn
  | cons p rest ih =>
    have hcomp := compressed_compress hwf p
    by_cases hp : c.heap.isResolved p = true
    · obtain ⟨r, hr⟩ := Heap.isResolved_iff.mp hp
      have hst : c.heap.stateOf p = some (.resolved r) := hr
      -- a resolved member: the one that is looked for, or one more to pass
      cases n with
      | zero =>
        refine ⟨[], p, rest, c.heap.compress p, rfl, by simp, .inr ⟨fun hsteady => ?_, ?_⟩⟩
        · simpa [walkSteady, hp] using hsteady
        · simp only [nthResolvedAndCancelPending, hst]
          rfl
      | succ n =>
        have hwf' : (c.follow p).heap.WellFormed := hcomp.wellFormed hwf
        have hsame : ∀ q, (c.follow p).heap.isResolved q = c.heap.isResolved q :=
          hcomp.isResolved_eq hwf
        have hn' : n < rest.countP h₀.isResolved := by
          rw [List.countP_cons] at hn
          split at hn <;> omega
        obtain ⟨done, p', rest', h', rfl, hdone, hend⟩ := ih hwf'
          (fun q hq => (hsame q).trans (hfinal q hq)) hn'
        have hwalk : nthResolvedAndCancelPending c (p :: (done ++ p' :: rest')) (n + 1) =
            nthResolvedAndCancelPending (c.follow p) (done ++ p' :: rest') n := by
          simp only [nthResolvedAndCancelPending, hst]
        have hsteady : walkSteady h₀ c.heap (p :: (done ++ p' :: rest')) (n + 1) = true →
            h₀.isResolved p = true ∧
              walkSteady h₀ (c.follow p).heap (done ++ p' :: rest') n = true := by
          rw [walkSteady_congr hsame]
          intro h
          simpa [walkSteady, hp] using h
        refine ⟨p :: done, p', rest', h', rfl, fun h q hq => ?_, ?_⟩
        · rcases List.mem_cons.mp hq with rfl | hq
          · exact (hsteady h).1
          · exact hdone (hsteady h).2 q hq
        · rw [hwalk]
          exact hend.imp_right fun hend => ⟨fun h => hend.1 (hsteady h).2, hend.2⟩
    -- a pending member is cancelled on the way, and the walk goes on in the frame
    · have hp₀ : ¬ h₀.isResolved p = true := fun h => hp (hfinal p h)
      refine ⟨[], p, rest, c.heap.compress p, rfl, by simp, .inl ⟨n, ?_, ?_⟩⟩
      · rwa [List.countP_cons_of_neg hp₀] at hn
      · rw [nthResolvedAndCancelPending.eq_def]
        dsimp only
        split
        · rename_i r hst
          exact absurd (Heap.isResolved_iff.mpr ⟨r, hst⟩) hp
        · rfl

/-! ## A call with a resolved member -/

/-- The walk of the call made in `c₀` is steady where it goes on next. -/
def Config.walksSteadily (c₀ c : Config U) : Bool :=
  match c.control, c.stack with
  | .ret _, .nthResolvedAndCancelPending rest n :: stack =>
    stack.length ≠ c₀.stack.length + 1 || walkSteady c₀.heap c.heap rest n
  | _, _ => true

/-- A member that `pick` may give: resolved at the call, and rejected if one was. -/
structure Chosen (c₀ : Config U) (ps : List Pid) (p : Pid) : Prop where
  mem : p ∈ ps
  resolved : c₀.heap.isResolved p = true
  rejected : (∃ q ∈ ps, c₀.heap.isRejected q = true) → c₀.heap.isRejected p = true

/-- The members that were pending at the call have got a cancel request, apart from those
in `todo`. -/
def PendingRequested (c₀ : Config U) (ps todo : List Pid) (c : Config U) : Prop :=
  ∀ q ∈ ps, c₀.heap.isResolved q = false → q ∈ todo ∨ Requested c₀.trace c q

/-- The frame is going to give `p`. -/
def Frame.Selects (h₀ : Heap U) (p : Pid) (frame : Frame U) : Prop :=
  frame = .returnPromise p ∨ ∃ qs n, frame = .nthResolved qs n ∧
    (∀ q ∈ qs, h₀.isResolved q = true) ∧ qs[n]? = some p

/-- Where the call of `pick ps` made in `c₀`, to go on at `u`, stands. -/
inductive Picking (strict : Prop) (c₀ : Config U) (u : U) (ps : List Pid) (c : Config U) : Prop
  | walking (done rest : List Pid) (n : ℕ) : ps = done ++ rest →
      n < rest.countP c₀.heap.isResolved → (∀ q ∈ ps, c₀.heap.isRejected q = false) →
      (strict → PendingRequested c₀ done [] c) →
      Canceling strict (.nthResolvedAndCancelPending rest n :: .user u :: c₀.stack) c →
      Picking strict c₀ u ps c
  | finishing (p : Pid) (todo : List Pid) {frame : Frame U} : frame.Selects c₀.heap p →
      (strict → Chosen c₀ ps p ∧ PendingRequested c₀ ps todo c) →
      Iterating strict c₀.trace todo (frame :: .user u :: c₀.stack) c → Picking strict c₀ u ps c
  | selected {p : Pid} {frame : Frame U} : frame.Selects c₀.heap p →
      (strict → Chosen c₀ ps p ∧ PendingRequested c₀ ps [] c) →
      c.stack = frame :: .user u :: c₀.stack → (∃ v, c.control = .ret v) → Picking strict c₀ u ps c
  | returned {p : Pid} : (strict → Chosen c₀ ps p ∧ PendingRequested c₀ ps [] c) →
      c.stack = .user u :: c₀.stack → c.control = .ret (.promise p) → Picking strict c₀ u ps c
  | resumed {p : Pid} : (strict → Chosen c₀ ps p ∧ PendingRequested c₀ ps [] c) →
      c.stack = c₀.stack → c.control = .user (.resume u (.ok (.promise p))) →
      Picking strict c₀ u ps c
  | escaped {e : Exn U} (frames : List (Frame U)) : ¬ strict → frames.length ≤ 1 →
      (∀ frame ∈ frames, ∃ p, frame.Selects c₀.heap p) →
      c.stack = frames ++ .user u :: c₀.stack → c.control = .exn e → Picking strict c₀ u ps c
  | left : ¬ strict → c.stack = c₀.stack → Picking strict c₀ u ps c

theorem PendingRequested.of_append {todo : List Pid} {l : List (Event U)}
    (h : PendingRequested c₀ ps todo c) (htrace : c'.trace = l ++ c.trace) :
    PendingRequested c₀ ps todo c' :=
  fun q hq hpending => (h q hq hpending).imp_right fun hreq => hreq.of_append htrace

theorem Picking.of_walk (done : List Pid) {rest : List Pid} {n : ℕ} (hwf : c.heap.WellFormed)
    (hstack : c.stack = .user u :: c₀.stack)
    (hfinal : ∀ q, c₀.heap.isResolved q = true → c.heap.isResolved q = true)
    (htrace : ∃ new, c.trace = new ++ c₀.trace) (hps : ps = done ++ rest)
    (hn : n < rest.countP c₀.heap.isResolved) (hrejected : ∀ q ∈ ps, c₀.heap.isRejected q = false)
    (hdone : strict → PendingRequested c₀ done [] c)
    (hsteady : strict → walkSteady c₀.heap c.heap rest n = true) :
    Picking strict c₀ u ps (nthResolvedAndCancelPending c rest n) := by
  obtain ⟨passed, p, rest', h', rfl, hpassed, hend⟩ := walk_cases hwf hfinal hn
  -- What has been passed over was resolved, what is before it has got its request.
  have hbefore : strict → ∀ q ∈ done ++ passed, c₀.heap.isResolved q = false →
      Requested c₀.trace c q := by
    intro hstrict q hq hpending
    rcases List.mem_append.mp hq with hq | hq
    · exact (hdone hstrict q hq hpending).resolve_left (by simp)
    · simp [hpassed (hsteady hstrict) q hq] at hpending
  rcases hend with ⟨n', hn', hwalk⟩ | ⟨hresolved, hwalk⟩
  · rw [hwalk]
    have hbelow : (({ c with heap := h' } : Config U).push
        [.nthResolvedAndCancelPending rest' n']).stack =
          .nthResolvedAndCancelPending rest' n' :: .user u :: c₀.stack := by
      simp [Config.push, hstack]
    refine .walking (done ++ passed ++ [p]) rest' n' (by simp [hps]) hn'
      hrejected (fun hstrict q hq hpending => .inr ?_) (hbelow ▸ canceling_cancel p)
    obtain ⟨new, hnew⟩ := htrace
    rcases List.mem_append.mp hq with hq | hq
    · exact (hbefore hstrict q hq hpending).of_append (l := [.cancelRequested p]) rfl
    · obtain rfl : q = p := by simpa using hq
      exact ⟨.cancelRequested q :: new,
        by simp [cancel, Config.emit, Config.push, Config.ret, hnew], by simp⟩
  · rw [hwalk]
    refine .finishing p rest' (.inl rfl) (fun hstrict => ⟨⟨?_, ?_, ?_⟩, ?_⟩)
      (iterating_push rest' (by simp [Config.push, Config.ret, hstack]) rfl)
    · simp [hps]
    · exact hresolved (hsteady hstrict)
    · rintro ⟨q, hq, hrej⟩
      simp [hrejected q hq] at hrej
    · intro q hq hpending
      rw [hps, ← List.append_assoc] at hq
      rcases List.mem_append.mp hq with hq | hq
      · exact .inr ((hbefore hstrict q hq hpending).of_append (l := []) rfl)
      · rcases List.mem_cons.mp hq with rfl | hq
        · simp [hresolved (hsteady hstrict)] at hpending
        · exact .inl hq

theorem Frame.Selects.of_returnTo {h₀ : Heap U} {p : Pid} {frame : Frame U} {v : Val U}
    (hsel : frame.Selects h₀ p)
    (hfinal : ∀ q, h₀.isResolved q = true → c.heap.isResolved q = true)
    (hret : returnTo c v frame = some c') :
    c'.stack = c.stack ∧ c'.trace = c.trace ∧ c'.control = .ret (.promise p) := by
  rcases hsel with rfl | ⟨qs, n, rfl, hqs, hn⟩
  · cases hret
    exact ⟨rfl, rfl, rfl⟩
  · have hnth : Lwt.nthResolved c.heap qs n = some p := by
      rw [nthResolved_of_resolved (fun q hq => hfinal q (hqs q hq)), hn]
    simp only [returnTo, hnth] at hret
    cases hret
    exact ⟨rfl, rfl, rfl⟩

theorem Frame.Selects.raise {h₀ : Heap U} {p : Pid} {frame : Frame U} (hsel : frame.Selects h₀ p)
    (e : Exn U) : raiseTo c e frame = c.raise e := by
  rcases hsel with rfl | ⟨qs, n, rfl, -⟩
  · rfl
  · rfl

theorem Past.final (hpast : Past c₀ c) (hcontrol : c.control ≠ .crash) (q : Pid)
    (hq : c₀.heap.isResolved q = true) : c.heap.isResolved q = true := by
  obtain ⟨r, hr⟩ := Heap.isResolved_iff.mp hq
  exact Heap.isResolved_iff.mpr ⟨r, hpast.isResolved hcontrol q r hr⟩

/-- The walk takes a step, or what is on top of it does. -/
theorem Picking.step_walking {done rest : List Pid} {n : ℕ} (hpast : Past c₀ c)
    (hps : ps = done ++ rest) (hn : n < rest.countP c₀.heap.isResolved)
    (hrejected : ∀ q ∈ ps, c₀.heap.isRejected q = false)
    (hdone : strict → PendingRequested c₀ done [] c)
    (hcancel : Canceling strict (.nthResolvedAndCancelPending rest n :: .user u :: c₀.stack) c)
    (hok : strict → c.quiet = true ∧ c₀.walksSteadily c = true) (hstep : step c a = some c') :
    Picking strict c₀ u ps c' := by
  have halive := control_ne_crash_of_step hstep
  have hs := hpast.sound halive
  obtain ⟨new, hnew⟩ := step_trace hs hstep
  by_cases hstack : c.stack = .nthResolvedAndCancelPending rest n :: .user u :: c₀.stack
  · rcases step_top hstack hstep with ⟨s, m, hcontrol, -⟩ | ⟨v, hcontrol, hret⟩ |
      ⟨e, hcontrol, rfl⟩
    · rcases hcancel.returns hstack with ⟨v, hv⟩ | ⟨-, e, he⟩
      · simp [hcontrol] at hv
      · simp [hcontrol] at he
    · cases hret
      refine .of_walk done (c := { c with stack := .user u :: c₀.stack }) hs.wellFormed rfl
        (hpast.final halive) hpast.trace hps hn hrejected
        (fun hstrict => (hdone hstrict).of_append (l := []) rfl) fun hstrict => ?_
      simpa [Config.walksSteadily, hcontrol, hstack] using (hok hstrict).2
    · have hnot : ¬ strict := by
        rcases hcancel.returns hstack with ⟨v, hv⟩ | ⟨hnot, -⟩
        · simp [hcontrol] at hv
        · exact hnot
      exact .escaped [] hnot (by simp) (by simp) rfl rfl
  · exact .walking done rest n hps hn hrejected (fun hstrict => (hdone hstrict).of_append hnew)
      (hcancel.step hstack (fun hstrict => (hok hstrict).1) hstep)

theorem Picking.step (h : Picking strict c₀ u ps c) (hpast : Past c₀ c)
    (hok : strict → c.quiet = true ∧ c₀.walksSteadily c = true)
    (hlen : c₀.stack.length < c.stack.length) (hstep : step c a = some c') :
    Picking strict c₀ u ps c' := by
  have halive := control_ne_crash_of_step hstep
  have hs := hpast.sound halive
  obtain ⟨new, hnew⟩ := step_trace hs hstep
  cases h with
  | walking done rest n hps hn hrejected hdone hcancel =>
    exact .step_walking hpast hps hn hrejected hdone hcancel hok hstep
  | finishing p todo hsel hfacts hiter =>
    have hfacts' : strict → Chosen c₀ ps _ ∧ PendingRequested c₀ ps _ c' := fun hstrict =>
      ⟨(hfacts hstrict).1, (hfacts hstrict).2.of_append hnew⟩
    rcases hiter.step hs hpast.trace (fun hstrict => (hok hstrict).1) hstep with
      hiter | ⟨hstack, ⟨hcontrol, hall⟩ | ⟨hnot, e, hcontrol⟩⟩
    -- the cancellation goes on, or comes to its end, or raises
    · exact .finishing p todo hsel hfacts' hiter
    · refine .selected hsel (fun hstrict => ⟨(hfacts' hstrict).1, fun q hq hpending => ?_⟩) hstack
        hcontrol
      exact .inr (((hfacts' hstrict).2 q hq hpending).elim (hall q) id)
    · exact .escaped [_] hnot (by simp) (by simpa using ⟨_, hsel⟩) hstack hcontrol
  | @selected p frame hsel hfacts hstack hcontrol =>
    obtain ⟨v, hcontrol⟩ := hcontrol
    obtain ⟨hstack₁, htrace₁, hcontrol₁⟩ := hsel.of_returnTo
      (c := { c with stack := .user u :: c₀.stack }) (hpast.final halive)
      (returnTo_of_step hcontrol hstack hstep)
    exact .returned (fun hstrict => ⟨(hfacts hstrict).1, (hfacts hstrict).2.of_append hnew⟩)
      hstack₁ hcontrol₁
  | returned hfacts hstack hcontrol =>
    cases returnTo_of_step hcontrol hstack hstep
    exact .resumed (fun hstrict => ⟨(hfacts hstrict).1, (hfacts hstrict).2.of_append hnew⟩)
      rfl rfl
  | resumed hfacts hstack hcontrol =>
    rw [hstack] at hlen
    exact absurd hlen (Nat.lt_irrefl _)
  | @escaped e frames hnot hle hsel hstack hcontrol =>
    -- the exception has left the walk, or takes its frame away
    cases frames with
    | nil =>
      obtain rfl := raiseTo_of_step hcontrol hstack hstep
      exact .left hnot rfl
    | cons frame frames =>
      obtain rfl : frames = [] := by simpa using hle
      obtain rfl := raiseTo_of_step hcontrol hstack hstep
      obtain ⟨p, hsel⟩ := hsel frame (by simp)
      rw [hsel.raise]
      exact .escaped [] hnot (by simp) (by simp) rfl rfl
  | left hnot hstack =>
    rw [hstack] at hlen
    exact absurd hlen (Nat.lt_irrefl _)

theorem Picking.not_raise {v : Val U} {frame : Frame U} (h : Picking strict c₀ u ps c)
    (hpast : Past c₀ c) (hcontrol : c.control = .ret v)
    (hstack : c.stack = frame :: .user u :: c₀.stack) (hstep : Lwt.step c .tau = some c')
    (e : Exn U) :
    c'.control ≠ .exn e := by
  have halive := control_ne_crash_of_step hstep
  have hs := hpast.sound halive
  have hret := returnTo_of_step hcontrol hstack hstep
  have hlength : c.stack.length = c₀.stack.length + 2 := by simp [hstack]
  cases h with
  | walking done rest n hps hn hrejected hdone hcancel =>
    obtain ⟨top, htop, -⟩ := hcancel
    obtain rfl : top = [] := by
      rw [htop] at hlength
      simp only [List.length_append, List.length_cons] at hlength
      exact List.length_eq_zero_iff.mp (by omega)
    obtain ⟨rfl, -⟩ : frame = .nthResolvedAndCancelPending _ _ ∧ True := by
      simpa using hstack.symm.trans htop
    cases hret
    obtain ⟨-, p, rest', h', -, -, ⟨n', -, hwalk⟩ | ⟨-, hwalk⟩⟩ :=
      walk_cases (c := { c with stack := .user u :: c₀.stack }) hs.wellFormed
        (hpast.final halive) hn
    · rw [hwalk]
      simp [cancel, Config.ret]
    · rw [hwalk]
      simp [Config.ret]
  | finishing p todo hsel hfacts hiter =>
    obtain ⟨done, rest, -, -, top, htop, -⟩ := hiter
    rw [htop] at hlength
    simp only [List.length_append, List.length_cons] at hlength
    omega
  | selected hsel hfacts hstack' hcontrol' =>
    obtain ⟨rfl, -⟩ : frame = _ ∧ True := by simpa using hstack.symm.trans hstack'
    rw [(hsel.of_returnTo (c := { c with stack := .user u :: c₀.stack })
      (hpast.final halive) hret).2.2]
    simp
  | returned hfacts hstack' =>
    rw [hstack'] at hlength
    simp at hlength
  | resumed hfacts hstack' =>
    rw [hstack'] at hlength
    simp at hlength
  | escaped frames hnot hle hsel hstack' hcontrol' => simp [hcontrol] at hcontrol'
  | left hnot hstack' =>
    rw [hstack'] at hlength
    simp at hlength

/-- A call of `pick` with a resolved member: it walks its list if no member is rejected,
and draws one of the rejected members otherwise. -/
theorem pick_resolved {c₁ : Config U} {random : ℕ} (hs : Sound c₀.store) (hps : ps ≠ [])
    (hsome : ∃ p ∈ ps, c₀.heap.isResolved p = true)
    (hcall : userStep c₀ (.call (.pick ps random) u) = some c₁) :
    (∃ n, n < ps.countP c₀.heap.isResolved ∧ (∀ q ∈ ps, c₀.heap.isRejected q = false) ∧
      c₁ = nthResolvedAndCancelPending ((c₀.push [.user u]).followAll ps) ps n) ∨
    ∃ qs n p, (∀ q ∈ qs, q ∈ ps ∧ c₀.heap.isRejected q = true) ∧ qs[n]? = some p ∧
      c₁ = (((c₀.push [.user u]).followAll ps).push [.iterCancel ps, .nthResolved qs n]).ret
      .unit := by
  obtain ⟨-, rfl⟩ := userStep_call hcall
  have hwf : c₀.heap.WellFormed := hs.wellFormed
  have hcomp := compressed_compressAll hwf ps
  have hrejects : ∀ q, Heap.isRejected (c₀.heap.compressAll ps) q = c₀.heap.isRejected q := by
    intro q
    rw [Heap.isRejected, Heap.isRejected, hcomp.stateOf_eq hwf]
  have hcount : ∀ n, countResolvedPromisesIn (c₀.heap.compressAll ps) ps = .ok n →
      n = ps.countP c₀.heap.isResolved ∧ ∀ q ∈ ps, c₀.heap.isRejected q = false := by
    intro n hn
    obtain ⟨hn, hrejected⟩ := countFulfilled_eq_ok hn
    rw [Nat.zero_add, List.countP_congr fun q _ => by rw [hcomp.isResolved_eq hwf q]] at hn
    exact ⟨hn, fun q hq => (hrejects q).symm.trans (hrejected q hq)⟩
  have hpos : 0 < ps.countP c₀.heap.isResolved := by
    obtain ⟨p, hp, hres⟩ := hsome
    exact List.countP_pos_iff.mpr ⟨p, hp, hres⟩
  simp only [execute, pick, if_neg hps]
  split
  · rename_i hzero
    obtain ⟨hn, -⟩ := hcount 0 hzero
    omega
  · rename_i hone
    exact .inl ⟨0, hpos, (hcount 1 hone).2, rfl⟩
  · rename_i n _ _ hn
    obtain ⟨rfl, hrejected⟩ := hcount n hn
    exact .inl ⟨_, Nat.mod_lt _ hpos, hrejected, rfl⟩
  · rename_i n qs hn
    obtain ⟨hlen, hpos, hqs⟩ := countFulfilled_eq_error hn
    have hlt : random % n < qs.length := hlen ▸ Nat.mod_lt _ hpos
    refine .inr ⟨qs, random % n, qs[random % n], fun q hq => ?_, List.getElem?_eq_getElem hlt, rfl⟩
    exact ⟨(hqs q hq).1, (hrejects q).symm.trans (hqs q hq).2⟩

theorem Picking.of_call {c₁ : Config U} {random : ℕ} (hs : Sound c₀.store) (hps : ps ≠ [])
    (hsome : ∃ p ∈ ps, c₀.heap.isResolved p = true)
    (hcall : userStep c₀ (.call (.pick ps random) u) = some c₁) : Picking strict c₀ u ps c₁ := by
  have hwf : c₀.heap.WellFormed := hs.wellFormed
  have hcomp := compressed_compressAll hwf ps
  have hsame : ∀ q, Heap.isResolved (c₀.heap.compressAll ps) q = c₀.heap.isResolved q :=
    hcomp.isResolved_eq hwf
  rcases pick_resolved hs hps hsome hcall with
    ⟨n, hn, hrejected, rfl⟩ | ⟨qs, n, p, hqs, hget, rfl⟩
  · exact .of_walk [] (hcomp.wellFormed hwf) rfl (fun q hq => (hsame q).trans hq) ⟨[], rfl⟩ rfl hn
      hrejected (fun _ q hq => by simp at hq) fun _ => walkSteady_of_eq hsame ps n
  · obtain ⟨hmem, hrej⟩ := hqs p (List.mem_of_getElem? hget)
    refine .finishing p ps
      (.inr ⟨qs, n, rfl, fun q hq => Heap.isResolved_of_isRejected (hqs q hq).2, hget⟩)
      (fun _ => ⟨⟨hmem, Heap.isResolved_of_isRejected hrej, fun _ => hrej⟩, fun q hq _ => .inl hq⟩)
      (iterating_push ps rfl rfl)

theorem pick_control {c₁ : Config U} {random : ℕ} (hs : Sound c₀.store) (hps : ps ≠ [])
    (hsome : ∃ p ∈ ps, c₀.heap.isResolved p = true)
    (hcall : userStep c₀ (.call (.pick ps random) u) = some c₁) : c₁.control = .ret .unit := by
  have hwf : c₀.heap.WellFormed := hs.wellFormed
  have hcomp := compressed_compressAll hwf ps
  rcases pick_resolved hs hps hsome hcall with ⟨n, hn, -, rfl⟩ | ⟨qs, n, p, -, -, rfl⟩
  · obtain ⟨-, p, rest', h', -, -, ⟨n', -, hwalk⟩ | ⟨-, hwalk⟩⟩ :=
      walk_cases (c := (c₀.push [.user u]).followAll ps) (hcomp.wellFormed hwf)
        (fun q hq => (hcomp.isResolved_eq hwf q).trans hq) hn
    · rw [hwalk]
      rfl
    · rw [hwalk]
      rfl
  · rfl

/-! ## A call with pending members -/

theorem mem_internal_of_live {s : Store U} {i : ℕ} {cell : Cell} (hcell : s.cells[i]? = some cell)
    (hlive : cell.live = true) (hkind : cell.kind ≠ .protection) :
    cell.target ∈ s.internal := by
  refine Multiset.mem_add.mpr (.inr (mem_total.mpr ⟨i, _, hcell, ?_⟩))
  simp [Cell.internal, hlive, hkind]

theorem OwnedIn.not_isResolved {h : Heap U} {internal initials : Multiset Pid} {p : Pid}
    {r : Result U} (ho : OwnedIn h internal initials) (hp : p ∈ internal) : ¬ h.IsResolved
    (h.root p) r := by
  intro hr
  obtain ⟨callbacks, hcb, -⟩ := ho.pending p hp
  rw [IsResolved, hcb] at hr
  simp at hr

/-- What holds of every store, whatever the user does. -/
structure Kept (s : Store U) : Prop where
  joined : Joined s
  owned : Owned s
  tracked : Tracked s
  recorded : Recorded s
  calledOnce : CalledOnce s

theorem Act.kept {g : Guard U} {s s' : Store U} (hs : Sound s) (hk : Kept s) (hact : Act g s s') :
    Kept s' :=
  ⟨hact.joined hs.wellFormed hk.joined, (hact.transfer hs hk.joined).owned hs.wellFormed hk.owned,
    hact.tracked hs.wellFormed hk.tracked, hact.recorded hs.wellFormed hk.recorded,
    hact.calledOnce hk.calledOnce⟩

theorem kept_initial (main hook : U) : Kept (initial main hook).store :=
  ⟨(safe_initial main hook).joined, (safe_initial main hook).owned, tracked_initial main hook,
    ⟨by simp [initial, Config.store, resolvedPromises],
      by simp [initial, Config.store, resolvedPromises]⟩, calledOnce_initial main hook⟩

theorem reach_kept {ok : Config U → Label U → Prop} {main hook : U}
    (hreach : Reach step ok (initial main hook) c) (hcontrol : c.control ≠ .crash) :
    Sound c.store ∧ Kept c.store :=
  reach_store (g := fun _ _ => True) (fun c a _ => permits_true c a)
    (fun _ _ hs hk hact => hact.kept hs hk) (kept_initial main hook) hreach hcontrol

/-- A call of `pick` with pending members attaches its cell to each of them. -/
theorem pick_pending {c₁ : Config U} {random : ℕ} (hs : Sound c₀.store) (hps : ps ≠ [])
    (hpending : ∀ q ∈ ps, c₀.heap.isResolved q = false)
    (hcall : userStep c₀ (.call (.pick ps random) u) = some c₁) :
    c₁.control = .ret (.promise c₀.heap.length) ∧ c₁.stack = .user u :: c₀.stack ∧
      c₁.cells = c₀.cells ++ [⟨.pick, c₀.heap.length, ps, true⟩] := by
  obtain ⟨hvalid, rfl⟩ := userStep_call hcall
  have hwf : c₀.heap.WellFormed := hs.wellFormed
  have hcomp := compressed_compressAll hwf ps
  have hwf' := hcomp.wellFormed hwf
  have hlt : ∀ q ∈ ps, q < List.length (c₀.heap.compressAll ps) := by
    intro q hq
    simp only [Op.valid, Op.promises, Bool.and_eq_true, List.all_eq_true, decide_eq_true_eq]
      at hvalid
    exact hcomp.length_eq ▸ hvalid.1.1 q hq
  have hsame : ∀ q, Heap.isResolved (c₀.heap.compressAll ps) q = c₀.heap.isResolved q :=
    hcomp.isResolved_eq hwf
  -- the count meets no resolved member, a rejected one neither
  have hcount : countResolvedPromisesIn (c₀.heap.compressAll ps) ps = .ok 0 := by
    cases hn : countResolvedPromisesIn (c₀.heap.compressAll ps) ps with
    | ok n =>
      obtain ⟨rfl, -⟩ := countFulfilled_eq_ok hn
      rw [Nat.zero_add, List.countP_eq_zero.mpr]
      intro q hq
      simp [hsame, hpending q hq]
    | error nqs =>
      obtain ⟨n, qs⟩ := nqs
      obtain ⟨hlen, hpos, hqs⟩ := countFulfilled_eq_error hn
      obtain ⟨hmem, hrej⟩ := hqs qs[0] (List.getElem_mem (hlen ▸ hpos))
      have hres := Heap.isResolved_of_isRejected hrej
      rw [hsame, hpending _ hmem] at hres
      simp at hres
  have hwf'' := wellFormed_append (x := newPending (.propagateCancelToSeveral ps)) hwf' trivial
  obtain ⟨h, hadd⟩ := exists_addCellToEach c₀.cells.length hwf'' ps fun q hq => by
    rw [root_append hwf' (isUnderlying_newPending _)]
    exact (isPending_of_countFulfilled hwf' hlt hcount q hq).append
  have hpick : execute (c₀.push [.user u]) (.pick ps random) =
      attachCell ((c₀.push [.user u]).followAll ps) .pick (.propagateCancelToSeveral ps) ps := by
    simp only [execute, pick, if_neg hps]
    rw [show countResolvedPromisesIn ((c₀.push [.user u]).followAll ps).heap ps = .ok 0 from hcount]
    rfl
  have hadd' : addCellToEach ((c₀.push [.user u]).followAll ps).cells.length
      (((c₀.push [.user u]).followAll ps).alloc (newPending (.propagateCancelToSeveral ps))).heap
      ps =
        some h := hadd
  have hlen : ((c₀.push [.user u]).followAll ps).heap.length = c₀.heap.length := hcomp.length_eq
  rw [hpick]
  simp only [attachCell, hlen]
  rw [show addCellToEach ((c₀.push [.user u]).followAll ps).cells.length
    (((c₀.push [.user u]).followAll ps).alloc (newPending (.propagateCancelToSeveral ps))).heap ps =
      some h from hadd']
  exact ⟨rfl, rfl, rfl⟩

end Lwt
