import Lwt.Promise.Nesting
import Lwt.Promise.Simulation

/-!
# Calls of `cancel` under way

A call of `cancel` puts its own frames on the stack and, on top of them, the resolution
loops that run the callbacks of the canceled promises.  User code runs inside of these
loops only, so whatever it does, the frames under the call stay where they are until the
call returns (`Canceling.step`).  `Iterating` is the same for `List.iter cancel ps`, and
keeps the account of the promises that have got their request.
-/

namespace Lwt

open Heap Transition

variable {U : Type} {strict : Prop} {c c' : Config U} {a : Label U} {below : List (Frame U)}

/-! ## The past of a run -/

theorem Act.trace_append {g : Guard U} {s s' : Store U} (hact : Act g s s') :
    ∃ new, s'.trace = new ++ s.trace := by
  cases hact with
  | @allocInitial l how q new => exact ⟨new, rfl⟩
  | _ => first | exact ⟨[], rfl⟩ | exact ⟨[_], rfl⟩ | exact ⟨[_, _], rfl⟩

theorem step_trace (hs : Sound c.store) (hstep : step c a = some c') :
    ∃ new, c'.trace = new ++ c.trace := by
  obtain ⟨s', hacts, hend⟩ := step_sim (g := fun _ _ => True) hs (permits_true c a) hstep
  have hacts' : ∃ new, s'.trace = new ++ c.store.trace := by
    refine Acts.invariant (P := fun s => ∃ new, s.trace = new ++ c.store.trace) hacts ⟨[], rfl⟩ ?_
    rintro s s' ⟨new, hnew⟩ hact
    obtain ⟨newer, hnewer⟩ := hact.trace_append
    exact ⟨newer ++ new, by rw [hnewer, hnew, List.append_assoc]⟩
  obtain ⟨new, hnew⟩ := hacts'
  rcases hend with ⟨-, -, htrace⟩ | ⟨-, rfl⟩
  · rcases htrace with htrace | ⟨i, r, -, htrace⟩
    · exact ⟨new, by rw [htrace, hnew]; rfl⟩
    · exact ⟨.cellCalled i r :: new, by rw [htrace, hnew]; rfl⟩
  · exact ⟨new, hnew⟩

theorem step_isResolved {p : Pid} {r : Result U} (hs : Sound c.store)
    (hstep : step c a = some c') (hcontrol : c'.control ≠ .crash)
    (hr : c.heap.IsResolved (c.heap.root p) r) : c'.heap.IsResolved (c'.heap.root p) r := by
  obtain ⟨s', hacts, hend⟩ := step_sim (g := fun _ _ => True) hs (permits_true c a) hstep
  have hacts' : Sound s' ∧ s'.heap.IsResolved (s'.heap.root p) r := by
    refine Acts.invariant (P := fun s => Sound s ∧ s.heap.IsResolved (s.heap.root p) r) hacts
      ⟨hs, hr⟩ ?_
    rintro s s' ⟨hs, hr⟩ hact
    exact ⟨hact.sound hs, (hact.effect hs.wellFormed).isResolved_root hs.wellFormed hr⟩
  rcases hend with ⟨hcrash, -⟩ | ⟨-, rfl⟩
  · exact absurd hcrash hcontrol
  · exact hacts'.2

theorem reach_sound {ok : Config U → Label U → Prop} {main hook : U}
    (hreach : Reach step ok (initial main hook) c) (hcontrol : c.control ≠ .crash) :
    Sound c.store :=
  (reach_store (g := fun _ _ => True) (P := fun _ => True) (fun c a _ => permits_true c a)
    (fun _ _ _ _ _ => trivial) trivial hreach hcontrol).1

/-- What holds of the past of a later configuration. -/
structure Past (c₀ c : Config U) : Prop where
  sound : c.control ≠ .crash → Sound c.store
  trace : ∃ new, c.trace = new ++ c₀.trace
  isResolved : c.control ≠ .crash → ∀ p r, c₀.heap.IsResolved (c₀.heap.root p) r →
    c.heap.IsResolved (c.heap.root p) r

theorem Past.refl (hs : Sound c.store) : Past c c :=
  ⟨fun _ => hs, ⟨[], rfl⟩, fun _ _ _ hr => hr⟩

theorem Past.step {c₀ : Config U} (hp : Past c₀ c) (hstep : step c a = some c') : Past c₀ c' := by
  have halive := control_ne_crash_of_step hstep
  have hs := hp.sound halive
  refine ⟨fun hcontrol => ?_, ?_, fun hcontrol p r hr => ?_⟩
  · obtain ⟨s', hacts, hend⟩ := step_sim (g := fun _ _ => True) hs (permits_true c a) hstep
    rcases hend with ⟨hcrash, -⟩ | ⟨-, rfl⟩
    · exact absurd hcrash hcontrol
    · exact Acts.sound hs hacts
  · obtain ⟨new, hnew⟩ := hp.trace
    obtain ⟨newer, hnewer⟩ := step_trace hs hstep
    exact ⟨newer ++ new, by rw [hnewer, hnew, List.append_assoc]⟩
  · exact step_isResolved hs hstep hcontrol (hp.isResolved halive p r hr)

/-- Since the trace was `past`, a cancellation of `q` has been requested. -/
def Requested (past : List (Event U)) (c : Config U) (q : Pid) : Prop :=
  ∃ new, c.trace = new ++ past ∧ .cancelRequested q ∈ new

theorem Requested.of_append {past l : List (Event U)} {q : Pid} (hq : Requested past c q)
    (htrace : c'.trace = l ++ c.trace) : Requested past c' q := by
  obtain ⟨old, hold, hmem⟩ := hq
  exact ⟨l ++ old, by rw [htrace, hold, List.append_assoc], List.mem_append_right _ hmem⟩

/-! ## One call -/

/-- The frames of `cancel` outside of the loops it enters. -/
def Frame.cancels : Frame U → Bool
  | .propagateCancel _ _ | .runRecords _ => true
  | _ => false

/-- A function has returned, or, unless `strict`, has raised an exception. -/
def Config.Returns (strict : Prop) (c : Config U) : Prop :=
  (∃ v, c.control = .ret v) ∨ (¬ strict ∧ ∃ e, c.control = .exn e)

/-- Frames of `cancel`, or such frames under a resolution loop. -/
def CancelFrames (returns : Prop) (top : List (Frame U)) : Prop :=
  (top.all Frame.cancels = true ∧ returns) ∨
    ∃ above frame rest, top = above ++ frame :: rest ∧ frame.leaves = true ∧
      rest.all Frame.cancels = true

theorem CancelFrames.append {returns : Prop} {top rest : List (Frame U)}
    (htop : CancelFrames returns top) (hrest : rest.all Frame.cancels = true) :
    CancelFrames returns (top ++ rest) := by
  rcases htop with ⟨hall, hreturns⟩ | ⟨above, frame, rest', rfl, hleaves, hall⟩
  · exact .inl ⟨by rw [List.all_append, hall, hrest, Bool.and_self], hreturns⟩
  · refine .inr ⟨above, frame, rest' ++ rest, by simp, hleaves, ?_⟩
    rw [List.all_append, hall, hrest, Bool.and_self]

/-- A call of `cancel` on top of `below` is under way, or has returned to `below`. -/
def Canceling (strict : Prop) (below : List (Frame U)) (c : Config U) : Prop :=
  ∃ top, c.stack = top ++ below ∧ CancelFrames (c.Returns strict) top

theorem canceling_cancel (p : Pid) : Canceling strict c.stack (cancel c p) :=
  ⟨[.propagateCancel [p] []], rfl, .inl ⟨rfl, .inl ⟨.unit, rfl⟩⟩⟩

theorem Canceling.returns (h : Canceling strict below c) (hstack : c.stack = below) :
    c.Returns strict := by
  obtain ⟨top, htop, hframes⟩ := h
  obtain rfl : top = [] := by simpa [hstack] using htop
  rcases hframes with ⟨-, hreturns⟩ | ⟨above, frame, rest, heq, -⟩
  · exact hreturns
  · simp at heq

theorem returnTo_cancels (strict : Prop) {v : Val U} {frame : Frame U}
    (hframe : frame.cancels = true)
    (hret : returnTo c v frame = some c') :
    ∃ frames, c'.stack = frames ++ c.stack ∧ CancelFrames (c'.Returns strict) frames := by
  have hown : ∀ {c' : Config U} (frames : List (Frame U)), frames.all Frame.cancels = true →
      c'.stack = frames ++ c.stack → c'.control = .ret .unit →
      ∃ frames, c'.stack = frames ++ c.stack ∧ CancelFrames (c'.Returns strict) frames :=
    fun frames hall hstack hcontrol => ⟨frames, hstack, .inl ⟨hall, .inl ⟨_, hcontrol⟩⟩⟩
  cases frame with
  | propagateCancel todo collected =>
    cases todo with
    | nil =>
      cases hret
      exact hown [.runRecords collected] rfl rfl rfl
    | cons p todo =>
      cases hret
      unfold cancelAndCollectCallbacks
      dsimp only
      split
      · split
        · exact hown [.propagateCancel todo collected] rfl rfl rfl
        · exact hown [.propagateCancel todo _] rfl rfl rfl
        · exact hown [.propagateCancel (_ :: todo) collected] rfl rfl rfl
        · exact hown [.propagateCancel (_ ++ todo) collected] rfl rfl rfl
      · exact hown [.propagateCancel todo collected] rfl rfl rfl
  | runRecords records =>
    cases records with
    | nil =>
      cases hret
      exact hown [] rfl rfl rfl
    | cons entry rest =>
      cases hret
      exact ⟨[.runCallbacks _ _ _, .leaveResolutionLoop c.storage, .runRecords rest], rfl,
        .inr ⟨[_], _, [_], rfl, rfl, rfl⟩⟩
  | _ => simp [Frame.cancels] at hframe

theorem raiseTo_cancels (e : Exn U) {frame : Frame U} (hframe : frame.cancels = true) :
    raiseTo c e frame = c.raise e := by
  cases frame <;> first | rfl | simp [Frame.cancels] at hframe

theorem Canceling.step_loop {frame : Frame U} {rest : List (Frame U)}
    (hleaves : frame.leaves = true) (hrest : rest.all Frame.cancels = true)
    (hstack : c.stack = frame :: (rest ++ below)) (hquiet : strict → c.quiet = true)
    (hstep : step c a = some c') : Canceling strict below c' := by
  have hloop : ∀ above, c'.stack = above ++ frame :: rest ++ below → Canceling strict below c' :=
    fun above h => ⟨above ++ frame :: rest, h, .inr ⟨above, frame, rest, rfl, hleaves, hrest⟩⟩
  have hleft : c'.stack = rest ++ below → c'.Returns strict → Canceling strict below c' :=
    fun h hreturns => ⟨rest, h, .inl ⟨hrest, hreturns⟩⟩
  rcases step_top hstack hstep with ⟨s, m, hcontrol, rfl, huser⟩ | ⟨v, hcontrol, hret⟩ |
    ⟨e, hcontrol, rfl⟩
  · obtain ⟨frames, hframes⟩ := userStep_stack huser
    exact hloop frames (by rw [hframes, hstack]; simp)
  · cases frame with
    | leaveResolutionLoop snapshot =>
      simp only [returnTo] at hret
      split at hret
      · cases hret
        exact ⟨.drain snapshot :: rest, rfl, .inr ⟨[], _, rest, rfl, rfl, hrest⟩⟩
      · cases hret
        exact hleft rfl (.inl ⟨_, rfl⟩)
    | drain snapshot =>
      simp only [returnTo] at hret
      split at hret
      · cases hret
        exact hleft rfl (.inl ⟨_, rfl⟩)
      · cases hret
        exact hloop [.runCallbacks _ _ _] rfl
    | _ => simp [Frame.leaves] at hleaves
  · have hnot : ¬ strict := by
      intro hstrict
      have hleaves' := leaves_of_quiet hcontrol hstack (hquiet hstrict)
      simp [hleaves] at hleaves'
    refine hleft ?_ (.inr ⟨hnot, e, ?_⟩)
    · cases frame <;> first | rfl | simp [Frame.leaves] at hleaves
    · cases frame <;> first | rfl | simp [Frame.leaves] at hleaves

theorem Canceling.step (h : Canceling strict below c) (hne : c.stack ≠ below)
    (hquiet : strict → c.quiet = true) (hstep : step c a = some c') : Canceling strict
    below c' := by
  obtain ⟨top, hstack, ⟨hall, hreturns⟩ | ⟨above, frame, rest, rfl, hleaves, hrest⟩⟩ := h
  · cases top with
    | nil => exact absurd hstack hne
    | cons frame top =>
      simp only [List.all_cons, Bool.and_eq_true] at hall
      rcases step_top hstack hstep with ⟨s, m, hcontrol, -⟩ | ⟨v, hcontrol, hret⟩ |
        ⟨e, hcontrol, rfl⟩
      · rcases hreturns with ⟨v, hv⟩ | ⟨-, e, he⟩
        · simp [hcontrol] at hv
        · simp [hcontrol] at he
      · obtain ⟨frames, hframes, hcancel⟩ := returnTo_cancels strict hall.1 hret
        exact ⟨frames ++ top, by rw [hframes]; exact (List.append_assoc ..).symm,
          hcancel.append hall.2⟩
      · have hnot : ¬ strict := by
          rcases hreturns with ⟨v, hv⟩ | ⟨hnot, -⟩
          · simp [hcontrol] at hv
          · exact hnot
        rw [raiseTo_cancels e hall.1]
        exact ⟨top, rfl, .inl ⟨hall.2, .inr ⟨hnot, e, rfl⟩⟩⟩
  · cases above with
    | nil => exact .step_loop hleaves hrest (by simpa using hstack) hquiet hstep
    | cons top above =>
      have hloop : ∀ above, c'.stack = above ++ frame :: rest ++ below →
          Canceling strict below c' := fun above h =>
        ⟨above ++ frame :: rest, h, .inr ⟨above, frame, rest, rfl, hleaves, hrest⟩⟩
      rcases step_stack hstep with ⟨frames, hframes⟩ | ⟨top', stack, frames, hpop, hframes⟩
      · exact hloop (frames ++ top :: above) (by rw [hframes, hstack]; simp)
      · obtain ⟨-, rfl⟩ : top' = top ∧ stack = above ++ frame :: rest ++ below := by
          simpa using hpop.symm.trans hstack
        exact hloop (frames ++ above) (by rw [hframes]; simp)

/-! ## `List.iter cancel ps` -/

/-- `List.iter cancel ps` on top of `below` is under way; the promises it has come to
have got their request since the trace was `past`. -/
def Iterating (strict : Prop) (past : List (Event U)) (ps : List Pid) (below : List (Frame U))
    (c : Config U) : Prop :=
  ∃ done rest, ps = done ++ rest ∧ (∀ q ∈ done, Requested past c q) ∧
    Canceling strict (.iterCancel rest :: below) c

/-- The iteration has returned to `below`, or, unless `strict`, an exception has left it. -/
def Iterated (strict : Prop) (past : List (Event U)) (ps : List Pid) (below : List (Frame U))
    (c : Config U) : Prop :=
  c.stack = below ∧ (((∃ v, c.control = .ret v) ∧ ∀ q ∈ ps, Requested past c q) ∨
    (¬ strict ∧ ∃ e, c.control = .exn e))

theorem iterating_push {past : List (Event U)} {v : Val U} (ps : List Pid)
    (hstack : c.stack = .iterCancel ps :: below) (hcontrol : c.control = .ret v) :
    Iterating strict past ps below c :=
  ⟨[], ps, rfl, by simp, [], hstack, .inl ⟨rfl, .inl ⟨v, hcontrol⟩⟩⟩

theorem Iterating.step {past : List (Event U)} {ps : List Pid}
    (h : Iterating strict past ps below c) (hs : Sound c.store)
    (hpast : ∃ new, c.trace = new ++ past) (hquiet : strict → c.quiet = true)
    (hstep : step c a = some c') :
    Iterating strict past ps below c' ∨ Iterated strict past ps below c' := by
  obtain ⟨done, rest, rfl, hdone, hcancel⟩ := h
  obtain ⟨newer, hnewer⟩ := step_trace hs hstep
  have hdone' : ∀ q ∈ done, Requested past c' q := fun q hq => (hdone q hq).of_append hnewer
  by_cases hstack : c.stack = .iterCancel rest :: below
  · rcases step_top hstack hstep with ⟨s, m, hcontrol, -⟩ | ⟨v, hcontrol, hret⟩ |
      ⟨e, hcontrol, rfl⟩
    · rcases hcancel.returns hstack with ⟨v, hv⟩ | ⟨-, e, he⟩
      · simp [hcontrol] at hv
      · simp [hcontrol] at he
    · cases rest with
      | nil =>
        cases hret
        exact .inr ⟨rfl, .inl ⟨⟨_, rfl⟩, by simpa using hdone'⟩⟩
      | cons p rest =>
        cases hret
        refine .inl ⟨done ++ [p], rest, by simp, fun q hq => ?_, canceling_cancel p⟩
        rcases List.mem_append.mp hq with hq | hq
        · exact hdone' q hq
        · obtain rfl : q = p := by simpa using hq
          obtain ⟨new, hnew⟩ := hpast
          exact ⟨.cancelRequested q :: new,
            by simp [cancel, Config.emit, Config.push, Config.ret, hnew], by simp⟩
    · have hnot : ¬ strict := by
        rcases hcancel.returns hstack with ⟨v, hv⟩ | ⟨hnot, -⟩
        · simp [hcontrol] at hv
        · exact hnot
      exact .inr ⟨rfl, .inr ⟨hnot, e, rfl⟩⟩
  · exact .inl ⟨done, rest, rfl, hdone', hcancel.step hstack hquiet hstep⟩

end Lwt
