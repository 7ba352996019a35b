import Lwt.Promise.Delivery
import Lwt.Promise.Snapshots

/-!
# The `with_value` calls that enclose a piece of code

What `Lwt.get key` is meant to return: the value of the innermost `with_value key` that
encloses the code that asks.  A function is enclosed by the calls on the stack of its caller
(`Scopes.callers`); a callback is enclosed by the calls that enclosed its attachment
(`Scopes.attached`), wherever it is called from.  `scopedStep` carries this account along
with the machine, without looking at the storage.  The invariant `Inside` says that the
storage agrees with it whenever user code runs.
-/

namespace Lwt

open Heap Table Transition

variable {U : Type} {c c' : Config U} {a : Label U}

/-! ## Scopes -/

variable (U) in
/-- The `with_value` calls around a piece of code, innermost first. -/
abbrev Scope := List (ℕ × Option (Val U))

namespace Scope

/-- The value of the innermost call for the key. -/
def value (key : ℕ) : Scope U → Option (Val U)
  | [] => none
  | (key', v) :: scope => if key' = key then v else value key scope

/-- The storage that the calls leave, one after the other from the outermost. -/
def storage : Scope U → Storage U
  | [] => []
  | (key, some v) :: scope => (storage scope).add key v
  | (key, none) :: scope => (storage scope).remove key

theorem find_remove (key key' : ℕ) (storage : Storage U) :
    (storage.remove key').find key = if key' = key then none else storage.find key := by
  unfold Storage.find Storage.remove
  induction storage with
  | nil => simp
  | cons entry storage ih =>
    by_cases hentry : entry.1 = key'
    · rw [List.filter_cons_of_neg (by simp [hentry]), ih]
      by_cases hkey : key' = key
      · simp [hkey]
      · have hne : entry.1 ≠ key := hentry ▸ hkey
        simp [hkey, hne]
    · rw [List.filter_cons_of_pos (by simp [hentry])]
      by_cases hkey : entry.1 = key
      · have hne : key' ≠ key := fun h => hentry (hkey.trans h.symm)
        simp [hkey, hne]
      · simpa [hkey] using ih

theorem find_add (key key' : ℕ) (v : Val U) (storage : Storage U) :
    (storage.add key' v).find key = if key' = key then some v else storage.find key := by
  have hremove := find_remove key key' storage
  by_cases hkey : key' = key
  · simp [Storage.find, Storage.add, hkey]
  · rw [if_neg hkey] at hremove ⊢
    rw [← hremove]
    simp [Storage.find, Storage.add, Storage.remove, hkey]

/-- Looking a key up in the storage finds the value of the innermost call. -/
theorem find_storage (key : ℕ) (scope : Scope U) : scope.storage.find key = scope.value key := by
  induction scope with
  | nil => rfl
  | cons entry scope ih =>
    obtain ⟨key', v⟩ := entry
    cases v with
    | none => rw [storage, find_remove, ih, value]
    | some v => rw [storage, find_add, ih, value]

end Scope

/-! ## The account -/

variable (U) in
/-- The scopes of the user code that ran last, of the user code that waits for calls to
return, and of the attachments made so far, by their numbers. -/
structure Scopes where
  current : Scope U
  callers : List (Scope U)
  attached : ℕ → Scope U

namespace Scopes

/-- Outside of all `with_value` calls. -/
def initial : Scopes U := ⟨[], [], fun _ => []⟩

/-- The scope after a move of the user: `with_value` opens one for its function. -/
def moved (s : Scopes U) : Move U → Scope U
  | .call (.withValue key value _) _ => (key, value) :: s.current
  | _ => s.current

/-- The scope after a value or an exception has reached a frame: user code that waited goes
on in its own scope, and a callback runs in that of its attachment. -/
def popped (s : Scopes U) : Frame U → Scope U
  | .user _ => s.callers.headD []
  | .runRegularCallbacks (.implicitlyRemoved node :: _) _ => s.attached node.id
  | .runCancelCallbacks (.callback mark _ _ :: _) => s.attached mark.id
  | _ => s.current

/-- The scopes after a step. -/
def after (s : Scopes U) (c : Config U) (a : Label U) (c' : Config U) : Scopes U where
  current :=
    match c.control, a, c.stack with
    | .user _, .move m, _ => s.moved m
    | _, _, frame :: _ => s.popped frame
    | _, _, [] => s.current
  callers := callersAfter c a s.current s.callers
  attached id := if c.nextNode ≤ id ∧ id < c'.nextNode then s.current else s.attached id

end Scopes

/-- A step of the machine with the account of scopes. -/
def scopedStep (x : Config U × Scopes U) (a : Label U) : Option (Config U × Scopes U) :=
  (step x.1 a).map fun c' => (c', x.2.after x.1 a c')

theorem scopedStep_eq_some {s s' : Scopes U} :
    scopedStep (c, s) a = some (c', s') ↔ step c a = some c' ∧ s' = s.after c a c' := by
  simp only [scopedStep, Option.map_eq_some_iff, Prod.mk.injEq]
  constructor
  · rintro ⟨c₁, hstep, rfl, rfl⟩
    exact ⟨hstep, rfl⟩
  · rintro ⟨hstep, rfl⟩
    exact ⟨c', hstep, rfl, rfl⟩

/-- When a callback is about to call the handler of `dont_wait`, or the hook of `async` and
`ignore_result`, the storage is the one of its attachment. -/
def Config.HandlersAtHome (c : Config U) : Prop :=
  ∀ node r, c.AboutToCall node r → node.callback.unrestored r = true →
    node.callback.snapshot = some c.storage

/-- No exception breaks a loop, `abandon_wakeups` is not called, and exceptions leave
`with_value` through its handler. -/
structure Config.Restoring (c : Config U) (a : Label U) : Prop where
  quiet : c.quiet = true
  abandons : a.abandons = false
  value : c.valueRestored = true

/-- Moreover, handlers that do not restore the storage find theirs. -/
structure Config.Tame (c : Config U) (a : Label U) : Prop extends c.Restoring a where
  home : c.HandlersAtHome

/-! ## The invariant -/

/-- User code, or a function that goes on in the storage of its user function, is next. -/
def Config.Personal (c : Config U) : Prop :=
  (∃ s, c.control = .user s) ∨ ∃ frame stack, c.stack = frame :: stack ∧ frame.direct = true

theorem not_personal (hcontrol : ∀ s, c.control ≠ .user s) (hbare : Bare c.stack) :
    ¬ c.Personal := by
  rintro (⟨s, hs⟩ | ⟨frame, stack, hstack, hdirect⟩)
  · exact hcontrol s hs
  · rw [hstack, bare_cons, hdirect] at hbare
    simp at hbare

theorem Works.not_personal (h : Works c c') (hbare : Bare c.stack) : ¬ c'.Personal := by
  obtain ⟨frames, hstack, -, hframes⟩ := h.stack
  refine Lwt.not_personal h.control ?_
  rw [hstack]
  exact hframes.append hbare

/-- The storage agrees with the scopes. -/
structure Inside (c : Config U) (s : Scopes U) : Prop where
  aligned : Aligned [] (fun _ => True) c.stack (s.callers.map Scope.storage) c.storage
  current : c.Personal → c.storage = s.current.storage
  node : ∀ node storage, .attached node ∈ c.trace → node.callback.snapshot = some storage →
    storage = (s.attached node.id).storage
  entry : ∀ entry : Entry U, c.store.Has entry →
    entry.storage = (s.attached entry.mark.id).storage

theorem inside_initial (main hook : U) : Inside (initial main hook) Scopes.initial :=
  ⟨.base trivial, fun _ => rfl, by simp [initial],
    fun entry hhas => absurd hhas (not_has_initial main hook entry)⟩

theorem map_callersAfter {α β : Type} (f : α → β) (c : Config U) (a : Label U) (x : α)
    (l : List α) : (callersAfter c a x l).map f = callersAfter c a (f x) (l.map f) := by
  unfold callersAfter
  split
  · rfl
  · rfl
  · rfl
  · split
    · rw [List.map_tail]
    · rfl

theorem callersAfter_congr {α : Type} {x y : α} {l : List α}
    (h : (∃ s, c.control = .user s) → x = y) : callersAfter c a x l = callersAfter c a y l := by
  unfold callersAfter
  split
  · rename_i hs
    rw [h ⟨_, hs⟩]
  · rename_i hs
    rw [h ⟨_, hs⟩]
  · rfl
  · rfl

theorem attached_after {s : Scopes U} {id : ℕ} (hid : id < c.nextNode) :
    (s.after c a c').attached id = s.attached id :=
  if_neg fun h => absurd h.1 (Nat.not_le.mpr hid)

theorem attached_after_new {s : Scopes U} {id : ℕ} (hge : c.nextNode ≤ id)
    (hlt : id < c'.nextNode) : (s.after c a c').attached id = s.current :=
  if_pos ⟨hge, hlt⟩

theorem works_runCallback {r : Result U} {callback : Callback U} (hf : callback.function r = none)
    (hrestored : callback.unrestored r = false) : Works c (runCallback c r callback) := by
  have hcompose : ∀ target storage (k : Compose U), k.function = none →
      Works c (runCompose c target storage r k) := by
    intro target storage k hk
    cases k with
    | pass => exact works_resolveUnderlying c target r
    | proxy f => simp [Compose.function] at hk
    | map f => simp [Compose.function] at hk
  have hignore : Works c (c.ret .unit) := .of_eq (by simp [Config.ret]) rfl rfl rfl
  cases callback with
  | compose target storage onFulfilled onRejected =>
    cases r with
    | fulfilled v => exact hcompose _ _ _ hf
    | rejected e => exact hcompose _ _ _ hf
  | observe storage onFulfilled onRejected =>
    cases r with
    | fulfilled v =>
      cases onFulfilled with
      | ignore => exact hignore
      | hooked f => simp [Callback.function, Observe.function] at hf
      | hookedUnit f => simp [Callback.function, Observe.function] at hf
      | bare h => simp [Callback.unrestored] at hrestored
      | hook => simp [Callback.unrestored] at hrestored
    | rejected e =>
      cases onRejected with
      | ignore => exact hignore
      | hooked f => simp [Callback.function, Observe.function] at hf
      | hookedUnit f => simp [Callback.function, Observe.function] at hf
      | bare h => simp [Callback.unrestored] at hrestored
      | hook => simp [Callback.unrestored] at hrestored
  | join j => exact works_runJoin c j r

theorem storage_runCallback_unrestored {r : Result U} {callback : Callback U}
    (h : callback.unrestored r = true) : (runCallback c r callback).storage = c.storage := by
  cases callback with
  | observe storage onFulfilled onRejected =>
    cases r with
    | fulfilled v => cases onFulfilled <;> first | rfl | simp [Callback.unrestored] at h
    | rejected e => cases onRejected <;> first | rfl | simp [Callback.unrestored] at h
  | _ => simp [Callback.unrestored] at h

theorem attached_of_aboutToCall {node : Node U} {r : Result U} (hc : Conserved c.store)
    (h : c.AboutToCall node r) : .attached node ∈ c.trace := by
  obtain ⟨v, rest, stack, -, hstack⟩ := h
  have hnode : node ∈ c.store.nodes := by
    refine Multiset.mem_add.mpr (.inr (Multiset.mem_bind.mpr ⟨_, regular_mem_work hstack, ?_⟩))
    simp [RegularCallbackList.nodes]
  refine mem_attachedNodes.mp ?_
  have hmem : node ∈ attachedNodes c.store.trace := by
    rw [show attachedNodes c.store.trace = _ from hc]
    exact Multiset.mem_add.mpr (.inl hnode)
  exact hmem

section Step

variable {s : Scopes U}

theorem Inside.current_user (h : Inside c s) {m : Move U} {t : UserState U}
    (hcontrol : c.control = .user t) (habandons : (Label.move m).abandons = false)
    (hstep : userStep c m = some c') :
    c'.storage = (s.after c (.move m) c').current.storage := by
  have hcurrent : c.storage = s.current.storage := h.current (.inl ⟨t, hcontrol⟩)
  simp only [Scopes.after, hcontrol]
  cases m with
  | call o u =>
    simp only [userStep] at hstep
    split at hstep
    · cases hstep
      by_cases ho : o.keepsStorage = true
      · have hstorage := (lays_execute (c := c.push [.user u]) ho).storage
        rw [hstorage]
        cases o with
        | withValue key value f => simp [Op.keepsStorage] at ho
        | _ => exact hcurrent
      · cases o with
        | withValue key value f =>
          cases value with
          | none => exact congrArg (Storage.remove key) hcurrent
          | some v => exact congrArg (Storage.add key v) hcurrent
        | abandonWakeups => simp [Label.abandons] at habandons
        | _ => simp [Op.keepsStorage] at ho
    · simp at hstep
  | apply f argument u =>
    cases hstep
    exact hcurrent
  | ret v =>
    simp only [userStep] at hstep
    split at hstep
    · simp at hstep
    · split at hstep
      · cases hstep
        exact hcurrent
      · simp at hstep
  | raise e =>
    simp only [userStep] at hstep
    split at hstep
    · simp at hstep
    · cases hstep
      exact hcurrent

variable {frame : Frame U} {stack : List (Frame U)}

theorem Inside.current_caller (h : Inside c s) {u : U}
    (hstack : c.stack = .user u :: stack) :
    c.storage = (s.popped (.user u)).storage := by
  have haligned := h.aligned
  rw [hstack] at haligned
  obtain ⟨callers, hcallers, -⟩ := haligned.pop_user (Nat.zero_le _) rfl
  cases hlist : s.callers with
  | nil => simp [hlist] at hcallers
  | cons scope rest =>
    simp only [hlist, List.map_cons, List.cons.injEq] at hcallers
    simp only [Scopes.popped, hlist, List.headD_cons]
    exact hcallers.1.symm

theorem Inside.current_cancels (h : Inside c s) {todo : List (CancelCallbackList U)}
    (hstack : c.stack = .runCancelCallbacks todo :: stack) (hbare : Bare stack)
    (hpersonal : (runCancelCallbacks { c with stack := stack } todo).Personal) :
    (runCancelCallbacks { c with stack := stack } todo).storage =
      (s.popped (.runCancelCallbacks todo)).storage := by
  cases todo with
  | nil => exact absurd hpersonal (not_personal (by simp [runCancelCallbacks, Config.ret]) hbare)
  | cons l rest =>
    cases l with
    | callback mark storage f =>
      cases f with
      | user f =>
        exact h.entry ⟨mark, storage, .user f⟩ (.inr ⟨_, cancels_mem_work hstack, rfl⟩)
      | removeTheCallback cell =>
        exact absurd hpersonal
          (not_personal (by simp [runCancelCallbacks, Config.ret]) (bare_cons.mpr rfl))
    | _ =>
      exact absurd hpersonal
        (not_personal (by simp [runCancelCallbacks, Config.ret]) (bare_cons.mpr rfl))

/-- A callback is called: its user function finds its snapshot, and a handler that does not
restore the storage finds the same. -/
theorem Inside.current_node (h : Inside c s) (hc : Conserved c.store) (hhome : c.HandlersAtHome)
    {node : Node U} {r : Result U} (hcall : c.AboutToCall node r) (c₁ : Config U)
    (hstorage : c₁.storage = c.storage) (hbare : Bare c₁.stack)
    (hpersonal : (runCallback c₁ r node.callback).Personal) :
    (runCallback c₁ r node.callback).storage = (s.attached node.id).storage := by
  have hattached := attached_of_aboutToCall hc hcall
  cases hf : node.callback.function r with
  | some f =>
    obtain ⟨argument, -, hsaved⟩ := runCallback_function (c := c₁) hf
    exact h.node node _ hattached hsaved
  | none =>
    cases hrestored : node.callback.unrestored r with
    | true =>
      rw [storage_runCallback_unrestored hrestored, hstorage]
      exact h.node node c.storage hattached (hhome node r hcall hrestored)
    | false => exact absurd hpersonal ((works_runCallback hf hrestored).not_personal hbare)

theorem Inside.current_regulars (h : Inside c s) (hc : Conserved c.store)
    (hhome : c.HandlersAtHome) {todo : List (RegularCallbackList U)} {r : Result U} {v : Val U}
    (hcontrol : c.control = .ret v) (hstack : c.stack = .runRegularCallbacks todo r :: stack)
    (hbare : Bare stack)
    (hpersonal : (runRegularCallbacks { c with stack := stack } r todo).Personal) :
    (runRegularCallbacks { c with stack := stack } r todo).storage =
      (s.popped (.runRegularCallbacks todo r)).storage := by
  cases todo with
  | nil => exact absurd hpersonal (not_personal (by simp [runRegularCallbacks, Config.ret]) hbare)
  | cons l rest =>
    cases l with
    | implicitlyRemoved node =>
      simp only [runRegularCallbacks] at hpersonal ⊢
      exact h.current_node hc hhome ⟨v, rest, stack, hcontrol, hstack⟩ _ rfl
        (bare_cons.mpr rfl) hpersonal
    | explicitlyRemovable i =>
      refine absurd hpersonal ?_
      simp only [runRegularCallbacks]
      split
      · rename_i cell hcell
        split
        · exact (works_runCellBody _ _ _).not_personal (bare_cons.mpr rfl)
        · exact not_personal (by simp [Config.ret]) (bare_cons.mpr rfl)
      · exact not_personal (by simp [Config.ret]) (bare_cons.mpr rfl)
    | _ =>
      exact absurd hpersonal
        (not_personal (by simp [runRegularCallbacks, Config.ret]) (bare_cons.mpr rfl))

theorem Inside.current_ret (h : Inside c s) (hc : Conserved c.store) (hhome : c.HandlersAtHome)
    {v : Val U} (hcontrol : c.control = .ret v) (hstack : c.stack = frame :: stack)
    (hret : returnTo { c with stack := stack } v frame = some c') (hpersonal : c'.Personal) :
    c'.storage = (s.popped frame).storage := by
  have haligned := h.aligned
  rw [hstack] at haligned
  have hzero : ([] : List (Frame U)).length ≤ stack.length := Nat.zero_le _
  by_cases hsteady : frame.steady = true
  -- a steady frame gives control to no user code
  · have hsteady' := hsteady
    simp only [Frame.steady, Bool.and_eq_true, Bool.not_eq_true'] at hsteady'
    obtain ⟨hcover, -⟩ := haligned.pop_keep hzero hsteady'.1
    have hbare : Bare stack := by
      rcases hcover with rfl | hbare
      · simp [Frame.direct] at hsteady'
      · exact hbare
    have hworks := works_returnTo { c with stack := stack } hsteady hret
    exact absurd hpersonal (hworks.not_personal hbare)
  · have hdirect : frame.direct = true → c.storage = s.current.storage := fun hd =>
      h.current (.inr ⟨frame, stack, hstack, hd⟩)
    cases frame with
    | user u =>
      cases hret
      exact h.current_caller hstack
    | guardFail =>
      cases hret
      exact hdirect rfl
    | attach k =>
      simp only [returnTo] at hret
      split at hret
      · split at hret
        · cases hret
          exact (lays_attachTo _ _ _).storage.trans (hdirect rfl)
        · simp at hret
      · simp at hret
    | hooked =>
      cases hret
      exact hdirect rfl
    | runCallbacks p callbacks r =>
      cases hret
      refine absurd hpersonal (not_personal (by simp [runCallbacks, Config.ret]) ?_)
      unfold runCallbacks
      dsimp only
      split
      · exact bare_cons.mpr rfl
      · exact bare_cons.mpr rfl
    | runCancelCallbacks todo =>
      obtain ⟨hbare, -⟩ := haligned.pop_callBack hzero rfl
      cases hret
      exact h.current_cancels hstack hbare hpersonal
    | runRegularCallbacks todo r =>
      obtain ⟨hbare, -⟩ := haligned.pop_callBack hzero rfl
      cases hret
      exact h.current_regulars hc hhome hcontrol hstack hbare hpersonal
    | leaveResolutionLoop snapshot =>
      obtain ⟨hbare, -⟩ := haligned.pop_restore hzero rfl
      simp only [returnTo] at hret
      split at hret
      · cases hret
        exact absurd hpersonal (not_personal (by simp [Config.ret]) (bare_cons.mpr rfl))
      · cases hret
        exact absurd hpersonal (not_personal (by simp [Config.ret]) hbare)
    | drain snapshot =>
      obtain ⟨hbare, -⟩ := haligned.pop_restore hzero rfl
      simp only [returnTo] at hret
      split at hret
      · cases hret
        exact absurd hpersonal (not_personal (by simp [Config.ret]) hbare)
      · cases hret
        exact absurd hpersonal (not_personal (by simp [Config.ret]) (bare_cons.mpr rfl))
    | withValue saved =>
      obtain ⟨hbare, -⟩ := haligned.pop_restore hzero rfl
      cases hret
      exact absurd hpersonal (not_personal (by simp [Config.ret]) hbare)
    | _ => exact absurd rfl hsteady

theorem Inside.current_exn (h : Inside c s) {e : Exn U} (hstack : c.stack = frame :: stack)
    (hbreaks : frame.breaks c e = false)
    (hvalue : ∀ saved, frame = .withValue saved → c.exceptionFilter e = true)
    (hpersonal : (raiseTo { c with stack := stack } e frame).Personal) :
    (raiseTo { c with stack := stack } e frame).storage = (s.popped frame).storage := by
  have haligned := h.aligned
  rw [hstack] at haligned
  have hzero : ([] : List (Frame U)).length ≤ stack.length := Nat.zero_le _
  by_cases hsteady : frame.steady = true
  · have hsteady' := hsteady
    simp only [Frame.steady, Bool.and_eq_true, Bool.not_eq_true'] at hsteady'
    obtain ⟨hcover, -⟩ := haligned.pop_keep hzero hsteady'.1
    have hbare : Bare stack := by
      rcases hcover with rfl | hbare
      · simp [Frame.direct] at hsteady'
      · exact hbare
    have hworks := works_raiseTo { c with stack := stack } e hsteady
    exact absurd hpersonal (hworks.not_personal hbare)
  · have hdirect : frame.direct = true → c.storage = s.current.storage := fun hd =>
      h.current (.inr ⟨frame, stack, hstack, hd⟩)
    cases frame with
    | user u => exact h.current_caller hstack
    | guardFail =>
      simp only [raiseTo]
      split
      · exact hdirect rfl
      · exact hdirect rfl
    | attach k => exact hdirect rfl
    | hooked =>
      simp only [raiseTo]
      split
      · exact hdirect rfl
      · exact hdirect rfl
    | withValue saved =>
      obtain ⟨hbare, -⟩ := haligned.pop_restore hzero rfl
      simp only [raiseTo, if_pos (hvalue saved rfl)] at hpersonal
      exact absurd hpersonal (not_personal (by simp [Config.raise]) hbare)
    | runCallbacks | runCancelCallbacks | runRegularCallbacks | leaveResolutionLoop | drain =>
      simp [Frame.breaks] at hbreaks
    | _ => exact absurd rfl hsteady

theorem Inside.current_step (h : Inside c s) (hc : Conserved c.store) (htame : c.Tame a)
    (hstep : step c a = some c') (hpersonal : c'.Personal) :
    c'.storage = (s.after c a c').current.storage := by
  rcases step_cases hstep with ⟨t, m, hcontrol, rfl, huser⟩ |
    ⟨v, frame, stack, hcontrol, hstack, rfl, hret⟩ | ⟨e, frame, stack, hcontrol, hstack, rfl, rfl⟩
  · exact h.current_user hcontrol htame.abandons huser
  · simp only [Scopes.after, hcontrol, hstack]
    exact h.current_ret hc htame.home hcontrol hstack hret hpersonal
  · simp only [Scopes.after, hcontrol, hstack]
    refine h.current_exn hstack ?_ ?_ hpersonal
    · simpa [Config.quiet, hcontrol, hstack] using htame.quiet
    · rintro saved rfl
      simpa [Config.valueRestored, hcontrol, hstack] using htame.value

theorem Inside.step (h : Inside c s) (hs : Sound c.store) (hc : Conserved c.store)
    (hfresh : Fresh c) (htame : c.Tame a) (halive : c'.control ≠ .crash)
    (hstep : step c a = some c') : Inside c' (s.after c a c') := by
  have hattaches := step_attaches hs halive hstep
  -- What is attached is attached by code that runs in its own storage.
  have hnew : ∀ {id : ℕ}, c.nextNode ≤ id → id < c'.nextNode →
      c.storage = ((s.after c a c').attached id).storage := by
    intro id hge hlt
    rw [attached_after_new hge hlt]
    have hne : c'.nextNode ≠ c.nextNode := by omega
    rcases nextNode_cases hstep hne with huser | ⟨k, stack, hstack⟩
    · exact h.current (.inl huser)
    · exact h.current (.inr ⟨_, stack, hstack, rfl⟩)
  refine ⟨?_, h.current_step hc htame hstep, fun node storage hmem hsaved => ?_,
    fun entry hhas => ?_⟩
  · have hlen : ([] : List (Frame U)).length < c.stack.length ∨ ∃ s, c.control = .user s := by
      rcases step_cases hstep with ⟨t, m, hcontrol, -⟩ | ⟨v, frame, stack, -, hstack, -⟩ |
        ⟨e, frame, stack, -, hstack, -⟩
      · exact .inr ⟨t, hcontrol⟩
      · exact .inl (by simp [hstack])
      · exact .inl (by simp [hstack])
    have haligned := h.aligned.step htame.quiet htame.abandons htame.value hlen hstep
    have hcallers : (s.after c a c').callers.map Scope.storage =
        callersAfter c a c.storage (s.callers.map Scope.storage) := by
      rw [callersAfter_congr fun huser => h.current (.inl huser)]
      exact map_callersAfter Scope.storage c a s.current s.callers
    rw [hcallers]
    exact haligned
  · rcases hattaches.node node hmem with hold | ⟨hge, hlt, hstorage⟩
    · rw [attached_after (hfresh.node node hold)]
      exact h.node node storage hold hsaved
    · rw [hstorage storage hsaved]
      exact hnew hge hlt
  · rcases hattaches.entry entry hhas with hold | ⟨hge, hlt, hstorage⟩
    · rw [attached_after (hfresh.entry entry hold)]
      exact h.entry entry hold
    · rw [hstorage]
      exact hnew hge hlt

end Step

/-! ## Runs -/

theorem exists_scopes {ok : Config U → Label U → Prop} (h : Reach step ok c c') (s : Scopes U) :
    ∃ s', Reach scopedStep (fun x a => ok x.1 a) (c, s) (c', s') := by
  induction h with
  | refl => exact ⟨s, .refl⟩
  | @tail c₁ c₂ a _ hok hstep ih =>
    obtain ⟨s₁, hreach⟩ := ih
    exact ⟨s₁.after c₁ a c₂, hreach.tail a hok (scopedStep_eq_some.mpr ⟨hstep, rfl⟩)⟩

theorem reach_of_scoped (ok : Config U → Label U → Prop) {x y : Config U × Scopes U}
    (h : Reach scopedStep (fun x a => ok x.1 a) x y) : Reach step ok x.1 y.1 := by
  refine h.invariant (P := fun y => Reach step ok x.1 y.1) .refl ?_
  rintro ⟨c₁, s₁⟩ a ⟨c₂, s₂⟩ hreach hok hstep
  exact hreach.tail a hok (scopedStep_eq_some.mp hstep).1

theorem step_conserved (hs : Sound c.store) (hquiet : c.quiet = true) (hc : Conserved c.store)
    (halive : c'.control ≠ .crash) (hstep : step c a = some c') : Conserved c'.store := by
  obtain ⟨s', hacts, hend⟩ := step_sim hs (permits_quietGuard hquiet) hstep
  rcases hend with ⟨hcrash, -⟩ | ⟨-, rfl⟩
  · exact absurd hcrash halive
  · exact (hacts.invariant (P := fun s => Sound s ∧ Conserved s) ⟨hs, hc⟩ fun s s' h hact =>
      ⟨hact.sound h.1, hact.conserved h.1.wellFormed (fun h => h rfl) h.2⟩).2

theorem conserved_initial (main hook : U) : Conserved (initial main hook).store := by
  simp [Conserved, nodes_eq, initial, Config.store, attachedNodes, calledNodes,
    heapTotal, queueWork]

theorem reach_fresh {ok : Config U → Label U → Prop} {main hook : U}
    (hreach : Reach step ok (initial main hook) c) (halive : c.control ≠ .crash) :
    Sound c.store ∧ Fresh c := by
  refine hreach.invariant (P := fun c => c.control ≠ .crash → Sound c.store ∧ Fresh c)
    (fun _ => ⟨sound_initial main hook, fresh_initial main hook⟩) ?_ halive
  intro c₁ a c₂ hinv _ hstep halive
  obtain ⟨hs, hfresh⟩ := hinv (control_ne_crash_of_step hstep)
  exact ⟨step_sound hs halive hstep, hfresh.step (step_attaches hs halive hstep)⟩

theorem reach_inside {main hook : U} {s : Scopes U}
    (hreach : Reach scopedStep (fun x a => x.1.Tame a) (initial main hook, Scopes.initial) (c, s))
    (halive : c.control ≠ .crash) : Inside c s := by
  have hinv : c.control ≠ .crash →
      (Sound c.store ∧ Conserved c.store ∧ Fresh c) ∧ Inside c s := by
    refine hreach.invariant (P := fun x => x.1.control ≠ .crash →
      (Sound x.1.store ∧ Conserved x.1.store ∧ Fresh x.1) ∧ Inside x.1 x.2)
      (fun _ => ⟨⟨sound_initial main hook, conserved_initial main hook, fresh_initial main hook⟩,
        inside_initial main hook⟩) ?_
    rintro ⟨c₁, s₁⟩ a ⟨c₂, s₂⟩ hinv htame hstep halive
    obtain ⟨hmoves, rfl⟩ := scopedStep_eq_some.mp hstep
    obtain ⟨⟨hs, hc, hfresh⟩, hinside⟩ := hinv (control_ne_crash_of_step hmoves)
    exact ⟨⟨step_sound hs halive hmoves, step_conserved hs htame.quiet hc halive hmoves,
      hfresh.step (step_attaches hs halive hmoves)⟩,
      hinside.step hs hc hfresh htame halive hmoves⟩
  exact (hinv halive).2

theorem aligned_of_call {o : Op U} {u : U} {c₁ c₂ : Config U} (ho : o ≠ .abandonWakeups)
    (hcall : step c (.move (.call o u)) = some c₁)
    (hrun : Reach step (fun d a => d.Restoring a ∧ c.stack.length < d.stack.length) c₁ c₂) :
    ∃ callers, Aligned c.stack (fun storage => storage = c.storage) c₂.stack callers
      c₂.storage := by
  refine hrun.invariant (P := fun d => ∃ callers,
    Aligned c.stack (fun storage => storage = c.storage) d.stack callers d.storage) ?_ ?_
  · obtain ⟨⟨t, hcontrol⟩, huser⟩ := step_move hcall
    have habandons : (Label.move (.call o u)).abandons = false := by
      cases o <;> first | rfl | exact absurd rfl ho
    have hbase : Aligned c.stack (fun storage => storage = c.storage) c.stack [] c.storage :=
      .base rfl
    exact ⟨_, hbase.step_user hcontrol habandons huser⟩
  · rintro d a d' ⟨callers, haligned⟩ ⟨hrestoring, hlen⟩ hstep
    exact ⟨_, haligned.step hrestoring.quiet hrestoring.abandons hrestoring.value (.inl hlen) hstep⟩

theorem attachTo_pending (hwf : c.heap.WellFormed) {k : Combinator U} {p : Pid}
    {callbacks : Callbacks U} (hp : c.heap.stateOf p = some (.pending callbacks)) :
    ∃ node p'', (attachTo c k p).trace = .attached node :: c.trace ∧
      node.callback = k.callback p'' c.storage ∧ node.id = c.nextNode ∧
      (attachTo c k p).nextNode = c.nextNode + 1 ∧ (attachTo c k p).control ≠ .crash := by
  have hget : (c.heap.compress p)[c.heap.root p]? = some (.pending callbacks) :=
    ((compressed_compress hwf p).getElem?_root hwf p).trans hp
  unfold attachTo
  dsimp only [Config.follow]
  rw [hget]
  dsimp only
  split
  · exact ⟨_, _, rfl, rfl, rfl, rfl, by simp [Config.ret]⟩
  · exact ⟨_, _, rfl, rfl, rfl, rfl, by simp [Config.ret]⟩

theorem onCancel_pending (hwf : c.heap.WellFormed) {p : Pid} {f : U}
    {callbacks : Callbacks U} (hp : c.heap.stateOf p = some (.pending callbacks)) :
    onCancel c p f = ((c.follow p).attachCancelCallback (c.heap.root p) (.user f)).ret .unit := by
  have hget : (c.heap.compress p)[c.heap.root p]? = some (.pending callbacks) :=
    ((compressed_compress hwf p).getElem?_root hwf p).trans hp
  unfold onCancel
  dsimp only [Config.follow]
  rw [hget]

theorem step_call {o : Op U} {u : U} {c₁ : Config U}
    (hcall : step c (.move (.call o u)) = some c₁) :
    (∃ t, c.control = .user t) ∧ c₁ = execute (c.push [.user u]) o := by
  obtain ⟨huser, hstep⟩ := step_move hcall
  exact ⟨huser, (userStep_call hstep).2⟩

theorem onCancel_runsWith (hs : Sound c.store) (hfresh : Fresh c) {p : Pid} {f u : U}
    {c₁ : Config U} {callbacks : Callbacks U}
    (hp : c.heap.stateOf p = some (.pending callbacks))
    (hcall : step c (.move (.call (.onCancel p f) u)) = some c₁) :
    ∃ mark, c₁.trace = .cancelAttached mark :: c.trace ∧ CancelRunsWith c₁ mark f c.storage ∧
      mark.id = c.nextNode ∧ Sound c₁.store ∧ c₁.nextNode = c.nextNode + 1 := by
  obtain ⟨-, hexec⟩ := step_call hcall
  have hpush : (c.push [.user u]).store = c.store := by
    rw [store_push]
    simp [Frame.work]
  have hc₁ : c₁ = (((c.push [.user u]).follow p).attachCancelCallback (c.heap.root p)
      (.user f)).ret .unit := hexec.trans (onCancel_pending (c := c.push [.user u])
      hs.wellFormed hp)
  have halive : c₁.control ≠ .crash := by simp [hc₁, Config.ret]
  have hs₁ := step_sound hs halive hcall
  subst hc₁
  refine ⟨⟨c.nextNode, c.heap.root p⟩, rfl, cancelRunsWith hs₁ (Nat.lt_succ_self _) ?_, rfl, hs₁,
    rfl⟩
  intro entry hhas hmark
  rcases has_attachCancelCallback _ hhas with rfl | hold
  · exact ⟨rfl, rfl⟩
  · have hold' : c.store.Has entry := by
      rw [← hpush]
      exact hold.imp_left fun h => h.of_compressed hs.wellFormed
        (compressed_compress hs.wellFormed p)
    have hlt := hfresh.entry entry hold'
    rw [hmark] at hlt
    exact absurd hlt (lt_irrefl _)

/-- In every run from `x` on, the attachment `id` is enclosed by `scope`; its callback runs in
this scope. -/
def EnclosedBy (x : Config U × Scopes U) (id : ℕ) (scope : Scope U) : Prop :=
  ∀ y, Reach scopedStep (fun _ _ => True) x y → y.2.attached id = scope

theorem enclosedBy_after {s : Scopes U} {id : ℕ} (hs : Sound c'.store)
    (hge : c.nextNode ≤ id) (hlt : id < c'.nextNode) :
    EnclosedBy (c', s.after c a c') id s.current := by
  intro y hrun
  have hinv : y.2.attached id = s.current ∧
      (y.1.control ≠ .crash → Sound y.1.store ∧ id < y.1.nextNode) := by
    refine hrun.invariant (P := fun y => y.2.attached id = s.current ∧
      (y.1.control ≠ .crash → Sound y.1.store ∧ id < y.1.nextNode))
      ⟨attached_after_new hge hlt, fun _ => ⟨hs, hlt⟩⟩ ?_
    rintro ⟨c₁, s₁⟩ a ⟨c₂, s₂⟩ ⟨hscope, hinv⟩ - hstep
    obtain ⟨hmoves, rfl⟩ := scopedStep_eq_some.mp hstep
    obtain ⟨hs₁, hlt₁⟩ := hinv (control_ne_crash_of_step hmoves)
    refine ⟨(attached_after hlt₁).trans hscope, fun halive => ?_⟩
    exact ⟨step_sound hs₁ halive hmoves, hlt₁.trans_le (step_attaches hs₁ halive hmoves).le⟩
  exact hinv.1

/-- A combinator that attaches its callback in a step: the callback runs with the storage of
the attachment, in its scope. -/
theorem runsWith_of_attachTo {s : Scopes U} {d : Config U} (hs : Sound c.store)
    (hheap : d.heap = c.heap) (htrace : d.trace = c.trace) (hstorage : d.storage = c.storage)
    (hnext : d.nextNode = c.nextNode) {k : Combinator U} {p : Pid} {callbacks : Callbacks U}
    (hp : c.heap.stateOf p = some (.pending callbacks)) (hstep : step c a = some c')
    (hattach : c' = attachTo d k p) :
    ∃ node, c'.trace = .attached node :: c.trace ∧ RunsWith c' node k c.storage ∧
      EnclosedBy (c', s.after c a c') node.id s.current := by
  have hwf : d.heap.WellFormed := hheap ▸ hs.wellFormed
  obtain ⟨node, p'', htrace', hcallback, hid, hnext', halive⟩ :=
    attachTo_pending hwf (k := k) (hheap ▸ hp)
  rw [← hattach] at htrace' hnext' halive
  rw [hstorage] at hcallback
  have hs' : Sound c'.store := step_sound hs halive hstep
  refine ⟨node, htrace ▸ htrace', runsWith_callback hcallback c', enclosedBy_after hs' ?_ ?_⟩
  · omega
  · omega

/-- The function of `catch` and the like has returned `p`: the storage is the one of the call,
and the callback is attached next. -/
theorem tryAttach_returned {f u : U} {k : Combinator U} {p : Pid} {c₁ c₂ c₃ : Config U}
    (hcall : step c (.move (.call (.tryAttach f k) u)) = some c₁)
    (hrun : Reach step (fun d a => d.Restoring a ∧ c.stack.length < d.stack.length) c₁ c₂)
    (hcontrol : c₂.control = .ret (.promise p))
    (hstack : c₂.stack = .attach k :: .user u :: c.stack)
    (hstep : step c₂ .tau = some c₃) :
    c₂.storage = c.storage ∧ c₃ = attachTo { c₂ with stack := .user u :: c.stack } k p := by
  constructor
  · -- Below `attach` lies only the caller, which gets back the storage of the call.
    obtain ⟨callers, haligned⟩ := aligned_of_call (by simp) hcall hrun
    rw [hstack] at haligned
    obtain ⟨-, haligned⟩ := haligned.pop_keep (by simp) rfl
    obtain ⟨callers', -, haligned⟩ := haligned.pop_user le_rfl rfl
    exact (haligned.eq_base le_rfl).2
  · rcases step_cases hstep with ⟨t', m, hcontrol', -⟩ |
      ⟨v, frame, stack, hcontrol', hstack', -, hret⟩ | ⟨e, frame, stack, hcontrol', -⟩
    · simp [hcontrol] at hcontrol'
    · obtain rfl : Val.promise p = v := by simpa [hcontrol] using hcontrol'
      obtain ⟨rfl, rfl⟩ : Frame.attach k = frame ∧ .user u :: c.stack = stack := by
        simpa [hstack] using hstack'
      simp only [returnTo] at hret
      split at hret
      · exact (Option.some.inj hret).symm
      · simp at hret
    · simp [hcontrol] at hcontrol'

theorem control_get {key : ℕ} {u : U} {c₁ : Config U}
    (hcall : step c (.move (.call (.get key) u)) = some c₁) :
    c₁.control = .ret ((c.storage.find key).elim .none .some) := by
  obtain ⟨-, rfl⟩ := step_call hcall
  simp only [execute, Config.ret, Config.push]
  cases c.storage.find key <;> rfl

/-- In every run: the user function of a combinator on a pending promise and a cancel callback
run with the storage of the call, in the scope of the call, whatever happens in between.  If
during a call no exception breaks a loop, `abandon_wakeups` is not called and exceptions leave
`with_value` through its handler, then the storage is the same after the call as before, and
the handlers of `catch f` and the like run with it.  If this is so in the whole run, and
handlers that do not restore the storage find theirs, then `get` returns the value of the
innermost `with_value` that encloses the user code. -/
theorem storage_follows_scopes {main hook : U} {s : Scopes U}
    (hreach : Reach scopedStep (fun _ _ => True) (initial main hook, Scopes.initial) (c, s)) :
    (∀ k p u c₁ callbacks, c.heap.stateOf p = some (.pending callbacks) →
      step c (.move (.call (.attach k p) u)) = some c₁ →
      ∃ node, c₁.trace = .attached node :: c.trace ∧ RunsWith c₁ node k c.storage ∧
        EnclosedBy (c₁, s.after c (.move (.call (.attach k p) u)) c₁) node.id s.current) ∧
    (∀ p f u c₁ callbacks, c.heap.stateOf p = some (.pending callbacks) →
      step c (.move (.call (.onCancel p f) u)) = some c₁ →
      ∃ mark, c₁.trace = .cancelAttached mark :: c.trace ∧ CancelRunsWith c₁ mark f c.storage ∧
        EnclosedBy (c₁, s.after c (.move (.call (.onCancel p f) u)) c₁) mark.id s.current) ∧
    (∀ f k u x₁ c₂ s₂ c₃ p callbacks,
      scopedStep (c, s) (.move (.call (.tryAttach f k) u)) = some x₁ →
      Reach scopedStep (fun x a => x.1.Restoring a ∧ c.stack.length < x.1.stack.length) x₁
        (c₂, s₂) →
      c₂.control = .ret (.promise p) → c₂.stack = .attach k :: .user u :: c.stack →
      c₂.heap.stateOf p = some (.pending callbacks) → step c₂ .tau = some c₃ →
      ∃ node, c₃.trace = .attached node :: c₂.trace ∧ RunsWith c₃ node k c.storage ∧
        EnclosedBy (c₃, s₂.after c₂ .tau c₃) node.id s₂.current) ∧
    (∀ o u c₁ c₂, o ≠ .abandonWakeups → step c (.move (.call o u)) = some c₁ →
      Reach step (fun d a => d.Restoring a ∧ c.stack.length < d.stack.length) c₁ c₂ →
      c₂.stack.length ≤ c.stack.length → c₂.stack = c.stack ∧ c₂.storage = c.storage) ∧
    (Reach scopedStep (fun x a => x.1.Tame a) (initial main hook, Scopes.initial) (c, s) →
      (∀ t, c.control = .user t → c.storage = s.current.storage ∧
        ∀ key u c₁, step c (.move (.call (.get key) u)) = some c₁ →
          c₁.control = .ret ((s.current.value key).elim .none .some)) ∧
      ∀ k stack, c.stack = .attach k :: stack → c.control ≠ .crash →
        c.storage = s.current.storage) := by
  have hplain := reach_of_scoped (fun _ _ => True) hreach
  refine ⟨?_, ?_, ?_, ?_, fun htame => ⟨fun t hcontrol => ?_, fun k stack hstack halive => ?_⟩⟩
  · intro k p u c₁ callbacks hp hcall
    obtain ⟨hs, -⟩ := reach_fresh hplain (control_ne_crash_of_step hcall)
    exact runsWith_of_attachTo (d := c.push [.user u]) hs rfl rfl rfl rfl hp hcall
      (step_call hcall).2
  · intro p f u c₁ callbacks hp hcall
    obtain ⟨hs, hfresh⟩ := reach_fresh hplain (control_ne_crash_of_step hcall)
    obtain ⟨mark, htrace, hruns, hid, hs₁, hnext⟩ := onCancel_runsWith hs hfresh hp hcall
    exact ⟨mark, htrace, hruns, enclosedBy_after hs₁ hid.ge (by omega)⟩
  · rintro f k u ⟨c₁, s₁⟩ c₂ s₂ c₃ p callbacks hscoped hrun hcontrol hstack hp hstep
    obtain ⟨hcall, -⟩ := scopedStep_eq_some.mp hscoped
    -- the callback is attached in the run that began with the guarded call
    have hrun' := reach_of_scoped
      (fun d a => d.Restoring a ∧ c.stack.length < d.stack.length) hrun
    have hwhole : Reach step (fun _ _ => True) (initial main hook) c₂ :=
      (hplain.tail _ trivial hcall).trans (hrun'.mono fun _ _ _ => trivial)
    obtain ⟨hs₂, -⟩ := reach_fresh hwhole (by simp [hcontrol])
    obtain ⟨hstorage, hattach⟩ := tryAttach_returned hcall hrun' hcontrol hstack hstep
    rw [← hstorage]
    exact runsWith_of_attachTo (d := { c₂ with stack := .user u :: c.stack }) hs₂ rfl rfl rfl rfl
      hp hstep hattach
  · intro o u c₁ c₂ ho hcall hrun hlen
    obtain ⟨callers, haligned⟩ := aligned_of_call ho hcall hrun
    exact haligned.eq_base hlen
  · have hstorage := (reach_inside htame (by simp [hcontrol])).current (.inl ⟨t, hcontrol⟩)
    refine ⟨hstorage, fun key u c₁ hcall => ?_⟩
    rw [control_get hcall, hstorage, Scope.find_storage]
  · exact (reach_inside htame halive).current (.inr ⟨_, stack, hstack, rfl⟩)

/-- The next step does not call a handler that leaves the storage as it is. -/
def Config.callsRestored (c : Config U) : Bool :=
  match c.control, c.stack with
  | .ret _, .runRegularCallbacks (.implicitlyRemoved node :: _) r :: _ =>
    !node.callback.unrestored r
  | _, _ => true

theorem tame_of_checks (hquiet : c.quiet = true) (habandons : a.abandons = false)
    (hvalue : c.valueRestored = true) (hcalls : c.callsRestored = true) : c.Tame a := by
  refine ⟨⟨hquiet, habandons, hvalue⟩, ?_⟩
  rintro node r ⟨v, rest, stack, hcontrol, hstack⟩ hunrestored
  simp [Config.callsRestored, hcontrol, hstack, hunrestored] at hcalls

/-- A callback attached inside of `with_value`, called outside of it. -/
def scopedMoves : List (Move ℕ) :=
  [.call .task 0, .call (.withValue 0 (some (.int 1)) 0) 0, .call (.attach (.onSuccess 0) 0) 0,
    .ret .unit, .call (.wakeupGeneral "wakeup" 0 (.fulfilled .unit)) 0]

theorem storage_follows_scopes_callback : ∃ (c c₁ : Config ℕ) (s : Scopes ℕ),
    Reach scopedStep (fun x a => x.1.Tame a) (initial 0 0, Scopes.initial) (c, s) ∧
    step c (.move (.call (.get 0) 0)) = some c₁ ∧ s.current.value 0 = some (.int 1) ∧
    c₁.control = .ret ((s.current.value 0).elim .none .some) := by
  obtain ⟨c, hreach, hc⟩ := exists_reach
    (fun c a => c.quiet && !a.abandons && c.valueRestored && c.callsRestored)
    (P := fun c => decide (c.storage.find 0 = some (.int 1)) &&
      (step c (.move (.call (.get 0) 0))).isSome)
    (show (script _ 40 (initial 0 0) scopedMoves).any _ = true by decide)
  simp only [Bool.and_eq_true, decide_eq_true_eq] at hc
  obtain ⟨hfind, hget⟩ := hc
  obtain ⟨c₁, hcall⟩ := Option.isSome_iff_exists.mp hget
  obtain ⟨⟨t, hcontrol⟩, -⟩ := step_call hcall
  have htame : Reach step (fun c a => c.Tame a) (initial 0 0) c :=
    hreach.mono fun c a h => by
      simp only [Bool.and_eq_true, Bool.not_eq_true'] at h
      exact tame_of_checks h.1.1.1 h.1.1.2 h.1.2 h.2
  obtain ⟨s, hscoped⟩ := exists_scopes htame Scopes.initial
  obtain ⟨hstorage, hvalue⟩ := ((storage_follows_scopes
    (hscoped.mono fun _ _ _ => trivial)).2.2.2.2 hscoped).1 t hcontrol
  refine ⟨c, c₁, s, hscoped, hcall, ?_, hvalue 0 0 c₁ hcall⟩
  rw [← Scope.find_storage, ← hstorage, hfind]

/-- A filter that rejects every exception, and `with_value` on a function. -/
def rejectingMoves : List (Move ℕ) := [.call (.setExceptionFilter fun _ => false) 0]

def valueMove : Move ℕ := .call (.withValue 0 (some (.int 1)) 0) 0

/-- An exception that the filter rejects leaves `with_value` past its handler: the storage of
the function stays. -/
theorem withValue_storage_left : ∃ c₀ c₁ c : Config ℕ,
    Reach step (fun _ _ => True) (initial 0 0) c₀ ∧ step c₀ (.move valueMove) = some c₁ ∧
    Reach step (fun d a => d.quiet = true ∧ a.abandons = false ∧
      c₀.stack.length < d.stack.length) c₁ c ∧
    c₀.stack = [] ∧ c.stack = [] ∧ c₀.storage.find 0 = none ∧ c.storage.find 0 = some (.int 1) := by
  obtain ⟨c₀, hreach, hc₀⟩ := exists_reach (fun _ _ => true)
    (P := fun c₀ => (step c₀ (.move valueMove)).any fun c₁ =>
      (script (fun d a => d.quiet && !a.abandons && c₀.stack.length < d.stack.length) 40 c₁
        [.raise (.raised 0)]).any fun c : Config ℕ => c₀.stack.isEmpty && c.stack.isEmpty &&
          decide (c₀.storage.find 0 = none) && decide (c.storage.find 0 = some (.int 1)))
    (show (script _ 40 (initial 0 0) rejectingMoves).any _ = true by decide)
  obtain ⟨c₁, hcall, hc₁⟩ := (Option.any_eq_true _ _).mp hc₀
  obtain ⟨c, hrun, hc⟩ := exists_reach _ hc₁
  simp only [Bool.and_eq_true, decide_eq_true_eq, List.isEmpty_iff] at hc
  exact ⟨c₀, c₁, c, hreach.mono fun _ _ _ => trivial, hcall,
    hrun.mono fun d a hok => by simpa [and_assoc] using hok, hc.1.1.1, hc.1.1.2, hc.1.2, hc.2⟩

end Lwt
