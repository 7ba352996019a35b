import Lwt.Library.Bindings

/-!
# Notifiers

`handle_notifications` calls the handlers of a batch of ids that `recv_notifications` has taken
out of the shared buffer.  The handlers register, stop and replace notifiers themselves, so which
handler an id has is known only when its turn comes.  `Served` says what the batch is for: each
occurrence of an id that is registered at its turn gives one call of its handler.

The loop is `Array.iter`, which a handler that raises leaves.  What is left of the batch is lost,
since it is no longer in the buffer.  So the batch is served if and only if nothing that is still
registered comes after a handler that raises (`served_iff`).
-/

namespace Lwt.Unix

open Bindings

/-- A `notifier`.  The handlers are closures; `H` has a name for each of them. -/
structure Notifiers.Notifier (H : Type) where
  notifyHandler : H
  notifyOnce : Bool
  deriving DecidableEq

/-- The table with its counter, and the state `σ` of the rest of the program, which the handlers
share.  The last field is not part of the program: it records the calls of handlers. -/
structure Notifiers (H σ : Type) where
  notifiers : List (ℤ × Notifiers.Notifier H)
  currentNotificationId : ℤ
  client : σ
  invoked : List (ℤ × H)
  deriving DecidableEq

/-- What a handler does, up to its return or the exception that it raises. -/
inductive Command (H σ ε : Type)
  | returns
  | raises (exn : ε)
  | read (next : σ → Command H σ ε)
  | write (client : σ) (next : Command H σ ε)
  | make (once : Bool) (handler : H) (next : ℤ → Command H σ ε)
  | stop (id : ℤ) (next : Command H σ ε)
  | set (id : ℤ) (handler : H) (next notFound : Command H σ ε)

namespace Notifiers

variable {H σ ε : Type} {w w' : Notifiers H σ} {body : H → Command H σ ε} {id : ℤ}
  {ids : List ℤ} {n : Notifier H}

/-! ## The table -/

/-- Fewer keys are left above an id that is a key. -/
theorem countP_succ_lt {l : List ℤ} (hmem : id ∈ l) :
    l.countP (id + 1 ≤ ·) < l.countP (id ≤ ·) := by
  have hle : ∀ part : List ℤ, part.countP (id + 1 ≤ ·) ≤ part.countP (id ≤ ·) := by
    intro part
    refine List.countP_mono_left fun key _ hkey => ?_
    rw [decide_eq_true_iff] at hkey ⊢
    omega
  obtain ⟨before, after, rfl⟩ := List.append_of_mem hmem
  have hbefore := hle before
  have hafter := hle after
  have hself : ¬id + 1 ≤ id := by omega
  rw [List.countP_append, List.countP_append, List.countP_cons_of_neg (by rwa [decide_eq_true_eq]),
    List.countP_cons_of_pos (by simp)]
  omega

/-- The search ends, for each id that it goes by is a key of the table. -/
def findFreeId (notifiers : List (ℤ × Notifier H)) (id : ℤ) : ℤ :=
  if id ∈ keys notifiers then findFreeId notifiers (id + 1) else id
termination_by (keys notifiers).countP (id ≤ ·)
decreasing_by
  rename_i hmem
  exact countP_succ_lt hmem

def makeNotification (w : Notifiers H σ) (once : Bool) (handler : H) : Notifiers H σ × ℤ :=
  let id := findFreeId w.notifiers (w.currentNotificationId + 1)
  ({ w with
      notifiers := w.notifiers ++ [(id, ⟨handler, once⟩)]
      currentNotificationId := id }, id)

def stopNotification (w : Notifiers H σ) (id : ℤ) : Notifiers H σ :=
  { w with notifiers := w.notifiers.filter fun binding => binding.1 ≠ id }

/-- The exception is `Not_found`. -/
def setNotification (w : Notifiers H σ) (id : ℤ) (handler : H) : Option (Notifiers H σ) :=
  match find w.notifiers id with
  | none => none
  | some _ =>
    let changed := modify id (fun notifier => { notifier with notifyHandler := handler })
    some { w with notifiers := changed w.notifiers }

/-- A handler runs to its end. -/
def execute (w : Notifiers H σ) : Command H σ ε → Notifiers H σ × Except ε Unit
  | .returns => (w, .ok ())
  | .raises exn => (w, .error exn)
  | .read next => w.execute (next w.client)
  | .write client next => { w with client := client }.execute next
  | .make once handler next =>
    (w.makeNotification once handler).1.execute (next (w.makeNotification once handler).2)
  | .stop id next => (w.stopNotification id).execute next
  | .set id handler next notFound =>
    match w.setNotification id handler with
    | some w => w.execute next
    | none => w.execute notFound

/-- `notifier.notify_handler ()` -/
def invoke (body : H → Command H σ ε) (w : Notifiers H σ) (id : ℤ) (handler : H) :
    Notifiers H σ × Except ε Unit :=
  { w with invoked := w.invoked ++ [(id, handler)] }.execute (body handler)

def callNotification (body : H → Command H σ ε) (w : Notifiers H σ) (id : ℤ) :
    Notifiers H σ × Except ε Unit :=
  match find w.notifiers id with
  | none => (w, .ok ())
  | some notifier =>
    (if notifier.notifyOnce then w.stopNotification id else w).invoke body id notifier.notifyHandler

/-- `Array.iter call_notification`, on the ids that `recv_notifications` has returned. -/
def handleNotifications (body : H → Command H σ ε) (w : Notifiers H σ) :
    List ℤ → Notifiers H σ × Except ε Unit
  | [] => (w, .ok ())
  | id :: ids =>
    match callNotification body w id with
    | (w, .ok ()) => handleNotifications body w ids
    | (w, .error exn) => (w, .error exn)

/-! ## What a batch is for -/

def Registered (w : Notifiers H σ) (id : ℤ) : Prop := (find w.notifiers id).isSome

instance (w : Notifiers H σ) (id : ℤ) : Decidable (w.Registered id) :=
  inferInstanceAs (Decidable (_ = true))

/-- Each id has its turn.  If it is registered then its handler is called, once and whether or not
it raises, and a notifier that is `once` has been stopped before. -/
inductive Served (body : H → Command H σ ε) :
    Notifiers H σ → List ℤ → Notifiers H σ → Prop
  | done (w : Notifiers H σ) : Served body w [] w
  | skip {w w' : Notifiers H σ} {id : ℤ} {ids : List ℤ} (hnone : ¬w.Registered id)
      (hrest : Served body w ids w') : Served body w (id :: ids) w'
  | once {w w' : Notifiers H σ} {id : ℤ} {ids : List ℤ} {n : Notifier H}
      (hfind : find w.notifiers id = some n) (honce : n.notifyOnce = true)
      (hrest : Served body ((w.stopNotification id).invoke body id n.notifyHandler).1 ids w') :
      Served body w (id :: ids) w'
  | persistent {w w' : Notifiers H σ} {id : ℤ} {ids : List ℤ} {n : Notifier H}
      (hfind : find w.notifiers id = some n) (hpersistent : n.notifyOnce = false)
      (hrest : Served body (w.invoke body id n.notifyHandler).1 ids w') :
      Served body w (id :: ids) w'

/-- Nothing that is registered comes after a handler that raises. -/
def Undisturbed (body : H → Command H σ ε) (w : Notifiers H σ) : List ℤ → Prop
  | [] => True
  | id :: ids =>
    match callNotification body w id with
    | (w, .ok ()) => Undisturbed body w ids
    | (w, .error _) => ∀ other ∈ ids, ¬w.Registered other

/-- The batch goes on after a handler that raises. -/
def serve (body : H → Command H σ ε) (w : Notifiers H σ) : List ℤ → Notifiers H σ
  | [] => w
  | id :: ids => serve body (callNotification body w id).1 ids

/-! ## The table after an operation -/

theorem findFreeId_not_mem (notifiers : List (ℤ × Notifier H)) (id : ℤ) :
    findFreeId notifiers id ∉ keys notifiers := by
  induction id using findFreeId.induct notifiers with
  | case1 id hmem ih =>
    rw [findFreeId, if_pos hmem]
    exact ih
  | case2 id hnew =>
    rw [findFreeId, if_neg hnew]
    exact hnew

theorem makeNotification_fresh (w : Notifiers H σ) (once : Bool) (handler : H) :
    ¬w.Registered (w.makeNotification once handler).2 := by
  have hnew := findFreeId_not_mem w.notifiers (w.currentNotificationId + 1)
  rw [← find_eq_none] at hnew
  intro hreg
  unfold Registered makeNotification at hreg
  rw [hnew] at hreg
  cases hreg

theorem stopNotification_stops (w : Notifiers H σ) (id : ℤ) :
    ¬(w.stopNotification id).Registered id := by
  intro hreg
  obtain ⟨n, hfind⟩ := Option.isSome_iff_exists.mp hreg
  have hmem := mem_of_find hfind
  unfold stopNotification at hmem
  rw [List.mem_filter] at hmem
  simp at hmem

/-! ## The record of the calls -/

/-- A handler does not call handlers. -/
theorem execute_invoked (command : Command H σ ε) :
    ∀ w : Notifiers H σ, (w.execute command).1.invoked = w.invoked := by
  induction command with
  | returns => exact fun w => rfl
  | raises exn => exact fun w => rfl
  | read next ih => exact fun w => ih w.client w
  | write client next ih => exact fun w => ih _
  | make once handler next ih => exact fun w => ih _ _
  | stop id next ih => exact fun w => ih _
  | set id handler next notFound ihnext ihnot =>
    intro w
    unfold execute setNotification
    cases find w.notifiers id with
    | none => exact ihnot w
    | some n => exact ihnext _

theorem invoke_invoked (w : Notifiers H σ) (id : ℤ) (handler : H) :
    (w.invoke body id handler).1.invoked = w.invoked ++ [(id, handler)] :=
  execute_invoked (body handler) _

theorem callNotification_of_not_registered (h : ¬w.Registered id) :
    callNotification body w id = (w, .ok ()) := by
  unfold Registered at h
  rw [Bool.not_eq_true, Option.isSome_eq_false_iff, Option.isNone_iff_eq_none] at h
  unfold callNotification
  rw [h]

theorem callNotification_invoked (hfind : find w.notifiers id = some n) :
    (callNotification body w id).1.invoked = w.invoked ++ [(id, n.notifyHandler)] := by
  unfold callNotification
  rw [hfind]
  dsimp only
  rw [invoke_invoked]
  cases n.notifyOnce <;> rfl

theorem length_le_serve (body : H → Command H σ ε) (ids : List ℤ) :
    ∀ w : Notifiers H σ, w.invoked.length ≤ (serve body w ids).invoked.length := by
  induction ids with
  | nil => exact fun w => Nat.le_refl _
  | cons id ids ih =>
    intro w
    refine Nat.le_trans ?_ (ih _)
    cases hfind : find w.notifiers id with
    | none =>
      have hnone : ¬w.Registered id := by simp [Registered, hfind]
      have hkept : (callNotification body w id).1 = w := by
        rw [callNotification_of_not_registered hnone]
      exact Nat.le_of_eq (congrArg (fun w => w.invoked.length) hkept.symm)
    | some n =>
      rw [callNotification_invoked hfind, List.length_append]
      exact Nat.le_add_right _ _

theorem serve_eq_self_iff (body : H → Command H σ ε) (w : Notifiers H σ) (ids : List ℤ) :
    w = serve body w ids ↔ ∀ id ∈ ids, ¬w.Registered id := by
  induction ids with
  | nil => simp [serve]
  | cons id ids ih =>
    rw [List.forall_mem_cons, serve]
    by_cases hreg : w.Registered id
    · refine ⟨fun heq => ?_, fun h => absurd hreg h.1⟩
      obtain ⟨n, hfind⟩ := Option.isSome_iff_exists.mp hreg
      have hle := length_le_serve body ids (callNotification body w id).1
      rw [← heq, callNotification_invoked hfind, List.length_append,
        List.length_singleton] at hle
      omega
    · rw [callNotification_of_not_registered hreg, ih]
      exact ⟨fun h => ⟨hreg, h⟩, fun h => h.2⟩

/-! ## The batch -/

theorem served_iff_serve : Served body w ids w' ↔ w' = serve body w ids := by
  constructor
  · intro h
    induction h with
    | done w => rfl
    | skip hnone _ ih =>
      rw [serve, callNotification_of_not_registered hnone]
      exact ih
    | once hfind honce _ ih =>
      rw [serve, callNotification, hfind]
      dsimp only
      rw [if_pos honce]
      exact ih
    | persistent hfind hpersistent _ ih =>
      rw [serve, callNotification, hfind]
      dsimp only
      rw [hpersistent]
      exact ih
  · rintro rfl
    induction ids generalizing w with
    | nil => exact .done w
    | cons id ids ih =>
      cases hfind : find w.notifiers id with
      | none =>
        have hnone : ¬w.Registered id := by simp [Registered, hfind]
        rw [serve, callNotification_of_not_registered hnone]
        exact .skip hnone ih
      | some n =>
        rw [serve, callNotification, hfind]
        dsimp only
        cases honce : n.notifyOnce with
        | true => exact .once hfind honce ih
        | false => exact .persistent hfind honce ih

theorem served_iff (w : Notifiers H σ) (ids : List ℤ) :
    Served body w ids (handleNotifications body w ids).1 ↔ Undisturbed body w ids := by
  rw [served_iff_serve]
  induction ids generalizing w with
  | nil => exact iff_of_true rfl trivial
  | cons id ids ih =>
    rw [serve, handleNotifications, Undisturbed]
    obtain ⟨w', result⟩ := callNotification body w id
    cases result with
    | ok => exact ih w'
    | error exn => exact serve_eq_self_iff body w' ids

/-- A batch is served if and only if no handler raises while an id after its own is registered.
A notifier that is `once` is not registered when its handler runs, nor is an id that
`make_notification` returns. -/
theorem handleNotifications_serves_iff (body : H → Command H σ ε) (w : Notifiers H σ)
    (ids : List ℤ) :
    ((∀ once handler, ¬w.Registered (w.makeNotification once handler).2) ∧
      (∀ id, ¬(w.stopNotification id).Registered id) ∧
      Served body w ids (handleNotifications body w ids).1) ↔ Undisturbed body w ids := by
  rw [← served_iff]
  exact ⟨fun h => h.2.2, fun h => ⟨makeNotification_fresh w, stopNotification_stops w, h⟩⟩

/-- The handler of the first id raises, and that of the second is not called. -/
theorem handleNotifications_drops :
    ¬∀ (body : Bool → Command Bool Unit Unit) (w : Notifiers Bool Unit) (ids : List ℤ),
      Served body w ids (handleNotifications body w ids).1 := by
  intro h
  have hserved := h (fun raising => if raising then .raises () else .returns)
    ⟨[(1, ⟨true, false⟩), (2, ⟨false, true⟩)], 2, (), []⟩ [1, 2]
  rw [served_iff_serve] at hserved
  revert hserved
  decide

end Notifiers

end Lwt.Unix
