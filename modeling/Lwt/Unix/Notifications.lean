import Mathlib.Data.Int.Notation
import Mathlib.Data.List.Basic
import Lwt.Library.Transition

/-!
# Notifications

Worker threads send the ids of notifications to the main loop through a buffer; the one that finds
it empty also writes to the notification channel, an eventfd, a pipe or a pair of sockets, that the
main loop watches.  A step is a section that is protected by `notification_mutex`.
`lwt_unix_recv_notifications` has at least two of them, for it allocates its result with the mutex
released, until the index has not changed meanwhile.

The others rely on the wake-up of the first one.  It is lost when the write fails, for the id stays
in the buffer, and in the child of a fork, where `lwt_unix_init_notification` makes a new channel
and keeps the buffer.  The ids that are received are always those that were sent, in this order.
-/

namespace Lwt.Unix

open Transition

inductive NotificationMode
  | eventfd
  | pipe
  | windows

/-- The static variables of `lwt_unix_stubs.c`.  `fd` is the current descriptor and `wakeups` what
has been written to it and not been read, `watched` is the descriptor of `event_notifications`,
`receiver` the value of `current_index` in a receiver that allocates.  The last two fields are not
part of the program: the ids that have been put into the buffer, and the arrays that have been
returned. -/
structure Notifications where
  notifications : List ℤ
  notificationCount : ℕ
  notificationIndex : ℕ
  notificationMode : NotificationMode
  fd : ℕ
  wakeups : ℕ
  watched : ℕ
  receiver : Option ℕ
  sent : List ℤ
  received : List (List ℤ)

namespace Notifications

/-- `init_notifications` and the first call of `lwt_unix_init_notification`. -/
def init (mode : NotificationMode) : Notifications :=
  ⟨List.replicate 4096 0, 4096, 0, mode, 0, 0, 0, none, [], []⟩

/-- The new cells are not initialised. -/
def resizeNotifications (s : Notifications) : Notifications :=
  { s with
    notifications := s.notifications.take s.notificationCount ++
      List.replicate s.notificationCount 0
    notificationCount := s.notificationCount * 2 }

/-- `notifications[notification_index++] = id`. -/
def put (s : Notifications) (id : ℤ) : Notifications :=
  { s with
    notifications := s.notifications.set s.notificationIndex id
    notificationIndex := s.notificationIndex + 1
    sent := s.sent ++ [id] }

/-- `lwt_unix_send_notification`; `written` tells whether `notification_send` succeeds.  If it
fails an exception is raised, with the id in the buffer. -/
def sendNotification (s : Notifications) (id : ℤ) (written : Bool) : Notifications :=
  if s.notificationIndex > 0 then
    (if s.notificationIndex = s.notificationCount then s.resizeNotifications else s).put id
  else
    let s := s.put id
    if written then { s with wakeups := s.wakeups + 1 } else s

/-- `notification_recv`: reading an eventfd resets it, the other channels give one byte. -/
def notificationRecv (s : Notifications) : Notifications :=
  match s.notificationMode with
  | .eventfd => { s with wakeups := 0 }
  | .pipe | .windows => { s with wakeups := s.wakeups - 1 }

/-- The end of `lwt_unix_recv_notifications`. -/
def readAll (s : Notifications) : Notifications :=
  { s with
    received := s.received ++ [s.notifications.take s.notificationIndex]
    notificationIndex := 0
    receiver := none }

/-- The child of `fork`: `lwt_unix_init_notification`, and the new descriptor is watched.  Only the
thread that has forked is left. -/
def fork (s : Notifications) (mode : NotificationMode) : Notifications :=
  { s with
    notificationMode := mode
    fd := s.fd + 1
    wakeups := 0
    watched := s.fd + 1
    receiver := none }

end Notifications

inductive NotificationStep
  | send (id : ℤ) (written : Bool)
  /-- `notification_recv` succeeds, and the mutex is released -/
  | recv
  /-- `notification_recv` fails -/
  | recvFails
  /-- the result has been allocated and the mutex is taken again -/
  | allocated
  | fork (mode : NotificationMode)

/-- A receiver without a wake-up blocks. -/
def notificationStep (s : Notifications) : NotificationStep → Option Notifications
  | .send id written => some (s.sendNotification id written)
  | .recv =>
    if s.receiver = none ∧ 0 < s.wakeups
    then some { s.notificationRecv with receiver := some s.notificationIndex } else none
  | .recvFails => if s.receiver = none then some s else none
  | .allocated =>
    match s.receiver with
    | none => none
    | some currentIndex =>
      if currentIndex = s.notificationIndex then some s.readAll
      else some { s with receiver := some s.notificationIndex }
  | .fork mode => some (s.fork mode)

namespace Notifications

variable {s t : Notifications}

/-- A wake-up is pending if there is something in the buffer and no receiver is about to take it. -/
def Signalled (s : Notifications) : Prop :=
  0 < s.notificationIndex → s.receiver = none → s.watched = s.fd ∧ 0 < s.wakeups

/-- What has been received and what is in the buffer is what has been sent. -/
def InOrder (s : Notifications) : Prop :=
  s.received.flatten ++ s.notifications.take s.notificationIndex = s.sent

/-- The index is inside the buffer, and the ids are in order. -/
structure Valid (s : Notifications) : Prop where
  count : 0 < s.notificationCount
  length : s.notifications.length = s.notificationCount
  index : s.notificationIndex ≤ s.notificationCount
  inOrder : InOrder s

theorem valid_init (mode : NotificationMode) : Valid (init mode) :=
  ⟨Nat.succ_pos _, List.length_replicate, Nat.zero_le _, rfl⟩

theorem Valid.resize (h : Valid s) : Valid s.resizeNotifications where
  count := by
    have hcount := h.count
    simp only [resizeNotifications]
    omega
  length := by
    have hlength := h.length
    simp only [resizeNotifications, List.length_append, List.length_take, List.length_replicate]
    omega
  index := by
    have hindex := h.index
    simp only [resizeNotifications]
    omega
  inOrder := by
    have hlength := h.length
    have htake : s.resizeNotifications.notifications.take s.notificationIndex =
        s.notifications.take s.notificationIndex := by
      simp only [resizeNotifications]
      rw [List.take_append_of_le_length (by simp [hlength, h.index]), List.take_take,
        Nat.min_eq_left h.index]
    exact (congrArg (s.received.flatten ++ ·) htake).trans h.inOrder

theorem Valid.put (h : Valid s) (hindex : s.notificationIndex < s.notificationCount) (id : ℤ) :
    Valid (s.put id) where
  count := h.count
  length := by simpa [Notifications.put] using h.length
  index := hindex
  inOrder := by
    have hlt : s.notificationIndex < s.notifications.length := by rw [h.length]; exact hindex
    have htake : (s.notifications.set s.notificationIndex id).take (s.notificationIndex + 1) =
        s.notifications.take s.notificationIndex ++ [id] := by
      rw [List.take_add_one, List.take_set_of_le (Nat.le_refl _)]
      simp [hlt]
    show s.received.flatten ++ _ = s.sent ++ [id]
    rw [show (s.put id).notifications.take (s.put id).notificationIndex = _ from htake,
      ← List.append_assoc, h.inOrder]

theorem Valid.congr (h : Valid s) (hn : t.notifications = s.notifications)
    (hc : t.notificationCount = s.notificationCount)
    (hi : t.notificationIndex = s.notificationIndex) (hs : t.sent = s.sent)
    (hr : t.received = s.received) : Valid t := by
  refine ⟨by rw [hc]; exact h.count, by rw [hn, hc]; exact h.length,
    by rw [hi, hc]; exact h.index, ?_⟩
  unfold InOrder
  rw [hr, hn, hi, hs]
  exact h.inOrder

theorem Valid.sendNotification (h : Valid s) (id : ℤ) (written : Bool) :
    Valid (s.sendNotification id written) := by
  have hcount := h.count
  have hindex := h.index
  unfold Notifications.sendNotification
  split
  · split
    case isTrue hfull =>
      refine h.resize.put ?_ id
      simp only [resizeNotifications]
      omega
    case isFalse hfull => exact h.put (by omega) id
  · have hput : Valid (s.put id) := h.put (by omega) id
    cases written with
    | true => exact hput.congr rfl rfl rfl rfl rfl
    | false => exact hput

theorem Valid.readAll (h : Valid s) : Valid s.readAll where
  count := h.count
  length := h.length
  index := Nat.zero_le _
  inOrder := by
    have horder := h.inOrder
    simpa [InOrder, Notifications.readAll] using horder

theorem valid_step {a : NotificationStep} (h : Valid s) (hstep : notificationStep s a = some t) :
    Valid t := by
  cases a with
  | send id written =>
    cases hstep
    exact h.sendNotification id written
  | recv =>
    obtain ⟨-, rfl⟩ : (s.receiver = none ∧ 0 < s.wakeups) ∧
        { s.notificationRecv with receiver := some s.notificationIndex } = t := by
      simpa [notificationStep] using hstep
    unfold notificationRecv
    split <;> exact h.congr rfl rfl rfl rfl rfl
  | recvFails =>
    obtain ⟨-, rfl⟩ : s.receiver = none ∧ s = t := by simpa [notificationStep] using hstep
    exact h
  | allocated =>
    simp only [notificationStep] at hstep
    split at hstep
    · cases hstep
    · split at hstep
      · cases hstep
        exact h.readAll
      · cases hstep
        exact h.congr rfl rfl rfl rfl rfl
  | fork mode =>
    cases hstep
    exact h.congr rfl rfl rfl rfl rfl

/-! ## Wake-ups -/

/-- The write of a sender that has to signal succeeds, and there is a fork only while the buffer is
empty. -/
def wakes (s : Notifications) : NotificationStep → Bool
  | .send _ written => decide (0 < s.notificationIndex) || written
  | .fork _ => decide (s.notificationIndex = 0)
  | _ => true

/-- The main loop watches the current channel, on which a wake-up is pending when it has to be. -/
structure Watching (s : Notifications) : Prop where
  watched : s.watched = s.fd
  wakeup : 0 < s.notificationIndex → s.receiver = none → 0 < s.wakeups

theorem Watching.sendNotification (h : Watching s) (id : ℤ) {written : Bool}
    (hwrite : 0 < s.notificationIndex ∨ written = true) :
    Watching (s.sendNotification id written) := by
  unfold Notifications.sendNotification
  split
  case isTrue hpos =>
    split
    · exact ⟨h.watched, fun _ hr => h.wakeup hpos hr⟩
    · exact ⟨h.watched, fun _ hr => h.wakeup hpos hr⟩
  case isFalse hzero =>
    obtain rfl : written = true := by
      rcases hwrite with hpos | hw
      · exact absurd hpos hzero
      · exact hw
    exact ⟨h.watched, fun _ _ => Nat.succ_pos _⟩

theorem watching_step {a : NotificationStep} (h : Watching s) (ha : wakes s a = true)
    (hstep : notificationStep s a = some t) : Watching t := by
  cases a with
  | send id written =>
    cases hstep
    exact h.sendNotification id (by simpa [wakes] using ha)
  | recv =>
    obtain ⟨-, rfl⟩ : (s.receiver = none ∧ 0 < s.wakeups) ∧
        { s.notificationRecv with receiver := some s.notificationIndex } = t := by
      simpa [notificationStep] using hstep
    refine ⟨?_, fun _ hr => by cases hr⟩
    unfold notificationRecv
    split <;> exact h.watched
  | recvFails =>
    obtain ⟨-, rfl⟩ : s.receiver = none ∧ s = t := by simpa [notificationStep] using hstep
    exact h
  | allocated =>
    simp only [notificationStep] at hstep
    split at hstep
    · cases hstep
    · split at hstep
      · cases hstep
        exact ⟨h.watched, fun hpos => absurd hpos (Nat.lt_irrefl 0)⟩
      · cases hstep
        exact ⟨h.watched, fun _ hr => by cases hr⟩
  | fork mode =>
    cases hstep
    refine ⟨rfl, fun hpos _ => ?_⟩
    have hzero : s.notificationIndex = 0 := by simpa [wakes] using ha
    exact absurd hpos (by simp [Notifications.fork, hzero])

/-- A receiver that allocates returns everything that is in the buffer, if nothing is sent
meanwhile. -/
theorem received_of_receiver (h : Valid s) {k : ℕ} (hr : s.receiver = some k) :
    ∃ labels t, (∀ a ∈ labels, a = .recv ∨ a = .allocated) ∧
      replay notificationStep s labels = some t ∧ t.notificationIndex = 0 ∧
      t.received.flatten = s.sent := by
  have hread : ∀ u : Notifications, u.receiver = some u.notificationIndex →
      notificationStep u .allocated = some u.readAll := by
    intro u hu
    simp [notificationStep, hu]
  have hall : ∀ u : Notifications, Valid u → u.sent = s.sent →
      u.readAll.notificationIndex = 0 ∧ u.readAll.received.flatten = s.sent := by
    intro u hu hsent
    refine ⟨rfl, ?_⟩
    have horder := hu.inOrder
    rw [InOrder, hsent] at horder
    simpa [Notifications.readAll] using horder
  by_cases hk : k = s.notificationIndex
  · subst hk
    exact ⟨[.allocated], s.readAll, by simp, by simp [replay, hread s hr], hall s h rfl⟩
  · -- something has been sent since the index was read
    have hagain : notificationStep s .allocated =
        some { s with receiver := some s.notificationIndex } := by
      simp [notificationStep, hr, hk]
    exact ⟨[.allocated, .allocated], _, by simp,
      by simp [replay, hagain, hread { s with receiver := some s.notificationIndex } rfl],
      hall { s with receiver := some s.notificationIndex } (h.congr rfl rfl rfl rfl rfl) rfl⟩

theorem received_of_watching (h : Valid s) (hw : Watching s) :
    ∃ labels t, (∀ a ∈ labels, a = .recv ∨ a = .allocated) ∧
      replay notificationStep s labels = some t ∧ t.notificationIndex = 0 ∧
      t.received.flatten = s.sent := by
  cases hr : s.receiver with
  | some k => exact received_of_receiver h hr
  | none =>
    by_cases hzero : s.notificationIndex = 0
    · have horder := h.inOrder
      exact ⟨[], s, by simp, rfl, hzero, by simpa [InOrder, hzero] using horder⟩
    · have hwakeup := hw.wakeup (Nat.pos_of_ne_zero hzero) hr
      obtain ⟨u, hu⟩ : ∃ u,
          u = { s.notificationRecv with receiver := some s.notificationIndex } := ⟨_, rfl⟩
      have hstep : notificationStep s .recv = some u := by
        simp [notificationStep, hr, hwakeup, hu]
      have hsent : u.sent = s.sent := by
        rw [hu]
        unfold notificationRecv
        split <;> rfl
      obtain ⟨labels, t, hlabels, hreplay, hindex, hall⟩ :=
        received_of_receiver (valid_step h hstep) (by rw [hu])
      refine ⟨.recv :: labels, t, ?_, by simp [replay, hstep, hreplay], hindex, by
        rw [hall, hsent]⟩
      intro a ha
      rcases List.mem_cons.mp ha with rfl | ha
      · exact Or.inl rfl
      · exact hlabels a ha

end Notifications

open Notifications

/-- In every run in which no wake-up is lost: a wake-up is pending on the channel that is watched
whenever the buffer is not empty and no receiver is about to read it; the ids that have been
received are those that were sent, in this order and each once, but for those in the buffer; and
the main loop can receive these. -/
theorem notifications_are_signalled {s : Notifications} (mode : NotificationMode)
    (hreach : Reach notificationStep (fun s a => wakes s a = true) (init mode) s) :
    Signalled s ∧ InOrder s ∧
    ∃ labels t, (∀ a ∈ labels, a = .recv ∨ a = .allocated) ∧
      replay notificationStep s labels = some t ∧ t.notificationIndex = 0 ∧
      t.received.flatten = s.sent := by
  obtain ⟨h, hw⟩ : Valid s ∧ Watching s := by
    refine hreach.invariant (P := fun s => Valid s ∧ Watching s)
      ⟨valid_init mode, rfl, fun hpos => absurd hpos (Nat.lt_irrefl 0)⟩ ?_
    rintro s a t ⟨h, hw⟩ ha hstep
    exact ⟨valid_step h hstep, watching_step hw ha hstep⟩
  exact ⟨fun hpos hr => ⟨hw.watched, hw.wakeup hpos hr⟩, h.inOrder, received_of_watching h hw⟩

/-- Two ids are sent, one of them while the receiver allocates. -/
theorem notifications_are_signalled_twice :
    ∃ s, Reach notificationStep (fun s a => wakes s a = true) (init .eventfd) s ∧
      s.received = [[7, 8]] ∧ s.sent = [7, 8, 9] ∧ s.wakeups = 1 ∧ Signalled s := by
  obtain ⟨s, hs⟩ : ∃ s, replay (checked notificationStep wakes) (init .eventfd)
      [.send 7 true, .recv, .send 8 true, .allocated, .allocated, .send 9 true] = some s :=
    ⟨_, rfl⟩
  have hreach := reach_of_checked _ hs
  obtain ⟨hreceived, hsent, hwakeups⟩ :
      s.received = [[7, 8]] ∧ s.sent = [7, 8, 9] ∧ s.wakeups = 1 := by
    cases hs.symm.trans rfl
    exact ⟨rfl, rfl, rfl⟩
  exact ⟨s, hreach, hreceived, hsent, hwakeups, (notifications_are_signalled .eventfd hreach).1⟩

/-- The wake-up of a sender cannot be written; the next one finds an id in the buffer and does not
signal. -/
theorem wakeup_is_lost :
    ¬ ∀ s, Reach notificationStep (fun _ _ => True) (init .eventfd) s → Signalled s ∧
    InOrder s := by
  intro hall
  obtain ⟨s, hs⟩ : ∃ s, replay notificationStep (init .eventfd) [.send 7 false, .send 8 true] =
      some s := ⟨_, rfl⟩
  obtain ⟨hindex, hreceiver, hwakeups⟩ :
      s.notificationIndex = 2 ∧ s.receiver = none ∧ s.wakeups = 0 := by
    cases hs.symm.trans rfl
    exact ⟨rfl, rfl, rfl⟩
  have hpending := ((hall s (reach_of_replay _ hs)).1 (by omega) hreceiver).2
  omega

-- the child of a fork that finds an id in the buffer does not signal either
example : (replay notificationStep (init .pipe) [.send 7 true, .fork .pipe, .send 8 true]).map
    (fun s => (s.notificationIndex, s.wakeups)) = some (2, 0) := rfl

end Lwt.Unix
