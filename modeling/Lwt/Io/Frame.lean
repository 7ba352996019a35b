import Lwt.Io.Tasks

/-!
# What a step leaves alone

A step of one task changes neither the other tasks that execute an operation nor the calls of
`da_perform` that wait, the steps of such calls apart; and only `perform_io` lets a flush fail.
-/

namespace Lwt.Io

variable {m u : Channel} {i j v w tmp : ℕ} {s t : Status} {x : State} {o : Outcome} {kind : Kind}

/-- The task executes an operation of the channel, by a function of the user. -/
def Status.operates : Status → Bool
  | running | performing _ => true
  | _ => false

namespace Channel

/-! ## The tasks after an update -/

theorem mem_setStatus {x : Task} (hx : x ∈ (m.setStatus i t).tasks) :
    x ∈ m.tasks ∨ ∃ y, m.tasks[i]? = some y ∧ x = { y with status := t } := by
  obtain ⟨j, hj⟩ := List.mem_iff_getElem?.mp hx
  simp only [Channel.setStatus, List.getElem?_modify] at hj
  by_cases hij : i = j
  · subst hij
    cases hi : m.tasks[i]? with
    | none => simp [hi] at hj
    | some y =>
      simp [hi] at hj
      exact Or.inr ⟨y, rfl, hj.symm⟩
  · cases hi : m.tasks[j]? with
    | none => simp [hi] at hj
    | some y =>
      obtain rfl : y = x := by simpa [hi, hij] using hj
      exact Or.inl (List.mem_of_getElem? hi)

theorem mem_wakeFirst {x : Task} (hx : x ∈ (m.wakeFirst w).tasks) :
    x ∈ m.tasks ∨ ∃ y ∈ m.tasks, y.status = .queued ∧ x = { y with status := .woken } := by
  unfold Channel.wakeFirst at hx
  split at hx
  · exact Or.inl hx
  · obtain ⟨j, hj⟩ := List.mem_iff_getElem?.mp hx
    simp only [List.getElem?_modify] at hj
    cases hi : m.tasks[j]? with
    | none => simp [hi] at hj
    | some y =>
      simp only [hi, Option.map_eq_map, Option.map_some, Option.some.injEq] at hj
      subst hj
      have hy := List.mem_of_getElem? hi
      split
      · split
        case isTrue hq => exact Or.inr ⟨y, hy, hq, rfl⟩
        case isFalse => exact Or.inl hy
      · exact Or.inl hy

theorem mem_unlock {x : Task} (hx : x ∈ (m.unlock w).tasks) :
    x ∈ m.tasks ∨ (∃ y ∈ m.tasks, y.status = .queued ∧ x = { y with status := .woken }) ∨
      x = ⟨.autoFlush, 0, .paused⟩ := by
  rcases unlock_cases m w with ⟨-, -, hu | hu⟩ | ⟨-, -, hu⟩ | ⟨-, hu⟩ | ⟨-, hu⟩ <;> rw [hu] at hx
  · exact Or.inl hx
  · rcases List.mem_append.mp hx with hx | hx
    · exact Or.inl hx
    · exact Or.inr (Or.inr (List.mem_singleton.mp hx))
  · rcases mem_wakeFirst hx with h | h
    · exact Or.inl h
    · exact Or.inr (Or.inl h)
  · rcases mem_wakeFirst hx with h | h
    · exact Or.inl h
    · exact Or.inr (Or.inl h)
  · exact Or.inl hx

theorem mem_setTask {x : Task} (hx : x ∈ (m.setTask i w t).tasks) :
    x ∈ m.tasks ∨ ∃ y, m.tasks[i]? = some y ∧ x = { y with wrapper := w, status := t } := by
  obtain ⟨j, hj⟩ := List.mem_iff_getElem?.mp hx
  simp only [Channel.setTask, List.getElem?_modify] at hj
  cases hi : m.tasks[j]? with
  | none => simp [hi] at hj
  | some y =>
    by_cases hij : i = j
    · subst hij
      exact Or.inr ⟨y, hi, by simpa [hi] using hj.symm⟩
    · obtain rfl : y = x := by simpa [hi, hij] using hj
      exact Or.inl (List.mem_of_getElem? hi)

/-! ## Functions -/

/-- What the task `j` keeps when it takes a step that is not one of the perform function. -/
structure Frame (j : ℕ) (m u : Channel) : Prop where
  typ : u.typ = m.typ
  calls : u.calls = m.calls
  kept : ∀ i x, i ≠ j → m.tasks[i]? = some x → x.status.operates = true → u.tasks[i]? = some x
  fresh : ∀ x ∈ u.tasks, x.status = .flushFailed → x ∈ m.tasks

namespace Frame

theorem trans {r : Channel} (h : Frame j m u) (h' : Frame j u r) : Frame j m r where
  typ := h'.typ.trans h.typ
  calls := h'.calls.trans h.calls
  kept := fun i x hne hi hs => h'.kept i x hne (h.kept i x hne hi hs) hs
  fresh := fun x hx hs => h.fresh x (h'.fresh x hx hs) hs

theorem of_tasks (j : ℕ) (htyp : u.typ = m.typ) (hcalls : u.calls = m.calls)
    (htasks : u.tasks = m.tasks) : Frame j m u :=
  ⟨htyp, hcalls, fun _ _ _ hi _ => htasks ▸ hi, fun _ hx _ => htasks ▸ hx⟩

theorem setState (j : ℕ) (m : Channel) (w : ℕ) (x : State) : Frame j m (m.setState w x) :=
  of_tasks j rfl rfl rfl

theorem setQueued (j : ℕ) (m : Channel) (w : ℕ) (q : List ℕ) : Frame j m (m.setQueued w q) :=
  of_tasks j rfl rfl rfl

theorem addWrapper (j : ℕ) (m : Channel) : Frame j m m.addWrapper := of_tasks j rfl rfl rfl

theorem setStatus (m : Channel) (j : ℕ) (ht : t ≠ .flushFailed) : Frame j m (m.setStatus j t) where
  typ := rfl
  calls := rfl
  kept := by
    intro i x hne hi _
    simpa [Channel.setStatus, List.getElem?_modify, hne.symm] using hi
  fresh := by
    intro x hx hs
    rcases mem_setStatus hx with hx | ⟨y, -, rfl⟩
    · exact hx
    · exact absurd hs ht

theorem setTask (m : Channel) (j w : ℕ) (ht : t ≠ .flushFailed) : Frame j m (m.setTask j w t) where
  typ := rfl
  calls := rfl
  kept := by
    intro i x hne hi _
    simpa [Channel.setTask, List.getElem?_modify, hne.symm] using hi
  fresh := by
    intro x hx hs
    rcases mem_setTask hx with hx | ⟨y, -, rfl⟩
    · exact hx
    · exact absurd hs ht

theorem addTask (j : ℕ) (m : Channel) (kind : Kind) (w : ℕ) (ht : t ≠ .flushFailed) :
    Frame j m (m.addTask kind w t) where
  typ := rfl
  calls := rfl
  kept := by
    intro i x _ hi _
    exact (List.getElem?_append_left (List.getElem?_eq_some_iff.mp hi).1).trans hi
  fresh := by
    intro x hx hs
    rcases List.mem_append.mp hx with hx | hx
    · exact hx
    · obtain rfl := List.mem_singleton.mp hx
      exact absurd hs ht

theorem launchFlusher (j : ℕ) (m : Channel) : Frame j m m.launchFlusher :=
  (addTask j m .autoFlush 0 (t := .paused) (by simp)).trans (of_tasks j rfl rfl rfl)

theorem wakeFirst (j : ℕ) (m : Channel) (w : ℕ) : Frame j m (m.wakeFirst w) where
  typ := by unfold Channel.wakeFirst; split <;> rfl
  calls := by unfold Channel.wakeFirst; split <;> rfl
  kept := by
    intro i x _ hi hs
    unfold Channel.wakeFirst
    split
    · exact hi
    · have hqueued : x.status ≠ .queued := by
        intro hq
        rw [hq] at hs
        cases hs
      simp [List.getElem?_modify, hi, hqueued]
  fresh := by
    intro x hx hs
    rcases mem_wakeFirst hx with hx | ⟨y, -, -, rfl⟩
    · exact hx
    · cases hs

theorem unlock (j : ℕ) (m : Channel) (w : ℕ) : Frame j m (m.unlock w) := by
  rcases unlock_cases m w with ⟨-, -, hu | hu⟩ | ⟨-, -, hu⟩ | ⟨-, hu⟩ | ⟨-, hu⟩ <;> rw [hu]
  · exact setState j m w _
  · exact (setState j m w _).trans (launchFlusher j _)
  · exact (setState j m w _).trans (wakeFirst j _ w)
  · exact wakeFirst j m w
  · exact of_tasks j rfl rfl rfl

theorem abort (j : ℕ) (m : Channel) (w : ℕ) : Frame j m (m.abort w).1 := by
  rcases abort_cases m w with ⟨-, h⟩ | ⟨-, h⟩ | ⟨-, -, ⟨-, h⟩ | ⟨-, h⟩⟩ <;> rw [h] <;>
    exact of_tasks j rfl rfl rfl

theorem fail (m : Channel) (j : ℕ) (kind : Kind) (o : Outcome) : Frame j m (m.fail j kind o) := by
  unfold Channel.fail
  split
  · exact (abort j m 0).trans (setStatus _ j (by simp))
  · exact setStatus m j (by simp)

theorem enter (m : Channel) (j : ℕ) (kind : Kind) (w : ℕ) : Frame j m (m.enter j kind w) := by
  cases kind with
  | atomic =>
    exact ((setState j m w _).trans (setStatus _ j (by simp))).trans (addWrapper j _)
  | _ => exact (setState j m w _).trans (setStatus _ j (by simp))

theorem call (m : Channel) (kind : Kind) (w : ℕ) : Frame m.tasks.length m (m.call kind w) := by
  have hcalled := addTask m.tasks.length m kind w (t := .called) (by simp)
  unfold Channel.call
  split
  · exact hcalled.trans (enter _ _ kind w)
  · exact (addTask _ m kind w (by simp)).trans (setQueued _ _ w _)
  · exact (addTask _ m kind w (by simp)).trans (setQueued _ _ w _)
  · exact (addTask _ m kind w (by simp)).trans (setQueued _ _ w _)
  · exact hcalled.trans (fail _ _ kind _)
  · exact hcalled.trans (fail _ _ kind _)

theorem give_back (m : Channel) (j w : ℕ) (ht : t ≠ .flushFailed) :
    Frame j m ((m.setStatus j t).unlock w) :=
  (setStatus m j ht).trans (unlock j _ w)

theorem resume (m : Channel) (j : ℕ) (kind : Kind) (w : ℕ) : Frame j m (m.resume j kind w) := by
  have hasserted : Frame j m { m with asserted := true } := of_tasks j rfl rfl rfl
  unfold Channel.resume
  split
  · exact (give_back m j w (by simp)).trans (fail _ j kind _)
  · exact enter m j kind w
  · exact enter m j kind w
  · exact fail m j kind _
  · exact hasserted.trans (fail _ j kind _)
  · exact hasserted.trans (fail _ j kind _)

theorem autoFlush (m : Channel) (j : ℕ) : Frame j m (m.autoFlush j) := by
  rcases autoFlush_split m j with ⟨-, hu⟩ | ⟨-, b, hu⟩ | ⟨tmp, -, hu⟩ <;> rw [hu]
  · exact ((setState j m _ _).trans (setTask _ j _ (t := .running) (by simp))).trans
      (of_tasks j rfl rfl rfl)
  · exact (setStatus m j (by simp)).trans (of_tasks j rfl rfl rfl)
  · exact (setStatus m j (by simp)).trans (of_tasks j rfl rfl rfl)

theorem endFlush (m : Channel) (j w : ℕ) : Frame j m (m.endFlush j w) := by
  have hended := setStatus m j (t := .ended .returned) (by simp)
  rcases endFlush_cases m j w with ⟨-, hu⟩ | ⟨-, hu⟩ <;> rw [hu]
  · exact (hended.trans (setState j _ w _)).trans (wakeFirst j _ w)
  · exact hended.trans (wakeFirst j _ w)

theorem closes (m : Channel) (j w : ℕ) : Frame j m (m.closes j w) := by
  unfold Channel.closes
  simp only
  split
  · exact (abort j m 0).trans (setStatus _ j (by simp))
  · exact ((abort j m 0).trans (give_back _ j w (by simp))).trans (fail _ j .close _)

theorem closeFails (m : Channel) (j w : ℕ) : Frame j m (m.closeFails j w) :=
  (give_back m j w (by simp)).trans (fail _ j .close _)

theorem runCanceled (m : Channel) (j : ℕ) (kind : Kind) (w : ℕ) :
    Frame j m (m.runCanceled j kind w) :=
  (setQueued j m w _).trans (fail _ j kind _)

theorem endBlock (m : Channel) (j w tmp : ℕ) : Frame j m (m.endBlock j w tmp) :=
  ((setStatus m j (by simp)).trans (setState j _ tmp _)).trans (unlock j _ w)

theorem shift (j : ℕ) (m : Channel) (len n : ℕ) : Frame j m (m.shift len n) := by
  obtain ⟨flushed, buffer, beyond, hu⟩ := shift_cases m len n
  rw [hu]
  exact of_tasks j rfl rfl rfl

theorem writeChar (j : ℕ) (m : Channel) (b : UInt8) : Frame j m (m.writeChar b) := by
  have hput : Frame j m (m.put [b]) := of_tasks j rfl rfl rfl
  unfold Channel.writeChar
  simp only
  split
  · exact hput
  · exact hput.trans (launchFlusher j _)

end Frame

end Channel

/-! ## Steps -/

open Channel

/-- A step that neither calls `perform_io` nor ends such a call by a failure, and that is not one of
`da_perform`. -/
def Step.plain : Step → Bool
  | performIo _ | performFails _ | daPerform _ _ | daPerformed _ _ | daFails _ => false
  | _ => true

/-- A plain step, and the task that it may change: an operation only goes on with the result of the
perform function, or ends. -/
theorem frame_step {a : Step} (hu : Stepped m a u) (ha : a.plain = true) :
    ∃ j, Frame j m u ∧ ∀ w s, m.tasks[j]? = some ⟨.primitive, w, s⟩ → s.operates = true →
      a = .finish j ∨ ∃ n, a = .performed j n := by
  have hnone : ∀ w s, m.tasks[m.tasks.length]? = some ⟨.primitive, w, s⟩ → s.operates = true →
      a = .finish m.tasks.length ∨ ∃ n, a = .performed m.tasks.length n := by
    intro w s h
    simp at h
  -- a task that is not an operation
  have hother : ∀ {i v : ℕ} {r : Status} {kind : Kind}, m.tasks[i]? = some ⟨kind, v, r⟩ →
      kind ≠ .primitive ∨ r.operates = false → ∀ w s, m.tasks[i]? = some ⟨.primitive, w, s⟩ →
      s.operates = true → a = .finish i ∨ ∃ n, a = .performed i n := by
    intro i v r kind hi hr w s hi' hs
    rw [hi] at hi'
    obtain ⟨rfl, rfl, rfl⟩ : kind = .primitive ∧ v = w ∧ r = s := by simpa using hi'
    rcases hr with hr | hr
    · exact absurd rfl hr
    · rw [hr] at hs
      cases hs
  cases hu with
  | call kind w a hw => exact ⟨_, Frame.call m kind w, hnone⟩
  | abort kind w a hw =>
    exact ⟨_, (Frame.abort _ m w).trans (Frame.addTask _ _ kind w (by simp)), hnone⟩
  | writeChar w b => exact ⟨_, Frame.writeChar _ m b, hnone⟩
  | resume i w kind hi => exact ⟨i, Frame.resume m i kind w, hother hi (Or.inr rfl)⟩
  | cancel i w hi =>
    obtain ⟨kind, hi⟩ := hi
    exact ⟨i, Frame.setStatus m i (by simp), hother hi (Or.inr rfl)⟩
  | runCanceled i w kind hi => exact ⟨i, Frame.runCanceled m i kind w, hother hi (Or.inr rfl)⟩
  | write i w b => exact ⟨_, Frame.of_tasks _ rfl rfl rfl, hnone⟩
  | resize i w length => exact ⟨_, Frame.of_tasks _ rfl rfl rfl, hnone⟩
  | performed i w len n hi =>
    exact ⟨i, (Frame.setStatus m i (by simp)).trans (Frame.shift i _ len n),
      fun _ _ _ _ => Or.inr ⟨n, rfl⟩⟩
  | flush i w hi =>
    obtain ⟨kind, hi⟩ := hi
    exact ⟨i, Frame.autoFlush m i, hother hi (Or.inr rfl)⟩
  | closes i w s hi => exact ⟨i, Frame.closes m i w, hother hi (Or.inl (by simp))⟩
  | closeFails i w hi =>
    obtain ⟨kind, hi⟩ := hi
    exact ⟨i, Frame.closeFails m i w, hother hi (Or.inr rfl)⟩
  | endFlush i w s hi => exact ⟨i, Frame.endFlush m i w, hother hi (Or.inl (by simp))⟩
  | ends i w kind s o => exact ⟨i, Frame.give_back m i w (by simp), fun _ _ _ _ => Or.inl rfl⟩
  | endBlock i w tmp => exact ⟨i, Frame.endBlock m i w tmp, fun _ _ _ _ => Or.inl rfl⟩
  | performIo | performFails | daPerform | daPerformed | daFails => cases ha

end Lwt.Io
