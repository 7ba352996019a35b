import Lwt.Promise.Loop

/-!
# What runs callbacks

Two functions record that they run something: `run_callbacks`, for the record of a promise,
and the iteration over its regular callbacks, for each callback.  What resolves a promise,
and the callbacks themselves, are `Silent`.
-/

namespace Lwt

variable {U : Type} {c c' : Config U} {a : Label U}

/-- A record or a regular callback is run. -/
def Event.runs : Event U → Bool
  | .called _ _ | .recordRun _ _ => true
  | _ => false

/-- Nothing is run on the way from `c` to `c'`. -/
def Silent (c c' : Config U) : Prop :=
  ∃ new, c'.trace = new ++ c.trace ∧ new.all (fun e => !e.runs) = true

namespace Silent

theorem of_eq (htrace : c'.trace = c.trace) : Silent c c' := ⟨[], htrace, rfl⟩

theorem of_cons {e : Event U} (htrace : c'.trace = e :: c.trace) (he : e.runs = false) :
    Silent c c' :=
  ⟨[e], htrace, by simp [he]⟩

theorem trans {c'' : Config U} (h : Silent c c') (h' : Silent c' c'') : Silent c c'' := by
  obtain ⟨new, hnew, hall⟩ := h
  obtain ⟨newer, hnewer, hall'⟩ := h'
  exact ⟨newer ++ new, by rw [hnewer, hnew, List.append_assoc], by
    rw [List.all_append, hall, hall', Bool.and_self]⟩

/-- The function is called in a configuration with the same trace. -/
theorem on {c₁ : Config U} (h : Silent c₁ c') (htrace : c₁.trace = c.trace) : Silent c c' :=
  Silent.trans (.of_eq htrace) h

end Silent

/-! ## Functions -/

section Functions

variable (c)

theorem silent_resolve (d : Deferral) (p : Pid) (r : Result U) : Silent c (resolve c d p r) := by
  unfold resolve
  split
  · unfold runCallbacksOrDeferThem
    split
    · exact .of_cons rfl rfl
    · exact .of_cons rfl rfl
  · exact .of_eq rfl

theorem silent_resolveUnderlying (p : Pid) (r : Result U) : Silent c (resolveUnderlying c p r) :=
  (silent_resolve _ _ _ _).on rfl

theorem silent_runCompose (target : Pid) (storage : Storage U) (r : Result U) (k : Compose U) :
    Silent c (runCompose c target storage r k) := by
  cases k with
  | pass => exact silent_resolveUnderlying c target r
  | proxy f => exact .of_cons rfl rfl
  | map f => exact .of_cons rfl rfl

theorem silent_runObserve (storage : Storage U) (r : Result U) (k : Observe U) :
    Silent c (runObserve c storage r k) := by
  cases k with
  | ignore => exact .of_eq rfl
  | _ => exact .of_cons rfl rfl

theorem silent_runJoin (j : ℕ) (r : Result U) : Silent c (runJoin c j r) := by
  unfold runJoin
  split
  · exact .of_eq rfl
  · dsimp only
    split
    · exact (silent_resolveUnderlying _ _ _).on rfl
    · exact .of_eq rfl

theorem silent_runCallback (r : Result U) (callback : Callback U) :
    Silent c (runCallback c r callback) := by
  cases callback with
  | compose target storage onFulfilled onRejected =>
    cases r with
    | fulfilled v => exact silent_runCompose c _ _ _ _
    | rejected e => exact silent_runCompose c _ _ _ _
  | observe storage onFulfilled onRejected =>
    cases r with
    | fulfilled v => exact silent_runObserve c _ _ _
    | rejected e => exact silent_runObserve c _ _ _
  | join j => exact silent_runJoin c j r

theorem silent_runCellBody (cell : Cell) (r : Result U) : Silent c (runCellBody c cell r) := by
  unfold runCellBody
  dsimp only
  split
  · exact silent_resolveUnderlying c _ _
  · exact silent_resolveUnderlying c _ _
  · exact .of_eq rfl
  · exact (silent_resolveUnderlying _ _ _).on rfl
  · exact .of_eq rfl
  · exact (silent_resolveUnderlying _ _ _).on rfl

end Functions

end Lwt
