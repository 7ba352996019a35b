import Lwt.Promise.Cancel
import Lwt.Promise.Cells
import Lwt.Promise.Events

/-!
# Running the record of one promise

`run_callbacks` iterates over the callback lists of a record.  User code runs on top of
the frames of the iteration, so that these stay where they are until everything above them
has returned (`step_onStack`); unless an exception breaks the loop, the iteration goes
through the whole list.  `Serving` is the account of the regular callbacks of one record:
when its frame has gone, each of them has been called, or removed.
-/

namespace Lwt

open Table Transition

variable {U : Type} {c c' : Config U} {a : Label U}

/-! ## A frame stays until it is returned to -/

/-- In a quiet step a frame of a resolution loop stays on the stack, or it is the top frame
and is returned to. -/
theorem step_onStack {frame : Frame U} {top below : List (Frame U)}
    (hframe : ∀ e, frame.breaks c e = true) (hquiet : c.quiet = true)
    (hstack : c.stack = top ++ frame :: below) (hstep : step c a = some c') :
    (∃ top', c'.stack = top' ++ frame :: below) ∨
      ∃ v, c.control = .ret v ∧ returnTo { c with stack := below } v frame = some c' := by
  cases top with
  | cons frame' top =>
    refine .inl ?_
    rcases step_stack hstep with ⟨frames, hframes⟩ | ⟨popped, stack, frames, hpop, hframes⟩
    · exact ⟨frames ++ frame' :: top, by rw [hframes, hstack, List.append_assoc]⟩
    · obtain ⟨-, rfl⟩ : popped = frame' ∧ stack = top ++ frame :: below := by
        simpa using hpop.symm.trans hstack
      exact ⟨frames ++ top, by rw [hframes, List.append_assoc]⟩
  | nil =>
    rcases step_top hstack hstep with ⟨s, m, hcontrol, rfl, huser⟩ | ⟨v, hcontrol, hret⟩ |
      ⟨e, hcontrol, rfl⟩
    · obtain ⟨frames, hframes⟩ := userStep_stack huser
      exact .inl ⟨frames, by rw [hframes, hstack, List.nil_append]⟩
    · exact .inr ⟨v, hcontrol, hret⟩
    · simp [Config.quiet, hcontrol, hstack, hframe e] at hquiet

/-! ## The trace of a callback -/

/-- Nothing is taken out of the trace. -/
def Extends (c c' : Config U) : Prop := ∃ new, c'.trace = new ++ c.trace

namespace Extends

theorem mem {e : Event U} (h : Extends c c') (he : e ∈ c.trace) : e ∈ c'.trace := by
  obtain ⟨new, hnew⟩ := h
  rw [hnew]
  exact List.mem_append_right _ he

end Extends

theorem Silent.extends (h : Silent c c') : Extends c c' := by
  obtain ⟨new, hnew, -⟩ := h
  exact ⟨new, hnew⟩

/-- Cells are never set again. -/
def CellsKept (c c' : Config U) : Prop :=
  ∀ i, i < c.cells.length → i < c'.cells.length ∧
    (isLive c.cells i = false → isLive c'.cells i = false)

theorem step_cells (hs : Sound c.store) (hstep : step c a = some c')
    (hcontrol : c'.control ≠ .crash) : CellsKept c c' := by
  obtain ⟨s', hacts, hend⟩ := step_sim (g := fun _ _ => True) hs (permits_true c a) hstep
  have hkept : ∀ i, i < c.cells.length → i < s'.cells.length ∧
      (isLive c.cells i = false → isLive s'.cells i = false) := by
    refine Acts.invariant (P := fun s => ∀ i, i < c.cells.length → i < s.cells.length ∧
      (isLive c.cells i = false → isLive s.cells i = false)) hacts (fun i hi => ⟨hi, fun h => h⟩) ?_
    intro s s' hkept hact i hi
    obtain ⟨hlt, hdead⟩ := hkept i hi
    refine ⟨?_, fun h => (hact.dead hlt (hdead h)).2⟩
    rcases hact.cells_cases with heq | ⟨j, heq⟩ | ⟨new, heq⟩
    · rwa [heq]
    · rw [heq]
      simpa [clearedCells] using hlt
    · rw [heq, List.length_append]
      omega
  rcases hend with ⟨hcrash, -⟩ | ⟨-, rfl⟩
  · exact absurd hcrash hcontrol
  · exact hkept

/-! ## Regular callbacks -/

/-- Every callback in the list `l` is in `todo`, or has been called with `r`, or, if it is a
removable one, has been removed. -/
structure Accounted (l : RegularCallbackList U) (r : Result U)
    (todo : List (RegularCallbackList U)) (c : Config U) : Prop where
  node : ∀ node ∈ l.nodes, .called node r ∈ c.trace ∨ node ∈ total RegularCallbackList.nodes todo
  cell : ∀ i ∈ l.cells, i < c.cells.length ∧ (.cellCalled i r ∈ c.trace ∨
    isLive c.cells i = false ∨ i ∈ total RegularCallbackList.cells todo)

section Accounted

variable {l : RegularCallbackList U} {r : Result U} {todo : List (RegularCallbackList U)}

theorem Accounted.mono {todo' : List (RegularCallbackList U)} (h : Accounted l r todo c)
    (htrace : Extends c c') (hkept : CellsKept c c')
    (hnode : ∀ node ∈ total RegularCallbackList.nodes todo,
      .called node r ∈ c'.trace ∨ node ∈ total RegularCallbackList.nodes todo')
    (hcell : ∀ i ∈ total RegularCallbackList.cells todo, .cellCalled i r ∈ c'.trace ∨
      isLive c.cells i = false ∨ i ∈ total RegularCallbackList.cells todo') :
    Accounted l r todo' c' := by
  have hdead : ∀ i, i < c.cells.length → isLive c.cells i = false → isLive c'.cells i = false :=
    fun i hi => (hkept i hi).2
  refine ⟨fun node hmem => ?_, fun i hmem => ?_⟩
  · rcases h.node node hmem with hcalled | hlisted
    · exact .inl (htrace.mem hcalled)
    · exact hnode node hlisted
  · obtain ⟨hi, hcase⟩ := h.cell i hmem
    refine ⟨(hkept i hi).1, ?_⟩
    rcases hcase with hcalled | hd | hlisted
    · exact .inl (htrace.mem hcalled)
    · exact .inr (.inl (hdead i hi hd))
    · rcases hcell i hlisted with hcalled | hd | hlisted'
      · exact .inl hcalled
      · exact .inr (.inl (hdead i hi hd))
      · exact .inr (.inr hlisted')

theorem runRegularCallbacks_turn (c : Config U) (r : Result U)
    (todo : List (RegularCallbackList U)) :
    todo = [] ∨ ∃ frames todo',
      (runRegularCallbacks c r todo).stack = frames ++ .runRegularCallbacks todo' r :: c.stack ∧
      (∀ node ∈ total RegularCallbackList.nodes todo,
        .called node r ∈ (runRegularCallbacks c r todo).trace ∨
          node ∈ total RegularCallbackList.nodes todo') ∧
      ∀ i ∈ total RegularCallbackList.cells todo,
        .cellCalled i r ∈ (runRegularCallbacks c r todo).trace ∨ isLive c.cells i = false ∨
          i ∈ total RegularCallbackList.cells todo' := by
  cases todo with
  | nil => exact .inl rfl
  | cons l rest =>
    refine .inr ?_
    cases l with
    | empty =>
      exact ⟨[], rest, rfl, fun node hmem =>
        .inr (by simpa [RegularCallbackList.nodes] using hmem),
        fun i hmem => .inr (.inr (by simpa [RegularCallbackList.cells] using hmem))⟩
    | concat l l' =>
      refine ⟨[], l :: l' :: rest, rfl, fun node hmem => .inr ?_,
        fun i hmem => .inr (.inr ?_)⟩
      · simpa [RegularCallbackList.nodes, or_assoc] using hmem
      · simpa [RegularCallbackList.cells, or_assoc] using hmem
    | implicitlyRemoved node =>
      have hext := (silent_runCallback ((c.emit (.called node r)).push
        [.runRegularCallbacks rest r]) r node.callback).extends
      obtain ⟨frames, hstack, -⟩ := grows_runCallback ((c.emit (.called node r)).push
        [.runRegularCallbacks rest r]) r node.callback
      -- the call is in the trace, whatever it pushes
      refine ⟨frames, rest, hstack, fun node' hmem => ?_, fun i hmem => ?_⟩
      · simp only [total_cons, RegularCallbackList.nodes, Multiset.mem_add,
          Multiset.mem_singleton] at hmem
        rcases hmem with rfl | hmem
        · exact .inl (hext.mem (by simp [Config.emit, Config.push]))
        · exact .inr hmem
      · exact .inr (.inr (by simpa [RegularCallbackList.cells] using hmem))
    | explicitlyRemovable j =>
      have hnodes : ∀ node ∈ total RegularCallbackList.nodes (.explicitlyRemovable j :: rest),
          node ∈ total RegularCallbackList.nodes rest := fun node hmem => by
        simpa [RegularCallbackList.nodes] using hmem
      have hcells : ∀ i ∈ total RegularCallbackList.cells
          (.explicitlyRemovable j :: rest : List (RegularCallbackList U)),
          i = j ∨ i ∈ total RegularCallbackList.cells rest := fun i hmem => by
        simpa [RegularCallbackList.cells] using hmem
      simp only [runRegularCallbacks]
      split
      · rename_i cell hcell
        split
        · obtain ⟨frames, hstack, -⟩ := grows_runCellBody
            (((c.push [.runRegularCallbacks rest r]
            ).emit (.cellCalled j r)).clearCell j cell.originallyAddedTo) cell r
          have hext := (silent_runCellBody (((c.push [.runRegularCallbacks rest r]).emit
            (.cellCalled j r)).clearCell j cell.originallyAddedTo) cell r).extends
          refine ⟨frames, rest, hstack, fun node hmem => .inr (hnodes node hmem),
            fun i hmem => ?_⟩
          rcases hcells i hmem with rfl | hmem
          · exact .inl (hext.mem (by simp [Config.emit, Config.clearCell]))
          · exact .inr (.inr hmem)
        · rename_i hlive
          -- a dead cell is passed over
          have hdead : isLive c.cells j = false := by
            have hcell' : c.cells[j]? = some cell := hcell
            simpa [isLive, hcell'] using hlive
          refine ⟨[], rest, rfl, fun node hmem => .inr (hnodes node hmem), fun i hmem => ?_⟩
          rcases hcells i hmem with rfl | hmem
          · exact .inr (.inl hdead)
          · exact .inr (.inr hmem)
      · rename_i hcell
        have hdead : isLive c.cells j = false := by
          have hcell' : c.cells[j]? = none := hcell
          simp [isLive, hcell']
        refine ⟨[], rest, rfl, fun node hmem => .inr (hnodes node hmem), fun i hmem => ?_⟩
        rcases hcells i hmem with rfl | hmem
        · exact .inr (.inl hdead)
        · exact .inr (.inr hmem)

end Accounted

/-! ## The record -/

/-- The record of `p` is going to be run with `r` above `below`, or is being run, or has been
run, and none of its regular callbacks has been passed over. -/
inductive Serving (p : Pid) (callbacks : Callbacks U) (r : Result U) (below : List (Frame U))
    (c : Config U) : Prop
  | crashed : c.control = .crash → Serving p callbacks r below c
  | waiting {t : List (Frame U)} : c.stack = t ++ .runCallbacks p callbacks r :: below →
      Accounted callbacks.regularCallbacks r [callbacks.regularCallbacks] c →
      Serving p callbacks r below c
  | iterating {t : List (Frame U)} {todo : List (RegularCallbackList U)} :
      c.stack = t ++ .runRegularCallbacks todo r :: below →
      Accounted callbacks.regularCallbacks r todo c → Serving p callbacks r below c
  | served : Accounted callbacks.regularCallbacks r [] c → Serving p callbacks r below c

theorem Serving.step {p : Pid} {callbacks : Callbacks U} {r : Result U} {below : List (Frame U)}
    (h : Serving p callbacks r below c) (hs : Sound c.store) (hquiet : c.quiet = true)
    (hstep : step c a = some c') : Serving p callbacks r below c' := by
  by_cases hcontrol : c'.control = .crash
  · exact .crashed hcontrol
  have hkept := step_cells hs hstep hcontrol
  have htrace : Extends c c' := step_trace hs hstep
  have hsame : ∀ todo, Accounted callbacks.regularCallbacks r todo c →
      Accounted callbacks.regularCallbacks r todo c' := fun todo hacc =>
    hacc.mono htrace hkept (fun _ hmem => .inr hmem) fun _ hmem => .inr (.inr hmem)
  cases h with
  | crashed hcrash => exact absurd hcrash (control_ne_crash_of_step hstep)
  | served hacc => exact .served (hsame _ hacc)
  | waiting hstack hacc =>
    rcases step_onStack (fun e => rfl) hquiet hstack hstep with ⟨top', hstack'⟩ | ⟨v, -, hret⟩
    · exact .waiting hstack' (hsame _ hacc)
    · cases hret
      have hrest : Accounted callbacks.regularCallbacks r [callbacks.regularCallbacks]
          (runCallbacks { c with stack := below } p callbacks r) := hsame _ hacc
      by_cases hcanceled : r.isCanceled = true
      · exact .iterating (t := [.runCancelCallbacks [callbacks.cancelCallbacks]])
          (by simp [runCallbacks, hcanceled, Config.push, Config.emit, Config.ret]) hrest
      · exact .iterating (t := [])
          (by simp [runCallbacks, hcanceled, Config.push, Config.emit, Config.ret]) hrest
  | @iterating top todo hstack hacc =>
    rcases step_onStack (fun e => rfl) hquiet hstack hstep with ⟨top', hstack'⟩ | ⟨v, -, hret⟩
    · exact .iterating hstack' (hsame _ hacc)
    · cases hret
      rcases runRegularCallbacks_turn { c with stack := below } r todo with
        rfl | ⟨frames, todo', hstack', hnode, hcell⟩
      · exact .served (hsame _ hacc)
      · exact .iterating hstack' (hacc.mono htrace hkept hnode hcell)

end Lwt
