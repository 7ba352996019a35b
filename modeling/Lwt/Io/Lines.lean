import Lwt.Io.Numbers

/-!
# Lines through a channel

`read_line` keeps back a `'\r'` until it has seen the next character (`addCr`).  `restOfLine` says
what the loop of `read_line` gives for the unread data, wherever the refills split it, and
`restOfLine_end` that this is the next piece of the data, without the `'\r'` of its end of line.  So
the calls of `read_line_opt` give the `lines` of the data and then `None`, and lines that have been
written with `write_line` come back.
-/

namespace Lwt.Io.Data

open Dialogue Window

/-! ## The lines of the data -/

/-- A line without the `'\r'` right before its end. -/
def chomp (piece : List UInt8) : List UInt8 :=
  if piece.getLast? = some 13 then piece.dropLast else piece

/-- The data is split at each `'\n'`.  What follows the last one is a line when it is not empty. -/
def lines (data : List UInt8) : List (List UInt8) :=
  (data.splitOn 10).dropLast.map chomp ++ (data.splitOn 10).getLast?.toList.filter (· ≠ [])

example : lines [97, 13, 10, 13, 13, 10, 10, 98, 13] = [[97], [13], [], [98, 13]] := by decide

variable {data piece rest buf : List UInt8} {crRead : Bool}

@[simp] theorem lines_nil : lines [] = [] := rfl

/-- A last line without an end of line keeps all of its characters. -/
theorem lines_last (hno : 10 ∉ data) (hne : data ≠ []) : lines data = [data] := by
  simp [lines, List.splitOn_eq_singleton hno, hne]

theorem lines_cons (hno : 10 ∉ piece) :
    lines (piece ++ 10 :: rest) = chomp piece :: lines rest := by
  have hpieces := List.splitOn_ne_nil 10 rest
  rw [lines, List.splitOn_append_cons_self_of_not_mem hno, List.dropLast_cons_of_ne_nil hpieces,
    List.getLast?_cons_of_ne_nil hpieces]
  rfl

theorem chomp_eq_self (hlast : piece.getLast? ≠ some 13) : chomp piece = piece := if_neg hlast

@[simp] theorem chomp_concat (piece : List UInt8) : chomp (piece ++ [13]) = piece := by
  simp [chomp]

/-! ## What the loop of `read_line` gives -/

/-- The rest of the line, and the data that follows it. -/
def restOfLine (crRead : Bool) (buf : List UInt8) : List UInt8 → List UInt8 × List UInt8
  | [] => (Primitives.addCr crRead buf, [])
  | c :: data =>
    if c = 10 then (buf, data)
    else if c = 13 then restOfLine true (Primitives.addCr crRead buf) data
    else restOfLine false (Primitives.addCr crRead buf ++ [c]) data

/-- The characters that have been read belong to the line, a `'\r'` before its end apart. -/
theorem restOfLine_end (hno : 10 ∉ piece) (hlast : crRead = false → buf.getLast? ≠ some 13) :
    restOfLine crRead buf (piece ++ 10 :: rest) =
      (chomp (Primitives.addCr crRead buf ++ piece), rest) := by
  induction piece generalizing crRead buf with
  | nil =>
    cases crRead with
    | true => simp [restOfLine, Primitives.addCr]
    | false => simp [restOfLine, Primitives.addCr, chomp_eq_self (hlast rfl)]
  | cons c piece ih =>
    obtain ⟨hc, hno⟩ := List.ne_and_not_mem_of_not_mem_cons hno
    rw [List.cons_append, restOfLine, if_neg hc.symm]
    split
    · next hcr =>
        rw [ih hno (by simp), hcr]
        simp [Primitives.addCr]
    · next hcr =>
        rw [ih hno (by simp [hcr])]
        simp [Primitives.addCr]

theorem restOfLine_last (hno : 10 ∉ data) :
    restOfLine crRead buf data = (Primitives.addCr crRead buf ++ data, []) := by
  induction data generalizing crRead buf with
  | nil => simp [restOfLine]
  | cons c data ih =>
    obtain ⟨hc, hno⟩ := List.ne_and_not_mem_of_not_mem_cons hno
    rw [restOfLine, if_neg hc.symm]
    split
    · next hcr =>
        rw [ih hno, hcr]
        simp [Primitives.addCr]
    · rw [ih hno]
      simp [Primitives.addCr]

theorem lines_eq_restOfLine (hne : data ≠ []) :
    lines data = (restOfLine false [] data).1 :: lines (restOfLine false [] data).2 := by
  by_cases hend : 10 ∈ data
  · obtain ⟨piece, rest, rfl, hno⟩ := List.eq_append_cons_of_mem hend
    rw [restOfLine_end hno (by simp), lines_cons hno]
    simp [Primitives.addCr]
  · rw [restOfLine_last hend, lines_last hend hne]
    simp [Primitives.addCr]

theorem lines_flatten {written : List (List UInt8)}
    (hwritten : ∀ line ∈ written, 10 ∉ line ∧ line.getLast? ≠ some 13) :
    lines (written.map (· ++ [10])).flatten = written := by
  induction written with
  | nil => rfl
  | cons line written ih =>
    obtain ⟨hno, hlast⟩ := hwritten line (List.mem_cons_self ..)
    rw [List.map_cons, List.flatten_cons, List.append_assoc, List.singleton_append,
      lines_cons hno, chomp_eq_self hlast,
      ih fun line hline => hwritten line (List.mem_cons_of_mem _ hline)]

variable {s s' : Moment} {calls : ℕ}

/-! ## Reading to the end -/

/-- The refill function can still be called `calls` times when it has given all of its data. -/
structure Fed (calls : ℕ) (s : Moment) : Prop extends Supplied s where
  spare : s.state.ch.typ = .normal → s.state.source.length + calls ≤ s.answers.length

theorem Fed.weaken (h : Fed (calls + 1) s) : Fed calls s :=
  ⟨h.toSupplied, fun htyp => by have := h.spare htyp; omega⟩

theorem Fed.wp_refill_end (h : Fed (calls + 1) s) (hbusy : s.state.ch.state = .busyPrimitive)
    (hsource : s.state.source = []) :
    wp refill (fun n s' => n = 0 ∧ Fed calls s') (fun _ _ => False) s := by
  cases htyp : s.state.ch.typ with
  | bytes =>
    simp only [refill, performIo, wp_bind, wp_get, hbusy, h.input.mode, htyp, wp_pure]
    exact ⟨trivial, h.weaken⟩
  | normal =>
    have hspare := h.spare htyp
    cases hanswers : s.answers with
    | nil => simp [hanswers] at hspare
    | cons a answers =>
      obtain ⟨n, rfl⟩ := h.chunks a (by simp [hanswers])
      refine wp_mono (wp_and (wp_performIo_input h.input hbusy) (wp_performIo_moves h.input
        hbusy htyp hanswers (absurd hsource))) ?_ fun _ _ h => h.2.elim
      rintro k s' ⟨hr, hzero, hrest⟩
      have hk : k = 0 := hzero.mpr hsource
      have havail := hr.avail
      have hunread := congrArg List.length hr.consumed.unread
      have hinside := length_slice h.input.inside
      have hinside' := length_slice hr.consumed.input.inside
      simp only [World.unread, List.length_append, List.nil_append, hsource] at hunread
      have hsource' : s'.state.source = [] :=
        List.length_eq_zero_iff.mp (by simp at hunread; omega)
      rw [hanswers, hsource, List.length_cons, List.length_nil] at hspare
      refine ⟨hk, ⟨hr.consumed.input, fun a ha => h.chunks a (hr.consumed.suffix.subset ha), ?_,
        absurd hsource'⟩, fun _ => ?_⟩
      · simp [hsource']
      · rw [hsource', List.length_nil, hrest]
        omega

theorem Fed.wp_readChar (h : Fed (calls + 1) s) (hbusy : s.state.ch.state = .busyPrimitive) :
    wp Primitives.readChar
      (fun c s' => Consumed [c] s s' ∧ Progress s s' ∧ Fed (calls + 1) s')
      (fun x s' => x = .raised .endOfFile ∧ s.state.unread = [] ∧ Consumed [] s s' ∧ Fed calls s')
      s := by
  refine wp_mono (wp_and (Data.wp_readChar h.input hbusy) (?_ : wp Primitives.readChar
      (fun _ s' => Fed (calls + 1) s')
      (fun x s' => x = .raised .endOfFile ∧ s.state.unread = [] ∧ Fed calls s') s))
    (fun _ _ hc => ⟨hc.1.1, hc.1.2, hc.2⟩) fun _ _ hx => ⟨hx.2.1, hx.2.2.1, hx.1.2, hx.2.2.2⟩
  refine wp_loopAsking (fun _ s' => Consumed [] s s' ∧ Fed (calls + 1) s') ?_ ⟨.refl h.input, h⟩
  rintro _ s1 ⟨hc, h1⟩
  have hbusy1 := hc.state.trans hbusy
  have hle := h1.input.le
  simp only [wp_bind, wp_get, wp_ite, wp_setPtr]
  refine ⟨fun hempty => ?_, fun hne => ?_⟩
  · by_cases hsource : s1.state.source = []
    · refine wp_mono (h1.wp_refill_end hbusy1 hsource) ?_ fun _ _ h => h.elim
      rintro n s2 ⟨rfl, h2⟩
      have hunread := hc.unread
      simp only [World.unread, hempty, Int.sub_self, slice_zero_length, hsource,
        List.append_nil] at hunread
      simp only [wp_ite, wp_raise, true_implies, not_true_eq_false, false_implies, and_true]
      exact ⟨trivial, hunread, h2⟩
    · have hmin : (0 : ℤ) < minBufferSize := by simp [minBufferSize]
      refine wp_mono (h1.wp_refill hbusy1 (by omega) hsource) ?_ fun _ _ h => h.elim
      rintro n s2 ⟨hn, h2, hc2, hanswers, hshorter⟩
      simp only [wp_ite, wp_raise, wp_pure]
      refine ⟨fun hzero => absurd hzero hn, fun _ => ⟨fun _ _ => ⟨⟨hc.trans hc2, h2, ?_⟩, by omega⟩,
        by simp⟩⟩
      intro htyp
      have hspare := h1.spare (hc2.typ ▸ htyp)
      omega
  · have hlt : s1.state.ch.ptr < s1.state.ch.max := by omega
    refine (wp_unsafeGet (by exact h1.input.inside_of_le (by omega) (by omega))).mpr ?_
    simp only [wp_pure]
    refine ⟨by simp, fun c _ => ?_⟩
    exact ⟨⟨(Consumed.passChar h1.input hlt).input, h1.chunks, h1.enough, h1.room⟩, h1.spare⟩

theorem Fed.wp_readLineLoop (h : Fed (calls + 1) s) (hbusy : s.state.ch.state = .busyPrimitive) :
    wp (Primitives.readLineLoop crRead buf)
      (fun line s' => restOfLine crRead buf s.state.unread = (line, s'.state.unread) ∧
        Fed calls s' ∧ s'.state.ch.state = .busyPrimitive)
      (fun _ _ => False) s := by
  refine wp_loop (fun r s' => restOfLine r.1 r.2 s'.state.unread =
    restOfLine crRead buf s.state.unread ∧ Fed (calls + 1) s' ∧
      s'.state.ch.state = .busyPrimitive) ?_ ⟨rfl, h, hbusy⟩
  rintro ⟨cr, b⟩ s1 ⟨hline, h1, hbusy1⟩
  simp only [Primitives.readLineTurn, wp_tryBind]
  refine wp_mono (h1.wp_readChar hbusy1) ?_ ?_
  · rintro c s2 ⟨hchar, hprogress, h2⟩
    have hless := hprogress.measure h1.input h2.input
    have hbusy2 := hchar.state.trans hbusy1
    rw [hchar.unread, List.singleton_append, restOfLine] at hline
    simp only [wp_ite, wp_pure]
    refine ⟨fun hend => ⟨by simp, fun line hr => ?_⟩, fun hend => ⟨fun hcr => ?_, fun hcr => ?_⟩⟩
    · cases hr
      rw [if_pos hend] at hline
      exact ⟨hline.symm, h2.weaken, hbusy2⟩
    · refine ⟨fun r hr => ?_, by simp⟩
      cases hr
      rw [if_neg hend, if_pos hcr] at hline
      exact ⟨⟨hline, h2, hbusy2⟩, hless⟩
    · refine ⟨fun r hr => ?_, by simp⟩
      cases hr
      rw [if_neg hend, if_neg hcr] at hline
      exact ⟨⟨hline, h2, hbusy2⟩, hless⟩
  · rintro _ s2 ⟨rfl, hempty, hnothing, h2⟩
    refine ⟨fun e he => ?_, fun hno => absurd rfl (hno .endOfFile)⟩
    cases he
    have hunread := hnothing.unread
    rw [hempty, List.nil_append] at hunread
    rw [hempty, restOfLine] at hline
    refine ⟨by simp, fun line hr => ?_⟩
    cases hr
    exact ⟨hline.symm.trans (by rw [hunread]), h2, hnothing.state.trans hbusy1⟩

/-- `read_line` fails only when there is no character left. -/
theorem Fed.wp_readLine (h : Fed (calls + 1) s) (hbusy : s.state.ch.state = .busyPrimitive) :
    wp Primitives.readLine
      (fun line s' => s.state.unread ≠ [] ∧
        restOfLine false [] s.state.unread = (line, s'.state.unread) ∧
        Fed calls s' ∧ s'.state.ch.state = .busyPrimitive)
      (fun x s' => x = .raised .endOfFile ∧ s.state.unread = [] ∧ s'.state.unread = [] ∧
        Fed calls s' ∧ s'.state.ch.state = .busyPrimitive) s := by
  simp only [Primitives.readLine, wp_bind]
  refine wp_mono (h.wp_readChar hbusy) ?_ ?_
  · rintro c s1 ⟨hchar, -, h1⟩
    have hbusy1 := hchar.state.trans hbusy
    rw [hchar.unread, List.singleton_append, restOfLine]
    simp only [wp_ite, wp_pure]
    refine ⟨fun hcr => ?_, fun hcr => ⟨fun hend => ?_, fun hend => ?_⟩⟩
    · rw [if_neg (by simp [hcr]), if_pos hcr]
      exact wp_mono (h1.wp_readLineLoop hbusy1) (fun _ _ hr => ⟨by simp, hr⟩) fun _ _ h => h.elim
    · rw [if_pos hend]
      exact ⟨by simp, rfl, h1.weaken, hbusy1⟩
    · rw [if_neg hend, if_neg hcr]
      exact wp_mono (h1.wp_readLineLoop hbusy1) (fun _ _ hr => ⟨by simp, hr⟩) fun _ _ h => h.elim
  · rintro _ s1 ⟨rfl, hempty, hnothing, h1⟩
    have hunread := hnothing.unread
    rw [hempty, List.nil_append] at hunread
    exact ⟨rfl, hempty, hunread.symm, h1, hnothing.state.trans hbusy⟩

theorem Fed.withState (h : Fed calls s) (state : State) : Fed calls (Data.withState s state) :=
  ⟨⟨h.input.withState _, h.chunks, h.enough, h.room⟩, h.spare⟩

theorem Fed.wp_readLineOpt (h : Fed (calls + 1) s) (hidle : s.state.ch.state = .idle) :
    wp (primitive Primitives.readLineOpt)
      (fun r s' => r = (lines s.state.unread)[0]? ∧
        lines s'.state.unread = (lines s.state.unread).tail ∧ Fed calls s' ∧
        s'.state.ch.state = .idle)
      (fun _ _ => False) s := by
  refine Data.wp_primitive hidle (wp_orEndOfFile ?_)
  refine wp_mono ((h.withState .busyPrimitive).wp_readLine rfl) ?_ ?_
  · rintro line s1 ⟨hne, hline, h1, hbusy1⟩
    have hlines := lines_eq_restOfLine hne
    rw [hline] at hlines
    refine ⟨hbusy1, ?_, ?_, h1.withState _, rfl⟩
    · exact (congrArg (·[0]?) hlines).symm
    · exact (congrArg List.tail hlines).symm
  · rintro _ s1 ⟨rfl, hempty, hempty1, h1, hbusy1⟩
    refine ⟨fun _ => ⟨hbusy1, ?_, ?_, h1.withState _, rfl⟩, fun hno => absurd rfl hno⟩
    · exact (congrArg (fun data => (lines data)[0]?) hempty).symm
    · have hunread : s.state.unread = [] := hempty
      have hunread1 : (Data.withState s1 .idle).state.unread = [] := hempty1
      rw [hunread, hunread1]
      rfl

/-- What the next calls of `read_line_opt` return. -/
structure LinesToRead (results : List (Option (List UInt8))) (s : Moment) : Prop where
  fed : Fed results.length s
  idle : s.state.ch.state = .idle
  results : results = (List.range results.length).map ((lines s.state.unread)[·]?)

theorem LinesToRead.step (endian : Endian) (floats : Floats) {r : Option (List UInt8)}
    {results : List (Option (List UInt8))} (h : LinesToRead (r :: results) s) :
    wp (InputOp.readLineOpt.run endian floats)
      (fun a s' => a = InputOp.option .bytes r ∧ LinesToRead results s') (fun _ _ => False) s := by
  have hresults := h.results
  rw [List.length_cons, List.range_succ_eq_map, List.map_cons, List.map_map] at hresults
  obtain ⟨hr, hrest⟩ := List.cons.inj hresults
  have hfed : Fed (results.length + 1) s := h.fed
  rw [InputOp.run, InputOp.result, wp_bind]
  refine wp_mono (hfed.wp_readLineOpt h.idle) ?_ fun _ _ h => h
  rintro line s' ⟨rfl, htail, hfed', hidle'⟩
  refine ⟨by rw [hr], hfed', hidle', hrest.trans (List.map_congr_left fun i _ => ?_)⟩
  rw [htail, List.getElem?_tail]
  rfl

theorem Opened.fed {ch : RealChannel} {source : List UInt8} (h : Opened ch source data)
    (platform : Platform) {chunks : List ℕ} (hchunks : ∀ n ∈ chunks, 1 ≤ n)
    (henough : source.length + calls ≤ chunks.length) :
    Fed calls (start ch source platform (chunks.map .moves)) :=
  ⟨(h.supplied platform hchunks (by omega)).1, fun _ => by rwa [start, List.length_map]⟩

/-- The calls of `read_line_opt` return the lines one by one, and then `None`. -/
theorem readLineOpt_session (endian : Endian) (floats : Floats) {ch : RealChannel}
    {source : List UInt8} (hopened : Opened ch source data) (platform : Platform) {chunks : List ℕ}
    (hchunks : ∀ n ∈ chunks, 1 ≤ n) (henough : source.length + calls ≤ chunks.length) :
    (session (InputOp.run endian floats) (List.replicate calls .readLineOpt)
        (start ch source platform (chunks.map .moves))).1.map (·.outcome) =
      (List.range calls).map fun i => .ok (InputOp.option .bytes (lines data)[i]?) := by
  have hlength : ((List.range calls).map ((lines data)[·]?)).length = calls := by simp
  have h : LinesToRead ((List.range calls).map ((lines data)[·]?))
      (start ch source platform (chunks.map .moves)) :=
    ⟨hlength.symm ▸ hopened.fed platform hchunks henough,
      (hopened.supplied platform hchunks (by omega)).2, by rw [hlength, hopened.unread]⟩
  have hknown := (session_known (InputOp.run endian floats) (fun _ => .readLineOpt)
    (InputOp.option .bytes) LinesToRead (fun _ _ _ h => h.step endian floats) _ _ h).1
  rwa [List.map_const', hlength, List.map_map] at hknown

/-! ## Writing lines and reading them back -/

/-- The line that an operation writes. -/
def OutputOp.line : OutputOp → Option (List UInt8)
  | .writeLine str => some str
  | _ => none

/-- All lines have been written, and a last flush has succeeded.  Nothing but lines has been
written; other flushes may have failed. -/
structure LinesOut (endian : Endian) (floats : Floats) (ops : List OutputOp)
    (past : OutputHistory) : Prop where
  all : past.map (·.op) = ops ++ [.flush]
  others : ∀ op ∈ ops, op.line = none → op.bytes endian floats = []
  lines : ∀ e ∈ past, e.op.line ≠ none → e.outcome = .ok none
  flushed : past.getLast?.map (·.outcome) = some (.ok none)

variable {endian : Endian} {floats : Floats}

theorem flatten_lines {ops : List OutputOp}
    (hothers : ∀ op ∈ ops, op.line = none → op.bytes endian floats = []) :
    (ops.map (OutputOp.bytes endian floats)).flatten =
      ((ops.filterMap OutputOp.line).map (· ++ [10])).flatten := by
  induction ops with
  | nil => rfl
  | cons op ops ih =>
    have hrest := ih fun op hop => hothers op (List.mem_cons_of_mem _ hop)
    cases hline : op.line with
    | none =>
      rw [List.map_cons, List.flatten_cons, hothers op (List.mem_cons_self ..) hline,
        List.filterMap_cons_none hline, hrest, List.nil_append]
    | some str =>
      obtain rfl : op = .writeLine str := by
        cases op <;> simp_all [OutputOp.line]
      rw [List.map_cons, List.flatten_cons, List.filterMap_cons_some hline, List.map_cons,
        List.flatten_cons, hrest]
      rfl

theorem sink_of_linesOut {past : OutputHistory} {ops : List OutputOp}
    (hpast : Accounted endian floats past s) (hout : LinesOut endian floats ops past)
    (hlast : ∀ e, past.getLast? = some e → s = e.after) :
    s.state.sink = ((ops.filterMap OutputOp.line).map (· ++ [10])).flatten := by
  rw [sink_of_flushed hpast hout.all (fun e he => ?_) hout.flushed hlast, flatten_lines hout.others]
  have hmem : e.op ∈ ops ++ [.flush] := hout.all ▸ List.mem_map_of_mem he
  by_cases hline : e.op.line = none
  · refine Or.inr ?_
    rcases List.mem_append.mp hmem with hop | hop
    · exact hout.others _ hop hline
    · rw [List.mem_singleton.mp hop]
      rfl
  · exact Or.inl (hout.lines e he hline)

/-- The calls of `read_line_opt` give the lines of the data one by one, wherever the source splits
it, and then `None`; and lines that have been written with `write_line`, with flushes that take any
part of the buffer, come back. -/
theorem lines_come_back (endian : Endian) (floats : Floats) (inp : RealChannel)
    (source data : List UInt8) (hin : Opened inp source data) (platform : Platform)
    (chunks : List ℕ)
    (hchunks : ∀ n ∈ chunks, 1 ≤ n) (calls : ℕ) (henough : source.length + calls ≤ chunks.length) :
    let r := session (InputOp.run endian floats) (List.replicate calls .readLineOpt)
      (start inp source platform (chunks.map .moves))
    r.1.map (·.outcome) =
        (List.range calls).map (fun i => .ok (InputOp.option .bytes (lines data)[i]?)) ∧
      ∀ (outSize : { n : ℤ // checkBufferSize "set_default_buffer_size" n = .ok () })
        (outBuffer : Option (List UInt8)) (out : RealChannel),
        make outSize .output outBuffer = .ok out → ∀ (platform' : Platform) (flushes : List Answer)
          (ops : List OutputOp),
        let w := session (OutputOp.run endian floats) (ops ++ [.flush])
          (start out [] platform' flushes)
        LinesOut endian floats ops w.1 → w.2.state.sink = data →
        (∀ line ∈ ops.filterMap OutputOp.line, 10 ∉ line ∧ line.getLast? ≠ some 13) →
        r.1.map (·.outcome) = (List.range calls).map fun i =>
          .ok (InputOp.option .bytes (ops.filterMap OutputOp.line)[i]?) := by
  intro r
  have hread := readLineOpt_session endian floats hin platform hchunks henough
  refine ⟨hread, ?_⟩
  intro outSize outBuffer out hmake platform' flushes ops w hout hdata hclean
  have haccounted := accounted_session endian floats hmake platform' flushes (ops ++ [.flush])
  have hsink := sink_of_linesOut haccounted hout fun e he => eq_after_of_getLast? _ _ _ e he
  have hlines : lines data = ops.filterMap OutputOp.line := by
    rw [← hdata, hsink, lines_flatten hclean]
  rw [← hlines]
  exact hread

/-- Three lines with `'\r'` in the middle and in front, read two bytes at a time. -/
theorem lines_come_back_by_twos :
    ∃ data : List UInt8, data = [97, 13, 98, 10, 10, 13, 99, 10] ∧
      (session (InputOp.run bigEndian zeroFloats) (List.replicate 4 .readLineOpt)
        (start (makeWith .input (List.replicate 16 0)) data .unlimited
          ((List.replicate 12 2).map .moves))).1.map (·.outcome) =
        [.ok (.bytes [97, 13, 98]), .ok (.bytes []), .ok (.bytes [13, 99]), .ok .none] :=
  ⟨[97, 13, 98, 10, 10, 13, 99, 10], rfl,
    ((lines_come_back bigEndian zeroFloats (makeWith .input (List.replicate 16 0)) _ _
      (.make ⟨16, rfl⟩ none _ _ rfl) .unlimited (List.replicate 12 2) (by decide) 4 (by decide)).2
      ⟨16, rfl⟩ none (makeWith .output (List.replicate 16 0)) rfl .unlimited
      [.moves 3, .raises .epipe, .moves 4, .moves 9]
      [.writeLine [97, 13, 98], .autoFlush, .autoFlush, .writeLine [], .writeLine [13, 99]]
      ⟨by decide +kernel, by decide, by decide +kernel, by decide +kernel⟩ (by decide +kernel)
      (by decide)).trans (by decide)⟩

end Lwt.Io.Data
