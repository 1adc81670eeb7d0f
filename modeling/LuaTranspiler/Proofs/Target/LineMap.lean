import LuaTranspiler.Proofs.Rising
import LuaTranspiler.Proofs.Target.Writing

/-!
# The line map of a writer

A writer counts lines by hand beside the text. The count is right after every action, since no
text that it emits has a newline; the blanks at the start of lines are as before when a statement
or a block is written; each entry of the line map is made right before its node is written; and a
line ends between two entries.

* `Counted`: the line of a writer is the one that its text ends on
* `Annotated`: every note in a sequence of actions is followed by the node that it is about
* `RisesWithin`, `RisesOnLines`: pieces with each mark on a line of its own
* `WritesPieces`: what actions write are the texts and marks of pieces
* `print_eq_ofPieces`: a listing is that of its pieces
* `writesLines_print`: all of this together, of every list of statements
-/

namespace LuaTranspiler.Target

open Piece

variable {provenance : Option Provenance} {w : Writer} {as bs : List Action} {n : Nat}

namespace Writer

@[simp] theorem run_nil : run provenance w [] = w := rfl

theorem run_cons (a : Action) :
    run provenance w (a :: as) = run provenance (step provenance w a) as := rfl

theorem run_append : run provenance w (as ++ bs) = run provenance (run provenance w as) bs :=
  List.foldl_append

/-! ### Counting lines -/

/-- The count of newlines in a text. -/
def newlines (s : String) : Nat := s.toList.count '\n'

theorem newlines_append (s t : String) : newlines (s ++ t) = newlines s + newlines t := by
  simp [newlines]

theorem newlines_of_oneLine {s : String} (h : OneLine s) : newlines s = 0 :=
  List.count_eq_zero.2 h

/-- The line of a writer is the one that its text ends on, and its blanks end no line. -/
structure Counted (w : Writer) : Prop where
  line : w.line = 1 + newlines w.out
  indent : OneLine w.indent

theorem counted_initial : Counted initial := ⟨by decide, by decide⟩

/-- What an action emits satisfies `P`. -/
def Emits (P : String → Prop) : Action → Prop
  | .emit text => P text
  | .startLine | .endLine | .increaseIndent | .decreaseIndent | .map _ => True

theorem Counted.step (h : Counted w) {a : Action} (ha : Emits OneLine a) :
    Counted (step provenance w a) := by
  obtain ⟨hline, hindent⟩ := h
  cases a with
  | emit text =>
    refine ⟨?_, hindent⟩
    rw [Writer.step, newlines_append, newlines_of_oneLine ha]
    exact hline
  | startLine =>
    refine ⟨?_, hindent⟩
    rw [Writer.step, newlines_append, newlines_of_oneLine hindent]
    exact hline
  | endLine =>
    refine ⟨?_, hindent⟩
    rw [Writer.step, newlines_append, hline, Nat.add_assoc]
    rfl
  | increaseIndent => exact ⟨hline, ofTexts_oneLine.append hindent (by decide)⟩
  | decreaseIndent =>
    -- what is left of the blanks was there before
    refine ⟨hline, fun hmem => hindent ?_⟩
    rw [Writer.step, String.toList_ofList] at hmem
    exact List.mem_of_mem_take hmem
  | map id => exact ⟨hline, hindent⟩

theorem Counted.run (h : Counted w) (has : ∀ a ∈ as, Emits OneLine a) :
    Counted (run provenance w as) := by
  induction as generalizing w with
  | nil => exact h
  | cons a as ih =>
    obtain ⟨ha, has⟩ := List.forall_mem_cons.1 has
    exact ih (h.step ha) has

/-! ### Text and entries only grow -/

theorem exists_out_run (provenance : Option Provenance) (as : List Action) (w : Writer) :
    ∃ text, (run provenance w as).out = w.out ++ text := by
  induction as generalizing w with
  | nil => exact ⟨"", by simp⟩
  | cons a as ih =>
    obtain ⟨rest, hrest⟩ := ih (step provenance w a)
    have hstep : ∃ text, (step provenance w a).out = w.out ++ text := by
      cases a with
      | emit text => exact ⟨text, rfl⟩
      | startLine => exact ⟨w.indent, rfl⟩
      | endLine => exact ⟨"\n", rfl⟩
      | increaseIndent | decreaseIndent | map _ => exact ⟨"", by simp [step]⟩
    obtain ⟨text, htext⟩ := hstep
    exact ⟨text ++ rest, by rw [run_cons, hrest, htext, String.append_assoc]⟩

/-- Every new entry of the line map was made by a note on the line of that time. -/
theorem exists_of_mem_mappings {m : LineMapping} (hm : m ∈ (run provenance w as).mappings)
    (hnew : m ∉ w.mappings) :
    ∃ before id after, as = before ++ .map id :: after ∧
      mapping? provenance (run provenance w before).line id = some m := by
  induction as generalizing w with
  | nil => exact absurd hm hnew
  | cons a as ih =>
    by_cases hstep : m ∈ (step provenance w a).mappings
    · cases a with
      | map id =>
        rcases Array.mem_append.1 hstep with hold | hmap
        · exact absurd hold hnew
        · exact ⟨[], id, as, rfl, Option.mem_toArray.1 hmap⟩
      | _ => exact absurd hstep hnew
    · obtain ⟨before, id, after, rfl, hmap⟩ := ih hm hstep
      exact ⟨a :: before, id, after, rfl, hmap⟩

/-! ### Blanks -/

theorem indent_step_decrease (x : String) :
    String.ofList ((x ++ "    ").toList.take ((x ++ "    ").length - 4)) = x := by
  have hlength : (x ++ "    ").length - 4 = x.toList.length := by
    rw [String.length_append, String.length_toList]
    rfl
  rw [hlength, String.toList_append, List.take_left, String.ofList_toList]

/-- A block leaves the blanks as they were if its lines do. -/
theorem indent_run_block (hlines : ∀ w, (run provenance w as).indent = w.indent) (w : Writer) :
    (run provenance w (blockActions as)).indent = w.indent := by
  have hdeeper := hlines (run provenance w [.emit " \x7b", .endLine, .increaseIndent])
  calc (run provenance w (blockActions as)).indent
      = String.ofList ((run provenance (run provenance w
          [.emit " \x7b", .endLine, .increaseIndent]) as).indent.toList.take
          ((run provenance (run provenance w
            [.emit " \x7b", .endLine, .increaseIndent]) as).indent.length - 4)) := by
        rw [blockActions, run_cons, run_cons, run_cons, run_append]
        rfl
    _ = w.indent := by
        rw [hdeeper]
        exact indent_step_decrease w.indent

theorem indent_run_nodes {nodes : List Node}
    (h : ∀ node ∈ nodes, ∀ w, (run provenance w node.actions).indent = w.indent) (w : Writer) :
    (run provenance w (nodes.flatMap nodeActions)).indent = w.indent := by
  induction nodes generalizing w with
  | nil => rfl
  | cons node nodes ih =>
    obtain ⟨hnode, hnodes⟩ := List.forall_mem_cons.1 h
    rw [List.flatMap_cons, run_append, ih hnodes, nodeActions, run_cons, run_cons, run_append]
    exact hnode _

/-- What stays on a line leaves the blanks as they were. -/
theorem indent_run_inline {P : String → Prop} {ps : List Piece} (h : Inline P n as ps)
    (w : Writer) : (run provenance w as).indent = w.indent := by
  induction h generalizing w with
  | nil => rfl
  | emit => rfl
  | append _ _ iha ihb => rw [run_append, ihb, iha]
  | block _ ih => exact indent_run_block (indent_run_nodes ih) w
  | branch _ _ ih ihs =>
    rw [run_append, Else.actions, run_cons, run_cons, ihs]
    exact indent_run_block (indent_run_nodes ih) w

end Writer

open Writer

/-! ### Emitted texts and notes -/

theorem emits_nodes {P : String → Prop} {nodes : List Node}
    (h : ∀ node ∈ nodes, ∀ a ∈ node.actions, Emits P a) :
    ∀ a ∈ nodes.flatMap nodeActions, Emits P a := by
  rw [List.forall_mem_flatMap]
  intro node hnode
  simp only [nodeActions, List.forall_mem_cons, List.forall_mem_append]
  exact ⟨trivial, trivial, h node hnode, trivial, List.forall_mem_nil _⟩

theorem emits_block {P : String → Prop} (hP : OfTexts P) (h : ∀ a ∈ as, Emits P a) :
    ∀ a ∈ blockActions as, Emits P a := by
  simp only [blockActions, List.forall_mem_cons, List.forall_mem_append]
  exact ⟨hP.oneLine (by decide), trivial, trivial, h, trivial, trivial, hP.oneLine (by decide),
    List.forall_mem_nil _⟩

/-- The texts emitted along the grammar are those that it asks to satisfy `P`. -/
theorem Inline.emits {P : String → Prop} (hP : OfTexts P) {ps : List Piece}
    (h : Inline P n as ps) : ∀ a ∈ as, Emits P a := by
  induction h with
  | nil => exact List.forall_mem_nil _
  | emit htext => exact List.forall_mem_singleton.2 htext
  | append _ _ iha ihb => exact List.forall_mem_append.2 ⟨iha, ihb⟩
  | block _ ih => exact emits_block hP (emits_nodes ih)
  | branch _ _ ih ihs =>
    refine List.forall_mem_append.2 ⟨emits_block hP (emits_nodes ih), ?_⟩
    exact List.forall_mem_cons.2 ⟨hP.oneLine (by decide), List.forall_mem_cons.2 ⟨trivial, ihs⟩⟩

/-- Every note is followed by the actions that write its node, on the same line. -/
def Annotated (as : List Action) : Prop :=
  ∀ before id after, as = before ++ .map id :: after →
    ∃ node opening behind, Node.id node = id ∧ (opening = [] ∨ opening = [Action.startLine]) ∧
      after = opening ++ (node.actions ++ behind)

theorem Annotated.append (has : Annotated as) (hbs : Annotated bs) : Annotated (as ++ bs) := by
  intro before id after heq
  rcases List.append_eq_append_iff.1 heq with ⟨middle, rfl, hmiddle⟩ | ⟨middle, rfl, hmiddle⟩
  · exact hbs middle id after hmiddle
  · cases middle with
    | nil => exact hbs [] id after hmiddle.symm
    | cons a middle =>
      obtain ⟨rfl, rfl⟩ := List.cons.inj hmiddle
      obtain ⟨node, opening, behind, hid, hopening, rfl⟩ := has before id middle rfl
      exact ⟨node, opening, behind ++ bs, hid, hopening, by simp⟩

/-- Actions without notes. -/
theorem annotated_of_not_mem (h : ∀ id, Action.map id ∉ as) : Annotated as := by
  rintro before id after rfl
  exact absurd (List.mem_append_right before List.mem_cons_self) (h id)

/-- A note, and what it is about right behind it. -/
theorem annotated_cons_map (node : Node) (opening bs : List Action)
    (hopening : opening = [] ∨ opening = [.startLine])
    (h : Annotated (opening ++ (node.actions ++ bs))) :
    Annotated (.map node.id :: (opening ++ (node.actions ++ bs))) := by
  intro before id after heq
  cases before with
  | nil =>
    obtain ⟨hid, rfl⟩ := List.cons.inj heq
    exact ⟨node, opening, bs, Action.map.inj hid, hopening, rfl⟩
  | cons a before =>
    obtain ⟨rfl, hrest⟩ := List.cons.inj heq
    exact h before id after hrest

theorem annotated_nodes {nodes : List Node} (h : ∀ node ∈ nodes, Annotated node.actions) :
    Annotated (nodes.flatMap nodeActions) := by
  induction nodes with
  | nil => exact annotated_of_not_mem fun id => List.not_mem_nil
  | cons node nodes ih =>
    obtain ⟨hnode, hnodes⟩ := List.forall_mem_cons.1 h
    have hstart : Annotated [.startLine] := annotated_of_not_mem (by simp)
    have hend : Annotated [.endLine] := annotated_of_not_mem (by simp)
    have hline := annotated_cons_map node [.startLine] [.endLine] (.inr rfl)
      (hstart.append (hnode.append hend))
    exact hline.append (ih hnodes)

theorem annotated_block (h : Annotated as) : Annotated (blockActions as) := by
  have hopen : Annotated [.emit " \x7b", .endLine, .increaseIndent] :=
    annotated_of_not_mem (by simp)
  have hclose : Annotated [.decreaseIndent, .startLine, .emit "\x7d"] :=
    annotated_of_not_mem (by simp)
  exact hopen.append (h.append hclose)

/-- Along the grammar every note stands before its node. -/
theorem Inline.annotated {P : String → Prop} {ps : List Piece} (h : Inline P n as ps) :
    Annotated as := by
  induction h with
  | nil => exact annotated_of_not_mem fun id => List.not_mem_nil
  | emit => exact annotated_of_not_mem (by simp)
  | append _ _ iha ihb => exact iha.append ihb
  | block _ ih => exact annotated_block (annotated_nodes ih)
  | @branch n nodes s _ _ ih ihs =>
    have helse : Annotated [.emit " else "] := annotated_of_not_mem (by simp)
    have hbranch := annotated_cons_map (.stmt s) [] [] (.inl rfl)
      (by simpa [Node.actions] using ihs)
    simp only [List.nil_append, List.append_nil, Node.id, Node.actions] at hbranch
    exact (annotated_block (annotated_nodes ih)).append (helse.append hbranch)

/-! ### Writing the pieces -/

/-- The entries of the line map for the marks of pieces. -/
def noted (provenance : Option Provenance) (line : Nat) (ps : List Piece) : List LineMapping :=
  (marks line ps).filterMap fun m => mapping? provenance m.1 m.2

/-- The writer after some pieces. -/
def Writer.after (provenance : Option Provenance) (w : Writer) (ps : List Piece) : Writer :=
  { w with
    out := w.out ++ code ps
    line := w.line + lineCount ps
    mappings := w.mappings ++ (noted provenance w.line ps).toArray }

theorem after_append (w : Writer) (ps qs : List Piece) :
    w.after provenance (ps ++ qs) = (w.after provenance ps).after provenance qs := by
  simp only [Writer.after, noted, code_append, marks_append, List.filterMap_append, lineCount,
    List.count_append, String.append_assoc, Array.append_assoc, List.append_toArray, Nat.add_assoc]

theorem lineCount_flat {ps : List Piece} (h : ps.all flat) : lineCount ps = 0 := by
  refine List.count_eq_zero.2 fun hmem => ?_
  exact absurd (List.all_eq_true.1 h newline hmem) (by decide)

theorem marks_flat {ps : List Piece} (h : ps.all flat) (line : Nat) : marks line ps = [] := by
  induction ps with
  | nil => rfl
  | cons p ps ih =>
    rw [List.all_cons, Bool.and_eq_true] at h
    obtain ⟨hp, hps⟩ := h
    cases p with
    | token | space => exact ih hps
    | newline | indent | mark => exact absurd hp (by simp [flat])

theorem after_flat {ps : List Piece} (h : ps.all flat) (w : Writer) :
    w.after provenance ps = { w with out := w.out ++ code ps } := by
  simp [Writer.after, noted, marks_flat h, lineCount_flat h]

/-- The blanks of an indentation level. -/
def blanks (n : Nat) : String := (indent n).text

theorem blanks_succ (n : Nat) : blanks n ++ "    " = blanks (n + 1) := by
  have hfour : "    " = String.ofList (List.replicate 4 ' ') := by decide
  rw [blanks, blanks, Piece.text, Piece.text, hfour, ← String.ofList_append,
    List.replicate_append_replicate]
  rfl

/-- The actions `as` write the pieces `ps`. -/
def WritesPieces (provenance : Option Provenance) (n : Nat) (as : List Action)
    (ps : List Piece) : Prop :=
  ∀ w : Writer, w.indent = blanks n → run provenance w as = w.after provenance ps

theorem WritesPieces.append {ps qs : List Piece} (has : WritesPieces provenance n as ps)
    (hbs : WritesPieces provenance n bs qs) :
    WritesPieces provenance n (as ++ bs) (ps ++ qs) := by
  intro w hw
  rw [run_append, has w hw, hbs (w.after provenance ps) hw, after_append]

theorem writesPieces_emit {ps : List Piece} {text : String} (hflat : ps.all flat)
    (hcode : code ps = text) : WritesPieces provenance n [.emit text] ps := by
  intro w hw
  rw [after_flat hflat, hcode]
  rfl

theorem writesPieces_endLine : WritesPieces provenance n [.endLine] [newline] := by
  intro w hw
  simp [run, step, Writer.after, noted, marks, lineCount, code, Piece.text]

theorem writesPieces_startLine : WritesPieces provenance n [.startLine] [indent n] := by
  intro w hw
  simp [run, step, Writer.after, noted, marks, lineCount, code, hw, blanks]

theorem writesPieces_map (id : Nat) : WritesPieces provenance n [.map id] [mark id] := by
  intro w hw
  have hnoted : (noted provenance w.line [mark id]).toArray =
      (mapping? provenance w.line id).toArray := by
    cases h : mapping? provenance w.line id <;> simp [noted, marks, h]
  simp [run, step, Writer.after, hnoted, lineCount, code, Piece.text]

/-- Lines that are written one level deeper make a block. -/
theorem WritesPieces.block {ps : List Piece} (h : WritesPieces provenance (n + 1) as ps) :
    WritesPieces provenance n (blockActions as) (blockPieces n ps) := by
  intro w hw
  -- the writer behind the opening brace, which is one level deeper
  let v : Writer := { w.after provenance [space, token "\x7b", newline] with
    indent := blanks (n + 1) }
  have hopen : run provenance w [.emit " \x7b", .endLine, .increaseIndent] = v := by
    simp [v, run, step, Writer.after, noted, marks, lineCount, code, Piece.text, hw, blanks_succ,
      String.append_assoc]
  have hdecrease : String.ofList ((blanks (n + 1)).toList.take ((blanks (n + 1)).length - 4)) =
      w.indent := by
    rw [← blanks_succ, indent_step_decrease, hw]
  have htext : w.indent = String.ofList (List.replicate (4 * n) ' ') := hw
  have hclose : run provenance (v.after provenance ps) [.decreaseIndent, .startLine, .emit "\x7d"] =
      w.after provenance (blockPieces n ps) := by
    have hpieces : blockPieces n ps =
        [space, token "\x7b", newline] ++ (ps ++ [indent n, token "\x7d"]) := rfl
    rw [hpieces, after_append, after_append]
    simp [v, run, step, Writer.after, noted, marks, lineCount, code, hdecrease, htext, Piece.text,
      String.append_assoc]
  calc run provenance w (blockActions as)
      = run provenance (run provenance (run provenance w [.emit " \x7b", .endLine, .increaseIndent])
          as) [.decreaseIndent, .startLine, .emit "\x7d"] := by
        rw [← run_append, ← run_append]
        rfl
    _ = w.after provenance (blockPieces n ps) := by rw [hopen, h v rfl, hclose]

theorem writesPieces_nil : WritesPieces provenance n [] [] := by
  intro w hw
  simp [Writer.after, noted, marks, lineCount]

theorem writesPieces_nodes {nodes : List Node}
    (h : ∀ node ∈ nodes, WritesPieces provenance n node.actions (node.pieces n)) :
    WritesPieces provenance n (nodes.flatMap nodeActions) (nodes.flatMap (nodePieces n)) := by
  induction nodes with
  | nil => exact writesPieces_nil
  | cons node nodes ih =>
    obtain ⟨hnode, hnodes⟩ := List.forall_mem_cons.1 h
    have hline : WritesPieces provenance n (nodeActions node) (nodePieces n node) :=
      (writesPieces_map node.id).append
        (writesPieces_startLine.append (hnode.append writesPieces_endLine))
    exact hline.append (ih hnodes)

/-- Along the grammar the actions write the pieces. -/
theorem Inline.writesPieces {P : String → Prop} {ps : List Piece} (h : Inline P n as ps) :
    WritesPieces provenance n as ps := by
  induction h with
  | nil => exact writesPieces_nil
  | emit _ hflat hcode => exact writesPieces_emit hflat hcode
  | append _ _ iha ihb => exact iha.append ihb
  | block _ ih => exact (writesPieces_nodes ih).block
  | @branch n nodes s _ _ ih ihs =>
    have helse : WritesPieces provenance n [.emit " else "] [space, token "else", space] :=
      writesPieces_emit (by decide) (by decide)
    exact (writesPieces_nodes ih).block.append (helse.append ((writesPieces_map s.id).append ihs))

/-- Expressions are written as their pieces, whatever their names are. -/
theorem writesPieces_expr (e : Expr) : WritesPieces provenance n e.actions (e.pieces n) :=
  (inline_expr ofTexts_true e n fun _ _ => trivial).writesPieces

/-- The same where an expression is in parentheses if it binds too loosely. -/
theorem writesPieces_guarded (least : Nat) (e : Expr) :
    WritesPieces provenance n (e.writtenAbove least e.actions) (e.guarded least (e.pieces n)) :=
  ((inline_expr ofTexts_true e n fun _ _ => trivial).above ofTexts_true least e).writesPieces

/-- Statements follow the grammar, whatever their names are. -/
theorem inline_lines (ss : List Stmt) :
    ∀ node ∈ ss.map Node.stmt, Inline (fun _ => True) 0 node.actions (node.pieces 0) :=
  inline_stmts ofTexts_true ss 0 fun _ _ => trivial

/-- A listing is that of its pieces. -/
theorem print_eq_ofPieces (stmts : List Stmt) (provenance : Option Provenance) :
    print stmts provenance = Listing.ofPieces provenance (linePieces 0 stmts) := by
  have hrun : WritesPieces provenance 0 (lineActions stmts) (linePieces 0 stmts) := by
    rw [lineActions_eq, linePieces_eq]
    exact writesPieces_nodes fun node hnode => (inline_lines stmts node hnode).writesPieces
  have hnoted : noted provenance 1 (linePieces 0 stmts) =
      (Listing.ofPieces provenance (linePieces 0 stmts)).mappings := by
    cases provenance with
    | none => simp [noted, mapping?, Listing.ofPieces]
    | some p => rfl
  rw [print, hrun initial rfl]
  simp [Writer.after, initial, listing, hnoted, Listing.ofPieces]

/-! ### Lines of marks -/

theorem lineCount_append (ps qs : List Piece) :
    lineCount (ps ++ qs) = lineCount ps + lineCount qs := List.count_append

/-- The marks of pieces that start amid a line: on later lines, up to where they end. -/
def RisesWithin (ps : List Piece) : Prop :=
  ∀ line, Rising Prod.fst (line + 1) (line + lineCount ps + 1) (marks line ps)

theorem RisesWithin.append {ps qs : List Piece} (hps : RisesWithin ps) (hqs : RisesWithin qs) :
    RisesWithin (ps ++ qs) := by
  intro line
  rw [marks_append, lineCount_append, ← Nat.add_assoc]
  exact (hps line).append (hqs _) (by omega) (by omega) (by omega)

theorem risesWithin_flat {ps : List Piece} (h : ps.all flat) : RisesWithin ps := by
  intro line
  rw [marks_flat h]
  exact .nil

/-- A mark, and then what starts amid its line. -/
theorem RisesWithin.mark {ps : List Piece} (h : RisesWithin ps) (id line : Nat) :
    Rising Prod.fst line (line + lineCount ps + 1) (marks line (mark id :: ps)) :=
  (Rising.singleton (line, id)).append (h line) le_rfl (Nat.le_succ line) (by dsimp only; omega)

/-- The marks of lines: from the first line on, up to where the last one ends. -/
def RisesOnLines (ps : List Piece) : Prop :=
  ∀ line, Rising Prod.fst line (line + lineCount ps) (marks line ps)

theorem RisesOnLines.append {ps qs : List Piece} (hps : RisesOnLines ps)
    (hqs : RisesOnLines qs) : RisesOnLines (ps ++ qs) := by
  intro line
  rw [marks_append, lineCount_append, ← Nat.add_assoc]
  exact (hps line).append (hqs _) (by omega) (by omega) (by omega)

theorem risesOnLines_nodes {nodes : List Node}
    (h : ∀ node ∈ nodes, RisesWithin (node.pieces n)) :
    RisesOnLines (nodes.flatMap (nodePieces n)) := by
  induction nodes with
  | nil => exact fun line => .nil
  | cons node nodes ih =>
    obtain ⟨hnode, hnodes⟩ := List.forall_mem_cons.1 h
    have hline : RisesOnLines (nodePieces n node) := by
      intro line
      have hcount : lineCount (nodePieces n node) = lineCount (node.pieces n) + 1 := by
        simp [nodePieces, lineCount]
      have hmarks : marks line (nodePieces n node) =
          marks line (mark node.id :: node.pieces n) := by
        simp [nodePieces, marks, marks_append]
      rw [hcount, hmarks]
      exact hnode.mark node.id line
    exact hline.append (ih hnodes)

/-- The marks of a block lie between the line of its header and that of its closing brace. -/
theorem rising_block {ps : List Piece} (h : RisesOnLines ps) (line : Nat) :
    Rising Prod.fst (line + 1) (line + lineCount (blockPieces n ps))
      (marks line (blockPieces n ps)) := by
  have hcount : lineCount (blockPieces n ps) = 1 + lineCount ps := by
    simp [blockPieces, lineCount, Nat.add_comm]
  have hmarks : marks line (blockPieces n ps) = marks (line + 1) ps := by
    simp [blockPieces, marks, marks_append]
  rw [hcount, hmarks, ← Nat.add_assoc]
  exact h (line + 1)

/-- Along the grammar each mark is on a line of its own. -/
theorem Inline.risesWithin {P : String → Prop} {ps : List Piece} (h : Inline P n as ps) :
    RisesWithin ps := by
  induction h with
  | nil => exact risesWithin_flat rfl
  | emit _ hflat _ => exact risesWithin_flat hflat
  | append _ _ ihp ihq => exact ihp.append ihq
  | block _ ih =>
    intro line
    exact (rising_block (risesOnLines_nodes ih) line).mono le_rfl (Nat.le_succ _)
  | @branch n nodes s _ _ ih ihs =>
    -- the branch is noted on the line of the closing brace, which has no mark of the block
    intro line
    rw [marks_append, lineCount_append, ← Nat.add_assoc]
    exact (rising_block (risesOnLines_nodes ih) line).append (ihs.mark s.id _) le_rfl
      (by simp [blockPieces, lineCount]) (by omega)

/-! ### The line map -/

/-- The entry `m` was made for `node`, whose text begins on its line: the actions that write `node`
follow the note that made the entry, with at most blanks between, and the text `w.out` that is
written before them ends amid line `m.line`. -/
def Locates (stmts : List Stmt) (provenance : Option Provenance) (m : LineMapping)
    (node : Node) : Prop :=
  ∃ before opening behind w text rest,
    lineActions stmts = before ++ .map node.id :: (opening ++ (node.actions ++ behind)) ∧
      (opening = [] ∨ opening = [.startLine]) ∧
      w = run provenance initial (before ++ .map node.id :: opening) ∧
      mapping? provenance m.line node.id = some m ∧ m.line = 1 + newlines w.out ∧
      (run provenance w node.actions).out = w.out ++ text ∧
      (print stmts provenance).code = w.out ++ (text ++ rest)

/-- What is right of a listing of statements and of the way it is written. -/
structure WritesLines (stmts : List Stmt) (provenance : Option Provenance) : Prop where
  /-- At every point of a run the line is the one that the text ends on. -/
  counted : ∀ before after, lineActions stmts = before ++ after →
    (run provenance initial before).line = 1 + newlines (run provenance initial before).out
  stmt_indent : ∀ (s : Stmt) (w : Writer),
    (run provenance w (lineActions [s])).indent = w.indent
  block_indent : ∀ (body : List Stmt) (w : Writer),
    (run provenance w (blockActions (lineActions body))).indent = w.indent
  class_indent : ∀ (methods : List Method) (w : Writer),
    (run provenance w (blockActions (methodActions methods))).indent = w.indent
  /-- Every entry is on the line where the text of its node begins. -/
  located : ∀ m ∈ (print stmts provenance).mappings, ∃ node, Locates stmts provenance m node
  /-- No line has two entries. -/
  increasing : (print stmts provenance).mappings.Pairwise fun m m' => m.line < m'.line

theorem indent_run_lines (ss : List Stmt) (w : Writer) :
    (run provenance w (lineActions ss)).indent = w.indent := by
  rw [lineActions_eq]
  exact indent_run_nodes (fun node hnode => indent_run_inline (inline_lines ss node hnode)) w

theorem indent_run_methods (ms : List Method) (w : Writer) :
    (run provenance w (methodActions ms)).indent = w.indent := by
  rw [methodActions_eq]
  exact indent_run_nodes (fun node hnode =>
    indent_run_inline (inline_methods ofTexts_true ms 0 (fun _ _ => trivial) node hnode)) w

theorem annotated_lines (ss : List Stmt) : Annotated (lineActions ss) := by
  rw [lineActions_eq]
  exact annotated_nodes fun node hnode => (inline_lines ss node hnode).annotated

theorem emits_lines {ss : List Stmt} (h : ∀ x ∈ stmtNames ss, OneLine x) :
    ∀ a ∈ lineActions ss, Emits OneLine a := by
  rw [lineActions_eq]
  exact emits_nodes fun node hnode =>
    (inline_stmts ofTexts_oneLine ss 0 h node hnode).emits ofTexts_oneLine

theorem risesOnLines_lines (ss : List Stmt) : RisesOnLines (linePieces 0 ss) := by
  rw [linePieces_eq]
  exact risesOnLines_nodes fun node hnode => (inline_lines ss node hnode).risesWithin

theorem pairwise_mappings (stmts : List Stmt) (provenance : Option Provenance) :
    (print stmts provenance).mappings.Pairwise fun m m' => m.line < m'.line := by
  rw [print_eq_ofPieces]
  cases provenance with
  | none => exact .nil
  | some p =>
    refine (risesOnLines_lines stmts 1).apart.filterMap _ ?_
    rintro ⟨line, id⟩ ⟨line', id'⟩ hlt m hm m' hm'
    obtain ⟨span, -, rfl⟩ := Option.map_eq_some_iff.1 hm
    obtain ⟨span', -, rfl⟩ := Option.map_eq_some_iff.1 hm'
    exact hlt

/-- At every point of a run the line is counted right. -/
theorem counted_run {stmts : List Stmt} (h : ∀ x ∈ stmtNames stmts, OneLine x)
    {before after : List Action} (heq : lineActions stmts = before ++ after) :
    Counted (run provenance initial before) := by
  refine counted_initial.run fun a ha => emits_lines h a ?_
  rw [heq]
  exact List.mem_append_left after ha

theorem line_of_mapping? {line id : Nat} {m : LineMapping}
    (h : mapping? provenance line id = some m) : m.line = line := by
  obtain ⟨span, -, rfl⟩ := Option.map_eq_some_iff.1 h
  rfl

theorem exists_locates {stmts : List Stmt} (h : ∀ x ∈ stmtNames stmts, OneLine x)
    {m : LineMapping} (hm : m ∈ (print stmts provenance).mappings) :
    ∃ node, Locates stmts provenance m node := by
  obtain ⟨before, id, after, heq, hmap⟩ :=
    exists_of_mem_mappings (Array.mem_toList_iff.1 hm) (Array.not_mem_empty m)
  obtain ⟨node, opening, behind, rfl, hopening, rfl⟩ := annotated_lines stmts before id after heq
  have hsplit : lineActions stmts =
      (before ++ .map node.id :: opening) ++ (node.actions ++ behind) := by simp [heq]
  let w := run provenance initial (before ++ .map node.id :: opening)
  -- neither a note nor the blanks behind it end a line
  have hline : w.line = m.line := by
    simp only [w, run_append, line_of_mapping? hmap]
    rcases hopening with rfl | rfl <;> rfl
  obtain ⟨text, htext⟩ := exists_out_run provenance node.actions w
  obtain ⟨rest, hrest⟩ := exists_out_run provenance behind (run provenance w node.actions)
  have hcode : (print stmts provenance).code = w.out ++ (text ++ rest) := by
    rw [print, hsplit, run_append, run_append]
    rw [htext, String.append_assoc] at hrest
    exact hrest
  refine ⟨node, before, opening, behind, w, text, rest, heq, hopening, rfl, ?_, ?_, htext, hcode⟩
  · rwa [line_of_mapping? hmap]
  · exact hline ▸ (counted_run h hsplit).line

/-- The line counter and the blanks of a writer are right, and so is the line map, if no name has a
newline. -/
theorem writesLines_print (stmts : List Stmt) (provenance : Option Provenance)
    (h : ∀ x ∈ stmtNames stmts, OneLine x) : WritesLines stmts provenance where
  counted _ _ heq := (counted_run h heq).line
  stmt_indent s := indent_run_lines [s]
  block_indent body := indent_run_block (indent_run_lines body)
  class_indent methods := indent_run_block (indent_run_methods methods)
  located _ hm := exists_locates h hm
  increasing := pairwise_mappings stmts provenance

/-- A class whose method calls with a function, and an `else if` behind an empty block. -/
def nestedLines : List Stmt :=
  let inner := Stmt.returnStmt 4 (some (.string 10 "a\nb"))
  let call := Expr.call 11 (.ident 12 "f") [.function 13 (.mk [] none [inner])]
  [.classDecl 1 "Box" [.mk 2 "get" true (.mk [⟨"x", false, none⟩] none [.expr 3 call])],
    .ifStmt 5 (.ident 14 "a") [] (.elseIf (.ifStmt 6 (.ident 15 "b") [.breakStmt 7] .none))]

/-- The nodes of `nestedLines`, as if each had come from the line of its number. -/
def nestedLinesProvenance : Provenance :=
  [1, 2, 3, 4, 5, 6, 7].foldl (fun p id => p.record id ⟨0, 0, ⟨id, 0⟩, ⟨id, 0⟩⟩) .empty

theorem writesLines_nestedLines :
    (∀ x ∈ stmtNames nestedLines, OneLine x) ∧
      (print nestedLines (some nestedLinesProvenance)).mappings =
        [⟨1, 1, 0⟩, ⟨2, 2, 0⟩, ⟨3, 3, 0⟩, ⟨4, 4, 0⟩, ⟨8, 5, 0⟩, ⟨9, 6, 0⟩, ⟨10, 7, 0⟩] ∧
      WritesLines nestedLines (some nestedLinesProvenance) :=
  ⟨by decide +kernel, by decide +kernel,
    writesLines_print nestedLines (some nestedLinesProvenance) (by decide +kernel)⟩

end LuaTranspiler.Target
