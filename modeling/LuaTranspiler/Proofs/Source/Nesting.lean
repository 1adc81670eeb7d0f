import LuaTranspiler.Proofs.Source.Placement
import LuaTranspiler.Proofs.Token.Position

/-!
# How the nodes of a tree are nested

What is laid out between two offsets is nested properly, at every depth: each node takes up some of
the text, its ends are points of the text, and its children lie inside it in the order of the text
and without overlap. The children of a node are the nodes among its parts and the statements of its
blocks.

* `Layout.Occurs x y`: `x` is `y` or a part of it, at any depth
* `Layout.spans`: the spans of the nodes that a layout consists of
* `NodePlaced`, `BlockPlaced`: one node or block with what is directly inside it
* `Nested`: all nodes and blocks of a layout
* `nested_of_parse`: every source that can be read is nested properly
-/

namespace LuaTranspiler.Source

namespace Layout

/-- The layout `x` is a layout itself, or is found in it at some depth. -/
inductive Occurs (x : Layout) : Layout → Prop
  | self : Occurs x x
  | part {y : Layout} {span : Span} {parts : List Layout} :
      y ∈ parts → Occurs x y → Occurs x (.node span parts)
  | stmt {y : Layout} {start : Nat} {stmts : List Layout} :
      y ∈ stmts → Occurs x y → Occurs x (.block start stmts)

/-- The span of a node. -/
def own : Layout → List Span
  | node span _ => [span]
  | block .. => []

/-- The span of a node, or the spans of the statements of a block. -/
def spans : Layout → List Span
  | node span _ => [span]
  | block _ stmts => stmts.flatMap own

end Layout

/-- A node of the text `s` with what is directly inside it. -/
structure NodePlaced (s : String) (a : Span) (parts : List Layout) : Prop where
  nonempty : a.start < a.stop
  bounded : a.stop ≤ s.utf8ByteSize
  opening : Marks s a.opening
  closing : Marks s a.closing
  /-- The children lie inside the node. -/
  encloses : ∀ b ∈ parts.flatMap Layout.spans, a.start ≤ b.start ∧ b.stop ≤ a.stop
  /-- The children are in the order of the text, and no two of them overlap. -/
  apart : (parts.flatMap Layout.spans).Pairwise fun b c => b.stop ≤ c.start
  /-- The blocks of the node open inside it. -/
  opens : ∀ start stmts, .block start stmts ∈ parts → a.start ≤ start ∧ start ≤ a.stop

/-- A block with its statements. -/
structure BlockPlaced (start : Nat) (stmts : List Layout) : Prop where
  behind : ∀ b ∈ stmts.flatMap Layout.own, start ≤ b.start
  apart : (stmts.flatMap Layout.own).Pairwise fun b c => b.stop ≤ c.start

/-- All nodes and blocks of a layout, at every depth, are placed properly in the text `s`. -/
structure Nested (s : String) (x : Layout) : Prop where
  nodes : ∀ a parts, Layout.Occurs (.node a parts) x → NodePlaced s a parts
  blocks : ∀ start stmts, Layout.Occurs (.block start stmts) x → BlockPlaced start stmts

/-! ### Spans in a row -/

/-- Spans that lie between two offsets, one behind the other. -/
structure InRow (lo hi : Nat) (as : List Span) : Prop where
  between : ∀ a ∈ as, lo ≤ a.start ∧ a.stop ≤ hi
  apart : as.Pairwise fun a b => a.stop ≤ b.start

namespace InRow

variable {lo lo' mid hi hi' : Nat} {as bs : List Span}

theorem nil : InRow lo hi [] := ⟨by simp, .nil⟩

theorem mono (h : InRow lo hi as) (hlo : lo' ≤ lo) (hhi : hi ≤ hi') : InRow lo' hi' as :=
  ⟨fun a ha => ⟨hlo.trans (h.between a ha).1, (h.between a ha).2.trans hhi⟩, h.apart⟩

theorem append (has : InRow lo mid as) (hbs : InRow mid hi bs) (hlo : lo ≤ mid) (hhi : mid ≤ hi) :
    InRow lo hi (as ++ bs) := by
  refine ⟨List.forall_mem_append.2 ⟨?_, ?_⟩, List.pairwise_append.2 ⟨has.apart, hbs.apart, ?_⟩⟩
  · exact (has.mono le_rfl hhi).between
  · exact (hbs.mono hlo le_rfl).between
  · exact fun a ha b hb => (has.between a ha).2.trans (hbs.between b hb).1

end InRow

/-! ### What is laid out is in a row -/

section Laid

variable {edge : Point → Prop} {lo hi : Nat} {x y : Layout} {xs : List Layout}

theorem LaidIn.inRow_flatMap {f : Layout → List Span}
    (hf : ∀ {x lo hi}, Laid edge lo hi x → InRow lo hi (f x)) (h : LaidIn edge lo hi xs) :
    InRow lo hi (xs.flatMap f) := by
  induction xs generalizing lo with
  | nil => exact .nil
  | cons x xs ih =>
    obtain ⟨mid, hx, hxs⟩ := laidIn_cons.1 h
    rw [List.flatMap_cons]
    exact (hf hx).append (ih hxs) hx.le hxs.le

theorem Laid.inRow_own (h : Laid edge lo hi x) : InRow lo hi x.own := by
  cases x with
  | block => exact .nil
  | node a parts =>
    have hfits := (laid_node.1 h).1
    exact ⟨List.forall_mem_singleton.2 ⟨hfits.lower, hfits.upper⟩, List.pairwise_singleton _ a⟩

theorem Laid.inRow_spans (h : Laid edge lo hi x) : InRow lo hi x.spans := by
  cases x with
  | node a parts => exact h.inRow_own
  | block start stmts =>
    obtain ⟨hstart, hstmts⟩ := laid_block.1 h
    exact (hstmts.inRow_flatMap Laid.inRow_own).mono hstart le_rfl

theorem LaidIn.of_mem (h : LaidIn edge lo hi xs) (hx : x ∈ xs) : Laid edge lo hi x := by
  induction xs generalizing lo with
  | nil => simp at hx
  | cons y ys ih =>
    obtain ⟨mid, hy, hys⟩ := laidIn_cons.1 h
    rcases List.mem_cons.1 hx with rfl | hx
    · exact hy.mono le_rfl hys.le
    · exact (ih hys hx).mono hy.le le_rfl

/-- What is found in a layout at some depth is laid out as well. -/
theorem Layout.Occurs.laid (hx : x.Occurs y) (h : Laid edge lo hi y) : Laid edge lo hi x := by
  induction hx generalizing lo hi with
  | self => exact h
  | part hmem _ ih => exact ih (h.parts.of_mem hmem)
  | stmt hmem _ ih =>
    obtain ⟨hstart, hstmts⟩ := laid_block.1 h
    exact ih ((hstmts.of_mem hmem).mono hstart le_rfl)

theorem Laid.nodePlaced {s : String} {a : Span} (h : Laid (Marks s) lo hi (.node a xs)) :
    NodePlaced s a xs := by
  obtain ⟨hfits, hparts⟩ := laid_node.1 h
  have hrow := hparts.inRow_flatMap Laid.inRow_spans
  refine ⟨hfits.nonempty, hfits.closing.offset_le, hfits.opening, hfits.closing, hrow.between,
    hrow.apart, fun start stmts hmem => ?_⟩
  obtain ⟨hstart, hstmts⟩ := laid_block.1 (hparts.of_mem hmem)
  exact ⟨hstart, hstmts.le⟩

theorem Laid.nested {s : String} (h : Laid (Marks s) lo hi x) : Nested s x := by
  refine ⟨fun a parts hoccurs => (hoccurs.laid h).nodePlaced, fun start stmts hoccurs => ?_⟩
  have hrow := (laid_block.1 (hoccurs.laid h)).2.inRow_flatMap Laid.inRow_own
  exact ⟨fun b hb => (hrow.between b hb).1, hrow.apart⟩

end Laid

/-- **What is read from a text is nested properly**: every node lies around its children, which are
in order and apart, and both its ends are at the line and column that their offsets say. -/
theorem nested_of_parse {s : String} {chunk : Chunk} (h : parse s = .ok chunk) :
    Nested s chunk.body.layout := by
  obtain ⟨c, c', hstart, hbody⟩ := exists_of_parse h
  obtain ⟨ts, hts, hrest, -⟩ := exists_of_start hstart
  have hordered : Ordered (Marks s) 0 c.rest := hrest ▸ (ordered_of_tokens hts).filter _
  obtain ⟨hi, hlaid⟩ := laid_body hordered _ c' hbody
  exact hlaid.nested

/-- Parentheses widen a span, and a character outside ASCII takes two bytes and one column. -/
def widenedSum : String := "x = (1 + y) .. \"é\"\nfunction x.f(a, ...) return a end"

theorem nested_widenedSum :
    ∃ chunk, parse widenedSum = .ok chunk ∧
      chunk.body.layout.spans = [⟨0, 19, ⟨1, 0⟩, ⟨1, 18⟩⟩, ⟨20, 53, ⟨2, 0⟩, ⟨2, 33⟩⟩] ∧
      Nested widenedSum chunk.body.layout := by
  have hspans : ((parse widenedSum).toOption.map fun chunk => chunk.body.layout.spans) =
      some [⟨0, 19, ⟨1, 0⟩, ⟨1, 18⟩⟩, ⟨20, 53, ⟨2, 0⟩, ⟨2, 33⟩⟩] := by decide +kernel
  cases hparse : parse widenedSum with
  | error e => simp [hparse, Except.toOption] at hspans
  | ok chunk =>
    rw [hparse] at hspans
    exact ⟨chunk, rfl, Option.some.inj hspans, nested_of_parse hparse⟩

end LuaTranspiler.Source
