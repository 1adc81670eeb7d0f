import LuaTranspiler.Source.Statement

/-!
# Reading a whole source

* `start`: the cursor before the tokens of a text, and its comments
* `parseExpr`: an expression at the head of a text, and what follows it
* `parse`: a chunk
-/

namespace LuaTranspiler.Source

open LuaTranspiler.Parser

/-- The comment of a token. -/
def Comment.ofToken (t : Token) : Comment := ⟨commentValue t.literal, t.literal, t.span⟩

/-- Whether a token is a comment. -/
def isComment (t : Token) : Bool := t.kind = .comment

/-- The cursor before the tokens of a text, and its comments, which stand apart. -/
def start (s : String) : Except SyntaxError (Cursor × List Comment) := do
  let ts ← tokens s
  return (⟨endSpan s, ts.filter fun t => !isComment t⟩, (ts.filter isComment).map .ofToken)

theorem exists_of_start {s : String} {c : Cursor} {comments : List Comment}
    (h : start s = .ok (c, comments)) :
    ∃ ts, tokens s = .ok ts ∧ c.rest = (ts.filter fun t => !isComment t) ∧
      comments = (ts.filter isComment).map .ofToken := by
  unfold start at h
  cases hts : tokens s with
  | error e => simp [hts, bind, Except.bind] at h
  | ok ts =>
    simp only [hts, bind, Except.bind, pure, Except.pure, Except.ok.injEq, Prod.mk.injEq] at h
    obtain ⟨rfl, rfl⟩ := h
    exact ⟨ts, rfl, rfl, rfl⟩

/-- Reads an expression. -/
def expression : Parser Expr := fun c => (grammar (c.rest.length + 1)).expr 0 c

/-- Reads the statements of a block that opens at an offset. -/
def block (offset : Nat) : Parser Block := fun c => (grammar (c.rest.length + 1)).block offset c

/-- Reads a block that has to reach to the end. -/
def body : Parser Block := do
  let b ← block 0
  if (← peek?).isSome then unexpected []
  return b

/-- The expression at the head of a text, and the cursor behind it. -/
def parseExpr (s : String) : Except SyntaxError (Expr × Cursor) := do
  let (c, _) ← start s
  match expression c with
  | .ok e c => .ok (e, c)
  | .error e _ => .error e

/-- The chunk that a text stands for. -/
def parse (s : String) : Except SyntaxError Chunk := do
  let (c, comments) ← start s
  match body c with
  | .ok b _ => .ok ⟨b, comments⟩
  | .error e _ => .error e

theorem exists_of_parse {s : String} {chunk : Chunk} (h : parse s = .ok chunk) :
    ∃ c c', start s = .ok (c, chunk.comments) ∧ body c = .ok chunk.body c' := by
  unfold parse at h
  cases hstart : start s with
  | error e => simp [hstart, bind, Except.bind] at h
  | ok pair =>
    obtain ⟨c, comments⟩ := pair
    simp only [hstart, bind, Except.bind] at h
    cases hbody : body c with
    | error e c' => simp [hbody] at h
    | ok b c' =>
      simp only [hbody, Except.ok.injEq] at h
      subst h
      exact ⟨c, c', rfl, hbody⟩

end LuaTranspiler.Source
