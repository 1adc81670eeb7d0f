import LuaTranspiler.Doc.Tag

/-!
# The comments above a statement

The comments of a statement are those between it and its elder sibling, or between it and the start
of its block.

* `Source.commentsAbove`: the comments from an offset up to a statement
* `Source.Block.commented`: the statements of a block, each with its comments
* `Source.commentedInBlock`: the same with the statements of all blocks inside
-/

namespace LuaTranspiler.Source

/-- The comments that lie between the offset `floor` and a statement. -/
def commentsAbove (comments : List Comment) (floor : Nat) (s : Stmt) : List Comment :=
  comments.filter fun c => floor ≤ c.span.start && c.span.stop ≤ s.span.start

/-- The tags of those comments. -/
def tagsAbove (comments : List Comment) (floor : Nat) (s : Stmt) : List Tag :=
  Tag.ofComments (commentsAbove comments floor s)

/-- The statements that follow the offset `floor`, each with its comments. -/
def commentedFrom (comments : List Comment) (floor : Nat) :
    List Stmt → List (Stmt × List Comment)
  | [] => []
  | s :: ss => (s, commentsAbove comments floor s) :: commentedFrom comments s.span.stop ss

/-- The statements of a block, each with its comments. -/
def Block.commented (comments : List Comment) (b : Block) : List (Stmt × List Comment) :=
  commentedFrom comments b.start b.stmts

mutual

/-- The statements that follow the offset `floor` with their comments, each before those of its own
blocks. The blocks of function expressions are left out. -/
def commentedDeep (comments : List Comment) (floor : Nat) :
    List Stmt → List (Stmt × List Comment)
  | [] => []
  | s :: ss =>
    (s, commentsAbove comments floor s) ::
      (commentedInStmt comments s ++ commentedDeep comments s.span.stop ss)

/-- The statements in the blocks of a statement, with their comments. -/
def commentedInStmt (comments : List Comment) : Stmt → List (Stmt × List Comment)
  | .functionDecl _ _ (.mk _ body) _ => commentedInBlock comments body
  | .ifStmt _ thenBlock clauses elseBlock _ =>
    commentedInBlock comments thenBlock ++ commentedInClauses comments clauses ++
      match elseBlock with
      | some block => commentedInBlock comments block
      | none => []
  | .whileLoop _ block _ => commentedInBlock comments block
  | .forNumeric _ _ _ _ block _ => commentedInBlock comments block
  | .forGeneric _ _ block _ => commentedInBlock comments block
  | .repeatLoop block _ _ => commentedInBlock comments block
  | .doBlock block _ => commentedInBlock comments block
  | _ => []

/-- The statements in the blocks of clauses, with their comments. -/
def commentedInClauses (comments : List Comment) : List Clause → List (Stmt × List Comment)
  | [] => []
  | .mk _ block :: cs => commentedInBlock comments block ++ commentedInClauses comments cs

/-- The statements in a block, with their comments. -/
def commentedInBlock (comments : List Comment) : Block → List (Stmt × List Comment)
  | .mk start stmts => commentedDeep comments start stmts

end

end LuaTranspiler.Source
