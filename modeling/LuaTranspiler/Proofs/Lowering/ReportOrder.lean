import LuaTranspiler.Proofs.Lowering.Reports
import LuaTranspiler.Proofs.Source.Placement
import LuaTranspiler.Proofs.Token.Position

/-!
# When reports are in the order of the source

The parameters of a source stand one behind the other in the order in which its functions are met
in the tree. Reports are made in the order of the lowering, which is another one only in a rewritten
block: there the functions under a member come first. So the reports are in the order of the source
unless such a function stands behind another statement and something is reported of both.

* `Thins xs ys`: wherever the layouts `xs` lie, so do the layouts `ys`
* `Orders ds xs P`: wherever the layouts `xs` lie, the reports `ds` do, in order exactly if `P` holds
* `KeepsOrder`, `KeepsOrderWithin`: no report of a block is overtaken, or none at any depth
* `lowerChunk_reports_in_order_iff`: when the reports of a source are in order
-/

namespace LuaTranspiler

namespace Source

/-! ### Layouts of functions -/

section Thins

variable {xs xs' ys ys' parts : List Layout} {x : Layout} {a : Span}

/-- Wherever the layouts `xs` lie, so do the layouts `ys`. -/
def Thins (xs ys : List Layout) : Prop :=
  ∀ edge lo hi, LaidIn edge lo hi xs → LaidIn edge lo hi ys

namespace Thins

theorem refl : Thins xs xs := fun _ _ _ h => h

theorem nil : Thins xs [] := fun _ _ _ h => laidIn_nil.2 h.le

theorem append (h : Thins xs ys) (h' : Thins xs' ys') : Thins (xs ++ xs') (ys ++ ys') := by
  intro edge lo hi hlaid
  obtain ⟨mid, hxs, hxs'⟩ := laidIn_append.1 hlaid
  exact laidIn_append.2 ⟨mid, h edge lo mid hxs, h' edge mid hi hxs'⟩

theorem cons (h : Thins xs ys) : Thins (x :: xs) (x :: ys) := by
  have hx : Thins [x] [x] := .refl
  exact hx.append h

theorem node (h : Thins parts ys) : Thins [.node a parts] ys := by
  intro edge lo hi hlaid
  exact h edge lo hi (laidIn_singleton.1 hlaid).parts

theorem block {start : Nat} : Thins [.block start xs] xs := by
  intro edge lo hi hlaid
  obtain ⟨hstart, hxs⟩ := laid_block.1 (laidIn_singleton.1 hlaid)
  exact hxs.mono hstart le_rfl

theorem tail : Thins xs xs.tail := by
  cases xs with
  | nil => exact .refl
  | cons x xs =>
    have hx : Thins [x] [] := .nil
    exact hx.append .refl

end Thins

end Thins

/-- The layouts of the parameters and the bodies of functions. -/
def functionLayouts (fs : List Function) : List Layout := fs.flatMap Function.parts

theorem functionLayouts_append (fs gs : List Function) :
    functionLayouts (fs ++ gs) = functionLayouts fs ++ functionLayouts gs := List.flatMap_append

theorem functionLayouts_singleton (f : Function) : functionLayouts [f] = f.parts := by
  simp [functionLayouts]

theorem functionLayouts_bare (b : Block) (fs : List Function) :
    functionLayouts (b.bare :: fs) = b.layout :: functionLayouts fs := by
  rw [functionLayouts, List.flatMap_cons, Block.bare, Function.parts]
  rfl

mutual

theorem Expr.thins : ∀ e : Expr, Thins e.parts (functionLayouts e.functions)
  | .ident .. | .literal .. => .nil
  | .member base .. => by
    rw [Expr.parts, Expr.functions, ← List.append_nil (functionLayouts base.functions)]
    exact base.thins.node.append .nil
  | .unary _ operand _ => by
    rw [Expr.parts, Expr.functions]
    exact operand.thins.node
  | .index lhs rhs _ | .binary lhs _ rhs _ | .logical lhs _ rhs _ | .stringCall lhs rhs _
  | .tableCall lhs rhs _ => by
    rw [Expr.parts, Expr.functions, functionLayouts_append]
    exact lhs.thins.node.append rhs.thins.node
  | .table fields _ => by
    rw [Expr.parts, Expr.functions]
    exact thins_fields fields
  | .call base args _ => by
    rw [Expr.parts, Expr.functions, functionLayouts_append]
    exact base.thins.node.append (thins_exprs args)
  | .function func _ => by
    rw [Expr.parts, Expr.functions, functionLayouts_singleton]
    exact .refl

theorem thins_exprs : ∀ es : List Expr, Thins (exprLayouts es) (functionLayouts (functionsOf es))
  | [] => .nil
  | e :: es => by
    rw [exprLayouts, functionsOf, functionLayouts_append]
    exact e.thins.node.append (thins_exprs es)

theorem thins_fields : ∀ fs : List Field,
    Thins (fieldLayouts fs) (functionLayouts (functionsOfFields fs))
  | [] => .nil
  | .keyed key value _ :: fs => by
    rw [fieldLayouts, functionsOfFields, Field.parts, ← List.append_assoc, functionLayouts_append,
      functionLayouts_append]
    exact Thins.append (key.thins.node.append value.thins.node).node (thins_fields fs)
  | .named key value _ :: fs => by
    have hkey : Thins [key.layout] [] := .nil
    rw [fieldLayouts, functionsOfFields, Field.parts, functionLayouts_append]
    exact Thins.append (hkey.append value.thins.node).node (thins_fields fs)
  | .positional value _ :: fs => by
    rw [fieldLayouts, functionsOfFields, Field.parts, functionLayouts_append]
    exact Thins.append value.thins.node.node (thins_fields fs)

end

theorem thins_clauses (cs : List Clause) :
    Thins (clauseLayouts cs) (functionLayouts (scopesOfClauses cs)) := by
  induction cs with
  | nil => exact .nil
  | cons c cs ih =>
    obtain ⟨cond, block⟩ := c
    rw [clauseLayouts, Clause.parts, scopesOfClauses, functionLayouts_append, functionLayouts_bare]
    exact cond.thins.node.append ih.cons

/-- The functions and blocks of a statement lie in it one behind the other. -/
theorem Stmt.thins (s : Stmt) : Thins s.parts (functionLayouts s.scopes) := by
  cases s with
  | localDecl names init span =>
    rw [Stmt.parts, Stmt.scopes, ← List.nil_append (functionLayouts _)]
    exact Thins.nil.append (thins_exprs init)
  | assign targets init span =>
    rw [Stmt.parts, Stmt.scopes, functionLayouts_append]
    exact (thins_exprs targets).append (thins_exprs init)
  | call e span =>
    rw [Stmt.parts, Stmt.scopes]
    exact e.thins.node
  | functionDecl name isLocal func span =>
    rw [Stmt.parts, Stmt.scopes, functionLayouts_append, functionLayouts_singleton]
    exact name.thins.node.append .refl
  | returnStmt values span =>
    rw [Stmt.parts, Stmt.scopes]
    exact thins_exprs values
  | ifStmt cond thenBlock clauses elseBlock span =>
    have helse : Thins (elseLayouts elseBlock)
        (functionLayouts (elseBlock.toList.map Block.bare)) := by
      cases elseBlock with
      | none => exact .nil
      | some block =>
        rw [elseLayouts, Option.toList_some, List.map_singleton, functionLayouts_bare]
        exact .refl
    rw [Stmt.parts, Stmt.scopes, functionLayouts_append, functionLayouts_bare,
      functionLayouts_append]
    exact cond.thins.node.append ((thins_clauses clauses).append helse).cons
  | whileLoop cond block span =>
    rw [Stmt.parts, Stmt.scopes, functionLayouts_append, functionLayouts_bare]
    exact cond.thins.node.append .refl
  | forNumeric var start stop step block span =>
    have hvar : Thins [var.layout] [] := .nil
    have hstep : Thins (stepLayouts step) (functionLayouts (functionsOf step.toList)) := by
      cases step with
      | none => exact .nil
      | some step =>
        rw [stepLayouts, Option.toList_some, functionsOf, functionsOf, List.append_nil]
        exact step.thins.node
    rw [Stmt.parts, Stmt.scopes, functionLayouts_append, functionLayouts_append,
      functionLayouts_append, functionLayouts_bare]
    have hblock : Thins [block.layout] (block.layout :: functionLayouts []) := .refl
    simpa using hvar.append (start.thins.node.append (stop.thins.node.append
      (hstep.append hblock)))
  | forGeneric vars iterators block span =>
    rw [Stmt.parts, Stmt.scopes, functionLayouts_append, List.append_assoc,
      ← List.nil_append (functionLayouts _ ++ _), functionLayouts_bare]
    exact Thins.nil.append ((thins_exprs iterators).append .refl)
  | repeatLoop block cond span =>
    rw [Stmt.parts, Stmt.scopes, functionLayouts_bare]
    exact cond.thins.node.cons
  | doBlock block span =>
    rw [Stmt.parts, Stmt.scopes, functionLayouts_bare]
    exact .refl
  | breakStmt | goto | label => exact .nil

/-- What is read from a text is laid out between points of the text. -/
theorem exists_laid_marks {s : String} {chunk : Chunk} (h : parse s = .ok chunk) :
    ∃ hi, Laid (Marks s) 0 hi chunk.body.layout := by
  obtain ⟨c, c', hstart, hbody⟩ := exists_of_parse h
  obtain ⟨ts, hts, hrest, -⟩ := exists_of_start hstart
  have hordered : Ordered (Marks s) 0 c.rest := by
    rw [hrest]
    exact (ordered_of_tokens hts).filter _
  exact laid_body hordered _ c' hbody

end Source

namespace Lowering

open Source (Block Comment Function Layout LaidIn Thins)

/-! ### Reports in order -/

/-- Where the parameter of a report is written. -/
def Diagnostic.span : Diagnostic → Span
  | .untyped _ span | .manyTypes _ span => span

/-- The parameters of the reports start one behind the other. -/
def Ascending (ds : List Diagnostic) : Prop := ds.Pairwise fun d d' => d.span.start < d'.span.start

/-- A span starts between two offsets and on an edge. -/
def StartsIn (edge : Point → Prop) (lo hi : Nat) (a : Span) : Prop :=
  lo ≤ a.start ∧ a.start < hi ∧ edge a.opening

theorem StartsIn.mono {edge : Point → Prop} {lo hi lo' hi' : Nat} {a : Span}
    (h : StartsIn edge lo hi a) (hlo : lo' ≤ lo) (hhi : hi ≤ hi') : StartsIn edge lo' hi' a :=
  ⟨hlo.trans h.1, h.2.1.trans_le hhi, h.2.2⟩

/-- Lists of numbered items, one behind the other, are put in another order: those of `p` first.
They are still in order exactly if each of them is, and none of `p` has overtaken another. -/
theorem pairwise_lifted {α β : Type} {key : β → Nat} {F : α → List β} {xs : List α} (p : α → Bool)
    (h : xs.Pairwise fun x y => ∀ a ∈ F x, ∀ b ∈ F y, key a < key b) :
    (((xs.filter p ++ xs.filter (!p ·)).flatMap F).Pairwise fun a b => key a < key b) ↔
      (∀ x ∈ xs, (F x).Pairwise fun a b => key a < key b) ∧
      xs.Pairwise fun x y => p x = false → p y = true → F x = [] ∨ F y = [] := by
  have heach : (∀ x ∈ xs.filter p ++ xs.filter (!p ·), (F x).Pairwise fun a b => key a < key b) ↔
      ∀ x ∈ xs, (F x).Pairwise fun a b => key a < key b :=
    forall_congr' fun x => imp_congr_left (List.filter_append_perm p xs).mem_iff
  -- an item of `p` comes before another one, so this has to be the order of their numbers
  have hcross : (∀ y ∈ xs.filter p, ∀ x ∈ xs.filter (!p ·), ∀ b ∈ F y, ∀ a ∈ F x, key b < key a) ↔
      xs.Pairwise fun x y => p x = false → p y = true → F x = [] ∨ F y = [] := by
    constructor
    · intro hlifted
      refine h.imp_of_mem fun {x y} hx hy hxy hpx hpy => ?_
      by_contra! hne
      obtain ⟨a, ha⟩ := List.exists_mem_of_ne_nil _ hne.1
      obtain ⟨b, hb⟩ := List.exists_mem_of_ne_nil _ hne.2
      have hlt := hlifted y (List.mem_filter.2 ⟨hy, hpy⟩) x (by simp [hx, hpx]) b hb a ha
      exact (hxy a ha b hb).asymm hlt
    · intro hsilent
      have hboth := h.and hsilent
      clear h hsilent heach
      induction xs with
      | nil => simp
      | cons x xs ih =>
        obtain ⟨hx, hxs⟩ := List.pairwise_cons.1 hboth
        have hrest := ih hxs
        intro y hy z hz b hb a ha
        rw [List.filter_cons] at hy hz
        cases hpx : p x with
        | true =>
          simp only [hpx, ↓reduceIte, Bool.not_true, Bool.false_eq_true] at hy hz
          rcases List.mem_cons.1 hy with rfl | hy
          · exact (hx z (List.mem_of_mem_filter hz)).1 b hb a ha
          · exact hrest y hy z hz b hb a ha
        | false =>
          simp only [hpx, ↓reduceIte, Bool.not_false, Bool.false_eq_true] at hy hz
          rcases List.mem_cons.1 hz with rfl | hz
          · obtain ⟨hy, hpy⟩ := List.mem_filter.1 hy
            rcases (hx y hy).2 hpx hpy with hnil | hnil
            · rw [hnil] at ha
              exact absurd ha List.not_mem_nil
            · rw [hnil] at hb
              exact absurd hb List.not_mem_nil
          · exact hrest y hy z hz b hb a ha
  rw [List.pairwise_flatMap, List.pairwise_append, heach, hcross]
  exact and_congr_right fun _ =>
    ⟨fun h => h.2.2, fun hsilent => ⟨h.filter p, h.filter (!p ·), hsilent⟩⟩

section Orders

variable {ds ds' : List Diagnostic} {xs ys : List Layout} {P Q : Prop} {α : Type}
  {F : α → List Diagnostic} {lay : α → Layout} {R : α → Prop} {zs : List α}

/-- Wherever the layouts `xs` lie, the parameters of the reports `ds` start there, and they are in
order exactly if `P` holds. -/
def Orders (ds : List Diagnostic) (xs : List Layout) (P : Prop) : Prop :=
  ∀ edge lo hi, LaidIn edge lo hi xs →
    (∀ d ∈ ds, StartsIn edge lo hi d.span) ∧ (Ascending ds ↔ P)

namespace Orders

theorem nil : Orders [] xs True :=
  fun _ _ _ _ => ⟨List.forall_mem_nil _, iff_of_true .nil trivial⟩

theorem congr (h : Orders ds xs P) (hiff : P ↔ Q) : Orders ds xs Q := propext hiff ▸ h

theorem thin (h : Orders ds ys P) (hthins : Thins xs ys) : Orders ds xs P :=
  fun edge lo hi hlaid => h edge lo hi (hthins edge lo hi hlaid)

theorem param (tags : List Tag) (p : Source.Param) :
    Orders (report? tags p).toList [p.layout] True := by
  intro edge lo hi hlaid
  obtain ⟨hfits, -⟩ := Source.laid_node.1 (Source.laidIn_singleton.1 hlaid)
  have hstarts : StartsIn edge lo hi p.span :=
    ⟨hfits.lower, hfits.nonempty.trans_le hfits.upper, hfits.opening⟩
  unfold report?
  split
  · exact ⟨List.forall_mem_singleton.2 hstarts, iff_of_true (List.pairwise_singleton _ _) trivial⟩
  · exact nil edge lo hi hlaid
  · exact ⟨List.forall_mem_singleton.2 hstarts, iff_of_true (List.pairwise_singleton _ _) trivial⟩

theorem append (h : Orders ds xs P) (h' : Orders ds' ys Q) :
    Orders (ds ++ ds') (xs ++ ys) (P ∧ Q) := by
  intro edge lo hi hlaid
  obtain ⟨mid, hxs, hys⟩ := Source.laidIn_append.1 hlaid
  obtain ⟨hstarts, hP⟩ := h edge lo mid hxs
  obtain ⟨hstarts', hQ⟩ := h' edge mid hi hys
  constructor
  · rw [List.forall_mem_append]
    exact ⟨fun d hd => (hstarts d hd).mono le_rfl hys.le,
      fun d hd => (hstarts' d hd).mono hxs.le le_rfl⟩
  · rw [← hP, ← hQ, Ascending, List.pairwise_append, ← and_assoc]
    refine and_iff_left fun d hd d' hd' => ?_
    exact (hstarts d hd).2.1.trans_le (hstarts' d' hd').1

/-- Items in a row, with those of `p` put first. -/
theorem lifted (p : α → Bool) (h : ∀ z ∈ zs, Orders (F z) [lay z] (R z)) :
    Orders ((zs.filter p ++ zs.filter (!p ·)).flatMap F) (zs.map lay)
      ((∀ z ∈ zs, R z) ∧ zs.Pairwise fun x y => p x = false → p y = true → F x = [] ∨ F y = []) := by
  intro edge lo hi hlaid
  have hrow : (∀ d ∈ zs.flatMap F, StartsIn edge lo hi d.span) ∧
      (∀ z ∈ zs, Ascending (F z) ↔ R z) ∧
      zs.Pairwise fun x y => ∀ d ∈ F x, ∀ d' ∈ F y, d.span.start < d'.span.start := by
    induction zs generalizing lo with
    | nil => simp
    | cons z zs ih =>
      obtain ⟨hz, hzs⟩ := List.forall_mem_cons.1 h
      obtain ⟨mid, hlaidz, hlaid⟩ := Source.laidIn_cons.1 hlaid
      obtain ⟨hstarts, hiff⟩ := hz edge lo mid (Source.laidIn_singleton.2 hlaidz)
      obtain ⟨hstarts', hiff', hapart⟩ := ih hzs mid hlaid
      refine ⟨?_, List.forall_mem_cons.2 ⟨hiff, hiff'⟩, List.pairwise_cons.2 ⟨?_, hapart⟩⟩
      · rw [List.flatMap_cons, List.forall_mem_append]
        exact ⟨fun d hd => (hstarts d hd).mono le_rfl hlaid.le,
          fun d hd => (hstarts' d hd).mono hlaidz.le le_rfl⟩
      · intro y hy d hd d' hd'
        have hmem : d' ∈ zs.flatMap F := List.mem_flatMap.2 ⟨y, hy, hd'⟩
        exact (hstarts d hd).2.1.trans_le (hstarts' d' hmem).1
  obtain ⟨hstarts, hiff, hapart⟩ := hrow
  have hperm := (List.filter_append_perm p zs).flatMap_right F
  refine ⟨fun d hd => hstarts d (hperm.mem_iff.1 hd), ?_⟩
  rw [Ascending, pairwise_lifted p hapart]
  exact and_congr_left' (forall_congr' fun z => forall_congr' fun hz => hiff z hz)

/-- Items in a row. -/
theorem row (h : ∀ z ∈ zs, Orders (F z) [lay z] (R z)) :
    Orders (zs.flatMap F) (zs.map lay) (∀ z ∈ zs, R z) := by
  have hlifted := lifted (fun _ => true) h
  simp only [List.filter_true, Bool.not_true, List.filter_false, List.append_nil] at hlifted
  refine hlifted.congr (and_iff_left ?_)
  exact List.pairwise_of_forall (by simp)

end Orders

end Orders

/-! ### When the order is kept -/

section Trees

variable {ctx : Context} {tags : List Tag}

/-- Nothing is reported of the functions in a statement, at every depth. -/
def Silent (ctx : Context) (x : Source.Stmt × List Comment) : Prop :=
  ∀ f ∈ within ctx false (Tag.ofComments x.2) x.1.scopes, reports f = []

/-- If the block is rewritten, then of a function under a member and another statement before it
something is reported of at most one. -/
def KeepsOrder (ctx : Context) (top : Bool) (b : Block) : Prop :=
  isRewritten ctx top b = true → (survivors ctx false top b).Pairwise fun x y =>
    x.1.isMemberDecl = false → y.1.isMemberDecl = true → Silent ctx x ∨ Silent ctx y

/-- The same for the block and all blocks in it. -/
def KeepsOrderWithin (ctx : Context) (top : Bool) (b : Block) : Prop :=
  KeepsOrder ctx top b ∧ ∀ x ∈ documented ctx false top b, KeepsOrder ctx false x.1.body

theorem keepsOrderWithin_iff (ctx : Context) (top : Bool) (b : Block) :
    KeepsOrderWithin ctx top b ↔ KeepsOrder ctx top b ∧
      ∀ x ∈ survivors ctx false top b, ∀ f ∈ x.1.scopes, KeepsOrderWithin ctx false f.body := by
  refine and_congr_right fun _ => ?_
  rw [documented_eq]
  constructor
  · intro h x hx f hf
    have hmem {y : Function × List Tag} (hy : y ∈ within ctx false (Tag.ofComments x.2) [f]) :
        y ∈ gathered ctx false (survivors ctx false top b) := by
      refine List.mem_flatMap.2 ⟨x, hx, List.mem_flatMap.2 ⟨f, hf, ?_⟩⟩
      simpa using hy
    refine ⟨h (f, Tag.ofComments x.2) (hmem (by simp)), fun y hy => h y (hmem ?_)⟩
    simp [hy]
  · intro h y hy
    obtain ⟨x, hx, hy⟩ := List.mem_flatMap.1 hy
    obtain ⟨f, hf, hy⟩ := List.mem_flatMap.1 hy
    obtain ⟨hbody, hinner⟩ := h x hx f hf
    rcases List.mem_cons.1 hy with rfl | hy
    · exact hbody
    · exact hinner y hy

theorem silent_iff (x : Source.Stmt × List Comment) :
    Silent ctx x ↔ reportsIn ctx (Tag.ofComments x.2) x.1.scopes = [] := by
  have hperm : (within ctx true (Tag.ofComments x.2) x.1.scopes).Perm
      (within ctx false (Tag.ofComments x.2) x.1.scopes) :=
    .flatMap_left _ fun f _ => .cons _ (perm_documented ctx false f.body)
  rw [reportsIn, List.flatMap_eq_nil_iff]
  exact forall_congr' fun f => imp_congr_left hperm.mem_iff.symm

theorem orders_params (tags : List Tag) (ps : List Source.Param) :
    Orders (ps.filterMap (report? tags)) (ps.map Source.Param.layout) True := by
  rw [List.filterMap_eq_flatMap_toList]
  refine (Orders.row fun p _ => Orders.param tags p).congr ?_
  exact iff_of_true (fun _ _ => trivial) trivial

theorem orders_functions (fs : List Function)
    (h : ∀ f ∈ fs, Orders ((documented ctx true false f.body).flatMap reports) [f.body.layout]
      (KeepsOrderWithin ctx false f.body)) :
    Orders (reportsIn ctx tags fs) (Source.functionLayouts fs)
      (∀ f ∈ fs, KeepsOrderWithin ctx false f.body) := by
  induction fs with
  | nil => exact Orders.nil.congr (by simp)
  | cons f fs ih =>
    obtain ⟨hf, hfs⟩ := List.forall_mem_cons.1 h
    have hfunction : Orders (reportsIn ctx tags [f]) f.parts
        (KeepsOrderWithin ctx false f.body) := by
      obtain ⟨params, body⟩ := f
      rw [Source.Function.parts]
      have hreports : reportsIn ctx tags [.mk params body] = params.filterMap (report? tags) ++
          (documented ctx true false body).flatMap reports := by
        simp [reportsIn, reports, Source.Function.params, Source.Function.body]
      rw [hreports]
      exact ((orders_params tags params).append hf).congr (and_iff_right trivial)
    rw [← List.singleton_append, reportsIn_append, Source.functionLayouts_append,
      Source.functionLayouts_singleton]
    exact (hfunction.append (ih hfs)).congr (by simp)

theorem flatMap_reports_gathered (xs : List (Source.Stmt × List Comment)) :
    (gathered ctx true xs).flatMap reports =
      xs.flatMap fun x => reportsIn ctx (Tag.ofComments x.2) x.1.scopes := List.flatMap_assoc

/-- The statements of a block that are lowered lie in it one behind the other. -/
theorem thins_survivors (ctx : Context) (top : Bool) (b : Block) :
    Thins [b.layout] ((survivors ctx false top b).map fun x => x.1.layout) := by
  obtain ⟨start, stmts⟩ := b
  have hlayouts : (Block.commented ctx.comments (.mk start stmts)).map (fun x => x.1.layout) =
      Source.stmtLayouts stmts := by
    have hstmts := map_fst_commentedFrom ctx.comments start stmts
    rw [Source.stmtLayouts_eq_map, ← congrArg (List.map Source.Stmt.layout) hstmts, List.map_map]
    rfl
  rw [Block.layout, ← hlayouts]
  unfold survivors
  intro edge lo hi hlaid
  have hall := Thins.block edge lo hi hlaid
  split
  · dsimp only
    rw [if_neg Bool.false_ne_true, List.map_tail]
    exact Thins.tail edge lo hi hall
  · exact hall

/-- The reports of a block are in order exactly if none is overtaken in the block or in one
inside. -/
theorem orders_block (ctx : Context) (top : Bool) (b : Block) :
    Orders ((documented ctx true top b).flatMap reports) [b.layout]
      (KeepsOrderWithin ctx top b) := by
  induction b using Block.innerInduction generalizing top with
  | step b ih =>
    have hstmt : ∀ x ∈ survivors ctx false top b,
        Orders (reportsIn ctx (Tag.ofComments x.2) x.1.scopes) [x.1.layout]
          (∀ f ∈ x.1.scopes, KeepsOrderWithin ctx false f.body) := by
      intro x hx
      refine (orders_functions x.1.scopes fun f hf => ?_).thin x.1.thins.node
      exact ih x.1 (mem_stmts_of_survivors hx) f.body (Source.Stmt.body_mem_inner hf) false
    have hlaid := thins_survivors ctx top b
    rw [documented_eq, flatMap_reports_gathered]
    by_cases hrewritten : isRewritten ctx top b = true
    · rw [survivors_lifted, if_pos hrewritten]
      refine ((Orders.lifted (fun x => x.1.isMemberDecl) hstmt).thin hlaid).congr ?_
      simp only [keepsOrderWithin_iff ctx top b, KeepsOrder, hrewritten, forall_const, silent_iff]
      exact and_comm
    · rw [survivors_lifted, if_neg hrewritten]
      refine ((Orders.row hstmt).thin hlaid).congr ?_
      rw [keepsOrderWithin_iff ctx top b]
      exact (and_iff_right fun h => absurd h hrewritten).symm

end Trees

/-! ### Whole sources -/

/-- Where no block is rewritten, no report is overtaken. -/
theorem keepsOrderWithin_plain (comments : List Comment) (top : Bool) (b : Block) :
    KeepsOrderWithin ⟨false, false, comments⟩ top b := by
  have hnever (top : Bool) (b : Block) : ¬isRewritten ⟨false, false, comments⟩ top b = true := by
    rw [isRewritten_iff]
    rintro (⟨hmodule, -⟩ | ⟨hclass, -⟩)
    · exact absurd hmodule Bool.false_ne_true
    · exact absurd hclass Bool.false_ne_true
  exact ⟨fun h => absurd h (hnever top b), fun x _ h => absurd h (hnever false x.1.body)⟩

/-- **Reports are in the order of the source exactly if none is overtaken** by the report of a
function that a rewrite puts first; so they always are when both rewrites are off. -/
theorem lowerChunk_reports_in_order_iff {source : String} {module classmod : Bool}
    {chunk : Source.Chunk} {st st' : State} {out : List Target.Stmt}
    (hparse : Source.parse source = .ok chunk)
    (hrun : lowerChunk module classmod chunk st = .ok out st') :
    ((st'.diagnostics.map fun d => d.span.startPos).Pairwise Position.Before ↔
        KeepsOrderWithin ⟨module, classmod, chunk.comments⟩ true chunk.body) ∧
      (module = false → classmod = false →
        (st'.diagnostics.map fun d => d.span.startPos).Pairwise Position.Before) := by
  have hlowered : lowerBlock ⟨module, classmod, chunk.comments⟩ true chunk.body .initial =
      .ok out st' := hrun
  obtain ⟨hdiagnostics, -⟩ := tells_lowerBlock _ true chunk.body
    (Source.wellFormed_of_parse hparse) .initial out st' hlowered
  obtain ⟨hi, hlaid⟩ := Source.exists_laid_marks hparse
  obtain ⟨hstarts, hiff⟩ := orders_block ⟨module, classmod, chunk.comments⟩ true chunk.body
    (Marks source) 0 hi (Source.laidIn_singleton.2 hlaid)
  rw [State.initial, List.nil_append] at hdiagnostics
  rw [← hdiagnostics] at hstarts hiff
  have horder : (st'.diagnostics.map fun d => d.span.startPos).Pairwise Position.Before ↔
      KeepsOrderWithin ⟨module, classmod, chunk.comments⟩ true chunk.body := by
    rw [← hiff, List.pairwise_map]
    exact List.Pairwise.iff_of_mem fun {d d'} hd hd' =>
      (hstarts d hd).2.2.before_iff (hstarts d' hd').2.2
  refine ⟨horder, ?_⟩
  rintro rfl rfl
  exact horder.2 (keepsOrderWithin_plain chunk.comments true chunk.body)

/-- A module in which the exported function stands first. -/
def earlyMember : String :=
  "-- @module m\nlocal M = \x7b\x7d\nfunction M.f(b) end\nx = function(a) end"

/-- The same with the exported function behind. -/
def lateMember : String :=
  "-- @module m\nlocal M = \x7b\x7d\nx = function(a) end\nfunction M.f(b) end"

theorem lowerChunk_reports_earlyMember :
    (∃ chunk out st', Source.parse earlyMember = .ok chunk ∧
      lowerChunk true false chunk .initial = .ok out st' ∧
      (st'.diagnostics.map fun d => d.span.startPos) = [⟨3, 13⟩, ⟨4, 13⟩] ∧
      KeepsOrderWithin ⟨true, false, chunk.comments⟩ true chunk.body) ∧
    ∃ chunk out st', Source.parse lateMember = .ok chunk ∧
      lowerChunk false false chunk .initial = .ok out st' ∧
      (st'.diagnostics.map fun d => d.span.startPos) = [⟨3, 13⟩, ⟨4, 13⟩] ∧
      (st'.diagnostics.map fun d => d.span.startPos).Pairwise Position.Before := by
  have hpositions : inspect? true false (fun _ st => st.diagnostics.map fun d => d.span.startPos)
      earlyMember = some [⟨3, 13⟩, ⟨4, 13⟩] := by decide +kernel
  have hplain : inspect? false false (fun _ st => st.diagnostics.map fun d => d.span.startPos)
      lateMember = some [⟨3, 13⟩, ⟨4, 13⟩] := by decide +kernel
  constructor
  · obtain ⟨chunk, out, st', hparse, hrun, hview⟩ := exists_of_inspect? hpositions
    refine ⟨chunk, out, st', hparse, hrun, hview, ?_⟩
    apply (lowerChunk_reports_in_order_iff hparse hrun).1.1
    rw [hview]
    decide
  · obtain ⟨chunk, out, st', hparse, hrun, hview⟩ := exists_of_inspect? hplain
    exact ⟨chunk, out, st', hparse, hrun, hview,
      (lowerChunk_reports_in_order_iff hparse hrun).2 rfl rfl⟩

/-- The report of the exported function on line 4 overtakes the one on line 3. -/
theorem lowerChunk_overtakes_lateMember :
    ∃ chunk out st', Source.parse lateMember = .ok chunk ∧
      lowerChunk true false chunk .initial = .ok out st' ∧
      (st'.diagnostics.map fun d => d.span.startPos) = [⟨4, 13⟩, ⟨3, 13⟩] ∧
      ¬(st'.diagnostics.map fun d => d.span.startPos).Pairwise Position.Before := by
  have hpositions : inspect? true false (fun _ st => st.diagnostics.map fun d => d.span.startPos)
      lateMember = some [⟨4, 13⟩, ⟨3, 13⟩] := by decide +kernel
  obtain ⟨chunk, out, st', hparse, hrun, hview⟩ := exists_of_inspect? hpositions
  refine ⟨chunk, out, st', hparse, hrun, hview, ?_⟩
  rw [hview]
  decide

end Lowering

end LuaTranspiler
