import LuaTranspiler.Lowering.Tree
import Mathlib.Data.List.Perm.Basic

/-!
# Numbers in trees

Of a TypeScript tree only the ids of its nodes are kept, each above the nodes directly inside it.
While a tree is built, finished parts of it wait for the node that takes them in. They hold exactly
the ids that have been given out for them, and that node gets an id greater than all of these.

* `Numbered`, `Target.Stmt.numbered`: the ids of a tree
* `Numbered.Descending`: every id is greater than the ids below it
* `Steps st k st'`: the second state is reached from the first by building `k` nodes
* `Provenance.HoldsFirst n`: exactly the ids below `n` are recorded
* `Takes xs m f`: what `m` leaves of waiting trees, with the ids that it gives out
-/

namespace LuaTranspiler

/-! ### Trees of ids -/

/-- The id of a node and the nodes directly below it. -/
inductive Numbered where
  | node (id : Nat) (below : List Numbered)

mutual

/-- The ids of a tree. -/
def Numbered.ids : Numbered → List Nat
  | .node id below => id :: idsOf below

/-- The ids of trees. -/
def idsOf : List Numbered → List Nat
  | [] => []
  | x :: xs => x.ids ++ idsOf xs

end

mutual

/-- Every id is greater than all ids below it. -/
def Numbered.Descending : Numbered → Prop
  | .node id below => (∀ i ∈ idsOf below, i < id) ∧ DescendingAll below

/-- The same for each of some trees. -/
def DescendingAll : List Numbered → Prop
  | [] => True
  | x :: xs => x.Descending ∧ DescendingAll xs

end

section Trees

variable {xs ys : List Numbered}

theorem idsOf_eq_flatMap (xs : List Numbered) : idsOf xs = xs.flatMap Numbered.ids := by
  induction xs with
  | nil => simp [idsOf]
  | cons x xs ih => simp [idsOf, ih]

@[simp] theorem idsOf_append : idsOf (xs ++ ys) = idsOf xs ++ idsOf ys := by
  simp [idsOf_eq_flatMap]

theorem perm_idsOf (h : xs.Perm ys) : (idsOf xs).Perm (idsOf ys) := by
  rw [idsOf_eq_flatMap, idsOf_eq_flatMap]
  exact h.flatMap_right _

theorem descendingAll_iff : DescendingAll xs ↔ ∀ x ∈ xs, x.Descending := by
  induction xs with
  | nil => simp [DescendingAll]
  | cons x xs ih => simp [DescendingAll, ih]

end Trees

namespace Target

mutual

/-- The ids of an expression. -/
def Expr.numbered : Expr → Numbered
  | .ident id _ | .number id _ | .string id _ | .bool id _ => .node id []
  | .member id object _ => .node id [object.numbered]
  | .element id object index => .node id [object.numbered, index.numbered]
  | .binary id lhs _ rhs => .node id [lhs.numbered, rhs.numbered]
  | .unary id _ operand | .increment id operand => .node id [operand.numbered]
  | .assign id target _ value => .node id [target.numbered, value.numbered]
  | .spread id value => .node id [value.numbered]
  | .array id elements => .node id (numberedExprs elements)
  | .object id properties => .node id (numberedProperties properties)
  | .call id callee args => .node id (callee.numbered :: numberedExprs args)
  | .function id func => .node id func.numbered

/-- The ids of expressions. -/
def numberedExprs : List Expr → List Numbered
  | [] => []
  | e :: es => e.numbered :: numberedExprs es

/-- The ids of an expression that may be missing. -/
def numberedOption : Option Expr → List Numbered
  | none => []
  | some e => [e.numbered]

/-- The ids of the properties of an object. -/
def numberedProperties : List Property → List Numbered
  | [] => []
  | .named _ value :: ps => value.numbered :: numberedProperties ps
  | .computed key value :: ps => key.numbered :: value.numbered :: numberedProperties ps

/-- The ids of a function, which has none itself. -/
def Function.numbered : Function → List Numbered
  | .mk _ _ body => numberedStmts body

/-- The ids of a declaration of variables, which has none itself. -/
def VarDecl.numbered : VarDecl → List Numbered
  | .mk _ _ _ init => numberedOption init

/-- The ids of a method. -/
def Method.numbered : Method → Numbered
  | .mk id _ _ func => .node id func.numbered

/-- The ids of methods. -/
def numberedMethods : List Method → List Numbered
  | [] => []
  | m :: ms => m.numbered :: numberedMethods ms

/-- The ids of what follows the block of an `if`. -/
def Else.numbered : Else → List Numbered
  | .none => []
  | .elseIf stmt => [stmt.numbered]
  | .block body => numberedStmts body

/-- The ids of a statement. -/
def Stmt.numbered : Stmt → Numbered
  | .var id decl => .node id decl.numbered
  | .functionDecl id _ _ func => .node id func.numbered
  | .classDecl id _ methods => .node id (numberedMethods methods)
  | .expr id e => .node id [e.numbered]
  | .returnStmt id value => .node id (numberedOption value)
  | .exportAssign id value => .node id [value.numbered]
  | .ifStmt id cond thenBlock elseBranch =>
    .node id (cond.numbered :: (numberedStmts thenBlock ++ elseBranch.numbered))
  | .forLoop id init test update body =>
    .node id (init.numbered ++ test.numbered :: update.numbered :: numberedStmts body)
  | .forOf id _ iterable body => .node id (iterable.numbered :: numberedStmts body)
  | .whileLoop id cond body => .node id (cond.numbered :: numberedStmts body)
  | .breakStmt id => .node id []

/-- The ids of statements. -/
def numberedStmts : List Stmt → List Numbered
  | [] => []
  | s :: ss => s.numbered :: numberedStmts ss

end

theorem numberedStmts_append (ss ts : List Stmt) :
    numberedStmts (ss ++ ts) = numberedStmts ss ++ numberedStmts ts := by
  induction ss with
  | nil => rfl
  | cons s ss ih => exact congrArg (s.numbered :: ·) ih

end Target

/-! ### Tables -/

/-- The ids below `n` are recorded, and no others. -/
structure Provenance.HoldsFirst (p : Provenance) (n : Nat) : Prop where
  size : p.size = n
  entry : ∀ i, (p.get? i).isSome = true ↔ i < n

namespace Provenance.HoldsFirst

theorem empty : Provenance.empty.HoldsFirst 0 := ⟨rfl, by simp⟩

theorem record {p : Provenance} {n : Nat} (h : p.HoldsFirst n) (span : Span) :
    (p.record n span).HoldsFirst (n + 1) := by
  have hnew : n ∉ p.spans := by
    have hnone := (h.entry n).not.2 (Nat.lt_irrefl n)
    simpa [Provenance.get?, Std.TreeMap.isSome_getElem?_iff_mem] using hnone
  refine ⟨?_, fun i => ?_⟩
  · have hsize : p.spans.size = n := h.size
    simp [Provenance.size, Provenance.record, Std.TreeMap.size_insert, hnew, hsize]
  · rw [get?_record]
    split
    next hi => simp [← hi]
    next hi =>
      rw [h.entry]
      omega

end Provenance.HoldsFirst

namespace Lowering

/-! ### Building step by step -/

/-- From the state `st` another is reached by building `k` nodes, with reports in between. -/
inductive Steps (st : State) : Nat → State → Prop
  | refl : Steps st 0 st
  | node {k : Nat} {st₁ st₂ : State} {α : Type} {a : α} (span : Span) (build : Nat → α) :
      Steps st k st₁ → node span build st₁ = .ok a st₂ → Steps st (k + 1) st₂
  | diagnose {k : Nat} {st₁ st₂ : State} (d : Diagnostic) :
      Steps st k st₁ → diagnose d st₁ = .ok () st₂ → Steps st k st₂

namespace Steps

variable {st st₁ st₂ : State} {k k' : Nat}

theorem trans (h : Steps st k st₁) (h' : Steps st₁ k' st₂) : Steps st (k + k') st₂ := by
  induction h' with
  | refl => exact h
  | node span build _ hnode ih => exact .node span build ih hnode
  | diagnose d _ hdiagnose ih => exact .diagnose d ih hdiagnose

theorem nextId (h : Steps st k st₁) : st₁.nextId = st.nextId + k := by
  induction h with
  | refl => rfl
  | node _ _ _ hnode ih =>
    cases hnode
    rw [ih, Nat.add_assoc]
  | diagnose _ _ hdiagnose ih =>
    cases hdiagnose
    exact ih

/-- A table that holds the ids given out goes on to do so. -/
theorem holdsFirst (h : Steps st k st₁) (hst : st.provenance.HoldsFirst st.nextId) :
    st₁.provenance.HoldsFirst st₁.nextId := by
  induction h with
  | refl => exact hst
  | node _ _ _ hnode ih =>
    cases hnode
    exact ih.record _
  | diagnose _ _ hdiagnose ih =>
    cases hdiagnose
    exact ih

end Steps

/-- Trees that wait for the node that takes them in. -/
structure Waiting (n : Nat) (xs : List Numbered) : Prop where
  lt : ∀ i ∈ idsOf xs, i < n
  descending : ∀ x ∈ xs, x.Descending

variable {α β : Type} {xs ys below : List Numbered} {m : Lower α} {q : α → Lower β}
  {f : α → List Numbered} {g : β → List Numbered}

/-- If the trees `xs` wait, then `m` leaves the trees `f a`, which hold the ids of `xs` and those
that `m` gives out. Also where it fails, `m` goes step by step. -/
def Takes (xs : List Numbered) (m : Lower α) (f : α → List Numbered) : Prop :=
  ∀ st, Waiting st.nextId xs → ∃ k, match m st with
    | .ok a st' => Steps st k st' ∧ (∀ x ∈ f a, x.Descending) ∧
        (idsOf (f a)).Perm (idsOf xs ++ List.range' st.nextId k)
    | .error _ st' => Steps st k st'

namespace Takes

theorem pure {a : α} (h : xs.Perm (f a)) : Takes xs (pure a) f := by
  intro st hxs
  refine ⟨0, .refl, fun x hx => hxs.descending x (h.mem_iff.2 hx), ?_⟩
  simpa using perm_idsOf h.symm

theorem throw {e : Error} : Takes xs (throw e) f := fun _ _ => ⟨0, .refl⟩

theorem bind (hm : Takes xs m f) (hq : ∀ a, Takes (f a) (q a) g) : Takes xs (m >>= q) g := by
  intro st hxs
  obtain ⟨k, hk⟩ := hm st hxs
  simp only [Bind.bind, EStateM.bind]
  cases hrun : m st with
  | error e st₁ =>
    rw [hrun] at hk
    exact ⟨k, hk⟩
  | ok a st₁ =>
    rw [hrun] at hk
    obtain ⟨hsteps, hdescending, hperm⟩ := hk
    -- what the first step leaves has ids given out before the second one starts
    have hwaiting : Waiting st₁.nextId (f a) := by
      refine ⟨fun i hi => ?_, hdescending⟩
      rw [hsteps.nextId]
      rcases List.mem_append.1 (hperm.mem_iff.1 hi) with hi | hi
      · exact Nat.lt_add_right k (hxs.lt i hi)
      · exact (List.mem_range'_1.1 hi).2
    obtain ⟨k', hk'⟩ := hq a st₁ hwaiting
    refine ⟨k + k', ?_⟩
    dsimp only
    cases hrun' : q a st₁ with
    | error e st₂ =>
      rw [hrun'] at hk'
      exact hsteps.trans hk'
    | ok b st₂ =>
      rw [hrun'] at hk'
      obtain ⟨hsteps', hdescending', hperm'⟩ := hk'
      refine ⟨hsteps.trans hsteps', hdescending', hperm'.trans ?_⟩
      -- the ids of the second step go on where those of the first end
      rw [hsteps.nextId, ← List.range'_append_1, ← List.append_assoc]
      exact hperm.append_right _

theorem map {h : α → β} (hm : Takes xs m fun a => g (h a)) : Takes xs (h <$> m) g := by
  intro st hxs
  obtain ⟨k, hk⟩ := hm st hxs
  refine ⟨k, ?_⟩
  simp only [Functor.map, EStateM.map]
  cases hrun : m st <;> simpa only [hrun] using hk

/-- What else waits goes on waiting. -/
theorem frame (hm : Takes xs m f) (ys : List Numbered) :
    Takes (ys ++ xs) m fun a => ys ++ f a := by
  intro st hwaiting
  have hxs : Waiting st.nextId xs :=
    ⟨fun i hi => hwaiting.lt i (by simp [hi]), fun x hx => hwaiting.descending x (by simp [hx])⟩
  obtain ⟨k, hk⟩ := hm st hxs
  refine ⟨k, ?_⟩
  cases hrun : m st with
  | error e st₁ =>
    rw [hrun] at hk
    exact hk
  | ok a st₁ =>
    rw [hrun] at hk
    obtain ⟨hsteps, hdescending, hperm⟩ := hk
    refine ⟨hsteps, fun x hx => ?_, ?_⟩
    · rcases List.mem_append.1 hx with hx | hx
      · exact hwaiting.descending x (by simp [hx])
      · exact hdescending x hx
    · rw [idsOf_append, idsOf_append, List.append_assoc]
      exact hperm.append_left _

/-- The same where nothing is taken in. -/
theorem behind (hm : Takes [] m f) (ys : List Numbered) : Takes ys m fun a => ys ++ f a := by
  simpa using hm.frame ys

/-- The order in which trees wait does not matter. -/
theorem perm (hm : Takes ys m f) (h : xs.Perm ys) : Takes xs m f := by
  intro st hxs
  have hys : Waiting st.nextId ys :=
    ⟨fun i hi => hxs.lt i ((perm_idsOf h).mem_iff.2 hi),
      fun y hy => hxs.descending y (h.mem_iff.2 hy)⟩
  obtain ⟨k, hk⟩ := hm st hys
  refine ⟨k, ?_⟩
  cases hrun : m st with
  | error e st₁ =>
    rw [hrun] at hk
    exact hk
  | ok a st₁ =>
    rw [hrun] at hk
    exact ⟨hk.1, hk.2.1, hk.2.2.trans ((perm_idsOf h.symm).append_right _)⟩

/-- A node takes in all trees that wait, and its id is the next one. -/
theorem node {span : Span} {build : Nat → α} {tree : α → Numbered}
    (h : ∀ id, tree (build id) = .node id xs) : Takes xs (node span build) fun a => [tree a] := by
  intro st hxs
  refine ⟨1, .node span build .refl rfl, ?_, ?_⟩
  · rintro x (_ | ⟨_, hx⟩)
    · rw [h, Numbered.Descending]
      exact ⟨hxs.lt, descendingAll_iff.2 hxs.descending⟩
    · cases hx
  · simpa [h, idsOf, Numbered.ids] using (List.perm_append_singleton st.nextId (idsOf xs)).symm

theorem diagnose {d : Diagnostic} : Takes xs (diagnose d) fun _ => xs := by
  intro st hxs
  exact ⟨0, .diagnose d .refl rfl, hxs.descending, by simp⟩

theorem ofExcept {r : Except Error α} : Takes xs (ofExcept r) fun _ => xs := by
  cases r with
  | ok a => exact .pure (.refl _)
  | error e => exact .throw

end Takes

end Lowering

end LuaTranspiler
