import LuaTranspiler.Proofs.Lowering.Lowered
import LuaTranspiler.Proofs.Lowering.ReportOrder
import LuaTranspiler.Proofs.Typing.Walk

/-!
# When findings are in the order of the source

A misfit is found after all that is inside its value, and it stands where its statement or its
returned value starts. An assignment is walked from its value to its targets. So of two findings the
one that is written first is made first, unless one of them starts inside the other, or both stand
in one assignment, on different sides.

* `Source.sides`: the targets and values of the assignments in some blocks
* `Follows A m n`: how a finding can lie to one that is made later
* `Placed A xs ms`: wherever the layouts `xs` lie, the findings `ms` do, in the order of the walk
* `finds_expr`, `finds_stmt`, `finds_block`: the findings in what is built for a tree
* `check_in_order_iff`: when the findings of a source are in order
-/

namespace LuaTranspiler

theorem Span.encloses_iff {a b : Span} :
    a.encloses b = true ↔ a.start ≤ b.start ∧ b.stop ≤ a.stop := by
  simp [Span.encloses]

namespace Source

/-- The spans of each target and each value of an assignment. -/
def Stmt.sides : Stmt → List (Span × Span)
  | .assign targets init _ => targets.flatMap fun t => init.map fun v => (t.span, v.span)
  | _ => []

/-- The same for the assignments in some blocks, without the blocks inside them. -/
def sides (bs : List Block) : List (Span × Span) := bs.flatMap fun b => b.stmts.flatMap Stmt.sides

@[simp] theorem sides_append (bs cs : List Block) : sides (bs ++ cs) = sides bs ++ sides cs :=
  List.flatMap_append

@[simp] theorem sides_nil : sides [] = [] := rfl

/-- The assignments in a block are those among its statements and those inside them. -/
theorem mem_sides_block (start : Nat) (ss : List Stmt) (x : Span × Span) :
    x ∈ sides (Block.mk start ss).blocks ↔ x ∈ ss.flatMap fun s => s.sides ++ sides s.blocks := by
  have hinner : sides (stmtBlocks ss) = ss.flatMap fun s => sides s.blocks := by
    induction ss with
    | nil => rfl
    | cons s ss ih => rw [stmtBlocks, sides_append, ih, List.flatMap_cons]
  rw [Block.blocks, ← List.singleton_append, sides_append, hinner]
  simp only [sides, List.flatMap_singleton, Block.stmts, List.mem_append, List.mem_flatMap]
  grind

theorem Expr.blocks_of_isPath : ∀ e : Expr, e.isPath = true → e.blocks = []
  | .ident .., _ => rfl
  | .member base .dot _ _, h => base.blocks_of_isPath h

end Source

/-! ### Findings between two offsets -/

section Lies

variable {A B : List (Span × Span)} {lo mid hi lo' hi' : Nat} {m n : Mismatch}
  {ms ns : List Mismatch}

/-- One finding stands in a value of an assignment, the other in a target of it. -/
def Crossed (A : List (Span × Span)) (m n : Mismatch) : Prop :=
  ∃ x ∈ A, x.2.encloses m.span = true ∧ x.1.encloses n.span = true

/-- The finding `n` is made later than `m`: it stands behind it, or around it, or in a target of an
assignment that has `m` in a value. Of the last kind there are no two in the other order. -/
def Follows (A : List (Span × Span)) (m n : Mismatch) : Prop :=
  (m.span.stop ≤ n.span.start ∨ n.span.encloses m.span = true ∨ Crossed A m n) ∧ ¬Crossed A n m

/-- The findings `ms` and the assignments `A` lie between two offsets, and the findings are in the
order of the walk. -/
structure Lies (A : List (Span × Span)) (lo hi : Nat) (ms : List Mismatch) : Prop where
  within : ∀ m ∈ ms, lo ≤ m.span.start ∧ m.span.start < m.span.stop ∧ m.span.stop ≤ hi
  sides : ∀ x ∈ A, lo ≤ x.1.start ∧ x.1.start < x.1.stop ∧ x.1.stop ≤ x.2.start ∧
    x.2.start < x.2.stop ∧ x.2.stop ≤ hi
  order : ms.Pairwise (Follows A)

/-- Assignments that do not enclose a finding on either side make no difference to it. -/
theorem Follows.extend (h : Follows A m n) (hAB : ∀ x ∈ A, x ∈ B)
    (hapart : ∀ x ∈ B, x ∉ A → x.2.encloses n.span = true → x.1.encloses m.span = true → False) :
    Follows B m n := by
  refine ⟨h.1.imp_right (.imp_right ?_), ?_⟩
  · rintro ⟨x, hx, hcrossed⟩
    exact ⟨x, hAB x hx, hcrossed⟩
  · rintro ⟨x, hx, hn, hm⟩
    by_cases hxA : x ∈ A
    · exact h.2 ⟨x, hxA, hn, hm⟩
    · exact hapart x hx hxA hn hm

namespace Lies

theorem mono (h : Lies A lo hi ms) (hlo : lo' ≤ lo) (hhi : hi ≤ hi') : Lies A lo' hi' ms where
  within m hm := by
    have := h.within m hm
    omega
  sides x hx := by
    have := h.sides x hx
    omega
  order := h.order

theorem congr (h : Lies A lo hi ms) (hAB : ∀ x, x ∈ A ↔ x ∈ B) : Lies B lo hi ms where
  within := h.within
  sides x hx := h.sides x ((hAB x).2 hx)
  order := h.order.imp fun hmn =>
    hmn.extend (fun x hx => (hAB x).1 hx) fun x hx hxA => absurd ((hAB x).2 hx) hxA

/-- Findings and assignments in a row. -/
theorem append (h : Lies A lo mid ms) (h' : Lies B mid hi ns) (hlo : lo ≤ mid) (hhi : mid ≤ hi) :
    Lies (A ++ B) lo hi (ms ++ ns) where
  within := List.forall_mem_append.2 ⟨(h.mono le_rfl hhi).within, (h'.mono hlo le_rfl).within⟩
  sides := List.forall_mem_append.2 ⟨(h.mono le_rfl hhi).sides, (h'.mono hlo le_rfl).sides⟩
  order := by
    rw [List.pairwise_append]
    refine ⟨?_, ?_, fun m hm n hn => ?_⟩
    · refine h.order.imp_of_mem fun {m n} _ hn hmn => hmn.extend (by simp +contextual) ?_
      intro x hx hxA hxn _
      have hxB := h'.sides x ((List.mem_append.1 hx).resolve_left hxA)
      have := h.within n hn
      rw [Span.encloses_iff] at hxn
      omega
    · refine h'.order.imp_of_mem fun {m n} _ hn hmn => hmn.extend (by simp +contextual) ?_
      intro x hx hxB hxn _
      have hxA := h.sides x ((List.mem_append.1 hx).resolve_right hxB)
      have := h'.within n hn
      rw [Span.encloses_iff] at hxn
      omega
    · have := h.within m hm
      have := h'.within n hn
      refine ⟨.inl (by omega), ?_⟩
      rintro ⟨x, hx, hxn, hxm⟩
      rw [Span.encloses_iff] at hxn hxm
      rcases List.mem_append.1 hx with hx | hx
      · have := h.sides x hx
        omega
      · have := h'.sides x hx
        omega

/-- One more finding, around the others. -/
theorem snoc {a : Span} (h : Lies A a.start a.stop ms) (ha : a.start < a.stop) (hm : m.span = a) :
    Lies A a.start a.stop (ms ++ [m]) where
  within := by
    refine List.forall_mem_append.2 ⟨h.within, List.forall_mem_singleton.2 ?_⟩
    rw [hm]
    exact ⟨le_rfl, ha, le_rfl⟩
  sides := h.sides
  order := by
    refine List.pairwise_append.2 ⟨h.order, List.pairwise_singleton _ _, fun n hn => ?_⟩
    refine List.forall_mem_singleton.2 ⟨.inr (.inl ?_), ?_⟩
    · rw [hm, Span.encloses_iff]
      have := h.within n hn
      exact ⟨this.1, this.2.2⟩
    · rintro ⟨x, hx, hxm, -⟩
      rw [hm, Span.encloses_iff] at hxm
      have := h.sides x hx
      omega

/-- The two sides of an assignment, which is walked from its value to its targets. -/
theorem cross {S : List (Span × Span)} (h : Lies A lo mid ns) (h' : Lies B mid hi ms)
    (hlo : lo ≤ mid) (hhi : mid ≤ hi)
    (hS : ∀ x ∈ S, lo ≤ x.1.start ∧ x.1.start < x.1.stop ∧ x.1.stop ≤ mid ∧ mid ≤ x.2.start ∧
      x.2.start < x.2.stop ∧ x.2.stop ≤ hi)
    (hcross : ∀ m ∈ ms, ∀ n ∈ ns, Crossed S m n) : Lies (S ++ (A ++ B)) lo hi (ms ++ ns) := by
  have hrow := h.append h' hlo hhi
  have hmem : ∀ {x}, x ∈ S ++ (A ++ B) → x ∉ A ++ B → x ∈ S := fun hx hx' =>
    (List.mem_append.1 hx).resolve_right hx'
  obtain ⟨htargets, hvalues, -⟩ := List.pairwise_append.1 hrow.order
  refine ⟨?_, List.forall_mem_append.2 ⟨fun x hx => ?_, hrow.sides⟩, ?_⟩
  · intro m hm
    exact hrow.within m (List.mem_append.2 (List.mem_append.1 hm).symm)
  · have := hS x hx
    omega
  · rw [List.pairwise_append]
    refine ⟨?_, ?_, fun m hm n hn => ⟨.inr (.inr ?_), ?_⟩⟩
    · refine hvalues.imp_of_mem fun {m n} hm _ hmn => hmn.extend (by simp +contextual) ?_
      intro x hx hxAB _ hxm
      have := hS x (hmem hx hxAB)
      have := h'.within m hm
      rw [Span.encloses_iff] at hxm
      omega
    · refine htargets.imp_of_mem fun {m n} _ hn hmn => hmn.extend (by simp +contextual) ?_
      intro x hx hxAB hxn _
      have := hS x (hmem hx hxAB)
      have := h.within n hn
      rw [Span.encloses_iff] at hxn
      omega
    · obtain ⟨x, hx, hmn⟩ := hcross m hm n hn
      exact ⟨x, List.mem_append_left _ hx, hmn⟩
    · rintro ⟨x, hx, hxn, hxm⟩
      have := h'.within m hm
      have := h.within n hn
      rw [Span.encloses_iff] at hxn hxm
      rcases List.mem_append.1 hx with hx | hx
      · have := hS x hx
        omega
      · have := hrow.sides x hx
        omega

end Lies

end Lies

/-! ### Findings in layouts -/

open Source (Layout LaidIn Thins exprLayouts exprBlocks sides)

section Placed

variable {A B : List (Span × Span)} {xs ys parts : List Layout} {a : Span} {ms ns : List Mismatch}

/-- Wherever the layouts `xs` lie, so do the findings `ms` and the assignments `A`, and the findings
are in the order of the walk. -/
def Placed (A : List (Span × Span)) (xs : List Layout) (ms : List Mismatch) : Prop :=
  ∀ edge lo hi, LaidIn edge lo hi xs → Lies A lo hi ms

/-- At most one finding, and that at `a`. -/
def AtMostOneAt (a : Span) (ms : List Mismatch) : Prop := ms = [] ∨ ∃ m, ms = [m] ∧ m.span = a

namespace Placed

theorem nil : Placed [] xs [] := fun _ _ _ _ =>
  ⟨List.forall_mem_nil _, List.forall_mem_nil _, .nil⟩

/-- Without the findings, the assignments are still there. -/
theorem drop (h : Placed A xs ms) : Placed A xs [] := fun edge lo hi hlaid =>
  ⟨List.forall_mem_nil _, (h edge lo hi hlaid).sides, .nil⟩

theorem congr (h : Placed A xs ms) (hAB : ∀ x, x ∈ A ↔ x ∈ B) : Placed B xs ms :=
  fun edge lo hi hlaid => (h edge lo hi hlaid).congr hAB

theorem thin (h : Placed A ys ms) (hthins : Thins xs ys) : Placed A xs ms :=
  fun edge lo hi hlaid => h edge lo hi (hthins edge lo hi hlaid)

theorem node (h : Placed A parts ms) : Placed A [.node a parts] ms := h.thin Thins.refl.node

theorem append (h : Placed A xs ms) (h' : Placed B ys ns) :
    Placed (A ++ B) (xs ++ ys) (ms ++ ns) := by
  intro edge lo hi hlaid
  obtain ⟨mid, hxs, hys⟩ := Source.laidIn_append.1 hlaid
  exact (h edge lo mid hxs).append (h' edge mid hi hys) hxs.le hys.le

theorem cons {x : Layout} (h : Placed A [x] ms) (h' : Placed B ys ns) :
    Placed (A ++ B) (x :: ys) (ms ++ ns) := h.append h'

/-- A finding at a node is made after those inside. -/
theorem own (h : Placed A parts ms) (hns : AtMostOneAt a ns) :
    Placed A [.node a parts] (ms ++ ns) := by
  intro edge lo hi hlaid
  obtain ⟨hfits, hparts⟩ := Source.laid_node.1 (Source.laidIn_singleton.1 hlaid)
  have hinside := h edge _ _ hparts
  rcases hns with rfl | ⟨m, rfl, hm⟩
  · rw [List.append_nil]
    exact hinside.mono hfits.lower hfits.upper
  · exact (hinside.snoc hfits.nonempty hm).mono hfits.lower hfits.upper

end Placed

end Placed

/-- The findings `ms` lie in the expressions `es`, in the order of the walk. -/
structure Filled (es : List Source.Expr) (ms : List Mismatch) : Prop where
  placed : Placed (sides (exprBlocks es)) (exprLayouts es) ms
  inside : ∀ edge lo hi, LaidIn edge lo hi (exprLayouts es) →
    ∀ m ∈ ms, ∃ e ∈ es, e.span.encloses m.span = true

theorem Filled.nil : Filled [] [] := ⟨.nil, fun _ _ _ _ => List.forall_mem_nil _⟩

theorem Filled.cons {e : Source.Expr} {es : List Source.Expr} {ms ns : List Mismatch}
    (h : Placed (sides e.blocks) e.parts ms) (h' : Filled es ns) :
    Filled (e :: es) (ms ++ ns) where
  placed := by
    rw [exprBlocks, exprLayouts, Source.sides_append]
    exact h.node.cons h'.placed
  inside := by
    intro edge lo hi hlaid
    rw [exprLayouts] at hlaid
    obtain ⟨mid, he, hes⟩ := Source.laidIn_cons.1 hlaid
    refine List.forall_mem_append.2 ⟨fun m hm => ⟨e, List.mem_cons_self, ?_⟩, fun m hm => ?_⟩
    · have := (h edge _ _ (Source.laid_node.1 he).2).within m hm
      exact Span.encloses_iff.2 ⟨this.1, this.2.2⟩
    · obtain ⟨e', he', hm⟩ := h'.inside edge mid hi hes m hm
      exact ⟨e', List.mem_cons_of_mem _ he', hm⟩

/-- Each of the expressions that lie between two offsets does. -/
theorem fits_of_laidIn {edge : Point → Prop} {lo hi : Nat} {es : List Source.Expr}
    (h : LaidIn edge lo hi (exprLayouts es)) : ∀ e ∈ es, e.span.Fits edge lo hi := by
  induction es generalizing lo with
  | nil => exact List.forall_mem_nil _
  | cons e es ih =>
    rw [exprLayouts] at h
    obtain ⟨mid, he, hes⟩ := Source.laidIn_cons.1 h
    refine List.forall_mem_cons.2 ⟨(Source.laid_node.1 he).1.mono le_rfl hes.le, fun e' he' => ?_⟩
    exact (ih hes e' he').mono he.le le_rfl

/-- The findings of an assignment: those in its values, then those in its targets. -/
theorem Filled.assign {targets init : List Source.Expr} (span : Span) {ms ns : List Mismatch}
    (h : Filled init ms) (h' : Filled targets ns) :
    Placed ((Source.Stmt.assign targets init span).sides ++
      sides (exprBlocks targets ++ exprBlocks init)) (exprLayouts targets ++ exprLayouts init)
      (ms ++ ns) := by
  intro edge lo hi hlaid
  obtain ⟨mid, htargets, hinit⟩ := Source.laidIn_append.1 hlaid
  rw [Source.sides_append]
  refine (h'.placed edge lo mid htargets).cross (h.placed edge mid hi hinit) htargets.le hinit.le
    ?_ fun m hm n hn => ?_
  · intro x hx
    obtain ⟨t, ht, hx⟩ := List.mem_flatMap.1 hx
    obtain ⟨v, hv, rfl⟩ := List.mem_map.1 hx
    have htfits := fits_of_laidIn htargets t ht
    have hvfits := fits_of_laidIn hinit v hv
    exact ⟨htfits.lower, htfits.nonempty, htfits.upper, hvfits.lower, hvfits.nonempty,
      hvfits.upper⟩
  · obtain ⟨v, hv, hmv⟩ := h.inside edge mid hi hinit m hm
    obtain ⟨t, ht, hnt⟩ := h'.inside edge lo mid htargets n hn
    exact ⟨(t.span, v.span), List.mem_flatMap.2 ⟨t, ht, List.mem_map.2 ⟨v, hv, rfl⟩⟩, hmv, hnt⟩

/-! ### Findings at several values -/

section Cover

variable {edge : Point → Prop} {lo hi : Nat} {a : Span} {xs parts : List Layout}

theorem Source.LaidIn.from_first (h : LaidIn edge lo hi (.node a parts :: xs)) :
    LaidIn edge a.start hi (.node a parts :: xs) := by
  obtain ⟨mid, ha, hxs⟩ := Source.laidIn_cons.1 h
  obtain ⟨hfits, hparts⟩ := Source.laid_node.1 ha
  exact Source.laidIn_cons.2
    ⟨mid, Source.laid_node.2 ⟨{ hfits with lower := le_rfl }, hparts⟩, hxs⟩

theorem Source.LaidIn.to_last (h : LaidIn edge lo hi (xs ++ [.node a parts])) :
    LaidIn edge lo a.stop (xs ++ [.node a parts]) := by
  obtain ⟨mid, hxs, ha⟩ := Source.laidIn_append.1 h
  obtain ⟨hfits, hparts⟩ := Source.laid_node.1 (Source.laidIn_singleton.1 ha)
  refine Source.laidIn_append.2 ⟨mid, hxs, Source.laidIn_singleton.2 ?_⟩
  exact Source.laid_node.2 ⟨{ hfits with upper := le_rfl }, hparts⟩

/-- Expressions lie in the span that covers them. -/
theorem laidIn_cover {es : List Source.Expr} (hne : es ≠ [])
    (h : LaidIn edge lo hi (exprLayouts es)) :
    LaidIn edge (Lowering.spanOf es .unknown).start (Lowering.spanOf es .unknown).stop
        (exprLayouts es) ∧
      lo ≤ (Lowering.spanOf es .unknown).start ∧
      (Lowering.spanOf es .unknown).start < (Lowering.spanOf es .unknown).stop ∧
      (Lowering.spanOf es .unknown).stop ≤ hi := by
  obtain ⟨e, es, rfl⟩ := List.exists_cons_of_ne_nil hne
  have hspan : Lowering.spanOf (e :: es) .unknown =
      e.span.through ((e :: es).getLast (List.cons_ne_nil e es)).span := by
    rw [Lowering.spanOf, List.map_cons, Span.cover, Option.getD_some]
    have hmap : (e :: es).map Source.Expr.span ≠ [] := List.cons_ne_nil _ _
    exact congrArg _ (List.getLast_map hmap)
  have hsplit : exprLayouts (e :: es) = (e :: es).dropLast.map Source.Expr.layout ++
      [((e :: es).getLast (List.cons_ne_nil e es)).layout] := by
    rw [Source.exprLayouts_eq_map, ← List.map_singleton (f := Source.Expr.layout),
      ← List.map_append, List.dropLast_append_getLast]
  have hfirst : LaidIn edge e.span.start hi (exprLayouts (e :: es)) := by
    rw [exprLayouts] at h ⊢
    exact h.from_first
  have hboth : LaidIn edge e.span.start ((e :: es).getLast (List.cons_ne_nil e es)).span.stop
      (exprLayouts (e :: es)) := by
    rw [hsplit] at hfirst ⊢
    exact hfirst.to_last
  have he := fits_of_laidIn hboth e List.mem_cons_self
  have hlast := fits_of_laidIn h _ (List.getLast_mem (List.cons_ne_nil e es))
  rw [hspan]
  exact ⟨hboth, (fits_of_laidIn h e List.mem_cons_self).lower, he.nonempty.trans_le he.upper,
    hlast.upper⟩

/-- A finding at joined values is made after those inside. -/
theorem Filled.own {es : List Source.Expr} {ms ns : List Mismatch} (hne : es ≠ [])
    (h : Filled es ms) (hns : AtMostOneAt (Lowering.spanOf es .unknown) ns) :
    Placed (sides (exprBlocks es)) (exprLayouts es) (ms ++ ns) := by
  intro edge lo hi hlaid
  obtain ⟨hcover, hlo, hlt, hhi⟩ := laidIn_cover hne hlaid
  have hinside := h.placed edge _ _ hcover
  rcases hns with rfl | ⟨m, rfl, hm⟩
  · rw [List.append_nil]
    exact hinside.mono hlo hhi
  · exact (hinside.snoc hlt hm).mono hlo hhi

end Cover

/-! ### Parts of the walk -/

open Target (Expr Stmt)

section Finds

variable {p : Provenance} {R S T : List Mismatch → Prop} {f g : Checker → Checker}
  {c c₁ c₂ : Checker}

/-- The state `c'` has more findings than `c`, of which `R` holds. -/
def Adds (R : List Mismatch → Prop) (c c' : Checker) : Prop :=
  c'.provenance = c.provenance ∧ ∃ ms, c'.mismatches = c.mismatches ++ ms ∧ R ms

namespace Adds

theorem trans (h : Adds R c c₁) (h' : Adds S c₁ c₂) (hT : ∀ ms ns, R ms → S ns → T (ms ++ ns)) :
    Adds T c c₂ := by
  obtain ⟨hprov, ms, hms, hR⟩ := h
  obtain ⟨hprov', ns, hns, hS⟩ := h'
  exact ⟨hprov'.trans hprov, ms ++ ns, by rw [hns, hms, List.append_assoc], hT ms ns hR hS⟩

theorem mono (h : Adds R c c₁) (hRS : ∀ ms, R ms → S ms) : Adds S c c₁ :=
  ⟨h.1, h.2.imp fun ms hms => ⟨hms.1, hRS ms hms.2⟩⟩

/-- What does not concern findings. -/
theorem quiet (hprov : c₁.provenance = c.provenance) (hms : c₁.mismatches = c.mismatches)
    (hR : R []) : Adds R c c₁ := ⟨hprov, [], by rw [hms, List.append_nil], hR⟩

theorem expectDeclared (c : Checker) (e : Expr) (ty : Option Ty) (span : Span) :
    Adds (AtMostOneAt span) c (c.expectDeclared e ty span) := by
  have hnone : Adds (AtMostOneAt span) c c := .quiet rfl rfl (.inl rfl)
  cases ty with
  | none => exact hnone
  | some ty =>
    rw [Checker.expectDeclared, Checker.expect]
    split
    · exact hnone
    next found _ =>
      split
      · exact hnone
      · exact ⟨rfl, [⟨ty, found, span⟩], rfl, .inr ⟨_, rfl, rfl⟩⟩

end Adds

theorem Checker.declareAll_eq (names : List String) (c : Checker) :
    (declareAll names c).provenance = c.provenance ∧
      (declareAll names c).mismatches = c.mismatches := by
  induction names generalizing c with
  | nil => exact ⟨rfl, rfl⟩
  | cons name names ih => exact ih (c.declare name none)

theorem Checker.declareBinding_eq (ty : Option Ty) (c : Checker) (binding : Target.Binding) :
    (c.declareBinding ty binding).provenance = c.provenance ∧
      (c.declareBinding ty binding).mismatches = c.mismatches := by
  cases binding with
  | ident name => exact ⟨rfl, rfl⟩
  | array names => exact declareAll_eq names c

/-- The part of the walk that `f` is makes findings of which `R` holds. -/
def Finds (p : Provenance) (R : List Mismatch → Prop) (f : Checker → Checker) : Prop :=
  ∀ c, c.provenance = p → Adds R c (f c)

namespace Finds

theorem quiet (hR : R [])
    (hf : ∀ c, (f c).provenance = c.provenance ∧ (f c).mismatches = c.mismatches) : Finds p R f :=
  fun c _ => .quiet (hf c).1 (hf c).2 hR

theorem mono (h : Finds p R f) (hRS : ∀ ms, R ms → S ms) : Finds p S f :=
  fun c hc => (h c hc).mono hRS

theorem comp (hf : Finds p R f) (hg : Finds p S g) (hT : ∀ ms ns, R ms → S ns → T (ms ++ ns)) :
    Finds p T fun c => g (f c) := fun c hc =>
  (hf c hc).trans (hg _ ((hf c hc).1.trans hc)) hT

theorem nested (hf : Finds p R f) : Finds p R fun c => (f c.push).pop := fun c hc => hf c.push hc

theorem function {params : List Target.Param} {ty : Option Ty} {body : List Stmt}
    (h : Finds p R (Checker.block body)) : Finds p R (Checker.function (.mk params ty body)) := by
  intro c hc
  obtain ⟨top, henter⟩ := Checker.enter_scopes params ty c
  rw [Checker.function, henter]
  exact h { c with scopes := top :: c.scopes, returns := ty :: c.returns } hc

variable {A B : List (Span × Span)} {xs ys parts : List Layout} {a : Span}

theorem row (hf : Finds p (Placed A xs) f) (hg : Finds p (Placed B ys) g) :
    Finds p (Placed (A ++ B) (xs ++ ys)) fun c => g (f c) := hf.comp hg fun _ _ => .append

theorem node (hf : Finds p (Placed A parts) f) : Finds p (Placed A [.node a parts]) f :=
  hf.mono fun _ => .node

theorem thin (hf : Finds p (Placed A ys) f) (hthins : Thins xs ys) : Finds p (Placed A xs) f :=
  hf.mono fun _ hms => hms.thin hthins

/-- A finding at a node is made after those inside. -/
theorem own (hf : Finds p (Placed A parts) f) (hg : Finds p (AtMostOneAt a) g) :
    Finds p (Placed A [.node a parts]) fun c => g (f c) := hf.comp hg fun _ _ => .own

theorem skip (hf : ∀ c, (f c).provenance = c.provenance ∧ (f c).mismatches = c.mismatches) :
    Finds p (Placed [] xs) f := .quiet .nil hf

/-- Of what is passed by, the assignments are still there. -/
theorem pass (hf : Finds p (Placed A xs) f) : Finds p (Placed A xs) fun c => c := by
  obtain ⟨-, ms, -, hms⟩ := hf (.initial p) rfl
  exact .quiet hms.drop fun c => ⟨rfl, rfl⟩

end Finds

end Finds

/-! ### Trees -/

section Trees

open Lowering
open Source (Comment sides_append)

variable {comments : List Comment} {p : Provenance} {tags : List Tag}

theorem get?_of_nodeAt {build : Nat → Expr} {a : Expr} {span : Span}
    (h : NodeAt p span build a) (hid : ∀ i, (build i).id = i) : p.get? a.id = some span := by
  obtain ⟨i, hi, rfl⟩ := h
  rwa [hid]

/-- An expression is recorded with the span of what it is built for. -/
theorem get?_of_loweredExpr {ctx : Context} {e : Source.Expr} {a : Expr}
    (h : LoweredExpr ctx p tags e a) : p.get? a.id = some e.span := by
  cases e with
  | ident => exact get?_of_nodeAt h fun _ => rfl
  | literal value span =>
    cases value with
    | vararg =>
      obtain ⟨rest, -, ha⟩ := h
      exact get?_of_nodeAt ha fun _ => rfl
    | number | string | bool | nil => exact get?_of_nodeAt h fun _ => rfl
  | member =>
    obtain ⟨_, -, ha⟩ := h
    exact get?_of_nodeAt ha fun _ => rfl
  | unary op =>
    obtain ⟨_, -, ha⟩ := h
    cases op <;> exact get?_of_nodeAt ha fun _ => rfl
  | table =>
    obtain ⟨_, -, ha⟩ | ⟨_, -, ha⟩ := h <;> exact get?_of_nodeAt ha fun _ => rfl
  | index | logical | call | stringCall | tableCall | function =>
    obtain ⟨_, _, -, -, ha⟩ := h
    exact get?_of_nodeAt ha fun _ => rfl
  | binary =>
    obtain ⟨_, _, _, -, -, -, ha⟩ := h
    exact get?_of_nodeAt ha fun _ => rfl

/-- Joined values are walked over one by one. -/
theorem expr_of_joinedValues {span : Span} {v : Expr} {as : List Expr}
    (h : JoinedValues p span (some v) as) : Checker.expr v = Checker.exprs as := by
  rcases as with _ | ⟨a, _ | ⟨b, as⟩⟩
  · cases h
  · cases h
    rfl
  · obtain ⟨_, ⟨_, -, rfl⟩, ⟨⟩⟩ := h
    rfl

theorem exprs_of_joinedNone {span : Span} {as : List Expr} (h : JoinedValues p span none as) :
    Checker.exprs as = fun c => c := by
  rcases as with _ | ⟨a, _ | ⟨b, as⟩⟩
  · rfl
  · cases h
  · obtain ⟨_, -, ⟨⟩⟩ := h

theorem expr_of_joinedTargets {span : Span} {a : Expr} {as : List Expr}
    (h : JoinedTargets p span a as) : Checker.expr a = Checker.exprs as := by
  rcases as with _ | ⟨b, _ | ⟨b', as⟩⟩
  · obtain ⟨_, -, rfl⟩ := h
    rfl
  · cases h
    rfl
  · obtain ⟨_, -, rfl⟩ := h
    rfl

theorem expr_of_assignedValue {span span' : Span} {v : Expr} {value : Option Expr} {as : List Expr}
    (h : AssignedValue p span v value) (h' : JoinedValues p span' value as) :
    Checker.expr v = Checker.exprs as := by
  cases value with
  | some e =>
    cases h
    exact expr_of_joinedValues h'
  | none =>
    obtain ⟨_, -, rfl⟩ := h
    rw [exprs_of_joinedNone h']
    rfl

/-- The joined values are recorded with the span that covers them. -/
theorem get?_of_joinedValues {ctx : Context} {values : List Source.Expr} {v : Expr} {as : List Expr}
    (has : LoweredExprs ctx p tags values as)
    (h : JoinedValues p (spanOf values .unknown) (some v) as) :
    values ≠ [] ∧ p.get? v.id = some (spanOf values .unknown) := by
  rcases as with _ | ⟨a, _ | ⟨b, as⟩⟩
  · cases h
  · cases h
    rcases values with _ | ⟨e, _ | ⟨e', es⟩⟩
    · cases has
    · obtain ⟨_, _, he, -, ⟨⟩⟩ := has
      exact ⟨List.cons_ne_nil _ _, get?_of_loweredExpr he⟩
    · obtain ⟨_, _, -, ⟨_, _, -, -, rfl⟩, ⟨⟩⟩ := has
  · obtain ⟨_, ha, ⟨⟩⟩ := h
    refine ⟨?_, get?_of_nodeAt ha fun _ => rfl⟩
    rintro rfl
    cases has

theorem get_of_get? {id : Nat} {span : Span} (h : p.get? id = some span) : p.get id = span := by
  rw [Provenance.get, h, Option.getD_some]

theorem Finds.expected {id : Nat} {span : Span} (e : Expr) (ty : Checker → Option Ty)
    (hid : p.get? id = some span) :
    Finds p (AtMostOneAt span) fun c => c.expectDeclared e (ty c) (c.provenance.get id) := by
  intro c hc
  have hown := Adds.expectDeclared c e (ty c) (c.provenance.get id)
  rw [hc, get_of_get? hid] at hown
  simpa only [hc, get_of_get? hid] using hown

/-- Nothing is found in the path to a member. -/
theorem expr_of_isPath {ctx : Context} {c : Checker} : ∀ (e : Source.Expr) {a : Expr},
    e.isPath = true → LoweredExpr ctx p tags e a → Checker.expr a c = c
  | .ident .., _, _, ha => by
    obtain ⟨_, -, rfl⟩ := ha
    rfl
  | .member base .dot _ _, _, hpath, ha => by
    obtain ⟨object, hobject, _, -, rfl⟩ := ha
    rw [Checker.expr]
    exact expr_of_isPath base hpath hobject

theorem shapeOf_plain (top : Bool) (start : Nat) (ss : List Source.Stmt) :
    shapeOf ⟨false, false, comments⟩ top start ss = .plain := by
  rcases ss with _ | ⟨s, ss⟩
  · rfl
  · cases s <;> rfl

mutual

theorem finds_expr : ∀ (e : Source.Expr) {called : Bool} {tags : List Tag} {a : Expr},
    e.WellFormed called → LoweredExpr ⟨false, false, comments⟩ p tags e a →
    Finds p (Placed (sides e.blocks) e.parts) (Checker.expr a)
  | .ident .., _, _, _, _, ha => by
    obtain ⟨_, -, rfl⟩ := ha
    exact .skip fun c => ⟨rfl, rfl⟩
  | .literal value _, _, _, _, _, ha => by
    cases value with
    | vararg =>
      obtain ⟨_, ⟨_, -, rfl⟩, _, -, rfl⟩ := ha
      exact .skip fun c => ⟨rfl, rfl⟩
    | number | string | bool | nil =>
      obtain ⟨_, -, rfl⟩ := ha
      exact .skip fun c => ⟨rfl, rfl⟩
  | .member base _ name _, _, _, _, hwf, ha => by
    obtain ⟨object, hobject, _, -, rfl⟩ := ha
    rw [Source.Expr.blocks, Source.Expr.parts, ← List.append_nil (sides _)]
    exact (finds_expr base hwf.2 hobject).node.row (.skip fun c => ⟨rfl, rfl⟩)
  | .index base index _, _, _, _, hwf, ha => by
    obtain ⟨object, i, hobject, hi, _, -, rfl⟩ := ha
    rw [Source.Expr.blocks, Source.Expr.parts, sides_append]
    exact (finds_expr base hwf.1 hobject).node.row (finds_expr index hwf.2 hi).node
  | .unary op operand _, _, _, _, hwf, ha => by
    obtain ⟨b, hb, ha⟩ := ha
    rw [Source.Expr.blocks, Source.Expr.parts]
    have hoperand := finds_expr operand hwf hb
    cases op with
    | len | not | neg | bitNot =>
      obtain ⟨_, -, rfl⟩ := ha
      exact hoperand.node
  | .binary lhs _ rhs _, _, _, _, hwf, ha => by
    obtain ⟨b, _, b', -, hb, hb', _, -, rfl⟩ := ha
    rw [Source.Expr.blocks, Source.Expr.parts, sides_append]
    exact (finds_expr lhs hwf.1 hb).node.row (finds_expr rhs hwf.2 hb').node
  | .logical lhs _ rhs _, _, _, _, hwf, ha => by
    obtain ⟨b, b', hb, hb', _, -, rfl⟩ := ha
    rw [Source.Expr.blocks, Source.Expr.parts, sides_append]
    exact (finds_expr lhs hwf.1 hb).node.row (finds_expr rhs hwf.2 hb').node
  | .table fields _, _, _, _, hwf, ha => by
    rw [Source.Expr.blocks, Source.Expr.parts]
    obtain ⟨_, hes, _, -, rfl⟩ | ⟨_, hps, _, -, rfl⟩ := ha
    · exact finds_elements fields hwf hes
    · exact finds_properties fields hwf hps
  | .call base args _, _, _, _, hwf, ha => by
    obtain ⟨callee, as, hcallee, has, _, -, rfl⟩ := ha
    rw [Source.Expr.blocks, Source.Expr.parts, sides_append]
    have hargs := (finds_exprs args hwf.2 has).mono fun _ => Filled.placed
    exact (finds_expr base hwf.1 hcallee).node.row hargs
  | .stringCall base argument _, _, _, _, hwf, ha => by
    obtain ⟨callee, arg, hcallee, harg, _, -, rfl⟩ := ha
    rw [Source.Expr.blocks, Source.Expr.parts, sides_append]
    have hargument := Source.Expr.wellFormed_of_isString hwf.2
    exact (finds_expr base hwf.1 hcallee).node.row (finds_expr argument hargument harg).node
  | .tableCall base argument _, _, _, _, hwf, ha => by
    obtain ⟨callee, arg, hcallee, harg, _, -, rfl⟩ := ha
    rw [Source.Expr.blocks, Source.Expr.parts, sides_append]
    exact (finds_expr base hwf.1 hcallee).node.row (finds_expr argument hwf.2.2 harg).node
  | .function func _, _, _, _, hwf, ha => by
    obtain ⟨_, f, -, hf, _, -, rfl⟩ := ha
    rw [Source.Expr.blocks, Source.Expr.parts]
    exact finds_function func hwf hf

theorem finds_exprs : ∀ (es : List Source.Expr) {tags : List Tag} {as : List Expr},
    Source.WellFormedExprs es → LoweredExprs ⟨false, false, comments⟩ p tags es as →
    Finds p (Filled es) (Checker.exprs as)
  | [], _, _, _, has => by
    cases has
    exact .quiet .nil fun c => ⟨rfl, rfl⟩
  | e :: es, _, _, hwf, has => by
    obtain ⟨b, bs, hb, hbs, rfl⟩ := has
    exact (finds_expr e hwf.1 hb).comp (finds_exprs es hwf.2 hbs) fun _ _ => .cons

theorem finds_elements : ∀ (fs : List Source.Field) {tags : List Tag} {as : List Expr},
    Source.WellFormedFields fs → LoweredElements ⟨false, false, comments⟩ p tags fs as →
    Finds p (Placed (sides (Source.fieldBlocks fs)) (Source.fieldLayouts fs)) (Checker.exprs as)
  | [], _, _, _, has => by
    cases has
    exact .skip fun c => ⟨rfl, rfl⟩
  | .positional value _ :: fs, _, _, hwf, has => by
    obtain ⟨b, bs, hb, hbs, rfl⟩ := has
    rw [Source.fieldBlocks, Source.fieldLayouts, sides_append]
    exact (finds_expr value hwf.1 hb).node.node.row (finds_elements fs hwf.2 hbs)

theorem finds_properties : ∀ (fs : List Source.Field) {tags : List Tag} {ps : List Target.Property},
    Source.WellFormedFields fs → LoweredProperties ⟨false, false, comments⟩ p tags fs ps →
    Finds p (Placed (sides (Source.fieldBlocks fs)) (Source.fieldLayouts fs))
      (Checker.propertyValues ps)
  | [], _, _, _, hps => by
    cases hps
    exact .skip fun c => ⟨rfl, rfl⟩
  | .named key value _ :: fs, _, _, hwf, hps => by
    obtain ⟨v, qs, hv, hqs, rfl⟩ := hps
    have hkey : Finds p (Placed [] [key.layout]) fun c => c := .skip fun c => ⟨rfl, rfl⟩
    rw [Source.fieldBlocks, Source.fieldLayouts, sides_append]
    exact (hkey.row (finds_expr value hwf.1 hv).node).node.row (finds_properties fs hwf.2 hqs)
  | .keyed key value _ :: fs, _, _, hwf, hps => by
    obtain ⟨k, v, qs, hk, hv, hqs, rfl⟩ := hps
    have hkey := (finds_expr key hwf.1.1 hk).pass
    rw [Source.fieldBlocks, Source.fieldLayouts, sides_append, Source.Field.blocks, sides_append]
    have hvalue := finds_expr value hwf.1.2 hv
    exact (hkey.node.row hvalue.node).node.row (finds_properties fs hwf.2 hqs)

theorem finds_function : ∀ (func : Source.Function) {tags : List Tag} {method : Bool}
    {ty : Option Ty} {f : Target.Function}, func.WellFormed →
    LoweredFunction ⟨false, false, comments⟩ p tags method ty func f →
    Finds p (Placed (sides func.blocks) func.parts) (Checker.function f)
  | .mk params body, _, _, ty, _, hwf, hf => by
    obtain ⟨ps, out, -, hout, rfl⟩ := hf
    rw [Source.Function.blocks, Source.Function.parts, ← List.nil_append (sides _)]
    have hparams : Finds p (Placed [] (params.map Source.Param.layout)) fun c => c :=
      .skip fun c => ⟨rfl, rfl⟩
    exact hparams.row (finds_block body hwf.2 hout).function

theorem finds_stmt : ∀ (s : Source.Stmt) {top : Bool} {tags : List Tag} {t : Stmt},
    s.WellFormed → LoweredStmt ⟨false, false, comments⟩ p top tags s t →
    Finds p (Placed (s.sides ++ sides s.blocks) [s.layout]) (Checker.stmt t)
  | .localDecl names init span, _, _, _, hwf, ht => by
    obtain ⟨ty, es, value, -, hes, hvalue, id, hid, rfl⟩ := ht
    have hinit := (finds_exprs init hwf.2 hes).mono fun _ => Filled.placed
    have hnames : Finds p (Placed [] (names.map Source.Name.layout)) fun c => c :=
      .skip fun c => ⟨rfl, rfl⟩
    have hall := hnames.row hinit
    have hbinding : Finds p (AtMostOneAt span) fun c => c.declareBinding ty (bindingOf names) :=
      .quiet (.inl rfl) fun c => Checker.declareBinding_eq ty c _
    cases value with
    | none =>
      rw [exprs_of_joinedNone hvalue] at hall
      exact hall.own hbinding
    | some v =>
      rw [← expr_of_joinedValues hvalue] at hall
      have hexpect : Finds p (AtMostOneAt span) fun c =>
          (c.expectDeclared v ty span).declareBinding ty (bindingOf names) := fun c _ =>
        (Adds.expectDeclared c v ty span).trans (.quiet (Checker.declareBinding_eq ..).1
          (Checker.declareBinding_eq ..).2 rfl) fun ms ns hms (hns : [] = ns) => by
            rwa [← hns, List.append_nil]
      intro c hc
      have hown := hall.own hexpect c hc
      rw [Checker.stmt, hc, get_of_get? hid]
      exact hown
  | .assign targets init span, _, _, _, hwf, ht => by
    obtain ⟨lhs, target, es, value, v, hlhs, htarget, hes, hvalue, hv, _, ⟨id, hid, rfl⟩, _, -,
      rfl⟩ := ht
    have hinit := finds_exprs init hwf.2.2.2.2 hes
    have htargets := finds_exprs targets hwf.2.2.1 hlhs
    rw [← expr_of_assignedValue hv hvalue] at hinit
    rw [← expr_of_joinedTargets htarget] at htargets
    have hboth := hinit.comp htargets fun _ _ => Filled.assign span
    by_cases hname : ∃ i name, target = .ident i name
    · obtain ⟨i, name, rfl⟩ := hname
      exact hboth.own (.expected v (fun c => (c.lookup? name).join) hid)
    · refine Finds.node fun c hc => ?_
      rw [Checker.stmt, Checker.expr_assign]
      · exact hboth c hc
      · rintro ⟨i, name, rfl, -⟩
        exact hname ⟨i, name, rfl⟩
  | .call call span, _, _, _, hwf, ht => by
    obtain ⟨e, he, _, -, rfl⟩ := ht
    exact (finds_expr call hwf.2 he).node.node
  | .functionDecl name isLocal func span, _, _, _, hwf, ht => by
    have hfunc : func.WellFormed := by
      cases isLocal <;> exact hwf.2
    have hname := Source.Stmt.isFunctionName_of_wellFormed hwf
    rcases Source.Expr.exists_of_isFunctionName hname with
      ⟨ident, _, rfl⟩ | ⟨base, indexer, member, _, rfl, hbase⟩
    · obtain ⟨_, f, -, hf, _, -, rfl⟩ := ht
      have hdeclare {a : Span} : Finds p (Placed [] [.node a []]) (Checker.declare ident none) :=
        .skip fun c => ⟨rfl, rfl⟩
      exact (hdeclare.row (finds_function func hfunc hf)).node
    · obtain ⟨_, object, _, f, _, -, hobject, ⟨_, -, rfl⟩, hf, ⟨_, -, rfl⟩, _, ⟨_, -, rfl⟩, _, -,
        rfl⟩ := ht
      have hmember {x : Layout} : Finds p (Placed [] [x]) fun c => c := .skip fun c => ⟨rfl, rfl⟩
      rw [Source.Stmt.blocks, Source.Expr.blocks, base.blocks_of_isPath hbase]
      refine Finds.node (hmember.row fun c hc => ?_)
      rw [Checker.stmt, Checker.expr_assign (by simp), Checker.expr]
      dsimp only
      rw [Checker.expr, expr_of_isPath base hbase hobject]
      exact finds_function func hfunc hf c hc
  | .returnStmt values span, _, _, _, hwf, ht => by
    obtain ⟨es, value, hes, hvalue, ht⟩ := ht
    have hvalues := finds_exprs values hwf hes
    obtain ⟨v, -, rfl, _, -, rfl⟩ | ⟨-, _, -, rfl⟩ := ht
    · rw [← expr_of_joinedValues hvalue] at hvalues
      exact (hvalues.mono fun _ => Filled.placed).node
    · cases value with
      | none =>
        rw [exprs_of_joinedNone hvalue] at hvalues
        exact (hvalues.mono fun _ => Filled.placed).node
      | some v =>
        obtain ⟨hne, hid⟩ := get?_of_joinedValues hes hvalue
        rw [← expr_of_joinedValues hvalue] at hvalues
        exact (hvalues.comp (.expected v Checker.returnType? hid) fun _ _ => Filled.own hne).node
  | .ifStmt cond thenBlock clauses elseBlock span, _, _, _, hwf, ht => by
    obtain ⟨c, body, last, branch, hc, hbody, hlast, hbranch, _, -, rfl⟩ := ht
    have helse := finds_else elseBlock hwf.2.2.2 hlast
    have hthen := (finds_block thenBlock hwf.2.1 hbody).nested
    rw [Source.Stmt.blocks, sides_append, sides_append, sides_append]
    exact ((finds_expr cond hwf.1 hc).node.row
      (hthen.row (finds_clauses clauses hwf.2.2.1 hbranch helse))).node
  | .whileLoop cond block span, _, _, _, hwf, ht => by
    obtain ⟨c, body, hc, hbody, _, -, rfl⟩ := ht
    rw [Source.Stmt.blocks, sides_append]
    exact ((finds_expr cond hwf.1 hc).node.row (finds_block block hwf.2 hbody).nested).node
  | .forNumeric var start stop step block span, _, _, _, hwf, ht => by
    obtain ⟨first, last, amount, body, hfirst, hlast, hamount, hbody, counter, counter', test,
      update, ⟨_, -, rfl⟩, ⟨_, -, rfl⟩, ⟨_, -, rfl⟩, hupdate, _, -, rfl⟩ := ht
    have hstep : Finds p (Placed (sides (Source.stepBlocks step)) (Source.stepLayouts step))
        (Checker.expr update) := by
      cases step with
      | none =>
        cases hamount
        obtain ⟨_, -, rfl⟩ := hupdate
        exact .skip fun c => ⟨rfl, rfl⟩
      | some step =>
        obtain ⟨a, ha, rfl⟩ := hamount
        obtain ⟨_, -, rfl⟩ := hupdate
        exact (finds_expr step hwf.2.2.1 ha).node
    have hvar : Finds p (Placed [] [var.layout]) fun c => c := .skip fun c => ⟨rfl, rfl⟩
    have hdeclare : Finds p (Placed [] []) (Checker.declare var.text none) :=
      .skip fun c => ⟨rfl, rfl⟩
    have hstart := (finds_expr start hwf.1 hfirst).node (a := start.span)
    have hstop := (finds_expr stop hwf.2.1 hlast).node (a := stop.span)
    have hblock := (finds_block block hwf.2.2.2 hbody).nested
    have hloop := (hstart.row (hdeclare.row (hstop.row (hstep.row hblock)))).nested
    rw [Source.Stmt.blocks, sides_append, sides_append, sides_append]
    exact (hvar.row hloop).node
  | .forGeneric vars iterators block span, _, _, _, hwf, ht => by
    obtain ⟨iterable, body, hiterable, hbody, _, -, rfl⟩ := ht
    have hiterators := finds_iterable iterators hwf.2.1 hwf.2.2.1 hiterable
    have hvars : Finds p (Placed [] (vars.map Source.Name.layout)) fun c => c :=
      .skip fun c => ⟨rfl, rfl⟩
    have hdeclare : Finds p (Placed [] []) fun c =>
        c.declareBinding none (.array (vars.map Source.Name.text)) :=
      .skip fun c => Checker.declareBinding_eq none c _
    have hloop := (hdeclare.row (finds_block block hwf.2.2.2 hbody).nested).nested
    rw [Source.Stmt.blocks, sides_append, Source.Stmt.layout, Source.Stmt.parts, List.append_assoc]
    exact (hvars.row (hiterators.row hloop)).node
  | .breakStmt span, _, _, _, _, ht => by
    obtain ⟨_, -, rfl⟩ := ht
    exact .skip fun c => ⟨rfl, rfl⟩

theorem finds_else : ∀ (o : Option Source.Block) {last : Target.Else}, Source.WellFormedElse o →
    LoweredElse ⟨false, false, comments⟩ p o last →
    Finds p (Placed (sides (Source.elseBlocks o)) (Source.elseLayouts o)) (Checker.elseBranch last)
  | none, _, _, hlast => by
    cases hlast
    exact .skip fun c => ⟨rfl, rfl⟩
  | some block, _, hwf, hlast => by
    obtain ⟨out, hout, rfl⟩ := hlast
    exact (finds_block block hwf hout).nested

theorem finds_iterable : ∀ (es : List Source.Expr) {tags : List Tag} {span : Span} {a : Expr},
    es ≠ [] → Source.WellFormedExprs es → LoweredIterable ⟨false, false, comments⟩ p tags span es a →
    Finds p (Placed (sides (exprBlocks es)) (exprLayouts es)) (Checker.expr a)
  | [], _, _, _, hne, _, _ => absurd rfl hne
  | [e], _, _, _, _, hwf, ha => by
    have he := finds_expr e hwf.1 ha
    simpa [exprBlocks, exprLayouts] using he.node

theorem finds_clauses : ∀ (cs : List Source.Clause) {tags : List Tag} {last branch : Target.Else}
    {B : List (Span × Span)} {ys : List Layout}, Source.WellFormedClauses cs →
    LoweredClauses ⟨false, false, comments⟩ p tags last cs branch →
    Finds p (Placed B ys) (Checker.elseBranch last) →
    Finds p (Placed (sides (Source.clauseBlocks cs) ++ B) (Source.clauseLayouts cs ++ ys))
      (Checker.elseBranch branch)
  | [], _, _, _, _, _, _, hcs, hlast => by
    cases hcs
    exact hlast
  | .mk cond block :: cs, _, _, _, _, _, hwf, hcs, hlast => by
    obtain ⟨c, body, rest, _, hc, hbody, hrest, ⟨_, -, rfl⟩, rfl⟩ := hcs
    have hblock := (finds_block block hwf.1.2 hbody).nested
    rw [Source.clauseBlocks, Source.clauseLayouts, Source.Clause.blocks, Source.Clause.parts,
      sides_append, sides_append, List.append_assoc, List.append_assoc, List.append_assoc]
    exact (finds_expr cond hwf.1.1 hc).node.row
      (hblock.row (finds_clauses cs hwf.2 hrest hlast))

theorem finds_stmts : ∀ (ss : List Source.Stmt) {top : Bool} {floor : Nat} {ts : List Stmt},
    Source.WellFormedStmts ss →
    LoweredStmts ⟨false, false, comments⟩ p top (fun _ => true) floor ss ts →
    Finds p (Placed (ss.flatMap fun s => s.sides ++ sides s.blocks) (Source.stmtLayouts ss))
      (Checker.block ts)
  | [], _, _, _, _, hts => by
    cases hts
    exact .skip fun c => ⟨rfl, rfl⟩
  | s :: ss, _, _, _, hwf, hts => by
    rw [LoweredStmts, if_pos rfl] at hts
    obtain ⟨u, us, hu, hus, rfl⟩ := hts
    rw [Source.stmtLayouts, List.flatMap_cons]
    exact (finds_stmt s hwf.2.1 hu).row (finds_stmts ss hwf.2.2 hus)

theorem finds_block : ∀ (b : Source.Block) {top : Bool} {out : List Stmt}, b.WellFormed →
    LoweredBlock ⟨false, false, comments⟩ p top b out →
    Finds p (Placed (sides b.blocks) [b.layout]) (Checker.block out)
  | .mk start stmts, top, _, hwf, hout => by
    rw [loweredBlock_plain (shapeOf_plain top start stmts)] at hout
    refine ((finds_stmts stmts hwf hout).mono fun ms hms => hms.congr fun x => ?_).thin .block
    exact (Source.mem_sides_block start stmts x).symm

end

end Trees

/-! ### Whole sources -/

/-- No finding starts inside another, and no assignment has findings on both of its sides. -/
structure Untangled (A : List (Span × Span)) (ms : List Mismatch) : Prop where
  apart : ∀ m ∈ ms, ∀ n ∈ ms, ¬(n.span.start < m.span.start ∧ m.span.start < n.span.stop)
  oneSided : ∀ m ∈ ms, ∀ n ∈ ms, ¬Crossed A m n

/-- Of two findings at different places, one is made before the other. -/
theorem Lies.follows {A : List (Span × Span)} {lo hi : Nat} {ms : List Mismatch}
    (h : Lies A lo hi ms) {R : Mismatch → Mismatch → Prop} (hR : ms.Pairwise R) {m n : Mismatch}
    (hm : m ∈ ms) (hn : n ∈ ms) (hne : m.span.start ≠ n.span.start) :
    Follows A m n ∧ R m n ∨ Follows A n m ∧ R n m := by
  have hsymm : Std.Symm fun m n => Follows A m n ∧ R m n ∨ Follows A n m ∧ R n m :=
    ⟨fun _ _ => Or.symm⟩
  have hboth := (h.order.and hR).imp fun {m n} hmn =>
    (Or.inl hmn : Follows A m n ∧ R m n ∨ Follows A n m ∧ R n m)
  refine hboth.forall hm hn ?_
  rintro rfl
  exact hne rfl

theorem Lies.in_order_iff {A : List (Span × Span)} {lo hi : Nat} {ms : List Mismatch}
    (h : Lies A lo hi ms) :
    (ms.Pairwise fun m n => m.span.start ≤ n.span.start) ↔ Untangled A ms := by
  constructor
  · intro horder
    refine ⟨fun m hm n hn hinside => ?_, fun m hm n hn hcrossed => ?_⟩
    · rcases h.follows horder hm hn hinside.1.ne' with ⟨-, hle⟩ | ⟨⟨hfollows, -⟩, hle⟩
      · exact hinside.1.not_ge hle
      · rcases hfollows with hbehind | haround | ⟨x, hx, hxn, hxm⟩
        · omega
        · rw [Span.encloses_iff] at haround
          omega
        · have := h.sides x hx
          have := h.within m hm
          rw [Span.encloses_iff] at hxn hxm
          omega
    · obtain ⟨x, hx, hxm, hxn⟩ := id hcrossed
      have := h.sides x hx
      have := h.within n hn
      rw [Span.encloses_iff] at hxm hxn
      rcases h.follows horder hm hn (by omega) with ⟨-, hle⟩ | ⟨⟨-, hnot⟩, -⟩
      · omega
      · exact hnot hcrossed
  · intro huntangled
    refine h.order.imp_of_mem fun {m n} hm hn hfollows => ?_
    have := h.within m hm
    rcases hfollows.1 with hbehind | haround | hcrossed
    · omega
    · have := huntangled.apart m hm n hn
      rw [Span.encloses_iff] at haround
      omega
    · exact absurd hcrossed (huntangled.oneSided m hm n hn)

/-- **Findings are in the order of the source exactly if they are not tangled**: a finding that
starts inside another one, or in a target of an assignment that has one in a value, breaks it. -/
theorem check_in_order_iff {source : String} {chunk : Source.Chunk} {st st' : Lowering.State}
    {out : List Stmt} (hparse : Source.parse source = .ok chunk)
    (hrun : Lowering.lowerChunk false false chunk st = .ok out st') :
    ((check out st'.provenance).Pairwise fun m n => m.span.start ≤ n.span.start) ↔
      Untangled (sides chunk.body.blocks) (check out st'.provenance) := by
  have hlowered : Lowering.lowerBlock ⟨false, false, chunk.comments⟩ true chunk.body .initial =
      .ok out st' := hrun
  have hbuilt : Lowering.LoweredBlock ⟨false, false, chunk.comments⟩ st'.provenance true chunk.body
      out := (Lowering.lowered_lowerBlock chunk.body _ out st' hlowered).2 fun _ _ _ => rfl
  obtain ⟨hi, hlaid⟩ := Source.exists_laid_marks hparse
  obtain ⟨-, ms, hms, hplaced⟩ := finds_block chunk.body (Source.wellFormed_of_parse hparse) hbuilt
    (.initial st'.provenance) rfl
  have hcheck : check out st'.provenance = ms := hms
  rw [hcheck]
  exact (hplaced (Marks source) 0 hi (Source.laidIn_singleton.2 hlaid)).in_order_iff

/-- Two declarations and an assignment whose values do not fit. -/
def misfitsInARow : String :=
  "-- @type number\nlocal a = 'x'\n-- @type string\nlocal b = 1\na = b"

theorem check_in_order_misfitsInARow :
    ∃ chunk out st', Source.parse misfitsInARow = .ok chunk ∧
      Lowering.lowerChunk false false chunk .initial = .ok out st' ∧
      (check out st'.provenance).map Mismatch.message =
        ["2:0 Type 'string' is not assignable to type 'number'.",
          "4:0 Type 'number' is not assignable to type 'string'.",
          "5:0 Type 'string' is not assignable to type 'number'."] ∧
      Untangled (sides chunk.body.blocks) (check out st'.provenance) := by
  have hfindings : Lowering.inspect? false false (fun out st =>
      ((check out st.provenance).map Mismatch.message,
        (check out st.provenance).map fun m => m.span.start)) misfitsInARow =
      some (["2:0 Type 'string' is not assignable to type 'number'.",
        "4:0 Type 'number' is not assignable to type 'string'.",
        "5:0 Type 'string' is not assignable to type 'number'."], [16, 46, 58]) := by decide +kernel
  obtain ⟨chunk, out, st', hparse, hrun, hview⟩ := Lowering.exists_of_inspect? hfindings
  obtain ⟨hmessages, hstarts⟩ := Prod.mk.inj hview
  refine ⟨chunk, out, st', hparse, hrun, hmessages, (check_in_order_iff hparse hrun).1 ?_⟩
  rw [← List.pairwise_map (R := (· ≤ ·)), hstarts]
  decide

/-- A declaration whose value is a comparison with a function, in which there is another one. -/
def misfitInside : String :=
  "-- @type number\nlocal x = (function()\n  -- @type string\n  local y = 1\nend) == 1"

/-- The finding on line 2 is made after the one on line 4. -/
theorem check_not_in_order_misfitInside :
    ∃ chunk out st', Source.parse misfitInside = .ok chunk ∧
      Lowering.lowerChunk false false chunk .initial = .ok out st' ∧
      (check out st'.provenance).map Mismatch.message =
        ["4:2 Type 'number' is not assignable to type 'string'.",
          "2:0 Type 'boolean' is not assignable to type 'number'."] ∧
      ¬(check out st'.provenance).Pairwise fun m n => m.span.start ≤ n.span.start := by
  have hfindings : Lowering.inspect? false false (fun out st =>
      ((check out st.provenance).map Mismatch.message,
        (check out st.provenance).map fun m => m.span.start)) misfitInside =
      some (["4:2 Type 'number' is not assignable to type 'string'.",
        "2:0 Type 'boolean' is not assignable to type 'number'."], [58, 16]) := by decide +kernel
  obtain ⟨chunk, out, st', hparse, hrun, hview⟩ := Lowering.exists_of_inspect? hfindings
  obtain ⟨hmessages, hstarts⟩ := Prod.mk.inj hview
  refine ⟨chunk, out, st', hparse, hrun, hmessages, ?_⟩
  rw [← List.pairwise_map (R := (· ≤ ·)), hstarts]
  decide

end LuaTranspiler
