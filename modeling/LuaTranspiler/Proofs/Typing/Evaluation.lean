import LuaTranspiler.Proofs.Target.Boundaries
import LuaTranspiler.Proofs.Typing.Values
import LuaTranspiler.Typing.Inference

/-!
# What expressions evaluate to

An expression without assignments has a set of values that it may evaluate to, given the values of
the names. Little is laid down: literals stand for their values, operators other than a sum for any
value of a fixed sort, arrays for lists, and what is called, looked up or built anew for anything.

* `Meanings`: values with those that literals stand for
* `Meanings.results`: the values that an expression may evaluate to
* `Meanings.Agrees`: typed names hold values of their types
* `results_subset_of_infer?`: an inferred type has all of these values
-/

namespace LuaTranspiler

open Target

universe u

/-- Values of each sort, among them those that literals stand for. -/
structure Meanings (V : Type u) extends Sorts V where
  ofNumber : Binary64 → V
  ofString : String → V
  ofBool : Bool → V
  ofNumber_mem : ∀ x, ofNumber x ∈ number
  ofString_mem : ∀ s, ofString s ∈ string
  ofBool_mem : ∀ b, ofBool b ∈ boolean

/-- Literals of the small language stand for themselves. -/
def Value.meanings : Meanings Value where
  toSorts := sorts
  ofNumber := number
  ofString := string
  ofBool := boolean
  ofNumber_mem := Set.mem_range_self
  ofString_mem := Set.mem_range_self
  ofBool_mem := Set.mem_range_self

/-- Whether an expression itself changes a variable. -/
def Target.Expr.isChange : Expr → Bool
  | .assign .. | .increment .. => true
  | _ => false

/-- Whether neither the expression nor any expression inside it changes a variable. -/
def Target.Expr.Changeless (e : Expr) : Prop :=
  e.Everywhere (fun e => e.isChange = false) fun _ => True

namespace Meanings

variable {V : Type u} (m : Meanings V)

/-! ### Evaluation -/

/-- What a sum may be: a number for two numbers, a string as soon as one side is a string. -/
def sums (a b : V) : Set V :=
  {v | (a ∈ m.number → b ∈ m.number → v ∈ m.number) ∧
    (a ∈ m.string ∨ b ∈ m.string → v ∈ m.string)}

/-- What an operator may give between operands from two sets. -/
def binaryResults (lhs rhs : Set V) : BinaryOp → Set V
  | .add => {v | ∃ a ∈ lhs, ∃ b ∈ rhs, v ∈ m.sums a b}
  | .sub | .mul | .div | .mod | .pow => m.number
  | .strictEq | .strictNotEq | .less | .lessEq | .greater | .greaterEq => m.boolean
  | .and | .or => Set.univ

/-- What an operator may give before its operand. -/
def unaryResults : UnaryOp → Set V
  | .not => m.boolean
  | .neg | .bitNot => m.number

variable (env : String → V)

mutual

/-- The values that an expression may evaluate to where the names have the values `env`. -/
def results : Expr → Set V
  | .ident _ name => {env name}
  | .number _ x => {m.ofNumber x}
  | .string _ s => {m.ofString s}
  | .bool _ b => {m.ofBool b}
  | .binary _ lhs op rhs => m.binaryResults (results lhs) (results rhs) op
  | .unary _ op _ => m.unaryResults op
  | .array _ elements => Set.image m.list (listResults elements)
  | .member .. | .element .. | .call .. | .object .. | .function .. | .spread .. | .assign ..
  | .increment .. => Set.univ

/-- The lists that the elements of an array may evaluate to. A spread gives any number of values. -/
def listResults : List Expr → Set (List V)
  | [] => {[]}
  | .spread _ _ :: es => Set.image2 (· ++ ·) Set.univ (listResults es)
  | e :: es => Set.image2 List.cons (results e) (listResults es)

end

/-- Names with a declared type hold values of that type, and `undefined` without a declaration holds
an undefined one. -/
structure Agrees (scopes : Scopes) : Prop where
  typed : ∀ name ty, scopes.lookup? name = some (some ty) → env name ∈ m.values ty
  undefined : scopes.lookup? "undefined" = none → env "undefined" ∈ m.undefined

variable {m env}

theorem listResults_cons {e : Expr} (h : ∀ id value, e ≠ .spread id value) (es : List Expr) :
    m.listResults env (e :: es) =
      Set.image2 List.cons (m.results env e) (m.listResults env es) := by
  rw [listResults]
  exact h

/-! ### Every expression evaluates to something -/

theorem sums_nonempty (a b : V) : (m.sums a b).Nonempty := by
  obtain ⟨⟨n, hn⟩, ⟨t, ht⟩, -⟩ : m.number.Nonempty ∧ m.string.Nonempty ∧ m.boolean.Nonempty ∧
      m.undefined.Nonempty := by simpa using m.nonempty
  by_cases hstring : a ∈ m.string ∨ b ∈ m.string
  · have hnumber : ∀ v ∈ m.string, v ∉ m.number := fun v hv hn => (m.apart.1 v hn).1 hv
    exact ⟨t, fun ha hb => (hstring.elim (hnumber a · ha) (hnumber b · hb)).elim, fun _ => ht⟩
  · exact ⟨n, fun _ _ => hn, fun h => (hstring h).elim⟩

theorem binaryResults_nonempty {lhs rhs : Set V} (hlhs : lhs.Nonempty) (hrhs : rhs.Nonempty)
    (op : BinaryOp) : (m.binaryResults lhs rhs op).Nonempty := by
  cases op with
  | add =>
    obtain ⟨a, ha⟩ := hlhs
    obtain ⟨b, hb⟩ := hrhs
    exact (sums_nonempty a b).imp fun v hv => ⟨a, ha, b, hb, hv⟩
  | sub | mul | div | mod | pow => exact m.nonempty m.number (by simp)
  | strictEq | strictNotEq | less | lessEq | greater | greaterEq =>
    exact m.nonempty m.boolean (by simp)
  | and | or => exact ⟨m.extra, trivial⟩

mutual

theorem results_nonempty : ∀ e : Expr, (m.results env e).Nonempty
  | .ident .. | .number .. | .string .. | .bool .. => Set.singleton_nonempty _
  | .binary _ lhs op rhs =>
    binaryResults_nonempty (results_nonempty lhs) (results_nonempty rhs) op
  | .unary _ .not _ => m.nonempty m.boolean (by simp)
  | .unary _ .neg _ | .unary _ .bitNot _ => m.nonempty m.number (by simp)
  | .array _ elements => (listResults_nonempty elements).image _
  | .member .. | .element .. | .call .. | .object .. | .function .. | .spread .. | .assign ..
  | .increment .. => ⟨m.extra, trivial⟩

theorem listResults_nonempty : ∀ es : List Expr, (m.listResults env es).Nonempty
  | [] => Set.singleton_nonempty _
  | e :: es => by
    by_cases hspread : ∃ id value, e = .spread id value
    · obtain ⟨id, value, rfl⟩ := hspread
      rw [listResults]
      exact Set.Nonempty.image2 ⟨[], trivial⟩ (listResults_nonempty es)
    · rw [listResults_cons fun id value h => hspread ⟨id, value, h⟩]
      exact (results_nonempty e).image2 (listResults_nonempty es)

end

/-! ### Inferred types -/

theorem sums_subset {a b : Ty} {ty : Ty} (h : sumType? a b = some ty) {v w : V}
    (hv : v ∈ m.values a) (hw : w ∈ m.values b) : m.sums v w ⊆ m.values ty := by
  unfold sumType? at h
  split at h <;> cases h
  · exact fun _ hsum => hsum.1 hv hw
  · exact fun _ hsum => hsum.2 (.inl hv)
  · exact fun _ hsum => hsum.2 (.inr hw)

theorem mem_of_identType? {scopes : Scopes} (henv : m.Agrees env scopes) {name : String} {ty : Ty}
    (h : identType? scopes name = some ty) : env name ∈ m.values ty := by
  unfold identType? at h
  split at h
  next declared hname => exact henv.typed name ty (h ▸ hname)
  next hname =>
    split at h <;> cases h
    next hundefined =>
      subst hundefined
      exact henv.undefined hname

mutual

theorem results_subset {scopes : Scopes} (henv : m.Agrees env scopes) :
    ∀ e : Expr, e.Changeless → ∀ {ty : Ty}, infer? scopes e = some ty →
      m.results env e ⊆ m.values ty
  | .number _ x, _, _, h => by
    cases h
    exact Set.singleton_subset_iff.2 (m.ofNumber_mem x)
  | .string _ s, _, _, h => by
    cases h
    exact Set.singleton_subset_iff.2 (m.ofString_mem s)
  | .bool _ b, _, _, h => by
    cases h
    exact Set.singleton_subset_iff.2 (m.ofBool_mem b)
  | .ident _ name, _, _, h => Set.singleton_subset_iff.2 (mem_of_identType? henv h)
  | .binary _ lhs op rhs, he, _, h => by
    cases op with
    | add =>
      simp only [infer?] at h
      split at h
      next a b ha hb =>
        rintro v ⟨x, hx, y, hy, hv⟩
        have hxa := results_subset henv lhs he.2.1 ha hx
        have hyb := results_subset henv rhs he.2.2 hb hy
        exact sums_subset h hxa hyb hv
      next => cases h
    | sub | mul | div | mod | pow | strictEq | strictNotEq | less | lessEq | greater | greaterEq =>
      cases h
      exact subset_rfl
    | and | or => cases h
  | .unary _ .not _, _, _, h | .unary _ .neg _, _, _, h | .unary _ .bitNot _, _, _, h => by
    cases h
    exact subset_rfl
  | .array _ elements, he, _, h => by
    rw [infer?] at h
    obtain ⟨ts, hts, rfl⟩ := Option.map_eq_some_iff.1 h
    exact Set.image_mono (listResults_subset henv elements he.2 hts)
  | .increment .., he, _, _ | .assign .., he, _, _ => nomatch he.1
  | .member .., _, _, h | .element .., _, _, h | .spread .., _, _, h | .object .., _, _, h
  | .call .., _, _, h | .function .., _, _, h => by cases h

theorem listResults_subset {scopes : Scopes} (henv : m.Agrees env scopes) :
    ∀ es : List Expr, exprsEverywhere (fun e => e.isChange = false) (fun _ => True) es →
      ∀ {ts : List Ty}, inferAll? scopes es = some ts → m.listResults env es ⊆ m.eachValues ts
  | [], _, _, h => by
    cases h
    exact subset_rfl
  | e :: es, hes, _, h => by
    rw [inferAll?] at h
    split at h
    next t ts ht hts =>
      cases h
      have hspread : ∀ id value, e ≠ .spread id value := by
        rintro id value rfl
        cases ht
      rw [listResults_cons hspread]
      exact Set.image2_subset (results_subset henv e hes.1 ht)
        (listResults_subset henv es hes.2 hts)
    next => cases h

end

end Meanings

/-- **Inferred types are right.** Where typed names hold values of their types, an expression
without assignments evaluates to something, and all that it may evaluate to is of the type
inferred. -/
theorem results_subset_of_infer? {V : Type u} (m : Meanings V) {env : String → V} {scopes : Scopes}
    (henv : m.Agrees env scopes) {e : Expr} (he : e.Changeless) {ty : Ty}
    (h : infer? scopes e = some ty) :
    (m.results env e).Nonempty ∧ ∀ v ∈ m.results env e, v ∈ m.values ty :=
  ⟨Meanings.results_nonempty e, Meanings.results_subset henv e he h⟩

/-- Inside, `x` is a number or a string, around it `x` is declared as a number. -/
def shadowedScopes : Scopes :=
  [[("x", some (.union [.number, .string]))], [("y", some .number), ("x", some .number)]]

/-- The values of `x`, of `y` and of `undefined`. -/
def shadowedValues (name : String) : Value :=
  if name = "x" then .string "a" else if name = "y" then .number .zero else .undefined

/-- The array `[x + "b", y + y, !f(x), undefined]`. -/
def mixedArray : Expr :=
  .array 0 [.binary 1 (.ident 2 "x") .add (.string 3 "b"),
    .binary 4 (.ident 5 "y") .add (.ident 6 "y"),
    .unary 7 .not (.call 8 (.ident 9 "f") [.ident 10 "x"]), .ident 11 "undefined"]

/-- The inner declaration of `x` counts, and only its second operand makes the first sum a
string. -/
theorem results_subset_mixedArray :
    Value.meanings.Agrees shadowedValues shadowedScopes ∧ mixedArray.Changeless ∧
      infer? shadowedScopes mixedArray = some (.tuple [.string, .number, .boolean, .undefined]) ∧
      ∀ v ∈ Value.meanings.results shadowedValues mixedArray,
        v ∈ Value.meanings.values (.tuple [.string, .number, .boolean, .undefined]) := by
  have hagrees : Value.meanings.Agrees shadowedValues shadowedScopes := by
    refine ⟨fun name ty h => ?_, fun _ => rfl⟩
    by_cases hx : name = "x"
    · subst hx
      cases h
      exact Sorts.mem_union.2 ⟨.string, by simp, "a", rfl⟩
    · by_cases hy : name = "y"
      · subst hy
        cases h
        exact ⟨.zero, rfl⟩
      · have hnone : shadowedScopes.lookup? name = none := by
          simp [shadowedScopes, Scopes.lookup?, List.lookup_cons, beq_eq_false_iff_ne.2 hx,
            beq_eq_false_iff_ne.2 hy]
        rw [hnone] at h
        cases h
  have hchangeless : mixedArray.Changeless := by
    simp [mixedArray, Expr.Changeless, Expr.Everywhere, exprsEverywhere, Expr.isChange]
  have hinfer : infer? shadowedScopes mixedArray =
      some (.tuple [.string, .number, .boolean, .undefined]) := by decide
  exact ⟨hagrees, hchangeless, hinfer,
    (results_subset_of_infer? Value.meanings hagrees hchangeless hinfer).2⟩

end LuaTranspiler
