import LuaTranspiler.Proofs.Source.Shape

/-!
# Which lists of parameters are read

By the grammar of Lua a list of parameters is empty, or names with commas between them, or such
names, a comma and `...`, or `...` alone. The loop that reads parameters looks for the closing
parenthesis before each of them, also behind a comma. It therefore takes all these lists, and
besides them the lists of names with one more comma at the end.

* `parameters`: the part of a function from the opening to the closing parenthesis
* `NameList`, `ParameterList`: the grammar of Lua
* `Taken`: what the loop takes, one parameter at a time
* `parameters_accepts_iff`: which tokens are read as parameters, and which parameters they are
-/

namespace LuaTranspiler.Source

open LuaTranspiler.Parser

/-- The parameters of a function in their parentheses, and the closing one of these. -/
def parameters : Parser (List Param × Token) := do
  let _ ← expect .leftParen
  let params ← many param?
  let close ← expect .rightParen
  return (params, close)

/-- A function is its parameters, a block that opens behind them, and the keyword `end`. -/
theorem Grammar.functionBody_eq (g : Grammar) : g.functionBody = (do
    let (params, close) ← parameters
    let body ← g.block close.span.stop
    let _ ← expect .kwEnd
    return .mk params body) := by
  simp only [Grammar.functionBody, parameters, bind_assoc, pure_bind]

/-! ### The grammar of Lua -/

/-- One or more names with commas between them, and the parameters that they are. -/
inductive NameList : List Token → List Param → Prop
  | single {t : Token} : t.kind = .name → NameList [t] [.named t.literal t.span]
  | cons {t comma : Token} {ts : List Token} {ps : List Param} :
      t.kind = .name → comma.kind = .comma → NameList ts ps →
      NameList (t :: comma :: ts) (.named t.literal t.span :: ps)

/-- The tokens between the parentheses of a list of parameters, and the parameters that they are. -/
inductive ParameterList : List Token → List Param → Prop
  | empty : ParameterList [] []
  | names {ts : List Token} {ps : List Param} : NameList ts ps → ParameterList ts ps
  | namesVararg {ts : List Token} {ps : List Param} {comma dots : Token} :
      NameList ts ps → comma.kind = .comma → dots.kind = .ellipsis →
      ParameterList (ts ++ [comma, dots]) (ps ++ [.vararg dots.span])
  | vararg {dots : Token} : dots.kind = .ellipsis → ParameterList [dots] [.vararg dots.span]

/-- Names with a comma behind the last of them, which the grammar has no rule for. -/
def CommaBehind (ts : List Token) (ps : List Param) : Prop :=
  ∃ names comma, ts = names ++ [comma] ∧ comma.kind = .comma ∧ NameList names ps

theorem NameList.getLast?_kind {ts : List Token} {ps : List Param} (h : NameList ts ps) :
    ts.getLast?.map Token.kind = some .name := by
  induction h with
  | single ht => simpa using ht
  | @cons t comma ts ps _ _ hts ih =>
    cases hts <;> simpa using ih

/-- No list of the grammar ends with a comma. -/
theorem ParameterList.not_commaBehind {ts : List Token} {ps qs : List Param}
    (h : ParameterList ts ps) : ¬CommaBehind ts qs := by
  rintro ⟨names, comma, hts, hcomma, -⟩
  have hlast : ts.getLast?.map Token.kind = some .comma := by simp [hts, hcomma]
  cases h with
  | empty => simp at hlast
  | names hnames => simp [hnames.getLast?_kind] at hlast
  | namesVararg _ _ hdots => simp [hdots] at hlast
  | vararg hdots => simp [hdots] at hlast

/-! ### What the loop takes -/

/-- The tokens that the loop takes before the closing parenthesis: names, each with a comma, and
last perhaps a name without one or `...`. -/
inductive Taken : List Token → List Param → Prop
  | nil : Taken [] []
  | dots {t : Token} : t.kind = .ellipsis → Taken [t] [.vararg t.span]
  | last {t : Token} : t.kind = .name → Taken [t] [.named t.literal t.span]
  | next {t comma : Token} {ts : List Token} {ps : List Param} :
      t.kind = .name → comma.kind = .comma → Taken ts ps →
      Taken (t :: comma :: ts) (.named t.literal t.span :: ps)

section Taken

variable {ts us : List Token} {ps qs : List Param} {comma : Token}

theorem NameList.taken (h : NameList ts ps) : Taken ts ps := by
  induction h with
  | single ht => exact .last ht
  | cons ht hcomma _ ih => exact .next ht hcomma ih

theorem NameList.taken_append (h : NameList ts ps) (hcomma : comma.kind = .comma)
    (hus : Taken us qs) : Taken (ts ++ comma :: us) (ps ++ qs) := by
  induction h with
  | single ht => exact .next ht hcomma hus
  | cons ht hcomma' _ ih => exact .next ht hcomma' ih

/-- The loop takes the lists of the grammar, and names with a comma behind them. -/
theorem taken_iff : Taken ts ps ↔ ParameterList ts ps ∨ CommaBehind ts ps := by
  constructor
  · intro h
    induction h with
    | nil => exact .inl .empty
    | dots ht => exact .inl (.vararg ht)
    | last ht => exact .inl (.names (.single ht))
    | @next t comma ts ps ht hcomma _ ih =>
      -- before nothing at all, a name and a comma are a list with a comma behind it
      rcases ih with hlist | ⟨names, comma', rfl, hcomma', hnames⟩
      · cases hlist with
        | empty => exact .inr ⟨[t], comma, rfl, hcomma, .single ht⟩
        | names hnames => exact .inl (.names (.cons ht hcomma hnames))
        | namesVararg hnames hcomma' hdots =>
          exact .inl (.namesVararg (.cons ht hcomma hnames) hcomma' hdots)
        | vararg hdots => exact .inl (.namesVararg (.single ht) hcomma hdots)
      · exact .inr ⟨t :: comma :: names, comma', rfl, hcomma', .cons ht hcomma hnames⟩
  · rintro (hlist | ⟨names, comma, rfl, hcomma, hnames⟩)
    · cases hlist with
      | empty => exact .nil
      | names hnames => exact hnames.taken
      | namesVararg hnames hcomma hdots => exact hnames.taken_append hcomma (.dots hdots)
      | vararg hdots => exact .dots hdots
    · simpa using hnames.taken_append hcomma .nil

end Taken

/-! ### One parameter -/

theorem ensures_name {c : Cursor} : Ensures name c fun n c' =>
    ∃ t, n = ⟨t.literal, t.span⟩ ∧ t.kind = .name ∧ c.rest = t :: c'.rest :=
  ensures_expect.bind fun t _ ⟨hrest, _, hkind⟩ => ensures_pure ⟨t, rfl, hkind, hrest⟩

/-- What is read as one parameter, and what follows it. -/
theorem ensures_param? {c : Cursor} : Ensures param? c fun o c' =>
    (o = none ∧ c' = c ∧ Before .rightParen c) ∨
      (∃ t, o = some (.vararg t.span) ∧ t.kind = .ellipsis ∧ c.rest = t :: c'.rest ∧
        Before .rightParen c') ∨
      (∃ t, o = some (.named t.literal t.span) ∧ t.kind = .name ∧ c.rest = t :: c'.rest ∧
        Before .rightParen c') ∨
      ∃ t comma, o = some (.named t.literal t.span) ∧ t.kind = .name ∧ comma.kind = .comma ∧
        c.rest = t :: comma :: c'.rest := by
  refine ensures_check fun closed hclosed => ?_
  split
  next h => exact ensures_pure (.inl ⟨rfl, rfl, hclosed.1 h⟩)
  refine ensures_eat.bind ?_
  rintro _ c₁ (⟨rfl, rfl⟩ | ⟨t, rfl, hrest, -, hkind⟩)
  · refine ensures_name.bind ?_
    rintro _ c₂ ⟨t, rfl, hkind, hrest⟩
    refine ensures_eat.bind ?_
    rintro _ c₃ (⟨rfl, rfl⟩ | ⟨comma, rfl, hrest', -, hcomma⟩)
    · refine ensures_require_before fun hclose => ?_
      exact ensures_pure (.inr (.inr (.inl ⟨t, rfl, hkind, hrest, hclose⟩)))
    · exact ensures_pure (.inr (.inr (.inr ⟨t, comma, rfl, hkind, hcomma, hrest' ▸ hrest⟩)))
  · refine ensures_require_before fun hclose => ?_
    exact ensures_pure (.inr (.inl ⟨t, rfl, hkind, hrest, hclose⟩))

section Runs

variable {last : Span} {t comma close : Token} {rest : List Token}

attribute [local simp] param? check eat name expect require bind EStateM.bind pure EStateM.pure

theorem param?_close (hclose : close.kind = .rightParen) :
    param? ⟨last, close :: rest⟩ = .ok none ⟨last, close :: rest⟩ := by
  simp [hclose]

theorem param?_dots (ht : t.kind = .ellipsis) (hclose : close.kind = .rightParen) :
    param? ⟨last, t :: close :: rest⟩ = .ok (some (.vararg t.span)) ⟨t.span, close :: rest⟩ := by
  simp [ht, hclose]

theorem param?_last (ht : t.kind = .name) (hclose : close.kind = .rightParen) :
    param? ⟨last, t :: close :: rest⟩ =
      .ok (some (.named t.literal t.span)) ⟨t.span, close :: rest⟩ := by
  simp [ht, hclose]

theorem param?_comma (ht : t.kind = .name) (hcomma : comma.kind = .comma) :
    param? ⟨last, t :: comma :: rest⟩ =
      .ok (some (.named t.literal t.span)) ⟨comma.span, rest⟩ := by
  simp [ht, hcomma]

end Runs

/-! ### The loop -/

/-- Before the closing parenthesis the loop takes nothing. -/
theorem Taken.eq_nil {ts rest : List Token} {ps : List Param} (h : Taken ts ps)
    (hclose : (ts ++ rest).head?.map Token.kind = some .rightParen) : ts = [] ∧ ps = [] := by
  cases h <;> simp_all

/-- What a parameter takes before what the loop takes. -/
theorem Taken.of_param? {c c₁ : Cursor} {p : Param} {ts rest : List Token} {ps : List Param}
    (h : param? c = .ok (some p) c₁) (hrest : c₁.rest = ts ++ rest) (hts : Taken ts ps) :
    ∃ us, c.rest = us ++ rest ∧ Taken us (p :: ps) := by
  obtain ⟨hp, -⟩ | ⟨t, hp, ht, hc, hclose⟩ | ⟨t, hp, ht, hc, hclose⟩ |
      ⟨t, comma, hp, ht, hcomma, hc⟩ := ensures_param? _ _ h
  · cases hp
  · obtain rfl := Option.some.inj hp
    rw [Before, hrest] at hclose
    obtain ⟨rfl, rfl⟩ := hts.eq_nil hclose
    exact ⟨[t], by rw [hc, hrest]; rfl, .dots ht⟩
  · obtain rfl := Option.some.inj hp
    rw [Before, hrest] at hclose
    obtain ⟨rfl, rfl⟩ := hts.eq_nil hclose
    exact ⟨[t], by rw [hc, hrest]; rfl, .last ht⟩
  · obtain rfl := Option.some.inj hp
    exact ⟨t :: comma :: ts, by rw [hc, hrest]; rfl, .next ht hcomma hts⟩

theorem eq_of_param?_none {c c' : Cursor} (h : param? c = .ok none c') : c' = c := by
  obtain ⟨-, hc, -⟩ | ⟨t, hp, -⟩ | ⟨t, hp, -⟩ | ⟨t, comma, hp, -⟩ := ensures_param? _ _ h
  · exact hc
  all_goals cases hp

/-- What the loop has read when it stops before a closing parenthesis. -/
theorem ensures_manyUpTo_param? {bound : List Token} {c : Cursor} :
    Ensures (manyUpTo param? bound) c fun ps c' =>
      Before .rightParen c' → ∃ ts, c.rest = ts ++ c'.rest ∧ Taken ts ps := by
  have hitem : ∀ c, Ensures param? c fun o c₁ => param? c = .ok o c₁ := fun _ _ _ h => h
  induction bound generalizing c with
  | nil =>
    refine (hitem c).bind fun o c₁ h => ensures_pure fun _ => ?_
    cases o with
    | none => exact ⟨[], by rw [eq_of_param?_none h]; rfl, .nil⟩
    | some p => exact Taken.of_param? h rfl .nil
  | cons b bound ih =>
    refine (hitem c).bind fun o c₁ h => ?_
    cases o with
    | none => exact ensures_pure fun _ => ⟨[], by rw [eq_of_param?_none h]; rfl, .nil⟩
    | some p =>
      refine ih.bind fun ps c₂ hps => ensures_pure fun hclose => ?_
      obtain ⟨ts, hrest, hts⟩ := hps hclose
      exact Taken.of_param? h hrest hts

theorem manyUpTo_param?_close {close : Token} (hclose : close.kind = .rightParen)
    (bound rest : List Token) (last : Span) :
    manyUpTo param? bound ⟨last, close :: rest⟩ = .ok [] ⟨last, close :: rest⟩ := by
  cases bound <;> simp [manyUpTo, bind, EStateM.bind, pure, EStateM.pure, param?_close hclose]

/-- One more parameter before those that the loop reads. -/
theorem manyUpTo_param?_cons {c c₁ c₂ : Cursor} {p : Param} {ps : List Param} {b : Token}
    {bound : List Token} (hp : param? c = .ok (some p) c₁)
    (hps : manyUpTo param? bound c₁ = .ok ps c₂) :
    manyUpTo param? (b :: bound) c = .ok (p :: ps) c₂ := by
  simp [manyUpTo, bind, EStateM.bind, pure, EStateM.pure, hp, hps]

/-- The loop reads all that it can take up to a closing parenthesis. -/
theorem Taken.manyUpTo_eq {ts : List Token} {ps : List Param} (h : Taken ts ps) {close : Token}
    (hclose : close.kind = .rightParen) (bound rest : List Token)
    (hbound : ts.length ≤ bound.length) (last : Span) :
    ∃ last', manyUpTo param? bound ⟨last, ts ++ close :: rest⟩ = .ok ps ⟨last', close :: rest⟩ := by
  induction h generalizing bound last with
  | nil => exact ⟨last, manyUpTo_param?_close hclose bound rest last⟩
  | dots ht =>
    obtain ⟨b, bound, rfl⟩ := List.exists_cons_of_length_pos hbound
    exact ⟨_, manyUpTo_param?_cons (param?_dots ht hclose) (manyUpTo_param?_close hclose ..)⟩
  | last ht =>
    obtain ⟨b, bound, rfl⟩ := List.exists_cons_of_length_pos hbound
    exact ⟨_, manyUpTo_param?_cons (param?_last ht hclose) (manyUpTo_param?_close hclose ..)⟩
  | @next t comma ts ps ht hcomma _ ih =>
    obtain ⟨b, bound, rfl⟩ := List.exists_cons_of_length_pos (Nat.lt_of_lt_of_le (by simp) hbound)
    obtain ⟨last', hps⟩ := ih bound (by simp at hbound; omega) comma.span
    exact ⟨last', manyUpTo_param?_cons (param?_comma ht hcomma) hps⟩

/-! ### The whole list -/

/-- **Which lists of parameters are read.** A function is its parameters, the block behind them and
`end`. The parameters are read exactly if they stand in parentheses and either follow the grammar of
Lua or are names with a comma behind the last of them; they are the names in order, and the variable
arguments last. -/
theorem parameters_accepts_iff (g : Grammar) (c c' : Cursor) (ps : List Param) (close : Token) :
    (g.functionBody = do
      let (params, close) ← parameters
      let body ← g.block close.span.stop
      let _ ← expect .kwEnd
      return .mk params body) ∧
    (parameters c = .ok (ps, close) c' ↔
      ∃ opening ts, c.rest = opening :: (ts ++ close :: c'.rest) ∧ c'.last = close.span ∧
        opening.kind = .leftParen ∧ close.kind = .rightParen ∧
        (ParameterList ts ps ∨ CommaBehind ts ps)) := by
  refine ⟨g.functionBody_eq, ?_⟩
  simp only [← taken_iff]
  constructor
  · have hparams : Ensures parameters c fun r c' => ∃ opening ts,
        c.rest = opening :: (ts ++ r.2 :: c'.rest) ∧ c'.last = r.2.span ∧
          opening.kind = .leftParen ∧ r.2.kind = .rightParen ∧ Taken ts r.1 := by
      refine ensures_expect.bind fun opening c₁ ⟨hopening, _, hopen⟩ => ?_
      refine ensures_manyUpTo_param?.bind fun params c₂ hparams => ?_
      refine ensures_expect.bind fun close c₃ ⟨hclosing, hlast, hclose⟩ => ensures_pure ?_
      obtain ⟨ts, hts, htaken⟩ := hparams (by simp [Before, hclosing, hclose])
      exact ⟨opening, ts, by rw [hopening, hts, hclosing], hlast, hopen, hclose, htaken⟩
    exact hparams _ c'
  · obtain ⟨last, rest⟩ := c
    obtain ⟨last', rest'⟩ := c'
    rintro ⟨opening, ts, rfl, rfl, hopen, hclose, htaken⟩
    obtain ⟨last₂, hmany⟩ := htaken.manyUpTo_eq hclose (ts ++ close :: rest') rest' (by simp)
      opening.span
    simp [parameters, many, expect, bind, EStateM.bind, pure, EStateM.pure, hopen, hclose, hmany]

/-- The tokens of `(a,...)`. -/
def nameThenDots : List Token :=
  [⟨.leftParen, "(", ⟨0, 1, ⟨1, 0⟩, ⟨1, 1⟩⟩⟩, ⟨.name, "a", ⟨1, 2, ⟨1, 1⟩, ⟨1, 2⟩⟩⟩,
    ⟨.comma, ",", ⟨2, 3, ⟨1, 2⟩, ⟨1, 3⟩⟩⟩, ⟨.ellipsis, "...", ⟨3, 6, ⟨1, 3⟩, ⟨1, 6⟩⟩⟩,
    ⟨.rightParen, ")", ⟨6, 7, ⟨1, 6⟩, ⟨1, 7⟩⟩⟩]

theorem parameters_accepts_nameThenDots :
    (tokens "(a,...)").toOption = some nameThenDots ∧
      parameters ⟨.unknown, nameThenDots⟩ =
        .ok ([.named "a" ⟨1, 2, ⟨1, 1⟩, ⟨1, 2⟩⟩, .vararg ⟨3, 6, ⟨1, 3⟩, ⟨1, 6⟩⟩],
          ⟨.rightParen, ")", ⟨6, 7, ⟨1, 6⟩, ⟨1, 7⟩⟩⟩) ⟨⟨6, 7, ⟨1, 6⟩, ⟨1, 7⟩⟩, []⟩ := by
  refine ⟨by decide +kernel, (parameters_accepts_iff (grammar 0) _ _ _ _).2.2 ?_⟩
  refine ⟨_, nameThenDots.tail.dropLast, rfl, rfl, rfl, rfl, .inl ?_⟩
  exact @ParameterList.namesVararg [_] [_] _ _ (.single rfl) rfl rfl

/-- The tokens of `(a,)`. -/
def commaAtEnd : List Token :=
  [⟨.leftParen, "(", ⟨0, 1, ⟨1, 0⟩, ⟨1, 1⟩⟩⟩, ⟨.name, "a", ⟨1, 2, ⟨1, 1⟩, ⟨1, 2⟩⟩⟩,
    ⟨.comma, ",", ⟨2, 3, ⟨1, 2⟩, ⟨1, 3⟩⟩⟩, ⟨.rightParen, ")", ⟨3, 4, ⟨1, 3⟩, ⟨1, 4⟩⟩⟩]

/-- The comma behind the only parameter is read over, although the grammar has no rule for it. -/
theorem parameters_exceeds_grammar :
    (tokens "(a,)").toOption = some commaAtEnd ∧ (parse "function f(a,) end").toOption.isSome ∧
      (∃ ps close last, parameters ⟨.unknown, commaAtEnd⟩ = .ok (ps, close) ⟨last, []⟩) ∧
      ¬∃ opening ts close ps, commaAtEnd = opening :: (ts ++ [close]) ∧ ParameterList ts ps := by
  refine ⟨by decide +kernel, by decide +kernel, ⟨_, _, _, rfl⟩, ?_⟩
  rintro ⟨opening, ts, close, ps, heq, hts⟩
  have hinner : ts = commaAtEnd.tail.dropLast := by rw [heq]; simp
  rw [hinner] at hts
  exact hts.not_commaBehind ⟨[_], _, rfl, rfl, .single rfl⟩

end LuaTranspiler.Source
