import LuaTranspiler.Proofs.Source.Outcome
import LuaTranspiler.Proofs.Token.Order

/-!
# Matching parentheses

Every parser reads tokens whose parentheses match, if the parsers that it is made of do: an opening
parenthesis is read only where the closing one is expected behind what stands between them. In
balanced tokens the parenthesis that closes another is unique, and where tokens are in order their
span tells which tokens they are.

* `Balanced us`: tokens whose parentheses match
* `Enclosed us`: tokens from an opening parenthesis to the one that matches it
* `tokens_eq_of_cover`: a span is that of one run of tokens only
* `Took us c c'`: balanced tokens are read from one cursor to another
* `Follows ts p P`: from the tokens `ts` the parser `p` reads balanced ones, and what satisfies `P`
-/

namespace LuaTranspiler.Source

open LuaTranspiler.Parser

/-! ### Matching parentheses -/

/-- Tokens whose parentheses match. -/
inductive Balanced : List Token → Prop
  | nil : Balanced []
  | plain {t : Token} {us : List Token} : t.kind ≠ .leftParen → t.kind ≠ .rightParen →
      Balanced us → Balanced (t :: us)
  | enclosed {opening closing : Token} {inside us : List Token} : opening.kind = .leftParen →
      Balanced inside → closing.kind = .rightParen → Balanced us →
      Balanced (opening :: (inside ++ closing :: us))

/-- Tokens from an opening parenthesis to the closing one that matches it. -/
def Enclosed (us : List Token) : Prop :=
  ∃ opening inside closing, us = opening :: (inside ++ [closing]) ∧ opening.kind = .leftParen ∧
    Balanced inside ∧ closing.kind = .rightParen

section Matching

variable {us us' vs vs' : List Token} {t t' : Token}

theorem Balanced.append (hus : Balanced us) (hvs : Balanced vs) : Balanced (us ++ vs) := by
  induction hus with
  | nil => exact hvs
  | plain hleft hright _ ih => exact .plain hleft hright ih
  | enclosed hopening hinside hclosing _ _ ih =>
    simpa using Balanced.enclosed hopening hinside hclosing ih

/-- What stands before an unmatched closing parenthesis is balanced in one way only. -/
theorem Balanced.eq_of_append (hus : Balanced us) (hus' : Balanced us') (ht : t.kind = .rightParen)
    (ht' : t'.kind = .rightParen) (heq : us ++ t :: vs = us' ++ t' :: vs') : us = us' := by
  -- on how `us` is balanced: what either side starts with, the other side has to start with too
  induction hus generalizing us' t t' vs vs' with
  | nil =>
    cases hus' with
    | nil => rfl
    | plain _ hright => exact absurd ((List.cons.inj heq).1 ▸ ht) hright
    | enclosed hopening =>
      rw [(List.cons.inj heq).1, hopening] at ht
      cases ht
  | @plain u us hleft hright _ ih =>
    cases hus' with
    | nil => exact absurd ((List.cons.inj heq).1 ▸ ht') hright
    | plain _ _ hus' =>
      obtain ⟨rfl, htail⟩ := List.cons.inj heq
      rw [ih hus' ht ht' htail]
    | enclosed hopening => exact absurd ((List.cons.inj heq).1 ▸ hopening) hleft
  | @enclosed opening closing inside us hopening _ hclosing _ ihinside ih =>
    cases hus' with
    | nil =>
      rw [← (List.cons.inj heq).1, hopening] at ht'
      cases ht'
    | plain hleft => exact absurd ((List.cons.inj heq).1 ▸ hopening) hleft
    | enclosed _ hinside' hclosing' hus' =>
      obtain ⟨rfl, htail⟩ := List.cons.inj heq
      simp only [List.append_eq, List.append_assoc, List.cons_append] at htail
      obtain rfl := ihinside hinside' hclosing hclosing' htail
      obtain ⟨rfl, hbehind⟩ := List.cons.inj (List.append_cancel_left htail)
      rw [ih hus' ht ht' hbehind]

theorem not_enclosed_singleton : ¬Enclosed [t] := by
  rintro ⟨opening, inside, closing, heq, -⟩
  simp at heq

/-- What goes on behind balanced tokens is not in the parentheses that those may start with. -/
theorem not_enclosed_append (hus : Balanced us) (hne : us ≠ []) (hvs : vs ≠ []) :
    ¬Enclosed (us ++ vs) := by
  rintro ⟨opening, inside, closing, heq, hopening, hinside, hclosing⟩
  cases hus with
  | nil => exact hne rfl
  | plain hleft => exact hleft ((List.cons.inj heq).1 ▸ hopening)
  | enclosed _ hinside' hclosing' =>
    obtain ⟨rfl, htail⟩ := List.cons.inj heq
    simp only [List.append_eq, List.append_assoc, List.cons_append] at htail
    obtain rfl := hinside'.eq_of_append hinside hclosing' hclosing htail
    simpa [hvs] using List.append_cancel_left htail

end Matching

/-! ### Tokens that a span covers -/

section Covered

variable {edge : Point → Prop} {lo : Nat} {ts us us' vs before before' behind behind' : List Token}
  {t t' : Token} {a : Span}

theorem cover_append (hus : Span.cover (us.map Token.span) = some a)
    (hvs : vs.getLast? = some t) :
    Span.cover ((us ++ vs).map Token.span) = some (a.through t.span) := by
  cases us with
  | nil => cases hus
  | cons u us =>
    have hlast : (u.span :: (us ++ vs).map Token.span).getLast (List.cons_ne_nil _ _) = t.span := by
      rw [List.getLast_eq_iff_getLast?_eq_some, List.map_append, ← List.cons_append,
        List.getLast?_append, List.getLast?_map, hvs]
      rfl
    obtain rfl := Option.some.inj hus
    rw [List.cons_append, List.map_cons, Span.cover, hlast]
    rfl

/-- In order, a token is the only one that starts where it starts, and the only one that stops
where it stops. -/
theorem token_eq_of_ends (h : Ordered edge lo ts) (hts : ts = before ++ t :: behind)
    (hts' : ts = before' ++ t' :: behind')
    (hends : t.span.start = t'.span.start ∨ t.span.stop = t'.span.stop) :
    before = before' ∧ t = t' := by
  have hstart := (h.fits t (by simp [hts])).nonempty
  have hstart' := (h.fits t' (by simp [hts'])).nonempty
  have hapart := h.apart
  rcases List.append_eq_append_iff.1 (hts.symm.trans hts') with
    ⟨between, rfl, htail⟩ | ⟨between, rfl, htail⟩
  · cases between with
    | nil => exact ⟨by simp, (List.cons.inj htail).1⟩
    | cons u between =>
      obtain ⟨rfl, -⟩ := List.cons.inj htail
      rw [hts'] at hapart
      have hle : t.span.stop ≤ t'.span.start := (List.pairwise_append.1 hapart).2.2 t (by simp) t'
        (by simp)
      omega
  · cases between with
    | nil => exact ⟨by simp, (List.cons.inj htail).1.symm⟩
    | cons u between =>
      obtain ⟨rfl, -⟩ := List.cons.inj htail
      rw [hts] at hapart
      have hle : t'.span.stop ≤ t.span.start := (List.pairwise_append.1 hapart).2.2 t' (by simp) t
        (by simp)
      omega

/-- The span of tokens starts with the first and stops with the last of them. -/
theorem exists_of_cover (h : Span.cover (us.map Token.span) = some a) :
    (∃ t tail, us = t :: tail ∧ t.span.start = a.start) ∧
      ∃ init t, us = init ++ [t] ∧ t.span.stop = a.stop := by
  cases us with
  | nil => cases h
  | cons u us =>
    obtain rfl := Option.some.inj h
    refine ⟨⟨u, us, rfl, rfl⟩, (u :: us).dropLast, (u :: us).getLast (List.cons_ne_nil u us), ?_,
      ?_⟩
    · rw [List.dropLast_concat_getLast]
    · simp only [Span.through, ← List.map_cons, List.getLast_map]

/-- In order, a span is that of one run of tokens only. -/
theorem tokens_eq_of_cover (h : Ordered edge lo ts) (hts : ts = before ++ (us ++ behind))
    (hts' : ts = before' ++ (us' ++ behind')) (hus : Span.cover (us.map Token.span) = some a)
    (hus' : Span.cover (us'.map Token.span) = some a) : us = us' := by
  obtain ⟨⟨first, tail, hfirst, hstart⟩, init, last, hlast, hstop⟩ := exists_of_cover hus
  obtain ⟨⟨first', tail', hfirst', hstart'⟩, init', last', hlast', hstop'⟩ := exists_of_cover hus'
  obtain ⟨rfl, -⟩ : before = before' ∧ first = first' :=
    token_eq_of_ends h (by simpa [hfirst] using hts) (by simpa [hfirst'] using hts')
      (.inl (hstart.trans hstart'.symm))
  obtain ⟨hinit, rfl⟩ : before ++ init = before ++ init' ∧ last = last' :=
    token_eq_of_ends h (by simpa [hlast] using hts) (by simpa [hlast'] using hts')
      (.inr (hstop.trans hstop'.symm))
  rw [hlast, hlast', List.append_cancel_left hinit]

end Covered

/-! ### Following parsers -/

/-- From the cursor `c` to the cursor `c'` the tokens `us` are read, and they are balanced. -/
structure Took (us : List Token) (c c' : Cursor) : Prop where
  rest : c.rest = us ++ c'.rest
  last : c'.last = (us.getLast?.map Token.span).getD c.last
  balanced : Balanced us

/-- Whether a kind is a parenthesis. -/
def isParen (kind : TokenKind) : Bool := kind = .leftParen || kind = .rightParen

theorem not_isParen {kind : TokenKind} (hleft : kind ≠ .leftParen) (hright : kind ≠ .rightParen) :
    isParen kind = false := by
  simp [isParen, hleft, hright]

section Took

variable {c c₁ c₂ c₃ : Cursor} {us vs : List Token} {t opening closing : Token}

theorem took_nil (c : Cursor) : Took [] c c := ⟨rfl, rfl, .nil⟩

theorem Took.trans (h : Took us c c₁) (h' : Took vs c₁ c₂) : Took (us ++ vs) c c₂ := by
  refine ⟨?_, ?_, h.balanced.append h'.balanced⟩
  · rw [h.rest, h'.rest, List.append_assoc]
  · rw [h'.last, h.last, List.getLast?_append]
    cases vs.getLast? <;> rfl

theorem Took.suffix {ts : List Token} (h : Took us c c₁) (hc : c.rest <:+ ts) : c₁.rest <:+ ts :=
  (h.rest ▸ List.suffix_append us c₁.rest).trans hc

theorem took_token (hrest : c.rest = t :: c₁.rest) (hlast : c₁.last = t.span)
    (ht : isParen t.kind = false) : Took [t] c c₁ := by
  have hkind : t.kind ≠ .leftParen ∧ t.kind ≠ .rightParen := by simpa [isParen] using ht
  exact ⟨hrest, hlast, .plain hkind.1 hkind.2 .nil⟩

/-- What is read between two parentheses is read with them. -/
theorem Took.enclose (hopening : opening.kind = .leftParen) (hrest : c.rest = opening :: c₁.rest)
    (h : Took us c₁ c₂) (hclosing : closing.kind = .rightParen)
    (hrest' : c₂.rest = closing :: c₃.rest) (hlast : c₃.last = closing.span) :
    Took (opening :: (us ++ [closing])) c c₃ := by
  refine ⟨?_, ?_, .enclosed hopening h.balanced hclosing .nil⟩
  · rw [hrest, h.rest, hrest', List.cons_append, List.append_assoc]
    rfl
  · rw [hlast, ← List.cons_append, List.getLast?_append]
    rfl

end Took

section Follows

variable {α β : Type} {ts : List Token} {p : Parser α} {q : α → Parser β} {P : α → Prop}
  {Q : β → Prop} {c : Cursor} {kind : TokenKind}

/-- What a parser that starts at `c` reads is balanced, and its result satisfies `P`. -/
def Taking (c : Cursor) (P : α → Prop) (a : α) (c' : Cursor) : Prop := P a ∧ ∃ us, Took us c c'

/-- Wherever it starts in the tokens `ts`, the parser `p` reads balanced tokens and gives what
satisfies `P`. -/
def Follows (ts : List Token) (p : Parser α) (P : α → Prop) : Prop :=
  ∀ ⦃c⦄, c.rest <:+ ts → Ensures p c (Taking c P)

namespace Follows

theorem pure {a : α} (h : P a) : Follows ts (pure a) P :=
  fun c _ => ensures_pure ⟨h, [], took_nil c⟩

theorem throw {e : SyntaxError} : Follows ts (throw e) P := fun _ _ => ensures_throw

/-- Tokens that are read before count with those that `p` reads. -/
theorem behind (hp : Follows ts p P) (hc : c.rest <:+ ts) {us : List Token} {c' : Cursor}
    (hus : Took us c c') : Ensures p c' (Taking c P) := by
  refine (hp (hus.suffix hc)).mono ?_
  rintro a c'' ⟨ha, vs, hvs⟩
  exact ⟨ha, us ++ vs, hus.trans hvs⟩

theorem bind (hp : Follows ts p P) (hq : ∀ a, P a → Follows ts (q a) Q) :
    Follows ts (p >>= q) Q := by
  intro c hc
  refine (hp hc).bind ?_
  rintro a c' ⟨ha, us, hus⟩
  exact (hq a ha).behind hc hus

theorem map_bind {γ : Type} {f : α → γ} {q : γ → Parser β} (hp : Follows ts p P)
    (hq : ∀ a, P a → Follows ts (q (f a)) Q) : Follows ts (f <$> p >>= q) Q := by
  intro c hc
  refine (hp hc).map_bind ?_
  rintro a c' ⟨ha, us, hus⟩
  exact (hq a ha).behind hc hus

theorem mono {P' : α → Prop} (hp : Follows ts p P) (himp : ∀ a, P a → P' a) : Follows ts p P' :=
  fun _ hc => (hp hc).mono fun a _ h => ⟨himp a h.1, h.2⟩

theorem iterate {step : α → Parser (Option α)} {a : α}
    (hstep : ∀ a, P a → Follows ts (step a) fun o => ∀ b ∈ o, P b) (ha : P a) :
    Follows ts (iterate step a) P := by
  intro c hc
  refine ensures_iterate (fun b c' hb => ?_) ⟨ha, [], took_nil c⟩
  obtain ⟨hb, us, hus⟩ := hb
  refine ((hstep b hb).behind hc hus).mono fun o c'' ho => ⟨?_, ho.2⟩
  cases o with
  | none => exact hb
  | some d => exact ho.1 d rfl

theorem many {item : Parser (Option α)} (hitem : Follows ts item fun o => ∀ a ∈ o, P a) :
    Follows ts (many item) fun as => ∀ a ∈ as, P a := by
  intro c hc
  refine ensures_many (fun as c' has => ?_) ⟨by simp, [], took_nil c⟩
  obtain ⟨has, us, hus⟩ := has
  refine (hitem.behind hc hus).mono fun o c'' ho => ⟨?_, ho.2⟩
  exact List.forall_mem_append.2 ⟨has, fun a ha => ho.1 a (by simpa using ha)⟩

end Follows

/-! ### Tokens -/

/-- A parser that only looks at the tokens reads none. -/
theorem follows_look {f : Cursor → α} :
    Follows ts (fun c => .ok (f c) c : Parser α) fun _ => True := by
  rintro c hc _ _ ⟨⟩
  exact ⟨trivial, [], took_nil c⟩

theorem follows_check : Follows ts (check kind) fun _ => True := follows_look

theorem follows_peekKind : Follows ts peekKind? fun _ => True := follows_look

theorem follows_peekNth {n : Nat} : Follows ts (peekNth? n) fun _ => True := follows_look

theorem follows_finish {start : Span} : Follows ts (finish start) fun _ => True := follows_look

theorem follows_unexpected {kinds : List TokenKind} : Follows ts (unexpected kinds) P :=
  fun _ _ => ensures_unexpected

theorem follows_require : Follows ts (require kind) fun _ => True := by
  refine follows_check.bind fun b _ => ?_
  split
  · exact .pure trivial
  · exact follows_unexpected

theorem follows_expect (hkind : isParen kind = false) :
    Follows ts (expect kind) fun t => t.kind = kind := by
  intro c _
  refine ensures_expect.mono ?_
  rintro t c' ⟨hrest, hlast, rfl⟩
  exact ⟨rfl, [t], took_token hrest hlast hkind⟩

theorem follows_eat (hkind : isParen kind = false) : Follows ts (eat kind) fun _ => True := by
  intro c _
  refine ensures_eat.mono ?_
  rintro o c' (⟨-, rfl⟩ | ⟨t, -, hrest, hlast, rfl⟩)
  · exact ⟨trivial, [], took_nil c'⟩
  · exact ⟨trivial, [t], took_token hrest hlast hkind⟩

theorem follows_skip (hkind : isParen kind = false) : Follows ts (skip kind) fun _ => True := by
  rintro ⟨last, rest⟩ - _ _ ⟨⟩
  refine ⟨trivial, ?_⟩
  induction rest generalizing last with
  | nil => exact ⟨[], took_nil _⟩
  | cons t rest ih =>
    rw [skip.go]
    split
    next ht =>
      obtain ⟨us, hus⟩ := ih t.span
      exact ⟨[t] ++ us, (took_token rfl rfl (ht ▸ hkind)).trans hus⟩
    next => exact ⟨[], took_nil _⟩

/-- Looking at the next token says which it is. -/
theorem follows_peek {q : Option Token → Parser β} (hnone : Follows ts (q none) Q)
    (hsome : ∀ t us c, c.rest = t :: us → c.rest <:+ ts → Ensures (q (some t)) c (Taking c Q)) :
    Follows ts (peek? >>= q) Q :=
  fun c hc => ensures_peek (hnone hc) fun t us hrest => hsome t us c hrest hc

/-- A token that is known from looking at it is read. -/
theorem taking_advance {q : Option Token → Parser β} {t : Token} {us : List Token}
    (hrest : c.rest = t :: us) (ht : isParen t.kind = false) (hc : c.rest <:+ ts)
    (hq : Follows ts (q (some t)) Q) : Ensures (advance >>= q) c (Taking c Q) := by
  refine (ensures_advance hrest).bind ?_
  rintro _ c' ⟨rfl, hrest, hlast⟩
  exact hq.behind hc (took_token hrest hlast ht)

/-- A token of which the kind is known from looking at it is read. -/
theorem ensures_advanceKind {q : Option Token → Parser β} {post : β → Cursor → Prop}
    (hhead : c.rest.head?.map Token.kind = some kind) (hkind : isParen kind = false)
    (h : ∀ t c₁, Took [t] c c₁ → Ensures (q (some t)) c₁ post) :
    Ensures (advance >>= q) c post := by
  obtain ⟨t, ht, rfl⟩ := Option.map_eq_some_iff.1 hhead
  obtain ⟨us, hrest⟩ := List.head?_eq_some_iff.1 ht
  refine (ensures_advance hrest).bind ?_
  rintro _ c₁ ⟨rfl, hrest, hlast⟩
  exact h t c₁ (took_token hrest hlast hkind)

/-- What is read up to a closing parenthesis, behind the opening one. -/
theorem ensures_enclosed {q : α → Token → Parser β} {post : β → Cursor → Prop} {c₁ : Cursor}
    {opening : Token} (hopening : opening.kind = .leftParen) (hrest : c.rest = opening :: c₁.rest)
    (hc : c.rest <:+ ts) (hp : Follows ts p P)
    (hq : ∀ a us closing c', P a → Took (opening :: (us ++ [closing])) c c' →
      Ensures (q a closing) c' post) :
    Ensures (p >>= fun a => expect .rightParen >>= q a) c₁ post := by
  have hc₁ : c₁.rest <:+ ts := (hrest ▸ List.suffix_cons opening c₁.rest).trans hc
  refine (hp hc₁).bind ?_
  rintro a c₂ ⟨ha, us, hus⟩
  refine ensures_expect.bind ?_
  rintro closing c₃ ⟨hrest', hlast, hclosing⟩
  exact hq a us closing c₃ ha (.enclose hopening hrest hus hclosing hrest' hlast)

theorem Follows.behindComma (hp : Follows ts p P) :
    Follows ts (behindComma p) fun o => ∀ a ∈ o, P a := by
  refine (follows_eat rfl).bind fun comma _ => ?_
  cases comma with
  | none => exact .pure (by simp)
  | some _ => exact hp.bind fun a ha => .pure (by simpa using ha)

theorem Follows.commaList (hp : Follows ts p P) :
    Follows ts (commaList p) fun as => ∀ a ∈ as, P a :=
  hp.bind fun _ ha => hp.behindComma.many.bind fun _ has =>
    .pure (List.forall_mem_cons.2 ⟨ha, has⟩)

theorem follows_name : Follows ts name fun _ => True :=
  (follows_expect rfl).bind fun _ _ => .pure trivial

theorem follows_param? : Follows ts param? fun _ => True := by
  refine follows_check.bind fun closed _ => ?_
  split
  · exact .pure trivial
  refine (follows_eat rfl).bind fun o _ => ?_
  cases o with
  | some t => exact follows_require.bind fun _ _ => .pure trivial
  | none =>
    refine follows_name.bind fun n _ => (follows_eat rfl).bind fun comma _ => ?_
    dsimp only
    split
    · exact follows_require.bind fun _ _ => .pure trivial
    · exact .pure trivial

theorem follows_params : Follows ts (many param?) fun _ => True := by
  have hparam : Follows ts param? fun o => ∀ p ∈ o, True :=
    follows_param?.mono fun _ _ _ _ => trivial
  exact hparam.many.mono fun _ _ => trivial

end Follows

end LuaTranspiler.Source
