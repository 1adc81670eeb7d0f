import LuaTranspiler.Source.Statement

/-!
# What a parser ensures

Rules to follow a parser that succeeds, from one token to the next. A parser that fails ensures
everything, so these rules say nothing about which sources are read.

* `Ensures p c post`: if `p` succeeds at `c`, then with a result and a cursor that satisfy `post`
* `Ensures.bind`, `ensures_expect`, `ensures_eat` and others: one rule for each form of parser
* `ensures_many`, `ensures_iterate`: what each item or step keeps, a loop keeps
-/

namespace LuaTranspiler.Source

open LuaTranspiler.Parser

variable {α β : Type} {p : Parser α} {q : α → Parser β} {c : Cursor} {post : α → Cursor → Prop}

/-- If `p` succeeds at the cursor `c`, then with a result and a cursor that satisfy `post`. -/
def Ensures (p : Parser α) (c : Cursor) (post : α → Cursor → Prop) : Prop :=
  ∀ a c', p c = .ok a c' → post a c'

theorem Ensures.mono {post' : α → Cursor → Prop} (h : Ensures p c post)
    (himp : ∀ a c', post a c' → post' a c') : Ensures p c post' :=
  fun a c' hp => himp a c' (h a c' hp)

theorem ensures_pure {a : α} (h : post a c) : Ensures (pure a) c post := by
  rintro _ _ ⟨⟩
  exact h

theorem ensures_throw {e : SyntaxError} : Ensures (throw e) c post := by
  rintro _ _ ⟨⟩

theorem ensures_unexpected {kinds : List TokenKind} : Ensures (unexpected kinds) c post := by
  intro a c' h
  unfold unexpected at h
  split at h <;> cases h

theorem Ensures.bind {post' : β → Cursor → Prop} (hp : Ensures p c post)
    (hq : ∀ a c', post a c' → Ensures (q a) c' post') : Ensures (p >>= q) c post' := by
  intro b c'' h
  simp only [Bind.bind, EStateM.bind] at h
  split at h
  next a c' ha => exact hq a c' (hp a c' ha) b c'' h
  next => cases h

theorem Ensures.map_bind {γ : Type} {f : α → γ} {q : γ → Parser β} {post' : β → Cursor → Prop}
    (hp : Ensures p c post) (hq : ∀ a c', post a c' → Ensures (q (f a)) c' post') :
    Ensures (f <$> p >>= q) c post' := by
  have hmap : Ensures (f <$> p) c fun b c' => ∃ a, f a = b ∧ post a c' := by
    intro b c' h
    simp only [Functor.map, EStateM.map] at h
    split at h
    next a c' ha =>
      cases h
      exact ⟨a, rfl, hp a c' ha⟩
    next => cases h
  refine hmap.bind ?_
  rintro _ c' ⟨a, rfl, ha⟩
  exact hq a c' ha

/-! ### Tokens -/

theorem ensures_expect {kind : TokenKind} :
    Ensures (expect kind) c fun t c' =>
      c.rest = t :: c'.rest ∧ c'.last = t.span ∧ t.kind = kind := by
  intro t c' h
  unfold expect at h
  split at h
  · cases h
  next u ts hrest =>
    split at h
    next hkind =>
      cases h
      exact ⟨hrest, rfl, hkind⟩
    · cases h

theorem ensures_eat {kind : TokenKind} :
    Ensures (eat kind) c fun o c' => (o = none ∧ c' = c) ∨
      ∃ t, o = some t ∧ c.rest = t :: c'.rest ∧ c'.last = t.span ∧ t.kind = kind := by
  intro o c' h
  unfold eat at h
  split at h
  · cases h
    exact .inl ⟨rfl, rfl⟩
  next u ts hrest =>
    split at h
    next hkind =>
      cases h
      exact .inr ⟨u, rfl, hrest, rfl, hkind⟩
    · cases h
      exact .inl ⟨rfl, rfl⟩

theorem ensures_advance {t : Token} {ts : List Token} (hrest : c.rest = t :: ts) :
    Ensures advance c fun o c' => o = some t ∧ c.rest = t :: c'.rest ∧ c'.last = t.span := by
  intro o c' h
  simp only [advance, hrest] at h
  cases h
  exact ⟨rfl, hrest, rfl⟩

section Looking

/-! ### Looking ahead -/

variable {post : β → Cursor → Prop} {kind : TokenKind}

theorem ensures_check {q : Bool → Parser β}
    (h : ∀ b, (b = true ↔ c.rest.head?.map Token.kind = some kind) → Ensures (q b) c post) :
    Ensures (check kind >>= q) c post :=
  h _ decide_eq_true_iff

theorem ensures_require {q : Unit → Parser β} (h : Ensures (q ()) c post) :
    Ensures (require kind >>= q) c post := by
  have hrequire : Ensures (require kind) c fun _ c' => c' = c := by
    refine ensures_check fun b _ => ?_
    split
    · exact ensures_pure rfl
    · exact ensures_unexpected
  refine hrequire.bind ?_
  rintro _ _ rfl
  exact h

/-- Where the end of the tokens is refused, there is a next token. -/
theorem ensures_peek {q : Option Token → Parser β} (hnone : Ensures (q none) c post)
    (hsome : ∀ t ts, c.rest = t :: ts → Ensures (q (some t)) c post) :
    Ensures (peek? >>= q) c post := by
  change Ensures (q c.rest.head?) c post
  cases hrest : c.rest with
  | nil => exact hnone
  | cons t ts => exact hsome t ts hrest

theorem ensures_peekHead {q : Option Token → Parser β} (h : Ensures (q c.rest.head?) c post) :
    Ensures (peek? >>= q) c post := h

theorem ensures_peekKind {q : Option TokenKind → Parser β}
    (h : Ensures (q (c.rest.head?.map Token.kind)) c post) : Ensures (peekKind? >>= q) c post := h

theorem ensures_peekNth {n : Nat} {q : Option TokenKind → Parser β}
    (h : Ensures (q (c.rest[n]?.map Token.kind)) c post) : Ensures (peekNth? n >>= q) c post := h

theorem ensures_finish {a : Span} {q : Span → Parser β}
    (h : Ensures (q (a.through c.last)) c post) : Ensures (finish a >>= q) c post := h

theorem ensures_skip {q : Unit → Parser β}
    (h : Ensures (q ()) (skip.go kind c.last c.rest) post) : Ensures (skip kind >>= q) c post := h

theorem ensures_ofExcept {r : Except SyntaxError α} {q : α → Parser β}
    (h : ∀ a, r = .ok a → Ensures (q a) c post) : Ensures (ofExcept r >>= q) c post := by
  cases r with
  | ok a => exact h a rfl
  | error e => rintro _ _ ⟨⟩

end Looking

/-! ### Loops -/

section Loops

variable {item : Parser (Option α)} {I : List α → Cursor → Prop} {as : List α}

theorem ensures_manyUpTo
    (hitem : ∀ as c, I as c → Ensures item c fun o c' => I (as ++ o.toList) c')
    {bound : List Token} (hc : I as c) :
    Ensures (manyUpTo item bound) c fun bs c' => I (as ++ bs) c' := by
  induction bound generalizing as c with
  | nil => exact (hitem as c hc).bind fun o c' ho => ensures_pure ho
  | cons t bound ih =>
    refine (hitem as c hc).bind fun o c' ho => ?_
    cases o with
    | none => exact ensures_pure ho
    | some a =>
      refine (ih ho).bind fun bs c'' hbs => ensures_pure ?_
      simpa using hbs

/-- What one item more keeps, a loop keeps. -/
theorem ensures_many (hitem : ∀ as c, I as c → Ensures item c fun o c' => I (as ++ o.toList) c')
    (hc : I [] c) : Ensures (many item) c I :=
  ensures_manyUpTo hitem hc

variable {step : α → Parser (Option α)} {J : α → Cursor → Prop} {a : α}

theorem ensures_iterateUpTo
    (hstep : ∀ a c, J a c → Ensures (step a) c fun o c' => J (o.getD a) c')
    {bound : List Token} (hc : J a c) : Ensures (iterateUpTo step bound a) c J := by
  induction bound generalizing a c with
  | nil => exact (hstep a c hc).bind fun o c' ho => ensures_pure ho
  | cons t bound ih =>
    refine (hstep a c hc).bind fun o c' ho => ?_
    cases o with
    | none => exact ensures_pure ho
    | some b => exact ih ho

/-- What one step keeps, an iteration keeps. -/
theorem ensures_iterate (hstep : ∀ a c, J a c → Ensures (step a) c fun o c' => J (o.getD a) c')
    (hc : J a c) : Ensures (iterate step a) c J :=
  ensures_iterateUpTo hstep hc

end Loops

end LuaTranspiler.Source
