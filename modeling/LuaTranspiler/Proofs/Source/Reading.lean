import LuaTranspiler.Proofs.Source.Rendering

/-!
# Reading what is written

Which lexemes a parser takes, and what it gives for them, whatever their tokens look like and
whatever follows that does not go on with them. The rules follow the shape of parsers: one for each
operation on tokens, one for sequences, and rules for loops.

* `Reads n p ls follow post`: of at most `n` tokens, `p` takes those that say `ls`
* `ReadsMany`: the same for the items of a loop
* `ReadsTo`: `p` comes to a step of an iteration behind `ls`
-/

namespace LuaTranspiler.Source

open LuaTranspiler.Parser

/-! ### Runs of parsers -/

theorem bind_run {α β : Type} {p : Parser α} {f : α → Parser β} {c c' : Cursor} {a : α}
    (h : p c = .ok a c') : (p >>= f) c = f a c' := by
  simp only [bind, EStateM.bind, h]

theorem map_run {α β : Type} {p : Parser α} {f : α → β} {c c' : Cursor} {a : α}
    (h : p c = .ok a c') : (f <$> p) c = .ok (f a) c' := by
  simp only [Functor.map, EStateM.map, h]

/-! ### What follows -/

/-- The kind of the first token. -/
def headKind (ts : List Token) : Option TokenKind := ts.head?.map Token.kind

/-- The kinds that may come next where `ls` are read and `follow` holds of what is behind them. -/
def Next (follow : Option TokenKind → Prop) : List Lexeme → Option TokenKind → Prop
  | [], kind => follow kind
  | l :: _, kind => ∃ t, Spells t l ∧ kind = some t.kind

section Next

variable {follow : Option TokenKind → Prop} {ls : List Lexeme}

theorem next_headKind {ts rest : List Token} (hts : Spelled ts ls) (h : follow (headKind rest)) :
    Next follow ls (headKind (ts ++ rest)) := by
  cases hts with
  | nil => exact h
  | @cons t l ts ls ht hts => exact ⟨t, ht, rfl⟩

@[simp] theorem next_nil {kind : Option TokenKind} : Next follow [] kind ↔ follow kind := Iff.rfl

@[simp] theorem next_symbol {k : TokenKind} {kind : Option TokenKind} :
    Next follow (.symbol k :: ls) kind ↔ kind = some k := by
  constructor
  · rintro ⟨t, ht, rfl⟩
    exact congrArg some ht
  · rintro rfl
    exact ⟨⟨k, "", .unknown⟩, rfl, rfl⟩

@[simp] theorem next_name {s : String} {kind : Option TokenKind} :
    Next follow (.name s :: ls) kind ↔ kind = some .name := by
  constructor
  · rintro ⟨t, ht, rfl⟩
    exact congrArg some ht.1
  · rintro rfl
    exact ⟨⟨.name, s, .unknown⟩, ⟨rfl, rfl⟩, rfl⟩

end Next

theorem spelled_append {ts : List Token} {ls ls' : List Lexeme} :
    Spelled ts (ls ++ ls') ↔ ∃ us vs, ts = us ++ vs ∧ Spelled us ls ∧ Spelled vs ls' := by
  constructor
  · intro h
    refine ⟨ts.take ls.length, ts.drop ls.length, (List.take_append_drop ..).symm, ?_, ?_⟩
    · simpa using List.forall₂_take ls.length h
    · simpa using List.forall₂_drop ls.length h
  · rintro ⟨us, vs, rfl, hu, hv⟩
    exact List.rel_append hu hv

/-! ### Parsers -/

/-- Of at most `n` tokens, `p` takes those that say `ls`, if `follow` holds of the kind of the next
one, and gives what satisfies `post`. -/
def Reads {α : Type} (n : Nat) (p : Parser α) (ls : List Lexeme)
    (follow : Option TokenKind → Prop) (post : α → Prop) : Prop :=
  ∀ last ts rest, Spelled ts ls → ts.length + rest.length ≤ n → follow (headKind rest) →
    ∃ a last', p ⟨last, ts ++ rest⟩ = .ok a ⟨last', rest⟩ ∧ post a

namespace Reads

variable {α β : Type} {m n : Nat} {p : Parser α} {f : α → Parser β} {ls ls' : List Lexeme}
  {follow follow' : Option TokenKind → Prop} {post : α → Prop} {post' : β → Prop}

theorem zero (hls : ls ≠ []) : Reads 0 p ls follow post := by
  intro last ts rest hts hlen
  obtain ⟨l, ls, rfl⟩ := List.exists_cons_of_ne_nil hls
  obtain ⟨t, ts, _, _, rfl⟩ := List.forall₂_cons_right_iff.1 hts
  simp at hlen

theorem mono (h : Reads n p ls follow post) (hmn : m ≤ n) : Reads m p ls follow post :=
  fun last ts rest hts hlen => h last ts rest hts (Nat.le_trans hlen hmn)

theorem weaken {post' : α → Prop} (h : Reads n p ls follow post)
    (hfollow : ∀ k, follow' k → follow k) (hpost : ∀ a, post a → post' a) :
    Reads n p ls follow' post' := by
  intro last ts rest hts hlen hrest
  obtain ⟨a, last', hp, ha⟩ := h last ts rest hts hlen (hfollow _ hrest)
  exact ⟨a, last', hp, hpost a ha⟩

theorem pure {a : α} (ha : post a) : Reads n (pure a) [] follow post := by
  intro last ts rest hts _ _
  cases hts
  exact ⟨a, last, rfl, ha⟩

theorem map {g : α → β} (h : Reads n p ls follow fun a => post' (g a)) :
    Reads n (g <$> p) ls follow post' := by
  intro last ts rest hts hlen hrest
  obtain ⟨a, last', hp, ha⟩ := h last ts rest hts hlen hrest
  exact ⟨g a, last', map_run hp, ha⟩

/-- A sequence takes what its parts take one behind the other. -/
theorem bind (hp : Reads n p ls follow post) (hf : ∀ a, post a → Reads n (f a) ls' follow' post')
    (hnext : ∀ k, Next follow' ls' k → follow k) :
    Reads n (p >>= f) (ls ++ ls') follow' post' := by
  intro last ts rest hts hlen hrest
  obtain ⟨us, vs, rfl, hu, hv⟩ := spelled_append.1 hts
  rw [List.length_append] at hlen
  obtain ⟨a, last₁, hrun, ha⟩ := hp last us (vs ++ rest) hu (by rw [List.length_append]; omega)
    (hnext _ (next_headKind hv hrest))
  obtain ⟨b, last₂, hrun', hb⟩ := hf a ha last₁ vs rest hv (by omega) hrest
  refine ⟨b, last₂, ?_, hb⟩
  rw [List.append_assoc, bind_run hrun, hrun']

/-- What comes last takes nothing more. -/
theorem bind_nil (hp : Reads n p ls follow post)
    (hf : ∀ a, post a → Reads n (f a) [] follow post') : Reads n (p >>= f) ls follow post' := by
  have h := bind hp hf fun _ hk => hk
  rwa [List.append_nil] at h

theorem pure_bind {a : α} (h : Reads n (f a) ls follow post') :
    Reads n (Pure.pure a >>= f) ls follow post' := h

end Reads

/-! ### Operations on tokens -/

namespace Reads

variable {β : Type} {n : Nat} {ls : List Lexeme} {follow : Option TokenKind → Prop}
  {post : β → Prop}

/-- A parser that takes one token that says `l`, and then goes on as `f` does. -/
theorem token_succ {α : Type} {p : Parser α} {f : α → Parser β} {l : Lexeme} (g : Token → α)
    (hp : ∀ last t rest, Spells t l → p ⟨last, t :: rest⟩ = .ok (g t) ⟨t.span, rest⟩)
    (h : ∀ t, Spells t l → Reads n (f (g t)) ls follow post) :
    Reads (n + 1) (p >>= f) (l :: ls) follow post := by
  intro last ts rest hts hlen hrest
  obtain ⟨t, us, ht, hus, rfl⟩ := List.forall₂_cons_right_iff.1 hts
  rw [List.length_cons] at hlen
  obtain ⟨b, last', hrun, hb⟩ := h t ht t.span us rest hus (by omega) hrest
  exact ⟨b, last', (bind_run (hp last t _ ht)).trans hrun, hb⟩

theorem expect_succ {kind : TokenKind} {f : Token → Parser β}
    (h : ∀ t, t.kind = kind → Reads n (f t) ls follow post) :
    Reads (n + 1) (expect kind >>= f) (.symbol kind :: ls) follow post :=
  token_succ id (fun _ _ _ ht => if_pos ht) h

theorem expect {kind : TokenKind} {f : Token → Parser β}
    (h : ∀ t, t.kind = kind → Reads n (f t) ls follow post) :
    Reads n (expect kind >>= f) (.symbol kind :: ls) follow post :=
  (expect_succ h).mono n.le_succ

theorem advance_succ {l : Lexeme} {f : Option Token → Parser β}
    (h : ∀ t, Spells t l → Reads n (f (some t)) ls follow post) :
    Reads (n + 1) (advance >>= f) (l :: ls) follow post :=
  token_succ some (fun _ _ _ _ => rfl) h

theorem advance {l : Lexeme} {f : Option Token → Parser β}
    (h : ∀ t, Spells t l → Reads n (f (some t)) ls follow post) :
    Reads n (advance >>= f) (l :: ls) follow post :=
  (advance_succ h).mono n.le_succ

theorem eat_some_succ {kind : TokenKind} {f : Option Token → Parser β}
    (h : ∀ t, t.kind = kind → Reads n (f (some t)) ls follow post) :
    Reads (n + 1) (eat kind >>= f) (.symbol kind :: ls) follow post :=
  token_succ some (fun _ _ _ ht => if_pos ht) h

theorem eat_some {kind : TokenKind} {f : Option Token → Parser β}
    (h : ∀ t, t.kind = kind → Reads n (f (some t)) ls follow post) :
    Reads n (eat kind >>= f) (.symbol kind :: ls) follow post :=
  (eat_some_succ h).mono n.le_succ

theorem name {s : String} {f : Name → Parser β}
    (h : ∀ a : Name, a.text = s → Reads n (f a) ls follow post) :
    Reads n (name >>= f) (.name s :: ls) follow post := by
  refine mono (token_succ (fun t => ⟨t.literal, t.span⟩) (fun last t rest ht => ?_)
    fun t ht => h _ ht.2) n.le_succ
  have hrun : Parser.expect .name ⟨last, t :: rest⟩ = .ok t ⟨t.span, rest⟩ := if_pos ht.1
  exact bind_run hrun

/-- A parser that looks at the next token without taking it. -/
theorem look {α : Type} {p : Parser α} {f : α → Parser β} (g : List Token → α)
    (hp : ∀ last ts, Next follow ls (headKind ts) → p ⟨last, ts⟩ = .ok (g ts) ⟨last, ts⟩)
    (h : ∀ ts, Next follow ls (headKind ts) → Reads n (f (g ts)) ls follow post) :
    Reads n (p >>= f) ls follow post := by
  intro last ts rest hts hlen hrest
  have hnext := next_headKind hts hrest
  obtain ⟨b, last', hrun, hb⟩ := h _ hnext last ts rest hts hlen hrest
  exact ⟨b, last', (bind_run (hp last _ hnext)).trans hrun, hb⟩

theorem eat_none {kind : TokenKind} {f : Option Token → Parser β}
    (hne : ∀ k, Next follow ls k → k ≠ some kind) (h : Reads n (f none) ls follow post) :
    Reads n (eat kind >>= f) ls follow post := by
  refine look (fun _ => none) (fun last ts hnext => ?_) fun _ _ => h
  cases ts with
  | nil => rfl
  | cons t ts => exact if_neg fun ht => hne _ hnext (congrArg some ht)

theorem check_run (kind : TokenKind) (last : Span) (ts : List Token) :
    check kind ⟨last, ts⟩ = .ok (decide (headKind ts = some kind)) ⟨last, ts⟩ := rfl

theorem check_true {kind : TokenKind} {f : Bool → Parser β}
    (heq : ∀ k, Next follow ls k → k = some kind) (h : Reads n (f true) ls follow post) :
    Reads n (check kind >>= f) ls follow post := by
  refine look (fun _ => true) (fun last ts hnext => ?_) fun _ _ => h
  rw [check_run, heq _ hnext, decide_eq_true rfl]

theorem check_false {kind : TokenKind} {f : Bool → Parser β}
    (hne : ∀ k, Next follow ls k → k ≠ some kind) (h : Reads n (f false) ls follow post) :
    Reads n (check kind >>= f) ls follow post := by
  refine look (fun _ => false) (fun last ts hnext => ?_) fun _ _ => h
  rw [check_run, decide_eq_false (hne _ hnext)]

theorem peekKind {f : Option TokenKind → Parser β}
    (h : ∀ k, Next follow ls k → Reads n (f k) ls follow post) :
    Reads n (peekKind? >>= f) ls follow post :=
  look headKind (fun _ _ _ => rfl) fun ts hts => h (headKind ts) hts

theorem peekKind_symbol {kind : TokenKind} {f : Option TokenKind → Parser β}
    (h : Reads n (f (some kind)) (.symbol kind :: ls) follow post) :
    Reads n (peekKind? >>= f) (.symbol kind :: ls) follow post := by
  refine peekKind fun k hk => ?_
  rw [next_symbol.1 hk]
  exact h

theorem finish {start : Span} {f : Span → Parser β} (h : ∀ s, Reads n (f s) ls follow post) :
    Reads n (finish start >>= f) ls follow post := by
  intro last ts rest hts hlen hrest
  obtain ⟨b, last', hrun, hb⟩ := h (start.through last) last ts rest hts hlen hrest
  exact ⟨b, last', hrun, hb⟩

theorem require {kind : TokenKind} {f : Unit → Parser β}
    (heq : ∀ k, Next follow ls k → k = some kind) (h : Reads n (f ()) ls follow post) :
    Reads n (require kind >>= f) ls follow post := by
  refine look (fun _ => ()) (fun last ts hnext => ?_) fun _ _ => h
  have hcheck : check kind ⟨last, ts⟩ = .ok true ⟨last, ts⟩ := by
    rw [check_run, heq _ hnext, decide_eq_true rfl]
  exact bind_run hcheck

theorem ofExcept {α : Type} {x : Except SyntaxError α} {a : α} {f : α → Parser β} (hx : x = .ok a)
    (h : Reads n (f a) ls follow post) : Reads n (ofExcept x >>= f) ls follow post := by
  subst hx
  exact h

theorem skip_nil {kind : TokenKind} {f : Unit → Parser β}
    (hne : ∀ k, Next follow ls k → k ≠ some kind) (h : Reads n (f ()) ls follow post) :
    Reads n (skip kind >>= f) ls follow post := by
  refine look (fun _ => ()) (fun last ts hnext => ?_) fun _ _ => h
  cases ts with
  | nil => rfl
  | cons t ts =>
    have ht : t.kind ≠ kind := fun ht => hne _ hnext (congrArg some ht)
    simp [skip, skip.go, ht]

theorem skip_cons {kind : TokenKind} {f : Unit → Parser β}
    (hne : ∀ k, Next follow ls k → k ≠ some kind) (h : Reads n (f ()) ls follow post) :
    Reads n (skip kind >>= f) (.symbol kind :: ls) follow post := by
  intro last ts rest hts hlen hrest
  obtain ⟨t, us, ht, hus, rfl⟩ := List.forall₂_cons_right_iff.1 hts
  rw [List.length_cons] at hlen
  obtain ⟨b, last', hrun, hb⟩ := skip_nil hne h t.span us rest hus (by omega) hrest
  refine ⟨b, last', ?_, hb⟩
  have hskip : skip kind ⟨last, t :: us ++ rest⟩ = skip kind ⟨t.span, us ++ rest⟩ := by
    simp [skip, skip.go, show t.kind = kind from ht]
  rw [← hrun]
  simp only [Bind.bind, EStateM.bind, hskip]

/-- The next token is one of those that say `l`. -/
theorem peek_cons {l : Lexeme} {f : Option Token → Parser β}
    (h : ∀ t, Spells t l → Reads n (f (some t)) (l :: ls) follow post) :
    Reads n (peek? >>= f) (l :: ls) follow post := by
  intro last ts rest hts hlen hrest
  obtain ⟨t, us, ht, -, rfl⟩ := List.forall₂_cons_right_iff.1 hts
  obtain ⟨b, last', hrun, hb⟩ := h t ht last _ rest hts hlen hrest
  exact ⟨b, last', hrun, hb⟩

theorem peek_symbol {kind : TokenKind} {f : Option Token → Parser β}
    (h : ∀ literal span,
      Reads n (f (some ⟨kind, literal, span⟩)) (.symbol kind :: ls) follow post) :
    Reads n (peek? >>= f) (.symbol kind :: ls) follow post := by
  refine peek_cons ?_
  rintro ⟨_, literal, span⟩ ⟨⟩
  exact h literal span

theorem peek_name {s : String} {f : Option Token → Parser β}
    (h : ∀ span, Reads n (f (some ⟨.name, s, span⟩)) (.name s :: ls) follow post) :
    Reads n (peek? >>= f) (.name s :: ls) follow post := by
  refine peek_cons ?_
  rintro ⟨_, _, span⟩ ⟨⟨⟩, ⟨⟩⟩
  exact h span

/-- The token behind the next one is the first of what is read behind it. -/
theorem peekNth_one {l : Lexeme} {f : Option TokenKind → Parser β}
    (h : ∀ k, Next follow ls k → Reads n (f k) (l :: ls) follow post) :
    Reads n (peekNth? 1 >>= f) (l :: ls) follow post := by
  intro last ts rest hts hlen hrest
  obtain ⟨t, us, -, hus, rfl⟩ := List.forall₂_cons_right_iff.1 hts
  obtain ⟨b, last', hrun, hb⟩ := h _ (next_headKind hus hrest) last _ rest hts hlen hrest
  refine ⟨b, last', ?_, hb⟩
  rw [← hrun]
  cases us <;> cases rest <;> rfl

theorem peek_nil {f : Option Token → Parser β}
    (h : ∀ o : Option Token, follow (o.map Token.kind) → Reads n (f o) [] follow post) :
    Reads n (peek? >>= f) [] follow post := by
  refine look List.head? (fun _ _ _ => rfl) fun ts hnext => h _ hnext

end Reads

/-! ### Loops -/

/-- Of at most `n` tokens, the items take those that say `ls`, if the bound is enough. -/
def ReadsMany {α : Type} (n : Nat) (item : Parser (Option α)) (ls : List Lexeme)
    (follow : Option TokenKind → Prop) (post : List α → Prop) : Prop :=
  ∀ last ts rest bound, Spelled ts ls → ts.length + rest.length ≤ n → follow (headKind rest) →
    ts.length + rest.length ≤ List.length bound →
    ∃ as last', manyUpTo item bound ⟨last, ts ++ rest⟩ = .ok as ⟨last', rest⟩ ∧ post as

namespace ReadsMany

variable {α : Type} {n : Nat} {item : Parser (Option α)} {ls ls' : List Lexeme}
  {follow follow' : Option TokenKind → Prop} {post : List α → Prop}

theorem many (h : ReadsMany n item ls follow post) : Reads n (many item) ls follow post :=
  fun last ts rest hts hlen hrest =>
    h last ts rest (ts ++ rest) hts hlen hrest (Nat.le_of_eq List.length_append.symm)

/-- The loop ends where the item is none. -/
theorem nil (h : Reads n item ls follow (· = none)) (hpost : post []) :
    ReadsMany n item ls follow post := by
  intro last ts rest bound hts hlen hrest _
  obtain ⟨a, last', hrun, rfl⟩ := h last ts rest hts hlen hrest
  refine ⟨[], last', ?_, hpost⟩
  cases bound with
  | nil => exact bind_run hrun
  | cons _ bound => exact bind_run hrun

/-- An item that takes a token, and the rest of the loop. -/
theorem cons {P : α → Prop} (hls : ls ≠ [])
    (hitem : Reads n item ls follow' fun o => ∃ a, o = some a ∧ P a)
    (hmany : ∀ a, P a → ReadsMany n item ls' follow fun as => post (a :: as))
    (hnext : ∀ k, Next follow ls' k → follow' k) :
    ReadsMany n item (ls ++ ls') follow post := by
  intro last ts rest bound hts hlen hrest hbound
  obtain ⟨us, vs, rfl, hu, hv⟩ := spelled_append.1 hts
  rw [List.length_append] at hlen hbound
  have hpos : 0 < us.length := by
    rw [hu.length_eq]
    exact List.length_pos_of_ne_nil hls
  obtain ⟨_, last₁, hrun, a, rfl, ha⟩ := hitem last us (vs ++ rest) hu
    (by rw [List.length_append]; omega) (hnext _ (next_headKind hv hrest))
  cases bound with
  | nil =>
    rw [List.length_nil] at hbound
    omega
  | cons b bound =>
    rw [List.length_cons] at hbound
    obtain ⟨as, last₂, hrun', has⟩ := hmany a ha last₁ vs rest bound hv (by omega) hrest (by omega)
    refine ⟨a :: as, last₂, ?_, has⟩
    rw [List.append_assoc]
    exact (bind_run hrun).trans (bind_run hrun')

end ReadsMany

/-- Of at most `n` tokens, `p` takes those that say `ls` and stands before a further step of an
iteration from some `a`. -/
def ReadsTo {α : Type} (n : Nat) (step : α → Parser (Option α)) (p : Parser α) (ls : List Lexeme)
    (follow : Option TokenKind → Prop) (post : α → Prop) : Prop :=
  ∀ last ts rest, Spelled ts ls → ts.length + rest.length ≤ n → follow (headKind rest) →
    ∃ a last' bound, rest.length ≤ List.length bound ∧
      p ⟨last, ts ++ rest⟩ = iterateUpTo step bound a ⟨last', rest⟩ ∧ post a

namespace ReadsTo

variable {α : Type} {n : Nat} {step : α → Parser (Option α)} {p : Parser α} {ls ls' : List Lexeme}
  {follow follow' : Option TokenKind → Prop} {post post' : α → Prop}

theorem start (h : Reads n p ls follow post) :
    ReadsTo n step (do iterate step (← p)) ls follow post := by
  intro last ts rest hts hlen hrest
  obtain ⟨a, last', hrun, ha⟩ := h last ts rest hts hlen hrest
  exact ⟨a, last', rest, Nat.le_refl _, bind_run hrun, ha⟩

theorem iterate {a : α} (ha : post a) : ReadsTo n step (iterate step a) [] follow post := by
  intro last ts rest hts _ _
  cases hts
  exact ⟨a, last, rest, Nat.le_refl _, rfl, ha⟩

theorem next (hls : ls' ≠ []) (h : ReadsTo n step p ls follow post)
    (hstep : ∀ a, post a → Reads n (step a) ls' follow' fun o => ∃ b, o = some b ∧ post' b)
    (hnext : ∀ k, Next follow' ls' k → follow k) :
    ReadsTo n step p (ls ++ ls') follow' post' := by
  intro last ts rest hts hlen hrest
  obtain ⟨us, vs, rfl, hu, hv⟩ := spelled_append.1 hts
  rw [List.length_append] at hlen
  have hpos : 0 < vs.length := by
    rw [hv.length_eq]
    exact List.length_pos_of_ne_nil hls
  obtain ⟨a, last₁, bound, hbound, hrun, ha⟩ := h last us (vs ++ rest) hu
    (by rw [List.length_append]; omega) (hnext _ (next_headKind hv hrest))
  obtain ⟨_, last₂, hrun', b, rfl, hb⟩ := hstep a ha last₁ vs rest hv (by omega) hrest
  rw [List.length_append] at hbound
  cases bound with
  | nil =>
    rw [List.length_nil] at hbound
    omega
  | cons t bound =>
    rw [List.length_cons] at hbound
    refine ⟨b, last₂, bound, by omega, ?_, hb⟩
    rw [List.append_assoc, hrun]
    exact bind_run hrun'

theorem follow_mono (h : ReadsTo n step p ls follow post) (hfollow : ∀ k, follow' k → follow k) :
    ReadsTo n step p ls follow' post :=
  fun last ts rest hts hlen hrest => h last ts rest hts hlen (hfollow _ hrest)

/-- The iteration ends where there is no step. -/
theorem stop (h : ReadsTo n step p ls follow post) (hfollow : ∀ k, follow' k → follow k)
    (hstep : ∀ a, post a → Reads n (step a) [] follow' (· = none)) :
    Reads n p ls follow' post := by
  intro last ts rest hts hlen hrest
  obtain ⟨a, last₁, bound, -, hrun, ha⟩ := h last ts rest hts hlen (hfollow _ hrest)
  have hnone : ([] : List Token).length + rest.length ≤ n := by
    rw [List.length_nil]
    omega
  obtain ⟨_, last₂, hrun', rfl⟩ := hstep a ha last₁ [] rest .nil hnone hrest
  refine ⟨a, last₂, ?_, ha⟩
  rw [hrun]
  cases bound with
  | nil => exact bind_run hrun'
  | cons t bound => exact bind_run hrun'

end ReadsTo

/-! ### Lists with commas -/

section Commas

variable {α β : Type} {n : Nat} {lx : β → List Lexeme} {R : α → β → Prop}
  {follow inner : Option TokenKind → Prop}

theorem commas_map_cons (x : β) (xs : List β) :
    commas ((x :: xs).map lx) = lx x ++ xs.flatMap fun y => .symbol .comma :: lx y := by
  simp [commas, List.flatMap_map]

/-- Items behind commas. -/
theorem reads_many_behindComma {item : Parser α} {xs : List β}
    (h : ∀ x ∈ xs, Reads n item (lx x) inner (R · x)) (hcomma : inner (some .comma))
    (hfollow : ∀ k, follow k → inner k ∧ k ≠ some .comma) :
    Reads n (many (behindComma item)) (xs.flatMap fun x => .symbol .comma :: lx x) follow
      (List.Forall₂ R · xs) := by
  refine ReadsMany.many ?_
  suffices hmany : ∀ post : List α → Prop, (∀ as, List.Forall₂ R as xs → post as) →
      ReadsMany n (behindComma item) (xs.flatMap fun x => .symbol .comma :: lx x) follow post from
    hmany _ fun _ h => h
  induction xs with
  | nil =>
    intro post hpost
    refine ReadsMany.nil (Reads.eat_none (fun k hk => (hfollow k hk).2) ?_) (hpost [] .nil)
    exact Reads.pure rfl
  | cons x xs ih =>
    intro post hpost
    have hitem : Reads n (behindComma item) (.symbol .comma :: lx x) inner
        fun o => ∃ a, o = some a ∧ R a x :=
      Reads.eat_some fun _ _ =>
        Reads.bind_nil (h x List.mem_cons_self) fun a ha => Reads.pure ⟨a, rfl, ha⟩
    refine ReadsMany.cons (List.cons_ne_nil _ _) hitem (fun a ha => ?_) fun k hk => ?_
    · exact ih (fun y hy => h y (List.mem_cons_of_mem x hy)) _ fun as has => hpost _ (.cons ha has)
    · cases xs with
      | nil => exact (hfollow k hk).1
      | cons y ys =>
        rw [next_symbol.1 hk]
        exact hcomma

/-- One or more items with commas between them. -/
theorem reads_commaList {item : Parser α} {x : β} {xs : List β}
    (h : ∀ y ∈ x :: xs, Reads n item (lx y) inner (R · y)) (hcomma : inner (some .comma))
    (hfollow : ∀ k, follow k → inner k ∧ k ≠ some .comma) :
    Reads n (commaList item) (commas ((x :: xs).map lx)) follow (List.Forall₂ R · (x :: xs)) := by
  rw [commas_map_cons]
  refine Reads.bind (h x List.mem_cons_self) (fun a ha => ?_) fun k hk => ?_
  · have htail : ∀ y ∈ xs, _ := fun y hy => h y (List.mem_cons_of_mem x hy)
    refine Reads.bind_nil (reads_many_behindComma htail hcomma hfollow) fun as has => ?_
    exact Reads.pure (.cons ha has)
  · cases xs with
    | nil => exact (hfollow k hk).1
    | cons y ys =>
      rw [next_symbol.1 hk]
      exact hcomma

/-- Items that each take the comma behind them. -/
theorem reads_many_separated {item : Parser (Option α)} {close : TokenKind} {xs : List β}
    (hne : ∀ x ∈ xs, lx x ≠ [])
    (hnone : Reads n item [] (· = some close) (· = none))
    (hlast : ∀ x ∈ xs, Reads n item (lx x) (· = some close) fun o => ∃ a, o = some a ∧ R a x)
    (hmore : ∀ x ∈ xs.dropLast, Reads n item (lx x ++ [.symbol .comma]) (fun _ => True)
      fun o => ∃ a, o = some a ∧ R a x) :
    Reads n (many item) (commas (xs.map lx)) (· = some close) (List.Forall₂ R · xs) := by
  refine ReadsMany.many ?_
  suffices hmany : ∀ post : List α → Prop, (∀ as, List.Forall₂ R as xs → post as) →
      ReadsMany n item (commas (xs.map lx)) (· = some close) post from
    hmany _ fun _ h => h
  induction xs with
  | nil =>
    intro post hpost
    exact ReadsMany.nil hnone (hpost [] .nil)
  | cons x xs ih =>
    intro post hpost
    cases xs with
    | nil =>
      have hlexemes : commas ([x].map lx) = lx x ++ [] := by simp [commas]
      rw [hlexemes]
      refine ReadsMany.cons (hne x List.mem_cons_self) (hlast x List.mem_cons_self)
        (fun a ha => ReadsMany.nil hnone ?_) fun _ hk => hk
      exact hpost [a] (.cons ha .nil)
    | cons y ys =>
      have hlexemes : commas ((x :: y :: ys).map lx) =
          (lx x ++ [.symbol .comma]) ++ commas ((y :: ys).map lx) := by simp [commas]
      rw [hlexemes]
      refine ReadsMany.cons (by simp) (hmore x (by simp)) (fun a ha => ?_) fun _ _ => trivial
      refine ih (fun z hz => hne z (List.mem_cons_of_mem x hz))
        (fun z hz => hlast z (List.mem_cons_of_mem x hz)) (fun z hz => hmore z ?_) _ fun as has =>
          hpost _ (.cons ha has)
      rw [List.dropLast_cons_cons]
      exact List.mem_cons_of_mem x hz

end Commas

end LuaTranspiler.Source
