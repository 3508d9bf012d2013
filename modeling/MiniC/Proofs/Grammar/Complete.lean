import MiniC.Proofs.Grammar.Sound

/-!
# What the grammar derives

Every phrase that the grammar derives is read as a whole, into its tree, and without an error. A
reader looks one token ahead, so what follows the phrase must not be taken for a part of it. The
number of steps that a reader may take is twice the number of tokens of the phrase, and a few.

* `Parses`: a reader reads exactly these tokens
* `reaches`: expressions, by the loop over their connectives
* `readable`, `parses_declarations`: statements and programs
* `parse_eq_ok_iff`: the parser accepts exactly what the grammar derives
-/

namespace MiniC

/-- Each item of a separated list is a part of it, so a property of the items needs to be shown for
phrases of at most its length only. Induction on the list. -/
theorem Grammar.Separated.imp {α : Type} {P Q : List Token → α → Prop} {ts : List Token}
    {as : List α} (h : Separated P ts as) (hPQ : ∀ us a, us.length ≤ ts.length → P us a → Q us a) :
    Separated Q ts as := by
  induction h with
  | one h => exact .one (hPQ _ _ le_rfl h)
  | more h hcomma _ ih =>
    simp only [List.length_append, List.length_cons] at hPQ
    exact .more (hPQ _ _ (by omega) h) hcomma (ih fun us a hle => hPQ us a (by omega))

namespace Parser

open Grammar

/-! ### Readers without errors

A state that has found no error stays so while it reads what the grammar allows. `Parses` says that
of a reader and of the tokens it reads, and is closed under the combinators of readers, so that a
proof follows the text of the reader from token to token. -/

/-- No error has been found, and these tokens of the language are left to read. -/
structure State.At (s : State) (ts : List Token) : Prop where
  errors : s.errors = []
  recovering : s.recovering = false
  unread : s.unread = ts
  valid : ∀ t ∈ ts, t.Valid

/-- In front of `rest`, the reader reads exactly the tokens `ts`, and answers `a`. -/
def Parses {α : Type} (r : Reader α) (ts rest : List Token) (a : α) : Prop :=
  ∀ s, s.At (ts ++ rest) → ∃ s', r s = some (a, s') ∧ s'.At rest

namespace State.At

variable {s : State} {t : Token} {ts : List Token}

/-- The token that the reader looks at comes next. -/
theorem next (h : s.At ts) : Next ts s.current :=
  h.unread ▸ s.next_current

/-- The token that the reader looks at is the first of the unread ones. -/
theorem current (h : s.At (t :: ts)) : s.current = t :=
  h.next.eq

/-- Reading a token of the language leaves the rest, and no error: only a token that is not of the
language is reported on the way to the next one. -/
theorem advance (h : s.At (t :: ts)) : s.advance.At ts := by
  have hadvance : s.advance = { s with last := some s.current.kind, unread := ts } := by
    unfold State.advance
    rw [h.unread, List.tail_cons]
    cases ts with
    | nil => rfl
    | cons u rest =>
      rw [State.settle]
      split
      · rename_i fault hfault
        exact absurd hfault (h.valid u (by simp) fault)
      · rfl
  rw [hadvance]
  exact ⟨h.errors, h.recovering, rfl, fun u hu => h.valid u (List.mem_cons_of_mem t hu)⟩

end State.At

/-- The first reader of a sequence has run. -/
theorem bind_eq {α β : Type} {x : Reader α} {f : α → Reader β} {s s' : State} {a : α}
    (h : x s = some (a, s')) : (x >>= f) s = f a s' := by
  simp [bind, StateT.bind, h]

namespace Parses

variable {α β : Type} {t : Token} {ts rest : List Token} {kind : Token.Kind} {fault : SyntaxFault}
  {b : β}

/-- Readers in sequence read one phrase behind the other. -/
theorem bind {x : Reader α} {f : α → Reader β} {a : α} {ts₁ ts₂ : List Token}
    (hx : Parses x ts₁ (ts₂ ++ rest) a) (hf : Parses (f a) ts₂ rest b) :
    Parses (x >>= f) (ts₁ ++ ts₂) rest b := by
  intro s hs
  rw [List.append_assoc] at hs
  obtain ⟨s₁, h₁, hs₁⟩ := hx s hs
  obtain ⟨s₂, h₂, hs₂⟩ := hf s₁ hs₁
  exact ⟨s₂, bind_eq_some_iff.mpr ⟨a, s₁, h₁, h₂⟩, hs₂⟩

/-- An answer reads nothing. -/
theorem pure {a : α} : Parses (Pure.pure a) [] rest a :=
  fun s hs => ⟨s, rfl, hs⟩

/-- The last reader of a sequence. -/
theorem last {x : Reader α} {f : α → Reader β} {a : α} (hx : Parses x ts rest a)
    (hf : Parses (f a) [] rest b) : Parses (x >>= f) ts rest b := by
  rw [← List.append_nil ts]
  exact bind hx hf

/-- A reader that reads nothing. -/
theorem skip {x : Reader α} {f : α → Reader β} {a : α} (hx : Parses x [] (ts ++ rest) a)
    (hf : Parses (f a) ts rest b) : Parses (x >>= f) ts rest b :=
  bind hx hf

/-- The next token is read. -/
theorem read {f : Token → Reader β} (h : Parses (f t) ts rest b) :
    Parses (Parser.read >>= f) (t :: ts) rest b := by
  intro s hs
  obtain ⟨s', hrun, hs'⟩ := h s.advance hs.advance
  exact ⟨s', bind_eq_some_iff.mpr ⟨t, s.advance, by rw [read_eq, hs.current], hrun⟩, hs'⟩

/-- Looking at the next token, whatever it is, reads nothing. -/
theorem peek {f : Token → Reader β} (h : ∀ t, Next (ts ++ rest) t → Parses (f t) ts rest b) :
    Parses (Parser.peek >>= f) ts rest b := by
  intro s hs
  obtain ⟨s', hrun, hs'⟩ := h s.current hs.next s hs
  exact ⟨s', bind_eq_some_iff.mpr ⟨s.current, s, peek_eq s, hrun⟩, hs'⟩

/-- Looking at a token of the phrase, which is known. -/
theorem look {f : Token → Reader β} (h : Parses (f t) (t :: ts) rest b) :
    Parses (Parser.peek >>= f) (t :: ts) rest b :=
  peek fun _ hu => hu.eq ▸ h

/-- A token that is there is accepted. -/
theorem accept {f : Bool → Reader β} (ht : t.kind = kind) (h : Parses (f true) ts rest b) :
    Parses (Parser.accept kind >>= f) (t :: ts) rest b := by
  intro s hs
  obtain ⟨s', hrun, hs'⟩ := h s.advance hs.advance
  refine ⟨s', bind_eq_some_iff.mpr ⟨true, s.advance, ?_, hrun⟩, hs'⟩
  rw [accept_eq, hs.current, if_pos ht]

/-- A token that is not there is not accepted, and nothing is read. -/
theorem reject {f : Bool → Reader β} (hk : ∀ t, Next (ts ++ rest) t → t.kind ≠ kind)
    (h : Parses (f false) ts rest b) : Parses (Parser.accept kind >>= f) ts rest b := by
  intro s hs
  obtain ⟨s', hrun, hs'⟩ := h s hs
  refine ⟨s', bind_eq_some_iff.mpr ⟨false, s, ?_, hrun⟩, hs'⟩
  rw [accept_eq, if_neg (hk _ hs.next)]

/-- A token that is demanded, and is there, is read without an error. -/
theorem expect {f : Option Token → Reader β} (ht : t.kind = kind)
    (h : Parses (f (some t)) ts rest b) :
    Parses (Parser.expect kind fault >>= f) (t :: ts) rest b := by
  intro s hs
  obtain ⟨s', hrun, hs'⟩ := h s.advance hs.advance
  refine ⟨s', bind_eq_some_iff.mpr ⟨some t, s.advance, ?_, hrun⟩, hs'⟩
  rw [expect_eq, hs.current, if_pos ht]

end Parses

/-! ### Expressions

The loop over connectives is entered at one level and left at another, with the phrases of the
levels between them still to come. `Reaches` is the invariant of this loop: at any level up to that
of the phrase, the loop arrives behind the phrase with the tree of the phrase in hand. There is one
lemma for each production of the grammar, and `reaches` puts them together. -/

/-- Arguments start as their first expression does. -/
theorem separated_first {ts : List Token} {args : List Exp} (h : Separated (Expression 1) ts args) :
    ∃ t rest, ts = t :: rest ∧ StartsExpression t.kind := by
  cases h with
  | one he => exact expression_first he
  | more he hcomma hrest =>
    obtain ⟨t, rest, rfl, ht⟩ := expression_first he
    exact ⟨t, _, rfl, ht⟩

/-- What comes next does not turn a name into a call or an element. -/
def NoCall (ts : List Token) : Prop :=
  ∀ t, Next ts t → t.kind ≠ .leftParen ∧ t.kind ≠ .leftBracket

/-- A token that ends every expression before it. -/
def EndsExpression (t : Token) : Prop :=
  t.kind ∈ [Token.Kind.rightParen, .rightBracket, .semicolon, .comma]

/-- Neither bracket that makes a call or an element of a name ends an expression. -/
theorem EndsExpression.noCall {t : Token} (h : EndsExpression t) (rest : List Token) :
    NoCall (t :: rest) := by
  intro u hu
  obtain rfl := hu.eq
  unfold EndsExpression at h
  constructor
  · intro hk
    simp [hk] at h
  · intro hk
    simp [hk] at h

/-- No connective ends an expression, so the loop stops there at every level. -/
theorem EndsExpression.stops {t : Token} (h : EndsExpression t) (level : Nat) (rest : List Token) :
    Stops level (t :: rest) := by
  intro u hu c hc
  obtain rfl := hu.eq
  unfold EndsExpression at h
  simp only [List.mem_cons, List.not_mem_nil, or_false] at h
  rcases h with h | h | h | h <;> rw [h] at hc <;> cases hc

/-- What stops the loop at a level stops it at a tighter one. -/
theorem Stops.mono {n m : Nat} {ts : List Token} (h : Stops n ts) (hnm : n ≤ m) : Stops m ts :=
  fun t ht c hc => lt_of_lt_of_le (h t ht c hc) hnm

/-- The loop ends in front of a token that is no connective of its level or a tighter one. -/
theorem connected_stops {level m : Nat} {lhs : Exp} {rest : List Token} {s : State}
    (hs : s.At rest) (h : Stops level rest) (hm : 0 < m) :
    connected m level lhs s = some (lhs, s) := by
  obtain ⟨m, rfl⟩ : ∃ k, m = k + 1 := ⟨m - 1, by omega⟩
  rw [connected]
  refine bind_eq_some_iff.mpr ⟨s.current, s, peek_eq s, ?_⟩
  cases hc : Connective.ofKind? s.current.kind with
  | none => rfl
  | some c =>
    have hlt := h s.current hs.next c hc
    simp only [if_neg (show ¬level ≤ c.level by omega)]
    rfl

/-- Parentheses around an operand give an operand. Induction on the parentheses, each of which goes
from the tightest level down to the loosest and back. -/
theorem expression_of_wrapped {inner ts : List Token} {e : Exp} (h : Wrapped inner ts)
    (he : Expression 8 inner e) : Expression 8 ts e := by
  induction h with
  | refl => exact he
  | parens hl _ hr ih => exact .group hl (lower ih (by decide) le_rfl) hr

/-- The operators that the grammar lists for a level are those that the loop finds there. -/
theorem ofKind?_of_mem_operators {n : Nat} {kind : Token.Kind} {op : BinaryOp}
    (h : (kind, op) ∈ operators n) :
    Connective.ofKind? kind = some (.binary op) ∧ (Connective.binary op).level = n := by
  unfold operators at h
  split at h <;> simp only [List.mem_cons, Prod.mk.injEq, List.not_mem_nil, or_false] at h
  all_goals first
    | exact h.elim
    | rcases h with ⟨rfl, rfl⟩ | ⟨rfl, rfl⟩ | ⟨rfl, rfl⟩ | ⟨rfl, rfl⟩ <;> decide
    | rcases h with ⟨rfl, rfl⟩ | ⟨rfl, rfl⟩ <;> decide
    | obtain ⟨rfl, rfl⟩ := h; decide

/-- A number that can be written is read. -/
theorem literal?_of_numeral {t : Token} {n : Nat} (h : Numeral t n) : literal? t.text = some n := by
  unfold literal?
  rw [Option.filter_eq_some_iff]
  exact ⟨h.value, decide_eq_true h.bound⟩

/-- From the start of a phrase the loop of its own level, or of a lower one, comes to its end with
the tree of the phrase. The next connective does not bind more tightly than the phrase, and no
equals sign follows an assignment. -/
def Reaches (n : Nat) (ts : List Token) (e : Exp) : Prop :=
  ∀ level ≤ n, ∀ rest, NoCall rest → Stops (n + 1) rest → (n = 1 → Stops 1 rest) →
    ∀ steps, 2 * ts.length ≤ steps → ∀ s, State.At s (ts ++ rest) →
      ∃ m s', s'.At rest ∧ steps < m + ts.length ∧
        expression (steps + 1) level s = connected m level e s'

namespace Reaches

variable {n : Nat} {ts rest : List Token} {e : Exp}

/-- The loop that is entered at the level of a phrase, and stops behind it, answers its tree. -/
theorem parses (h : Reaches n ts e) (hcall : NoCall rest) (hstops : Stops n rest) {steps : Nat}
    (hsteps : 2 * ts.length + 1 ≤ steps) : Parses (expression steps n) ts rest e := by
  intro s hs
  obtain ⟨steps, rfl⟩ : ∃ k, steps = k + 1 := ⟨steps - 1, by omega⟩
  obtain ⟨m, s', hs', hm, hrun⟩ := h n le_rfl rest hcall (hstops.mono (by omega))
    (fun hn => hn ▸ hstops) steps (by omega) s hs
  exact ⟨s', by rw [hrun, connected_stops hs' hstops (by omega)], hs'⟩

/-- A phrase of a tighter level is one of the level before. -/
theorem tighter (hn : 1 ≤ n) (h : Reaches (n + 1) ts e) : Reaches n ts e := by
  intro level hlevel rest hcall hstops _ steps hsteps s hs
  exact h level (by omega) rest hcall (hstops.mono (by omega))
    (fun hone => by omega) steps hsteps s hs

/-- Phrases of the tightest level are those that an operand is read from, and the loop starts behind
it. -/
theorem of_operand (hne : ts ≠ []) (h : ∀ rest, NoCall rest → ∀ steps, 2 * ts.length ≤ steps + 1 →
    Parses (operand (steps + 1)) ts rest e) : Reaches 8 ts e := by
  intro level hlevel rest hcall hstops _ steps hsteps s hs
  have hpos : 0 < ts.length := List.length_pos_iff.mpr hne
  obtain ⟨steps, rfl⟩ : ∃ k, steps = k + 1 := ⟨steps - 1, by omega⟩
  obtain ⟨s', hrun, hs'⟩ := h rest hcall steps hsteps s hs
  exact ⟨steps + 1, s', hs', by omega, by rw [expression, bind_eq hrun]⟩

/-- A whole expression in front of a token that ends it. -/
theorem whole (h : Reaches 1 ts e) {t : Token} (ht : EndsExpression t) {steps : Nat}
    (hsteps : 2 * ts.length + 1 ≤ steps) : Parses (expression steps looseLevel) ts (t :: rest) e :=
  h.parses (ht.noCall rest) (ht.stops 1 rest) hsteps

/-- One round of the loop: a connective, its right operand, and their tree. -/
theorem join {c : Connective} {t : Token} {left right : List Token} {l r : Exp}
    (hl : Reaches n left l) (hc : Connective.ofKind? t.kind = some c) (hle : c.level ≤ n)
    (hn : n ≠ 1) (hr : Reaches c.rightLevel right r)
    (hjoin : ∀ s, Parser.join c t l r s = some (e, s)) :
    Reaches c.level (left ++ t :: right) e := by
  intro level hlevel rest hcall hstops hone steps hsteps s hs
  simp only [List.length_append, List.length_cons] at hsteps ⊢
  rw [List.append_assoc] at hs
  have hnext : ∀ u, Next (t :: right ++ rest) u → u = t := fun u hu => hu.eq
  have hcall' : NoCall (t :: right ++ rest) := by
    intro u hu
    obtain rfl := hnext u hu
    constructor
    · intro hk
      rw [hk] at hc
      cases hc
    · intro hk
      rw [hk] at hc
      cases hc
  -- the loop that reads the left operand must stop in front of the connective
  have hstops' : Stops (n + 1) (t :: right ++ rest) := by
    intro u hu c' hc'
    obtain rfl := hnext u hu
    rw [hc] at hc'
    cases hc'
    omega
  obtain ⟨m, s₁, hs₁, hm, hrun⟩ := hl level (by omega) _ hcall' hstops'
    (fun h => absurd h hn) steps (by omega) s hs
  obtain ⟨m, rfl⟩ : ∃ k, m = k + 1 := ⟨m - 1, by omega⟩
  -- the right operand ends where the phrase does
  have hright : Stops c.rightLevel rest := by
    cases c with
    | assignment => exact hone rfl
    | binary op => exact hstops
  obtain ⟨s₂, hrun₂, hs₂⟩ := hr.parses hcall hright (show _ ≤ m by omega) s₁.advance hs₁.advance
  refine ⟨m, s₂, hs₂, by omega, ?_⟩
  rw [hrun, connected, bind_eq (peek_eq s₁), hs₁.current]
  simp only [hc, if_pos hlevel]
  rw [bind_eq (read_eq s₁), hs₁.current, bind_eq hrun₂, bind_eq (hjoin s₂)]

/-- Production: an expression in parentheses. -/
theorem group {l r : Token} (hl : l.kind = .leftParen) (h : Reaches 1 ts e)
    (hr : r.kind = .rightParen) : Reaches 8 (l :: (ts ++ [r])) e := by
  refine of_operand (by simp) fun rest _ steps hsteps => ?_
  simp only [List.length_append, List.length_cons, List.length_nil] at hsteps
  rw [operand]
  refine Parses.read ?_
  simp only [hl]
  have hend : EndsExpression r := by simp [EndsExpression, hr]
  exact Parses.bind (h.whole hend (by omega)) (Parses.expect hr .pure)

/-- Production: a sign or a negation. Its operand is read at the tightest level, so every connective
behind it stops it. -/
theorem unary {t : Token} {op : UnaryOp}
    (ht : (t.kind, op) ∈ [(Token.Kind.minus, UnaryOp.neg), (.bang, .not)]) (h : Reaches 8 ts e) :
    Reaches 8 (t :: ts) (.unary t.pos none op e) := by
  refine of_operand (by simp) fun rest hcall steps hsteps => ?_
  simp only [List.length_cons] at hsteps
  have hstops : Stops tightLevel rest := fun u _ c _ => Nat.lt_succ_of_le c.level_bounds.2
  rw [operand]
  refine Parses.read ?_
  simp only [List.mem_cons, Prod.mk.injEq, List.not_mem_nil, or_false] at ht
  rcases ht with ⟨ht, rfl⟩ | ⟨ht, rfl⟩
  · simp only [ht]
    exact Parses.last (h.parses hcall hstops (by omega)) .pure
  · simp only [ht]
    exact Parses.last (h.parses hcall hstops (by omega)) .pure

/-- Production: a number. -/
theorem int {t : Token} {n : Nat} (h : Numeral t n) : Reaches 8 [t] (.int t.pos n) := by
  refine of_operand (by simp) fun rest _ steps _ => ?_
  rw [operand]
  refine Parses.read ?_
  simp only [h.kind, literal?_of_numeral h]
  exact .pure

/-- Production: a truth value. -/
theorem bool {t : Token} {b : Bool}
    (ht : (t.kind, b) ∈ [(Token.Kind.kwTrue, true), (.kwFalse, false)]) :
    Reaches 8 [t] (.bool t.pos b) := by
  refine of_operand (by simp) fun rest _ steps _ => ?_
  rw [operand]
  refine Parses.read ?_
  simp only [List.mem_cons, Prod.mk.injEq, List.not_mem_nil, or_false] at ht
  rcases ht with ⟨ht, rfl⟩ | ⟨ht, rfl⟩
  · simp only [ht]
    exact .pure
  · simp only [ht]
    exact .pure

/-- Production: a name that no bracket follows. -/
theorem var {t : Token} (ht : t.kind = .identifier) : Reaches 8 [t] (.var none (useOf t)) := by
  refine of_operand (by simp) fun rest hcall steps _ => ?_
  rw [operand]
  refine Parses.read ?_
  simp only [ht]
  refine Parses.reject (fun u hu => (hcall u hu).1) ?_
  exact Parses.reject (fun u hu => (hcall u hu).2) .pure

/-- Production: an element of an array. -/
theorem element {t l r : Token} (ht : t.kind = .identifier) (hl : l.kind = .leftBracket)
    (h : Reaches 1 ts e) (hr : r.kind = .rightBracket) :
    Reaches 8 (t :: l :: (ts ++ [r])) (.element none (useOf t) e) := by
  refine of_operand (by simp) fun rest _ steps hsteps => ?_
  simp only [List.length_append, List.length_cons, List.length_nil] at hsteps
  rw [operand]
  refine Parses.read ?_
  simp only [ht]
  refine Parses.reject (fun u hu => by rw [hu.eq, hl]; decide) ?_
  refine Parses.accept hl ?_
  have hend : EndsExpression r := by simp [EndsExpression, hr]
  exact Parses.bind (h.whole hend (by omega)) (Parses.expect hr .pure)

/-- Production: a call without arguments. -/
theorem callNone {t l r : Token} (ht : t.kind = .identifier) (hl : l.kind = .leftParen)
    (hr : r.kind = .rightParen) : Reaches 8 [t, l, r] (.call t.pos none t.text []) := by
  refine of_operand (by simp) fun rest _ steps _ => ?_
  rw [operand]
  refine Parses.read ?_
  simp only [ht]
  refine Parses.accept hl ?_
  refine Parses.peek fun u hu => ?_
  obtain rfl := hu.eq
  simp only [hr, if_true, pure_bind]
  exact Parses.expect hr .pure

/-- Arguments in front of the closing parenthesis. Induction on the list, with one step for each
argument. -/
theorem arguments {args : List Exp} {r : Token}
    (h : Separated (Reaches 1) ts args) (hr : r.kind = .rightParen) {steps : Nat}
    (hsteps : 2 * ts.length + 2 ≤ steps) : Parses (Parser.arguments steps) ts (r :: rest) args := by
  induction h generalizing steps with
  | one he =>
    obtain ⟨steps, rfl⟩ : ∃ k, steps = k + 1 := ⟨steps - 1, by omega⟩
    have hend : EndsExpression r := by simp [EndsExpression, hr]
    rw [Parser.arguments]
    refine Parses.last (he.whole hend (by omega)) ?_
    refine Parses.reject (fun u hu => ?_) .pure
    rw [hu.eq, hr]
    decide
  | @more _ _ comma _ _ he hcomma _ ih =>
    obtain ⟨steps, rfl⟩ : ∃ k, steps = k + 1 := ⟨steps - 1, by omega⟩
    simp only [List.length_append, List.length_cons] at hsteps
    have hend : EndsExpression comma := by simp [EndsExpression, hcomma]
    rw [Parser.arguments]
    refine Parses.bind (he.whole hend (by omega)) ?_
    refine Parses.accept hcomma ?_
    exact Parses.last (ih (by omega)) .pure

/-- Production: a call with arguments. The first token of an argument is not the closing
parenthesis, so the reader does not take the list for an empty one. -/
theorem call {t l r : Token} {args : List Exp} (ht : t.kind = .identifier)
    (hl : l.kind = .leftParen) (h : Separated (Reaches 1) ts args) (hr : r.kind = .rightParen)
    (hfirst : ∃ u us, ts = u :: us ∧ StartsExpression u.kind) :
    Reaches 8 (t :: l :: (ts ++ [r])) (.call t.pos none t.text args) := by
  refine of_operand (by simp) fun rest _ steps hsteps => ?_
  simp only [List.length_append, List.length_cons, List.length_nil] at hsteps
  rw [operand]
  refine Parses.read ?_
  simp only [ht]
  refine Parses.accept hl ?_
  refine Parses.peek fun u hu => ?_
  have hu' : u.kind ≠ .rightParen := by
    obtain ⟨v, us, rfl, hv⟩ := hfirst
    obtain rfl := hu.eq
    intro hparen
    simp [StartsExpression, hparen] at hv
  simp only [if_neg hu']
  exact Parses.bind (arguments h hr (by omega)) (Parses.expect hr .pure)

end Reaches

/-- Every expression of the grammar is reached by the loop over its connectives. -/
theorem reaches {n : Nat} {ts : List Token} {e : Exp} (h : Expression n ts e) (hn : 1 ≤ n)
    (hle : n ≤ 8) : Reaches n ts e := by
  -- the parts of a phrase have fewer tokens, or they are the phrase on the next level
  induction hk : 9 * ts.length + (8 - n) using Nat.strong_induction_on generalizing n ts e with
  | _ k ih =>
    have inner : ∀ {us e'}, us.length < ts.length → Expression 1 us e' → Reaches 1 us e' :=
      fun hlt he => ih _ (by omega) he le_rfl (by decide) rfl
    have operand : ∀ {us e'}, us.length < ts.length → Expression 8 us e' → Reaches 8 us e' :=
      fun hlt he => ih _ (by omega) he (by decide) le_rfl rfl
    cases h with
    -- the same tokens again, one level down
    | tighter hlt h => exact (ih _ (by omega) h (by omega) hlt rfl).tighter hn
    | assign ht hts hequal he =>
      simp only [List.length_append, List.length_cons] at inner operand
      have hleft := operand (by omega) (expression_of_wrapped hts (.var ht))
      exact hleft.join (c := .assignment) (by rw [hequal]; rfl) (by decide) (by decide)
        (inner (by omega) he) fun s => rfl
    | assignElement ht hl hi hr hts hequal he =>
      simp only [List.length_append, List.length_cons] at inner operand
      have hleft := operand (by omega) (expression_of_wrapped hts (.element ht hl hi hr))
      exact hleft.join (c := .assignment) (by rw [hequal]; rfl) (by decide) (by decide)
        (inner (by omega) he) fun s => rfl
    -- operators on the left are of the same level, those on the right bind more tightly
    | @binary _ _ _ _ o _ _ hop hl hr =>
      obtain ⟨hc, rfl⟩ := ofKind?_of_mem_operators hop
      simp only [List.length_append, List.length_cons] at hk
      have hbounds := (Connective.binary o).rightLevel_bounds
      have hne : (Connective.binary o).level ≠ 1 := by cases o <;> decide
      exact (ih _ (by omega) hl hn hle rfl).join hc le_rfl hne
        (ih _ (by omega) hr (by omega) hbounds.2 rfl) fun s => rfl
    | neg ht h => exact .unary (by simp [ht]) (operand (by simp) h)
    | not ht h => exact .unary (by simp [ht]) (operand (by simp) h)
    | int h => exact .int h
    | true ht => exact .bool (by simp [ht])
    | false ht => exact .bool (by simp [ht])
    | var ht => exact .var ht
    | element ht hl hi hr =>
      simp only [List.length_append, List.length_cons] at inner
      exact .element ht hl (inner (by omega) hi) hr
    | callNone ht hl hr => exact .callNone ht hl hr
    | call ht hl hargs hr =>
      simp only [List.length_append, List.length_cons] at inner
      have hparts := hargs.imp fun us e hus he => inner (by omega) he
      exact .call ht hl hparts hr (separated_first hargs)
    | group hl h hr =>
      simp only [List.length_append, List.length_cons] at inner
      exact .group hl (inner (by omega) h) hr

/-! ### Declarations of variables

Local variables, global ones and parameters all start with a type and a name. What comes behind the
name tells them apart, so the lemmas split a declaration there. -/

/-- The words that the grammar takes for types are those that the reader does. -/
theorem baseType?_of_namesType {t : Token} {base : BaseType} (h : NamesType t base) :
    baseType? t.kind = some base := by
  unfold NamesType at h
  simp only [List.mem_cons, Prod.mk.injEq, List.not_mem_nil, or_false] at h
  rcases h with ⟨h, rfl⟩ | ⟨h, rfl⟩ | ⟨h, rfl⟩ <;> rw [h] <;> rfl

/-- The name of a type is no other token. -/
theorem namesType_ne {t : Token} {base : BaseType} {kind : Token.Kind}
    (h : NamesType t base) (hkind : baseType? kind = none) : t.kind ≠ kind := by
  intro heq
  have hbase := baseType?_of_namesType h
  rw [heq, hkind] at hbase
  cases hbase

section Declarations

variable {β : Type} {ts rest : List Token} {b : β}

/-- The name of a type is read, with its position. -/
theorem Parses.typeSpecifier {ty : Token} {base : BaseType}
    {f : Option (Pos × BaseType) → Reader β} (hty : NamesType ty base)
    (h : Parses (f (some (ty.pos, base))) ts rest b) :
    Parses (Parser.typeSpecifier >>= f) (ty :: ts) rest b := by
  have hread : Parses Parser.typeSpecifier [ty] (ts ++ rest) (some (ty.pos, base)) := by
    unfold Parser.typeSpecifier
    refine Parses.peek fun t ht => ?_
    obtain rfl := ht.eq
    simp only [baseType?_of_namesType hty]
    exact Parses.read .pure
  exact hread.bind h

/-- Without an error there is nothing to recover from. -/
theorem Parses.recovered {g : State → State} {f : Unit → Reader β}
    (hg : ∀ s, s.recovering = false → g s = s) (h : Parses (f ()) ts rest b) :
    Parses (modify g >>= f) ts rest b := by
  intro s hs
  have hrun : (modify g : Reader Unit) s = some ((), s) := by
    show some ((), g s) = some ((), s)
    rw [hg s hs.recovering]
  rw [bind_eq hrun]
  exact h s hs

/-- Behind the name of a variable, a semicolon leaves it a scalar. -/
theorem parses_shape_scalar {semi : Token} (hsemi : semi.kind = .semicolon) :
    Parses shape [] (semi :: rest) (some .scalar) := by
  unfold shape
  exact Parses.reject (fun t ht => by rw [ht.eq, hsemi]; decide) .pure

/-- Behind the name of a variable, a number in brackets makes it an array. -/
theorem parses_shape_array {l size r : Token} {n : Nat} (hl : l.kind = .leftBracket)
    (hsize : Numeral size n) (hr : r.kind = .rightBracket) :
    Parses shape [l, size, r] rest (some (.array n)) := by
  unfold shape
  refine Parses.accept hl ?_
  refine Parses.expect hsize.kind ?_
  simp only [literal?_of_numeral hsize]
  exact Parses.expect hr .pure

/-- A declaration of a variable is a type, a name that no parenthesis follows, and the rest. -/
theorem variable_parts {d : VarDecl} (h : Variable ts d) : ∃ ty base name us,
    ts = ty :: name :: us ∧ NamesType ty base ∧ name.kind = .identifier ∧
      (∀ rest t, Next (us ++ rest) t → t.kind ≠ .leftParen) ∧
      ∀ rest, Parses (variableRest ty.pos base name) us rest (some d) := by
  cases h with
  | scalar hty hname hsemi =>
    refine ⟨_, _, _, _, rfl, hty, hname, fun rest t ht => ?_, fun rest => ?_⟩
    · rw [ht.eq, hsemi]
      decide
    · refine (parses_shape_scalar hsemi).skip ?_
      exact Parses.expect hsemi .pure
  | array hty hname hl hsize hr hsemi =>
    refine ⟨_, _, _, _, rfl, hty, hname, fun rest t ht => ?_, fun rest => ?_⟩
    · rw [ht.eq, hl]
      decide
    · refine (parses_shape_array hl hsize hr).bind ?_
      exact Parses.expect hsemi .pure

/-- A declaration of a variable is read as a whole where no function can be declared. -/
theorem parses_localVariable {d : VarDecl} (h : Variable ts d) :
    Parses localVariable ts rest (some d) := by
  obtain ⟨ty, base, name, us, rfl, hty, hname, -, hrest⟩ := variable_parts h
  exact Parses.typeSpecifier hty (Parses.expect hname (hrest rest))

/-- Declarations at the start of a block, up to a token that names no type. Induction on the list,
with one step for each declaration and one for the end. -/
theorem parses_localVariables {ds : List VarDecl} (h : Many Variable ts ds)
    (hrest : ∀ t, Next rest t → baseType? t.kind = none) {steps : Nat}
    (hsteps : ts.length < steps) :
    Parses (localVariables steps) ts rest ds := by
  induction h generalizing steps with
  | nil =>
    obtain ⟨steps, rfl⟩ : ∃ k, steps = k + 1 := ⟨steps - 1, by omega⟩
    rw [localVariables]
    refine Parses.peek fun t ht => ?_
    simp only [hrest t ht]
    exact .pure
  | @cons us d _ _ h _ ih =>
    obtain ⟨steps, rfl⟩ : ∃ k, steps = k + 1 := ⟨steps - 1, by omega⟩
    rw [localVariables]
    have hread : ∀ later, Parses localVariable us later (some d) := fun _ => parses_localVariable h
    obtain ⟨ty, base, name, us, rfl, hty, -⟩ := variable_parts h
    simp only [List.length_append, List.length_cons] at hsteps
    refine Parses.peek fun t ht => ?_
    obtain rfl := ht.eq
    simp only [baseType?_of_namesType hty, Option.isSome_some, if_true]
    refine Parses.bind (hread _) ?_
    refine Parses.recovered (fun s hs => if_neg (by simp [hs])) ?_
    exact Parses.last (ih (by omega)) .pure

end Declarations

/-! ### Statements

The first token decides which statement is read. An `if` is the one phrase that what follows can
change: an `else` belongs to the nearest one, so a statement that ends with an open `if` must not be
followed by an `else`. -/

/-- The kinds of tokens with which a statement can start. -/
def StartsStatement (kind : Token.Kind) : Prop :=
  StartsExpression kind ∨ kind ∈ [Token.Kind.leftBrace, .kwIf, .kwWhile, .kwReturn, .semicolon]

/-- A statement starts with one of these tokens. -/
theorem statement_first {ts : List Token} {a : Stmt} (h : Statement ts a) :
    ∃ t rest, ts = t :: rest ∧ StartsStatement t.kind := by
  cases h with
  | block hl => exact ⟨_, _, rfl, Or.inr (by simp [hl])⟩
  | ifThen hi => exact ⟨_, _, rfl, Or.inr (by simp [hi])⟩
  | ifElse hi => exact ⟨_, _, rfl, Or.inr (by simp [hi])⟩
  | whileDo hw => exact ⟨_, _, rfl, Or.inr (by simp [hw])⟩
  | bareReturn ht => exact ⟨_, _, rfl, Or.inr (by simp [ht])⟩
  | valueReturn ht => exact ⟨_, _, rfl, Or.inr (by simp [ht])⟩
  | empty hsemi => exact ⟨_, _, rfl, Or.inr (by simp [hsemi])⟩
  | exp he =>
    obtain ⟨t, rest, hts, ht⟩ := expression_first he
    cases hts
    exact ⟨_, _, rfl, Or.inl ht⟩

/-- Statements up to a closing brace start with one of the tokens of a statement, or the brace. -/
theorem next_statements {ts rest : List Token} {body : List Stmt} {r t : Token}
    (h : Many Statement ts body) (hr : r.kind = .rightBrace) (ht : Next (ts ++ r :: rest) t) :
    StartsStatement t.kind ∨ t.kind = .rightBrace := by
  cases h with
  | nil =>
    obtain rfl := ht.eq
    exact Or.inr hr
  | cons h _ =>
    obtain ⟨u, us, rfl, hu⟩ := statement_first h
    obtain rfl := ht.eq
    exact Or.inl hu

/-- What starts a statement closes no block, and starts no declaration. -/
theorem StartsStatement.ne {kind other : Token.Kind} (h : StartsStatement kind)
    (hother : other ∈ [Token.Kind.rightBrace, .eof, .kwElse, .kwInt, .kwBool, .kwVoid]) :
    kind ≠ other := by
  rintro rfl
  simp only [StartsStatement, StartsExpression, List.mem_cons, List.not_mem_nil,
    or_false] at h hother
  rcases hother with rfl | rfl | rfl | rfl | rfl | rfl <;> simp at h

/-- What starts a statement names no type, so the declarations before it end there. -/
theorem StartsStatement.baseType?_eq_none {kind : Token.Kind} (h : StartsStatement kind) :
    baseType? kind = none := by
  unfold baseType?
  split
  · exact absurd rfl (h.ne (by simp))
  · exact absurd rfl (h.ne (by simp))
  · exact absurd rfl (h.ne (by simp))
  · rfl

/-- In front of anything but an `else` for its last `if`, the statement is read as a whole. -/
def Readable (ts : List Token) (a : Stmt) : Prop :=
  ∀ rest, (Dangling a → ∀ t, Next rest t → t.kind ≠ .kwElse) → ∀ steps, 2 * ts.length ≤ steps →
    Parses (statement steps) ts rest a

section Statements

variable {ts rest : List Token}

/-- The condition of an `if` or a `while`, in its parentheses. -/
theorem Parses.test {β : Type} {b : β} {l r : Token} {cts : List Token} {e : Exp}
    {construct : Construct} {f : Exp → Reader β} (hl : l.kind = .leftParen)
    (he : Expression 1 cts e)
    (hr : r.kind = .rightParen) {steps : Nat} (hsteps : 2 * cts.length + 1 ≤ steps)
    (h : Parses (f e) ts rest b) :
    Parses (Parser.test steps construct >>= f) (l :: (cts ++ r :: ts)) rest b := by
  have hread : Parses (Parser.test steps construct) (l :: (cts ++ [r])) (ts ++ rest) e := by
    unfold Parser.test
    refine Parses.expect hl ?_
    have hend : EndsExpression r := by simp [EndsExpression, hr]
    refine Parses.bind ((reaches he le_rfl (by decide)).whole hend hsteps) ?_
    exact Parses.expect hr .pure
  simpa using hread.bind h

/-- The state that a reader asks for has no errors. -/
theorem Parses.get {β : Type} {b : β} {f : State → Reader β}
    (h : ∀ s, s.At (ts ++ rest) → Parses (f s) ts rest b) : Parses (get >>= f) ts rest b :=
  fun s hs => h s hs s hs

/-- Statements up to the brace that closes their block. Induction on the list; `hread` stands for
the statements in the block, which are shorter than it. -/
theorem parses_statements {body : List Stmt} {r : Token} (h : Many Statement ts body)
    (hread : ∀ us a, us.length ≤ ts.length → Statement us a → Readable us a)
    (hr : r.kind = .rightBrace) {steps : Nat} (hsteps : 2 * ts.length + 1 ≤ steps) :
    Parses (statements steps) ts (r :: rest) body := by
  induction h generalizing steps with
  | nil =>
    obtain ⟨steps, rfl⟩ : ∃ k, steps = k + 1 := ⟨steps - 1, by omega⟩
    rw [statements]
    refine Parses.get fun s hs => ?_
    rw [if_pos (Or.inl (hs.current ▸ hr))]
    exact .pure
  | @cons us a later as h hlater ih =>
    obtain ⟨steps, rfl⟩ : ∃ k, steps = k + 1 := ⟨steps - 1, by omega⟩
    obtain ⟨u, us', hus, hu⟩ := statement_first h
    simp only [List.length_append] at hsteps hread
    have hpos : 0 < us.length := by simp [hus]
    rw [statements]
    refine Parses.get fun s hs => ?_
    have hs' : s.At (u :: (us' ++ later ++ r :: rest)) := by simpa [hus] using hs
    rw [hs'.current, if_neg (not_or.mpr ⟨hu.ne (by simp), hu.ne (by simp)⟩)]
    -- behind a statement comes another or the brace, never an `else` that could belong to it
    refine Parses.bind (hread us a (by omega) h _ (fun _ t ht => ?_) steps (by omega)) ?_
    · rcases next_statements hlater hr ht with hstart | hbrace
      · exact hstart.ne (by simp)
      · rw [hbrace]
        decide
    · refine Parses.recovered (fun s hs => if_neg (by simp [hs])) ?_
      exact Parses.last (ih (fun vs a hle => hread vs a (by omega)) (by omega)) .pure

/-- The declarations and statements of a block, and its closing brace. -/
theorem parses_blockRest {dts bts : List Token} {ds : List VarDecl} {body : List Stmt} {r : Token}
    (hds : Many Variable dts ds) (hbody : Many Statement bts body)
    (hread : ∀ us a, us.length ≤ bts.length → Statement us a → Readable us a)
    (hr : r.kind = .rightBrace) {steps : Nat} (hsteps : 2 * (dts.length + bts.length) + 2 ≤ steps) :
    Parses (blockRest steps) (dts ++ bts ++ [r]) rest (ds, body) := by
  obtain ⟨steps, rfl⟩ : ∃ k, steps = k + 1 := ⟨steps - 1, by omega⟩
  rw [blockRest, List.append_assoc]
  have hstop : ∀ t, Next (bts ++ [r] ++ rest) t → baseType? t.kind = none := by
    intro t ht
    rw [List.append_assoc] at ht
    rcases next_statements hbody hr ht with hstart | hbrace
    · exact hstart.baseType?_eq_none
    · rw [hbrace]
      rfl
  refine Parses.bind (parses_localVariables hds hstop (by omega)) ?_
  refine Parses.bind (parses_statements hbody hread hr (by omega)) ?_
  exact Parses.expect hr .pure

/-- Every statement of the grammar is read as a whole. -/
theorem readable {a : Stmt} (h : Statement ts a) : Readable ts a := by
  induction hk : ts.length using Nat.strong_induction_on generalizing ts a with
  | _ k ih =>
    subst hk
    intro rest hother steps hsteps
    obtain ⟨u, us, hus, hu⟩ := statement_first h
    have hpos : 0 < ts.length := by simp [hus]
    obtain ⟨steps, rfl⟩ : ∃ k, steps = k + 1 := ⟨steps - 1, by omega⟩
    rw [statement]
    cases h with
    | @block _ _ _ bts _ _ hl hds hbody hr =>
      simp only [List.length_append, List.length_cons, List.length_nil] at ih hsteps
      refine Parses.look ?_
      simp only [hl]
      refine Parses.read ?_
      have hread : ∀ us a, us.length ≤ bts.length → Statement us a → Readable us a :=
        fun us a hle h => ih us.length (by omega) h rfl
      refine Parses.last (parses_blockRest hds hbody hread hr (by omega)) ?_
      exact .pure
    -- nothing that could follow the inner statement is an `else`, or it would belong to this one
    | ifThen hi hl htest hr ha =>
      simp only [List.length_append, List.length_cons] at ih hsteps
      refine Parses.look ?_
      simp only [hi]
      refine Parses.read ?_
      refine Parses.test hl htest hr (by omega) ?_
      refine Parses.last (ih _ (by omega) ha rfl rest (fun _ => hother trivial) _ (by omega)) ?_
      exact Parses.reject (hother trivial) .pure
    -- the first branch does not end with an open `if`, so it leaves the `else` to this one
    | ifElse hi hl htest hr ha hnearest helse hb =>
      simp only [List.length_append, List.length_cons] at ih hsteps
      refine Parses.look ?_
      simp only [hi]
      refine Parses.read ?_
      refine Parses.test hl htest hr (by omega) ?_
      refine Parses.bind (ih _ (by omega) ha rfl _ (fun h => absurd h hnearest) _ (by omega)) ?_
      refine Parses.accept helse ?_
      exact Parses.last (ih _ (by omega) hb rfl rest hother _ (by omega)) .pure
    | whileDo hw hl htest hr hb =>
      simp only [List.length_append, List.length_cons] at ih hsteps
      refine Parses.look ?_
      simp only [hw]
      refine Parses.read ?_
      refine Parses.test hl htest hr (by omega) ?_
      exact Parses.last (ih _ (by omega) hb rfl rest hother _ (by omega)) .pure
    | bareReturn ht hsemi =>
      refine Parses.look ?_
      simp only [ht]
      refine Parses.read ?_
      exact Parses.accept hsemi .pure
    | @valueReturn _ _ _ semi ht he hsemi =>
      simp only [List.length_append, List.length_cons] at hsteps
      obtain ⟨v, vs, rfl, hv⟩ := expression_first he
      have hend : EndsExpression semi := by simp [EndsExpression, hsemi]
      refine Parses.look ?_
      simp only [ht]
      refine Parses.read ?_
      refine Parses.reject (fun w hw => ?_) ?_
      · rw [hw.eq]
        intro hkind
        simp [StartsExpression, hkind] at hv
      · refine Parses.bind ((reaches he le_rfl (by decide)).whole hend (by omega)) ?_
        exact Parses.expect hsemi .pure
    | empty hsemi =>
      refine Parses.look ?_
      simp only [hsemi]
      exact Parses.read .pure
    | @exp t ts e semi he hsemi =>
      simp only [List.length_append, List.length_cons] at hsteps
      have hend : EndsExpression semi := by simp [EndsExpression, hsemi]
      obtain ⟨v, vs, hvs, hv⟩ := expression_first he
      cases hvs
      -- all other statements start with a word of their own
      have hread : Parses (do
          let e ← expression steps looseLevel
          let _ ← expect .semicolon .openStatement
          return Stmt.exp t.pos e) (t :: ts ++ [semi]) rest (.exp t.pos e) := by
        have hwhole := reaches he le_rfl (by decide)
        refine Parses.bind (hwhole.whole hend (by simp only [List.length_cons]; omega)) ?_
        exact Parses.expect hsemi .pure
      refine Parses.look ?_
      -- no other statement starts with a token of an expression
      simp only [StartsExpression, List.mem_cons, List.not_mem_nil, or_false] at hv
      rcases hv with hv | hv | hv | hv | hv | hv | hv <;> simp only [hv] <;> exact hread

end Statements

/-! ### Programs

A declaration is a variable or a function, which the token behind its name tells. -/

section Programs

variable {ts rest : List Token}

/-- A parameter is a type, a name, and the rest, which is read up to a token that is no bracket. -/
theorem parameter_parts {d : VarDecl} (h : Parameter ts d) : ∃ ty base name us,
    ts = ty :: name :: us ∧ NamesType ty base ∧ name.kind = .identifier ∧
      ∀ rest, (∀ t, Next rest t → t.kind ≠ .leftBracket) →
        Parses (parameterRest ty.pos base) (name :: us) rest (some d) := by
  cases h with
  | scalar hty hname =>
    refine ⟨_, _, _, _, rfl, hty, hname, fun rest hrest => ?_⟩
    refine Parses.expect hname ?_
    exact Parses.reject hrest .pure
  | reference hty hname hl hr =>
    refine ⟨_, _, _, _, rfl, hty, hname, fun rest _ => ?_⟩
    refine Parses.expect hname ?_
    refine Parses.accept hl ?_
    exact Parses.expect hr .pure

/-- A parameter list starts with the name of a type. -/
theorem parameterList_first {params : List VarDecl} (h : Separated Parameter ts params) :
    ∃ ty base us, ts = ty :: us ∧ NamesType ty base := by
  cases h with
  | one h =>
    obtain ⟨ty, base, name, us, rfl, hty, -⟩ := parameter_parts h
    exact ⟨ty, base, _, rfl, hty⟩
  | more h hcomma _ =>
    obtain ⟨ty, base, name, us, rfl, hty, -⟩ := parameter_parts h
    exact ⟨ty, base, _, rfl, hty⟩

/-- Parameters in front of the closing parenthesis. Induction on the list, with one step for each.
-/
theorem parses_parameterList {params : List VarDecl} {r : Token} (h : Separated Parameter ts params)
    (hr : r.kind = .rightParen) (first : Bool) {steps : Nat} (hsteps : ts.length ≤ steps) :
    Parses (parameterList steps first) ts (r :: rest) (some params) := by
  induction h generalizing steps first with
  | one h =>
    obtain ⟨ty, base, name, us, rfl, hty, hname, hread⟩ := parameter_parts h
    simp only [List.length_cons] at hsteps
    obtain ⟨steps, rfl⟩ : ∃ k, steps = k + 1 := ⟨steps - 1, by omega⟩
    rw [parameterList]
    refine Parses.typeSpecifier hty ?_
    refine Parses.look ?_
    rw [if_neg (by simp [hname])]
    refine Parses.last (hread _ fun t ht => by rw [ht.eq, hr]; decide) ?_
    exact Parses.reject (fun t ht => by rw [ht.eq, hr]; decide) .pure
  | more h hcomma _ ih =>
    obtain ⟨ty, base, name, us, rfl, hty, hname, hread⟩ := parameter_parts h
    simp only [List.length_append, List.length_cons] at hsteps
    obtain ⟨steps, rfl⟩ : ∃ k, steps = k + 1 := ⟨steps - 1, by omega⟩
    rw [parameterList]
    refine Parses.typeSpecifier hty ?_
    refine Parses.look ?_
    rw [if_neg (by simp [hname])]
    refine Parses.bind (hread _ fun t ht => by rw [ht.eq, hcomma]; decide) ?_
    refine Parses.accept hcomma ?_
    exact Parses.last (ih false (by omega)) .pure

/-- The parameters of a function: nothing, the word `void`, or a list. The word is also the name of
a type, but then a name follows it and not the parenthesis. -/
theorem parses_parameters {params : List VarDecl} {r : Token} (h : Parameters ts params)
    (hr : r.kind = .rightParen) {steps : Nat} (hsteps : ts.length ≤ steps) :
    Parses (parameters steps) ts (r :: rest) (some params) := by
  unfold parameters
  cases h with
  | none =>
    refine Parses.peek fun t ht => ?_
    rw [ht.eq, if_pos hr]
    exact .pure
  | @void ty ht =>
    rw [List.length_singleton] at hsteps
    obtain ⟨steps, rfl⟩ : ∃ k, steps = k + 1 := ⟨steps - 1, by omega⟩
    refine Parses.look ?_
    have hty : NamesType ty .void := by simp [NamesType, ht]
    rw [if_neg (namesType_ne hty (by decide)), parameterList]
    refine Parses.typeSpecifier hty ?_
    refine Parses.peek fun t ht => ?_
    rw [if_pos ⟨rfl, rfl, ht.eq ▸ hr⟩]
    exact .pure
  | some h =>
    refine Parses.peek fun t ht => ?_
    obtain ⟨ty, base, us, rfl, hty⟩ := parameterList_first h
    rw [if_neg (ht.eq ▸ namesType_ne hty (by decide))]
    exact parses_parameterList h hr true hsteps

/-- A declaration of the grammar is read as a whole, whatever follows it. -/
theorem parses_declaration {d : Decl} (h : Declaration ts d) {steps : Nat}
    (hsteps : 2 * ts.length ≤ steps) : Parses (declaration steps) ts rest (some d) := by
  unfold declaration
  cases h with
  | var h =>
    obtain ⟨ty, base, name, us, rfl, hty, hname, hparen, hrest⟩ := variable_parts h
    refine Parses.typeSpecifier hty ?_
    refine Parses.expect hname ?_
    -- no parenthesis follows the name of a variable
    refine Parses.reject (hparen rest) ?_
    exact Parses.last (hrest rest) .pure
  | prototype hty hname hl hparams hr hsemi =>
    simp only [List.length_append, List.length_cons] at hsteps
    refine Parses.typeSpecifier hty ?_
    refine Parses.expect hname ?_
    refine Parses.accept hl ?_
    refine Parses.last (a := some _) ?_ .pure
    unfold functionRest
    refine Parses.bind (parses_parameters hparams hr (by omega)) ?_
    refine Parses.expect hr ?_
    exact Parses.accept hsemi .pure
  | definition hty hname hl hparams hr hbrace hds hbody hstop =>
    simp only [List.length_append, List.length_cons] at hsteps
    refine Parses.typeSpecifier hty ?_
    refine Parses.expect hname ?_
    refine Parses.accept hl ?_
    refine Parses.last (a := some _) ?_ .pure
    unfold functionRest
    refine Parses.bind (parses_parameters hparams hr (by omega)) ?_
    refine Parses.expect hr ?_
    -- a brace is no semicolon, so this is no prototype
    refine Parses.reject (fun t ht => by rw [ht.eq, hbrace]; decide) ?_
    refine Parses.expect hbrace ?_
    exact Parses.last (parses_blockRest hds hbody (fun us a _ h => readable h) hstop
      (by omega)) .pure

/-- A declaration starts with the name of a type. -/
theorem declaration_first {d : Decl} (h : Declaration ts d) :
    ∃ ty base us, ts = ty :: us ∧ NamesType ty base := by
  cases h with
  | var h =>
    obtain ⟨ty, base, name, us, rfl, hty, -⟩ := variable_parts h
    exact ⟨ty, base, _, rfl, hty⟩
  | prototype hty => exact ⟨_, _, _, rfl, hty⟩
  | definition hty => exact ⟨_, _, _, rfl, hty⟩

/-- The declarations of a whole input. -/
theorem parses_declarations {ds : List Decl} (h : Many Declaration ts ds) {steps : Nat}
    (hsteps : 2 * ts.length + 1 ≤ steps) : Parses (declarations steps) ts [] ds := by
  induction h generalizing steps with
  | nil =>
    obtain ⟨steps, rfl⟩ : ∃ k, steps = k + 1 := ⟨steps - 1, by omega⟩
    rw [declarations]
    refine Parses.get fun s hs => ?_
    have heof : s.current.kind = .eof := by
      rcases hs.next with hhead | ⟨-, heof⟩
      · cases hhead
      · exact heof
    rw [if_pos heof]
    exact .pure
  | @cons us d later ds h _ ih =>
    obtain ⟨steps, rfl⟩ : ∃ k, steps = k + 1 := ⟨steps - 1, by omega⟩
    obtain ⟨ty, base, vs, hvs, hty⟩ := declaration_first h
    simp only [List.length_append] at hsteps
    have hpos : 0 < us.length := by simp [hvs]
    rw [declarations]
    refine Parses.get fun s hs => ?_
    have hs' : s.At (ty :: (vs ++ later)) := by simpa [hvs] using hs
    rw [hs'.current, if_neg (namesType_ne hty (by decide))]
    refine Parses.bind (parses_declaration h (by omega)) ?_
    refine Parses.recovered (fun s hs => if_neg (by simp [hs])) ?_
    exact Parses.last (ih (by omega)) .pure

end Programs

end Parser

/-! ### The parser and the grammar

The tokens of a source are followed by an unlimited number of end tokens, of which no phrase has
any. -/

/-- No token of a source is the end. Induction along the scan. -/
theorem Cursor.tokens_ne_eof (cursor : Cursor) : ∀ t ∈ cursor.tokens.tokens, t.kind ≠ .eof := by
  fun_induction Cursor.tokens cursor with
  | case1 cursor h => simp
  | case2 cursor h behind ih =>
    rintro t (_ | ⟨_, ht⟩)
    · exact h
    · exact ih t ht

/-- The parser starts in a sane state, which has all tokens to read unless the first one is
reported. -/
theorem Parser.start_sane (stream : TokenStream) : (Parser.start stream).Sane ∧
    ((Parser.start stream).errors = [] → (Parser.start stream).unread = stream.tokens) := by
  have hsettled := State.settle_sane (s := ⟨none, [], stream.stop, [], false⟩)
    (by simp) stream.tokens
  exact ⟨hsettled.1, fun herr => (hsettled.2 herr).2⟩

/-- If all tokens are of the language, the parser starts with all of them and without an error. -/
theorem Parser.start_at {stream : TokenStream} (h : ∀ t ∈ stream.tokens, t.Valid) :
    (Parser.start stream).At stream.tokens := by
  have hstart : Parser.start stream = ⟨none, stream.tokens, stream.stop, [], false⟩ := by
    unfold Parser.start
    cases hts : stream.tokens with
    | nil => rfl
    | cons t ts =>
      rw [State.settle]
      split
      · rename_i fault hfault
        exact absurd hfault (h t (by simp [hts]) fault)
      · rfl
  rw [hstart]
  exact ⟨rfl, rfl, rfl, h⟩

/-- A program is accepted if its declarations are read to the end without an error. -/
theorem ofTokens_eq_ok_iff {stream : TokenStream} {p : Program} : Program.ofTokens stream = .ok p ↔
    ∃ s, Parser.declarations (Parser.bound stream.tokens.length) (Parser.start stream) =
      some (p.decls, s) ∧ s.errors = [] ∧ p.globalsEnd = 0 := by
  obtain ⟨ds, globalsEnd⟩ := p
  unfold Program.ofTokens StateT.run
  cases hrun : Parser.declarations (Parser.bound stream.tokens.length) (Parser.start stream) with
  | none => simp
  | some x =>
    obtain ⟨decls, s⟩ := x
    simp only [Option.some.injEq, Prod.mk.injEq, List.isEmpty_iff]
    split
    · rename_i herr
      simp only [Except.ok.injEq, Program.mk.injEq]
      constructor
      · rintro ⟨rfl, rfl⟩
        exact ⟨s, ⟨rfl, rfl⟩, herr, rfl⟩
      · rintro ⟨_, ⟨rfl, rfl⟩, -, rfl⟩
        exact ⟨rfl, rfl⟩
    · rename_i herr
      constructor
      · rintro ⟨⟩
      · rintro ⟨_, ⟨-, rfl⟩, herr', -⟩
        exact absurd herr' herr

/-- The tokens of an accepted source are of the language, and the grammar derives its tree. -/
theorem derives_of_parse {source : String} {p : Program} (h : parse source = .ok p) :
    (∀ t ∈ (scan source).tokens, t.Valid) ∧ Grammar.Program (scan source).tokens p := by
  rw [parse, ofTokens_eq_ok_iff] at h
  obtain ⟨s, hrun, herr, hend⟩ := h
  obtain ⟨hsane, hsettled⟩ := Parser.start_sane (scan source)
  obtain ⟨-, hread⟩ := Parser.reads_declarations _ _ _ _ hrun hsane rfl
  obtain ⟨hstart, hparts⟩ := hread herr
  obtain ⟨used, hsplit, hvalid, hdecls, heof⟩ := hparts trivial
  rw [hsettled hstart] at hsplit
  -- no token is the end of the input, so nothing is left
  have hnil : s.unread = [] := by
    cases hrest : s.unread with
    | nil => rfl
    | cons t rest =>
      have ht := heof t (by rw [hrest]; exact Or.inl rfl)
      have hmem : t ∈ (scan source).tokens := by simp [hsplit, hrest]
      exact absurd ht (Cursor.tokens_ne_eof _ t hmem)
  rw [hnil, List.append_nil] at hsplit
  rw [hsplit]
  exact ⟨hvalid, hdecls, hend⟩

/-- The parser accepts a source exactly when all its tokens are of the language and the grammar
derives a program from them, and answers the tree of that derivation. -/
theorem parse_eq_ok_iff (source : String) (p : Program) : parse source = .ok p ↔
    (∀ t ∈ (scan source).tokens, t.Valid) ∧ Grammar.Program (scan source).tokens p := by
  constructor
  · exact derives_of_parse
  · rintro ⟨hvalid, hdecls, hend⟩
    rw [parse, ofTokens_eq_ok_iff]
    have hbound : 2 * (scan source).tokens.length + 1 ≤
        Parser.bound (scan source).tokens.length := by
      unfold Parser.bound
      omega
    have hstart := Parser.start_at hvalid
    rw [← List.append_nil (scan source).tokens] at hstart
    obtain ⟨s, hrun, hs⟩ := Parser.parses_declarations hdecls hbound _ hstart
    exact ⟨s, hrun, hs.errors, hend⟩

end MiniC
