import Mathlib.Tactic.Common
import MiniC.Proofs.Sizes
import MiniC.Proofs.Grammar.Rules

/-!
# What the parser accepts

The parser goes on after an error, so most of its runs say nothing about the grammar. What counts is
that an error is never forgotten: a run that ends without errors has met none on its way. Readers
are described by what they have read when they end so; the description of a sequence follows from
those of its parts, and an error reported anywhere makes it true of nothing.

* `Reads`: what a reader has read, if no error was found
* `readsExpressions`: the levels of binding, against the levels of the grammar
* `readsStatements`, `reads_declarations`: statements and programs
-/

namespace MiniC

/-- A token of the language. -/
def Token.Valid (t : Token) : Prop :=
  ∀ fault, t.kind ≠ .invalid fault

namespace Parser

open Grammar

/-! ### Errors are kept

The parser is silent while it recovers from an error, so a report can leave the errors as they were.
It is silent behind an error only (`Sane`), and so the errors are not empty then. Nothing removes
one. -/

namespace State

/-- Silence follows an error, and the next token is one of the language. -/
structure Sane (s : State) : Prop where
  silence : s.recovering = true → s.errors ≠ []
  settled : ∀ t ∈ s.unread.head?, t.Valid

variable {s : State}

/-- There is an error after a report, also if it is made in silence. -/
theorem report_errors_ne (h : s.recovering = true → s.errors ≠ []) (t : Token)
    (fault : SyntaxFault) : (s.report t fault).errors ≠ [] := by
  unfold report
  split
  · rename_i hrec
    exact h hrec
  · simp

/-- Tokens that are not of the language are reported and left out, so a state that has settled is
sane; if it has no errors, nothing was left out. Induction on the tokens. -/
theorem settle_sane (h : s.recovering = true → s.errors ≠ []) (ts : List Token) :
    (s.settle ts).Sane ∧
      ((s.settle ts).errors = [] → s.errors = [] ∧ (s.settle ts).unread = ts) := by
  induction ts generalizing s with
  | nil => exact ⟨⟨h, by simp [settle]⟩, fun herr => ⟨herr, rfl⟩⟩
  | cons t rest ih =>
    rw [settle]
    split
    · rename_i fault hkind
      have hne := report_errors_ne h t (.lexical fault)
      obtain ⟨hsane, herrors⟩ := ih (s := s.report t (.lexical fault)) fun _ => hne
      exact ⟨hsane, fun herr => absurd (herrors herr).1 hne⟩
    · rename_i hvalid
      refine ⟨⟨h, ?_⟩, fun herr => ⟨herr, rfl⟩⟩
      rintro u ⟨⟩ fault hfault
      exact hvalid fault hfault

/-- Reading a token keeps a state sane, and takes no other token unless there is an error. -/
theorem Sane.advance (h : s.Sane) : s.advance.Sane ∧
    (s.advance.errors = [] → s.errors = [] ∧ s.advance.unread = s.unread.tail) :=
  settle_sane (s := { s with last := some s.current.kind }) h.silence _

/-- A report keeps a state sane. -/
theorem Sane.report (h : s.Sane) (t : Token) (fault : SyntaxFault) : (s.report t fault).Sane := by
  refine ⟨fun _ => report_errors_ne h.silence t fault, ?_⟩
  rw [report_unread]
  exact h.settled

/-- Skipping tokens up to the start of a phrase keeps a state sane, and keeps its errors. -/
theorem Sane.seekPhrase (h : s.Sane) :
    s.seekPhrase.Sane ∧ (s.seekPhrase.errors = [] → s.errors = []) := by
  fun_induction State.seekPhrase s with
  | case1 s hnil => exact ⟨h, id⟩
  | case2 s hne hphrase => exact ⟨h, id⟩
  | case3 s hne hphrase ih =>
    obtain ⟨hsane, herrors⟩ := h.advance
    obtain ⟨hsane', herrors'⟩ := ih hsane
    exact ⟨hsane', fun herr => (herrors (herrors' herr)).1⟩

/-- Ending the silence keeps a state sane, and keeps its errors. -/
theorem Sane.synchronize (h : s.Sane) :
    s.synchronize.Sane ∧ (s.synchronize.errors = [] → s.errors = []) :=
  Sane.seekPhrase (s := { s with recovering := false }) ⟨fun hrec => (by cases hrec), h.settled⟩

/-- Recovery does nothing where no error was found. -/
theorem Sane.recover (h : s.Sane) (start : Pos) : (s.recover start).Sane ∧
    ((s.recover start).errors = [] → s.errors = [] ∧ (s.recover start).unread = s.unread) := by
  unfold State.recover
  split
  · rename_i hrec
    have hne := h.silence hrec
    obtain ⟨hsane, herrors⟩ := h.synchronize
    obtain ⟨hsane', herrors'⟩ := hsane.advance
    simp only
    split
    · exact ⟨hsane', fun herr => absurd (herrors (herrors' herr).1) hne⟩
    · exact ⟨hsane, fun herr => absurd (herrors herr) hne⟩
  · exact ⟨h, fun herr => ⟨herr, rfl⟩⟩

end State

/-! ### What a reader has read

`Reads` is a triple: what is known before a reader, and how its answer, the tokens that it has read
and those that it has left are related afterwards, if no error was reported. Each construct of the
monad has a rule, and so have the primitive readers; the rule for a sequence hands on what is known
so far. -/

/-- From the tokens `ts` on, and if `P` holds there, the reader has read some of them when it ends
without errors. What it answers, what it has read and what it has left are related by `Q`. No error
is forgotten in any case. -/
def Reads {α : Type} (P : Prop) (ts : List Token) (r : Reader α)
    (Q : α → List Token → List Token → Prop) : Prop :=
  ∀ s a s', r s = some (a, s') → s.Sane → s.unread = ts →
    s'.Sane ∧ (s'.errors = [] → s.errors = [] ∧
      (P → ∃ used, ts = used ++ s'.unread ∧ (∀ t ∈ used, t.Valid) ∧ Q a used s'.unread))

/-- The token that comes next: the first one, or the end of the input. -/
def Next (ts : List Token) (t : Token) : Prop :=
  ts.head? = some t ∨ ts = [] ∧ t.kind = .eof

/-- The token that the reader looks at comes next. -/
theorem State.next_current (s : State) : Next s.unread s.current := by
  unfold State.current
  cases s.unread with
  | nil => exact Or.inr ⟨rfl, rfl⟩
  | cons t rest => exact Or.inl rfl

/-- One token comes next. -/
theorem Next.eq {t u : Token} {rest : List Token} (h : Next (t :: rest) u) : u = t := by
  rcases h with h | ⟨h, -⟩
  · exact (Option.some.inj h).symm
  · cases h

/-- Two tokens that come next are of the same kind, also at the end of the input. -/
theorem Next.kind_eq {ts : List Token} {t u : Token} (ht : Next ts t) (hu : Next ts u) :
    t.kind = u.kind := by
  cases ts with
  | nil =>
    rcases ht with ht | ⟨-, ht⟩
    · cases ht
    · rcases hu with hu | ⟨-, hu⟩
      · cases hu
      · rw [ht, hu]
  | cons v rest => rw [ht.eq, hu.eq]

namespace Reads

variable {α β : Type} {P P₀ : Prop} {ts : List Token}

/-- A sequence has read what its parts have read. The second part is given what is known of the
first one. -/
theorem bind {x : Reader α} {f : α → Reader β} {G : α → List Token → List Token → Prop}
    {Q : β → List Token → List Token → Prop} (hx : Reads P₀ ts x G) (hP : P → P₀)
    (hf : ∀ a used mid, Reads (P ∧ ts = used ++ mid ∧ G a used mid) mid (f a)
      fun b later rest => Q b (used ++ later) rest) : Reads P ts (x >>= f) Q := by
  intro s b s' h hsane hts
  obtain ⟨a, s₁, h₁, h₂⟩ := bind_eq_some_iff.mp h
  obtain ⟨hsane₁, herrors₁⟩ := hx _ _ _ h₁ hsane hts
  refine ⟨(hf a [] s₁.unread _ _ _ h₂ hsane₁ rfl).1, fun herr => ?_⟩
  have herr₁ := ((hf a [] s₁.unread _ _ _ h₂ hsane₁ rfl).2 herr).1
  obtain ⟨herr₀, hread⟩ := herrors₁ herr₁
  refine ⟨herr₀, fun hp => ?_⟩
  obtain ⟨used, hsplit, hvalid, hG⟩ := hread (hP hp)
  obtain ⟨later, hsplit', hvalid', hQ⟩ :=
    ((hf a used s₁.unread _ _ _ h₂ hsane₁ rfl).2 herr).2 ⟨hp, hsplit, hG⟩
  refine ⟨used ++ later, ?_, List.forall_mem_append.mpr ⟨hvalid, hvalid'⟩, hQ⟩
  rw [hsplit, hsplit', List.append_assoc]

/-- The first reader needs nothing to be known. -/
theorem andThen {x : Reader α} {f : α → Reader β} {G : α → List Token → List Token → Prop}
    {Q : β → List Token → List Token → Prop} (hx : Reads True ts x G)
    (hf : ∀ a used mid, Reads (P ∧ ts = used ++ mid ∧ G a used mid) mid (f a)
      fun b later rest => Q b (used ++ later) rest) : Reads P ts (x >>= f) Q :=
  hx.bind (fun _ => trivial) hf

/-- An answer has read nothing. -/
theorem pure {a : α} {Q : α → List Token → List Token → Prop} (h : P → Q a [] ts) :
    Reads P ts (Pure.pure a) Q := by
  intro s b s' hrun hsane hts
  obtain ⟨rfl, rfl⟩ := pure_eq_some_iff.mp hrun
  refine ⟨hsane, fun herr => ⟨herr, fun hp => ⟨[], hts.symm, by simp, ?_⟩⟩⟩
  rw [hts]
  exact h hp

/-- Specifications can be weakened: more may be known before, and less said after. -/
theorem mono {r : Reader α} {Q Q₀ : α → List Token → List Token → Prop} (h : Reads P₀ ts r Q₀)
    (hP : P → P₀) (hQ : ∀ a used rest, P → ts = used ++ rest → Q₀ a used rest → Q a used rest) :
    Reads P ts r Q := by
  intro s a s' hrun hsane hts
  obtain ⟨hsane', herrors⟩ := h _ _ _ hrun hsane hts
  refine ⟨hsane', fun herr => ⟨(herrors herr).1, fun hp => ?_⟩⟩
  obtain ⟨used, hsplit, hvalid, hQ₀⟩ := (herrors herr).2 (hP hp)
  exact ⟨used, hsplit, hvalid, hQ _ _ _ hp hsplit hQ₀⟩

/-- A reader that has run out of steps gives no answer, so anything is true of it. -/
theorem outOfSteps {Q : α → List Token → List Token → Prop} : Reads P ts Parser.outOfSteps Q := by
  intro s a s' h
  cases h

end Reads

section Primitives

variable {ts : List Token}

/-- Looking at the next token reads nothing. -/
theorem reads_peek : Reads True ts peek fun t used rest => used = [] ∧ Next rest t := by
  rintro s t s' ⟨⟩ hsane rfl
  exact ⟨hsane, fun herr => ⟨herr, fun _ => ⟨[], rfl, by simp, rfl, s.next_current⟩⟩⟩

/-- One token is read, or the end of the input, which stays where it is. -/
theorem reads_read : Reads True ts read
    fun t used rest => used = [t] ∨ used = [] ∧ rest = [] ∧ t.kind = .eof := by
  rintro s t s' ⟨⟩ hsane rfl
  obtain ⟨hsane', herrors⟩ := hsane.advance
  refine ⟨hsane', fun herr => ?_⟩
  obtain ⟨herr₀, hunread⟩ := herrors herr
  refine ⟨herr₀, fun _ => ?_⟩
  rw [hunread]
  cases hts : s.unread with
  | nil => exact ⟨[], rfl, by simp, Or.inr ⟨rfl, rfl, by simp [State.current, hts, Token.ofEnd]⟩⟩
  | cons t rest =>
    refine ⟨[t], rfl, ?_, Or.inl (by simp [State.current, hts])⟩
    rw [List.forall_mem_singleton]
    exact hsane.settled t (by simp [hts])

/-- No state without errors is left behind a report. -/
theorem reads_report (t : Token) (fault : SyntaxFault) :
    Reads True ts (report t fault) fun _ _ _ => False := by
  rintro s _ s' ⟨⟩ hsane rfl
  exact ⟨hsane.report t fault, fun herr => absurd herr
    (State.report_errors_ne hsane.silence t fault)⟩

/-- A token that was looked at before is read. -/
theorem reads_read_of_next {t : Token} (ht : t.kind ≠ .eof) :
    Reads (Next ts t) ts read fun u used _ => u = t ∧ used = [t] := by
  refine reads_read.mono (fun _ => trivial) ?_
  rintro u used rest hnext rfl (rfl | ⟨rfl, rfl, -⟩)
  · obtain rfl := Next.eq hnext
    exact ⟨rfl, rfl⟩
  · rcases hnext with hnext | ⟨-, heof⟩
    · cases hnext
    · exact absurd heof ht

/-- A token of a known kind is read from the input. -/
theorem read_one {t : Token} {used rest : List Token} {kind : Token.Kind}
    (h : used = [t] ∨ used = [] ∧ rest = [] ∧ t.kind = .eof) (ht : t.kind = kind)
    (hk : kind ≠ .eof := by decide) : used = [t] := by
  rcases h with h | ⟨-, -, heof⟩
  · exact h
  · exact absurd (ht.symm.trans heof) hk

/-- A token of the kind is read if it comes next, and else nothing. -/
theorem reads_accept {kind : Token.Kind} (hk : kind ≠ .eof) : Reads True ts (accept kind)
    fun b used rest => if b then ∃ t, used = [t] ∧ t.kind = kind
      else used = [] ∧ ∀ t, Next rest t → t.kind ≠ kind := by
  unfold accept
  refine reads_peek.andThen fun t used mid => ?_
  split
  · rename_i ht
    refine (reads_read_of_next (t := t) (by rw [ht]; exact hk)).bind (fun h => h.2.2.2)
      fun u later rest => ?_
    refine Reads.pure ?_
    rintro ⟨⟨-, -, rfl, -⟩, -, rfl, rfl⟩
    exact ⟨u, rfl, ht⟩
  · rename_i ht
    refine Reads.pure ?_
    rintro ⟨-, -, rfl, hnext⟩
    exact ⟨rfl, fun u hu => hu.kind_eq hnext ▸ ht⟩

/-- If there is no error, the token was there. -/
theorem reads_expect {kind : Token.Kind} (hk : kind ≠ .eof) (fault : SyntaxFault) :
    Reads True ts (expect kind fault) fun o used _ => ∃ t, o = some t ∧ used = [t] ∧
      t.kind = kind := by
  unfold expect
  refine reads_peek.andThen fun t used mid => ?_
  split
  · rename_i ht
    refine (reads_read_of_next (t := t) (by rw [ht]; exact hk)).bind (fun h => h.2.2.2)
      fun u later rest => ?_
    refine Reads.pure ?_
    rintro ⟨⟨-, -, rfl, -⟩, -, rfl, rfl⟩
    exact ⟨u, rfl, rfl, ht⟩
  · refine (reads_report t fault).andThen fun _ _ _ => ?_
    refine Reads.pure ?_
    rintro ⟨-, -, ⟨⟩⟩

end Primitives

/-! ### Expressions

The grammar has one level for each strength of binding, and the parser has one loop for all of them,
which is entered with the level at which it must stop. All readers of expressions take their steps
from the same number, so their specifications are proved together, by induction on it. -/

/-- A phrase that binds tightly is one that binds loosely. Induction on the levels between. -/
theorem lower {n m : Nat} {ts : List Token} {e : Exp} (h : Expression m ts e) (hnm : n ≤ m)
    (hm : m ≤ 8) : Expression n ts e := by
  induction m, hnm using Nat.le_induction with
  | base => exact h
  | succ m hle ih => exact ih (.tighter (by omega) h) (by omega)

/-- An expression that is a variable is spelled by its name, in parentheses perhaps. -/
theorem wrapped_of_var {n : Nat} {ts : List Token} {ty : Option Ty} {v : VarUse}
    (h : Expression n ts (.var ty v)) :
    ∃ t, t.kind = .identifier ∧ v = useOf t ∧ Wrapped [t] ts := by
  -- parentheses take tokens, and else the level rises to that of operands
  induction hk : 9 * ts.length + (8 - n) using Nat.strong_induction_on generalizing n ts with
  | _ k ih =>
    cases h with
    | tighter hn h => exact ih _ (by omega) h rfl
    | var ht => exact ⟨_, ht, rfl, .refl⟩
    | group hl h hr =>
      simp only [List.length_cons, List.length_append, List.length_nil] at hk
      obtain ⟨t, ht, hv, hwrapped⟩ := ih _ (by omega) h rfl
      exact ⟨t, ht, hv, .parens hl hwrapped hr⟩

/-- An expression that is an element is spelled by its name and index, in parentheses perhaps. -/
theorem wrapped_of_element {n : Nat} {ts : List Token} {ty : Option Ty} {v : VarUse} {i : Exp}
    (h : Expression n ts (.element ty v i)) :
    ∃ t l index r, t.kind = .identifier ∧ l.kind = .leftBracket ∧ Expression 1 index i ∧
      r.kind = .rightBracket ∧ v = useOf t ∧ Wrapped (t :: l :: (index ++ [r])) ts := by
  induction hk : 9 * ts.length + (8 - n) using Nat.strong_induction_on generalizing n ts with
  | _ k ih =>
    cases h with
    | tighter hn h => exact ih _ (by omega) h rfl
    | element ht hl hi hr => exact ⟨_, _, _, _, ht, hl, hi, hr, rfl, .refl⟩
    | group hl h hr =>
      simp only [List.length_cons, List.length_append, List.length_nil] at hk
      obtain ⟨t, l, index, r, ht, hl', hi, hr', hv, hwrapped⟩ := ih _ (by omega) h rfl
      exact ⟨t, l, index, r, ht, hl', hi, hr', hv, .parens hl hwrapped hr⟩

/-- A number that the parser reads is one of the grammar. -/
theorem numeral_of_literal? {t : Token} {n : Nat} (hkind : t.kind = .integer)
    (h : literal? t.text = some n) : Numeral t n := by
  unfold literal? at h
  rw [Option.filter_eq_some_iff] at h
  exact ⟨hkind, h.1, of_decide_eq_true h.2⟩

/-- The connectives that the parser knows are those of the grammar, on the same levels. -/
theorem mem_operators_of_ofKind? {kind : Token.Kind} {op : BinaryOp}
    (h : Connective.ofKind? kind = some (.binary op)) :
    (kind, op) ∈ operators (Connective.binary op).level := by
  cases kind <;> simp only [Connective.ofKind?, Option.some.injEq, Connective.binary.injEq,
    reduceCtorEq] at h <;> subst h <;> decide

/-- The one connective that is no operator is the equals sign. -/
theorem equal_of_ofKind? {kind : Token.Kind}
    (h : Connective.ofKind? kind = some .assignment) : kind = .equal := by
  cases kind <;> simp_all [Connective.ofKind?]

/-- Connectives lie between the loosest level and that of operands. -/
theorem Connective.level_bounds (c : Connective) : 1 ≤ c.level ∧ c.level ≤ 7 := by
  cases c with
  | assignment => decide
  | binary op => cases op <;> decide

/-- So do their right operands, which can be operands themselves. -/
theorem Connective.rightLevel_bounds (c : Connective) : 1 ≤ c.rightLevel ∧ c.rightLevel ≤ 8 := by
  cases c with
  | assignment => decide
  | binary op => cases op <;> decide

/-- No connective of the given level or a higher one comes next. -/
def Stops (level : Nat) (ts : List Token) : Prop :=
  ∀ t, Next ts t → ∀ c, Connective.ofKind? t.kind = some c → c.level < level

/-- The operands of a connective are joined into the tree that the grammar gives. -/
theorem reads_join {c : Connective} {t : Token} {lhs rhs : Exp} {ts : List Token} (n : Nat)
    (before right : List Token) :
    Reads (Connective.ofKind? t.kind = some c ∧ c.level ≤ n ∧ n ≤ 8 ∧ Expression n before lhs ∧
        Expression c.rightLevel right rhs) ts (join c t lhs rhs)
      fun e used _ => used = [] ∧ Expression c.level (before ++ t :: right) e := by
  unfold join
  split
  · rename_i op
    refine Reads.pure ?_
    rintro ⟨hc, hle, hn, hlhs, hrhs⟩
    exact ⟨rfl, .binary (mem_operators_of_ofKind? hc) (lower hlhs hle hn) hrhs⟩
  · refine Reads.pure ?_
    rintro ⟨hc, -, -, hlhs, hrhs⟩
    obtain ⟨u, hu, rfl, hwrapped⟩ := wrapped_of_var hlhs
    exact ⟨rfl, .assign hu hwrapped (equal_of_ofKind? hc) hrhs⟩
  · refine Reads.pure ?_
    rintro ⟨hc, -, -, hlhs, hrhs⟩
    obtain ⟨u, l, index, r, hu, hl, hi, hr, rfl, hwrapped⟩ := wrapped_of_element hlhs
    exact ⟨rfl, .assignElement hu hl hi hr hwrapped (equal_of_ofKind? hc) hrhs⟩
  · refine (reads_report t _).andThen fun _ _ _ => Reads.pure ?_
    rintro ⟨-, -, ⟨⟩⟩

/-- What expression readers have read, with the given number of steps. -/
structure ReadsExpressions (steps : Nat) : Prop where
  expression : ∀ {ts level}, 1 ≤ level → level ≤ 8 → Reads True ts (expression steps level)
    fun e used rest => Expression level used e ∧ Stops level rest
  operand : ∀ {ts}, Reads True ts (operand steps) fun e used _ => Expression 8 used e
  /-- The left operand, spelled by `before`, is of level `n`, and so is the next connective at most:
  a tighter one would belong to the end of the operand. -/
  connected : ∀ {ts level lhs} n before, Reads (level ≤ n ∧ n ≤ 8 ∧ Expression n before lhs ∧
      Stops (n + 1) ts) ts (connected steps level lhs)
    fun e used rest => Expression level (before ++ used) e ∧ Stops level rest
  arguments : ∀ {ts}, Reads True ts (arguments steps)
    fun args used _ => Separated (Expression 1) used args

namespace ReadsExpressions

variable {steps : Nat} {ts : List Token}

/-- An expression is an operand, and what the loop joins to it. -/
theorem expression_succ (ih : ReadsExpressions steps) {level : Nat} (hle : level ≤ 8) :
    Reads True ts (Parser.expression (steps + 1) level)
      fun e used rest => Expression level used e ∧ Stops level rest := by
  rw [Parser.expression]
  refine ih.operand.andThen fun first used mid => ?_
  refine (ih.connected 8 used).mono ?_ fun e later rest _ _ h => h
  rintro ⟨-, -, hfirst⟩
  exact ⟨hle, le_rfl, hfirst, fun t _ c _ => by have := c.level_bounds; omega⟩

/-- A round of the loop over connectives, which ends, or joins a right operand and goes on. The left
operand is of a level `n` that has only to be at least that of the next connective, since operators
of one level group to the left. -/
theorem connected_succ (ih : ReadsExpressions steps) {level : Nat} {lhs : Exp} (n : Nat)
    (before : List Token) : Reads (level ≤ n ∧ n ≤ 8 ∧ Expression n before lhs ∧ Stops (n + 1) ts)
      ts (Parser.connected (steps + 1) level lhs)
      fun e used rest => Expression level (before ++ used) e ∧ Stops level rest := by
  rw [Parser.connected]
  refine reads_peek.andThen fun t used mid => ?_
  split
  · -- no connective comes next, so the loop ends at any level
    rename_i hnone
    refine Reads.pure ?_
    rintro ⟨⟨hle, hn, hlhs, -⟩, -, rfl, hnext⟩
    refine ⟨by simpa using lower hlhs hle hn, fun u hu c hc => ?_⟩
    rw [hu.kind_eq hnext, hnone] at hc
    cases hc
  · rename_i c hc
    split
    · rename_i hlevel
      have hread : t.kind ≠ .eof := by
        intro heof
        rw [heof] at hc
        cases hc
      have hright := c.rightLevel_bounds
      refine (reads_read_of_next hread).bind (fun h => h.2.2.2) fun u one mid₁ => ?_
      refine (ih.expression hright.1 hright.2).andThen fun rhs right mid₂ => ?_
      refine (reads_join n before right).bind ?_ fun e none mid₃ => ?_
      · rintro ⟨⟨⟨⟨hle, hn, hlhs, hstops⟩, rfl, rfl, hnext⟩, -, rfl, -⟩, -, hrhs, -⟩
        have hbound := hstops u hnext c hc
        exact ⟨hc, by omega, hn, hlhs, hrhs⟩
      · refine (ih.connected c.level (before ++ u :: right)).mono ?_ ?_
        · rintro ⟨⟨⟨⟨-, -, rfl, -⟩, -, rfl, rfl⟩, -, -, hstops⟩, rfl, rfl, he⟩
          refine ⟨hlevel, by have := c.level_bounds; omega, he, fun v hv c' hc' => ?_⟩
          -- a level only rises by one, and falls back to one behind an equals sign
          have hbound := hstops v hv c' hc'
          have hright : c.rightLevel ≤ c.level + 1 := by
            cases c with
            | assignment => decide
            | binary op => exact le_rfl
          omega
        · rintro e' later rest ⟨⟨⟨⟨-, -, rfl, -⟩, -, rfl, rfl⟩, -, -, -⟩, -, rfl, -⟩ - ⟨he', hstops⟩
          exact ⟨by simpa using he', hstops⟩
    · rename_i hlevel
      refine Reads.pure ?_
      rintro ⟨⟨hle, hn, hlhs, -⟩, -, rfl, hnext⟩
      -- the next connective is too loose, so it is left to an outer loop
      refine ⟨by simpa using lower hlhs hle hn, fun u hu c' hc' => ?_⟩
      rw [hu.kind_eq hnext, hc] at hc'
      cases hc'
      omega

/-- Arguments are expressions with commas between them. -/
theorem arguments_succ (ih : ReadsExpressions steps) : Reads True ts (Parser.arguments (steps + 1))
    fun args used _ => Separated (Expression 1) used args := by
  rw [Parser.arguments]
  refine (ih.expression le_rfl (by decide)).andThen fun e used mid => ?_
  refine (reads_accept (by decide)).andThen fun comma one mid₁ => ?_
  split
  · refine ih.arguments.andThen fun args later mid₂ => Reads.pure ?_
    rintro ⟨⟨⟨-, -, he, -⟩, -, t, rfl, ht⟩, -, hargs⟩
    simpa using Separated.more he ht hargs
  · refine Reads.pure ?_
    rintro ⟨⟨-, -, he, -⟩, -, rfl, -⟩
    simpa using Separated.one he

/-- What follows the name in an operand that starts with one. -/
theorem reads_named (ih : ReadsExpressions steps) {t : Token} (ht : t.kind = .identifier) :
    Reads True ts (do
      if ← accept .leftParen then
        let args ← if (← peek).kind = .rightParen then Pure.pure [] else Parser.arguments steps
        let _ ← expect .rightParen .openArguments
        return .call t.pos none t.text args
      else if ← accept .leftBracket then
        let index ← Parser.expression steps looseLevel
        let _ ← expect .rightBracket .openIndex
        return .element none ⟨t.pos, t.text, none⟩ index
      else
        return .var none ⟨t.pos, t.text, none⟩ : Reader Exp)
      fun e used _ => Expression 8 (t :: used) e := by
  refine (reads_accept (by decide)).andThen fun paren one mid => ?_
  split
  · refine reads_peek.andThen fun u none mid₁ => ?_
    dsimp only
    split
    -- a call without arguments: the parenthesis that closes is next
    · rw [pure_bind]
      refine (reads_expect (by decide) _).andThen fun _ last mid₂ => Reads.pure ?_
      rintro ⟨⟨⟨-, -, l, rfl, hl⟩, -, rfl, -⟩, -, r, -, rfl, hr⟩
      simpa using Expression.callNone ht hl hr
    · refine ih.arguments.andThen fun args used mid₂ => ?_
      refine (reads_expect (by decide) _).andThen fun _ last mid₃ => Reads.pure ?_
      rintro ⟨⟨⟨⟨-, -, l, rfl, hl⟩, -, rfl, -⟩, -, hargs⟩, -, r, -, rfl, hr⟩
      simpa using Expression.call ht hl hargs hr
  · refine (reads_accept (by decide)).andThen fun bracket two mid₁ => ?_
    split
    -- an element, or else the name alone
    · refine (ih.expression le_rfl (by decide)).andThen fun index used mid₂ => ?_
      refine (reads_expect (by decide) _).andThen fun _ last mid₃ => Reads.pure ?_
      rintro ⟨⟨⟨⟨-, -, rfl, -⟩, -, l, rfl, hl⟩, -, hindex, -⟩, -, r, -, rfl, hr⟩
      simpa [useOf] using Expression.element ht hl hindex hr
    · refine Reads.pure ?_
      rintro ⟨⟨-, -, rfl, -⟩, -, rfl, -⟩
      simpa [useOf] using Expression.var ht

/-- An operand starts with one of eight tokens. Any other is reported, and nothing needs to be shown
of it. -/
theorem operand_succ (ih : ReadsExpressions steps) : Reads True ts (Parser.operand (steps + 1))
    fun e used _ => Expression 8 used e := by
  rw [Parser.operand]
  refine reads_read.andThen fun t one mid => ?_
  split
  · rename_i ht
    refine (ih.expression le_rfl (by decide)).andThen fun e used mid₁ => ?_
    refine (reads_expect (by decide) _).andThen fun _ last mid₂ => Reads.pure ?_
    rintro ⟨⟨⟨-, -, hone⟩, -, he, -⟩, -, r, -, rfl, hr⟩
    obtain rfl := read_one hone ht
    simpa using Expression.group ht he hr
  · rename_i ht
    refine (ih.expression (by decide) le_rfl).andThen fun e used mid₁ => Reads.pure ?_
    rintro ⟨⟨-, -, hone⟩, -, he, -⟩
    obtain rfl := read_one hone ht
    simpa using Expression.neg ht he
  · rename_i ht
    refine (ih.expression (by decide) le_rfl).andThen fun e used mid₁ => Reads.pure ?_
    rintro ⟨⟨-, -, hone⟩, -, he, -⟩
    obtain rfl := read_one hone ht
    simpa using Expression.not ht he
  · rename_i ht
    split
    · rename_i value hvalue
      refine Reads.pure ?_
      rintro ⟨-, -, hone⟩
      obtain rfl := read_one hone ht
      simpa using Expression.int (numeral_of_literal? ht hvalue)
    -- the parser goes on behind a number that is too large, but has reported it
    · refine (reads_report t _).andThen fun _ _ _ => Reads.pure ?_
      rintro ⟨-, -, ⟨⟩⟩
  · rename_i ht
    refine Reads.pure ?_
    rintro ⟨-, -, hone⟩
    obtain rfl := read_one hone ht
    simpa using Expression.true ht
  · rename_i ht
    refine Reads.pure ?_
    rintro ⟨-, -, hone⟩
    obtain rfl := read_one hone ht
    simpa using Expression.false ht
  · rename_i ht
    refine (ih.reads_named ht).mono (fun _ => trivial) ?_
    rintro e used rest ⟨-, -, hone⟩ - he
    obtain rfl := read_one hone ht
    simpa using he
  · refine (reads_report t _).andThen fun _ _ _ => Reads.pure ?_
    rintro ⟨-, -, ⟨⟩⟩

end ReadsExpressions

/-- All readers of expressions meet their specifications, for any number of steps. -/
theorem readsExpressions (steps : Nat) : ReadsExpressions steps := by
  induction steps with
  | zero =>
    refine ⟨fun _ _ => ?_, ?_, fun _ _ => ?_, ?_⟩
    · rw [expression]; exact Reads.outOfSteps
    · rw [operand]; exact Reads.outOfSteps
    · rw [connected]; exact Reads.outOfSteps
    · rw [arguments]; exact Reads.outOfSteps
  | succ steps ih =>
    exact ⟨fun _ hle => ih.expression_succ hle, ih.operand_succ, ih.connected_succ,
      ih.arguments_succ⟩

/-! ### Declarations of variables

What is read as a declaration is one by the rules. The parser decides by the next tokens whether a
declaration begins, so a list of them ends where none does. -/

section Declarations

variable {ts : List Token}

/-- The words that the parser takes for types are those of the grammar. -/
theorem namesType_of_baseType? {t : Token} {base : BaseType} (h : baseType? t.kind = some base) :
    NamesType t base := by
  unfold NamesType
  cases hkind : t.kind <;> simp_all [baseType?]

/-- The name of a type is read, with its position. -/
theorem reads_typeSpecifier : Reads True ts typeSpecifier
    fun o used _ => ∃ t base, o = some (t.pos, base) ∧ used = [t] ∧ NamesType t base := by
  unfold typeSpecifier
  refine reads_peek.andThen fun t none mid => ?_
  split
  · rename_i base hbase
    have hread : t.kind ≠ .eof := by
      intro heof
      rw [heof] at hbase
      cases hbase
    refine (reads_read_of_next hread).bind (fun h => h.2.2.2) fun u one rest => Reads.pure ?_
    rintro ⟨⟨-, -, rfl, -⟩, -, rfl, rfl⟩
    exact ⟨u, base, rfl, rfl, namesType_of_baseType? hbase⟩
  · refine (reads_report t _).andThen fun _ _ _ => Reads.pure ?_
    rintro ⟨-, -, ⟨⟩⟩

/-- Behind the name of a variable, its size in brackets is read, or nothing. -/
theorem reads_shape : Reads True ts shape fun o used _ =>
    o = some .scalar ∧ used = [] ∨ ∃ l size n r, o = some (.array n) ∧ used = [l, size, r] ∧
      l.kind = .leftBracket ∧ Numeral size n ∧ r.kind = .rightBracket := by
  unfold shape
  refine (reads_accept (by decide)).andThen fun bracket one mid => ?_
  split
  · refine (reads_expect (by decide) _).andThen fun o two mid₁ => ?_
    cases o with
    | none =>
      refine Reads.pure ?_
      rintro ⟨-, -, r, ⟨⟩, -⟩
    | some size =>
      cases hn : literal? size.text with
      | none =>
        simp only [hn]
        refine (reads_report size _).andThen fun _ _ _ => Reads.pure ?_
        rintro ⟨-, -, ⟨⟩⟩
      | some n =>
        simp only [hn]
        refine (reads_expect (by decide) _).andThen fun o three mid₂ => ?_
        cases o with
        | none =>
          refine Reads.pure ?_
          rintro ⟨-, -, r, ⟨⟩, -⟩
        | some r =>
          refine Reads.pure ?_
          rintro ⟨⟨⟨-, -, l, rfl, hl⟩, -, u, ⟨⟩, rfl, hu⟩, -, r', ⟨⟩, rfl, hr⟩
          exact Or.inr ⟨l, size, n, r, rfl, by simp, hl, numeral_of_literal? hu hn, hr⟩
  · refine Reads.pure ?_
    rintro ⟨-, -, rfl, -⟩
    exact Or.inl ⟨rfl, rfl⟩

/-- The tokens are a type and a name, with which every declaration starts. -/
def Opens (before : List Token) (pos : Pos) (base : BaseType) (name : Token) : Prop :=
  ∃ ty, before = [ty, name] ∧ NamesType ty base ∧ pos = ty.pos ∧ name.kind = .identifier

/-- What follows the type and name in a declaration of a variable. -/
theorem reads_variableRest {pos : Pos} {base : BaseType} {name : Token} (before : List Token) :
    Reads (Opens before pos base name) ts (variableRest pos base name)
      fun o used _ => ∃ d, o = some d ∧ Variable (before ++ used) d := by
  unfold variableRest
  refine reads_shape.andThen fun o used mid => ?_
  cases o with
  | none =>
    refine Reads.pure ?_
    rintro ⟨-, -, ⟨⟨⟩, -⟩ | ⟨_, _, _, _, ⟨⟩, -⟩⟩
  | some sh =>
    refine (reads_expect (by decide) _).andThen fun o last mid₁ => ?_
    cases o with
    | none =>
      refine Reads.pure ?_
      rintro ⟨-, -, semi, ⟨⟩, -⟩
    | some semi =>
      refine Reads.pure ?_
      rintro ⟨⟨⟨ty, rfl, hty, rfl, hname⟩, -, hshape⟩, -, semi', -, rfl, hsemi⟩
      refine ⟨_, rfl, ?_⟩
      rcases hshape with ⟨⟨⟩, rfl⟩ | ⟨l, size, n, r, ⟨⟩, rfl, hl, hsize, hr⟩
      · exact .scalar hty hname hsemi
      · exact .array hty hname hl hsize hr hsemi

/-- A declaration of a variable, at the start of a block. -/
theorem reads_localVariable : Reads True ts localVariable
    fun o used _ => ∃ d, o = some d ∧ Variable used d := by
  unfold localVariable
  refine reads_typeSpecifier.andThen fun o one mid => ?_
  cases o with
  | none =>
    refine Reads.pure ?_
    rintro ⟨-, -, _, _, ⟨⟩, -⟩
  | some x =>
    obtain ⟨pos, base⟩ := x
    refine (reads_expect (by decide) _).andThen fun o two mid₁ => ?_
    cases o with
    | none =>
      refine Reads.pure ?_
      rintro ⟨-, -, name, ⟨⟩, -⟩
    | some name =>
      refine (reads_variableRest (one ++ two)).mono ?_ ?_
      · rintro ⟨⟨-, -, ty, base', ⟨⟩, rfl, hty⟩, -, name', ⟨⟩, rfl, hname⟩
        exact ⟨ty, rfl, hty, rfl, hname⟩
      · rintro o used rest - - hd
        simpa using hd

/-- Without an error there is nothing to synchronise. -/
theorem reads_synchronize :
    Reads True ts (modify fun s => if s.recovering then s.synchronize else s)
      fun _ used _ => used = [] := by
  rintro s _ s' ⟨⟩ hsane rfl
  dsimp only
  split
  · rename_i hrec
    obtain ⟨hsane', herrors⟩ := hsane.synchronize
    exact ⟨hsane', fun herr => absurd (herrors herr) (hsane.silence hrec)⟩
  · exact ⟨hsane, fun herr => ⟨herr, fun _ => ⟨[], rfl, by simp, rfl⟩⟩⟩

/-- The declarations at the start of a block. Induction on the steps. -/
theorem reads_localVariables (steps : Nat) : Reads True ts (localVariables steps)
    fun ds used _ => Many Variable used ds := by
  induction steps generalizing ts with
  | zero =>
    rw [localVariables]
    exact Reads.outOfSteps
  | succ steps ih =>
    rw [localVariables]
    refine reads_peek.andThen fun t none mid => ?_
    split
    · refine reads_localVariable.andThen fun o used mid₁ => ?_
      refine reads_synchronize.andThen fun _ none' mid₂ => ?_
      refine ih.andThen fun ds later mid₃ => Reads.pure ?_
      rintro ⟨⟨⟨⟨-, -, rfl, -⟩, -, d, rfl, hd⟩, -, rfl⟩, -, hds⟩
      simpa using Many.cons hd hds
    · refine Reads.pure ?_
      rintro ⟨-, -, rfl, -⟩
      exact .nil

end Declarations

/-! ### Statements

A statement is described as the grammar does, with one thing more: if it ends with an `if` that
could take an `else`, none comes next. This is what makes the reading of nested conditionals the
only one. -/

/-- The kinds of tokens with which an expression can start. -/
def StartsExpression (kind : Token.Kind) : Prop :=
  kind ∈ [Token.Kind.leftParen, .minus, .bang, .integer, .kwTrue, .kwFalse, .identifier]

/-- Parentheses around a phrase, too, start an expression. -/
theorem wrapped_first {inner ts : List Token} (h : Wrapped inner ts)
    (hinner : ∃ t rest, inner = t :: rest ∧ StartsExpression t.kind) :
    ∃ t rest, ts = t :: rest ∧ StartsExpression t.kind := by
  cases h with
  | refl => exact hinner
  | parens hl h hr => exact ⟨_, _, rfl, by rw [hl]; simp [StartsExpression]⟩

/-- An expression starts with one of these tokens. -/
theorem expression_first {n : Nat} {ts : List Token} {e : Exp} (h : Expression n ts e) :
    ∃ t rest, ts = t :: rest ∧ StartsExpression t.kind := by
  -- a tighter level has the same tokens, so the level counts too
  induction hk : 9 * ts.length + (8 - n) using Nat.strong_induction_on generalizing n ts e with
  | _ k ih =>
    cases h with
    | tighter hn h => exact ih _ (by omega) h rfl
    | assign ht hts hequal he =>
      obtain ⟨u, rest, rfl, hu⟩ :=
        wrapped_first hts ⟨_, _, rfl, by rw [ht]; simp [StartsExpression]⟩
      exact ⟨u, _, rfl, hu⟩
    | assignElement ht hl hi hr hts hequal he =>
      obtain ⟨u, rest, rfl, hu⟩ :=
        wrapped_first hts ⟨_, _, rfl, by rw [ht]; simp [StartsExpression]⟩
      exact ⟨u, _, rfl, hu⟩
    | binary hop hl hr =>
      simp only [List.length_cons, List.length_append] at hk
      obtain ⟨u, rest, rfl, hu⟩ := ih _ (by omega) hl rfl
      exact ⟨u, _, rfl, hu⟩
    | neg ht h => exact ⟨_, _, rfl, by rw [ht]; simp [StartsExpression]⟩
    | not ht h => exact ⟨_, _, rfl, by rw [ht]; simp [StartsExpression]⟩
    | int h => exact ⟨_, _, rfl, by rw [h.kind]; simp [StartsExpression]⟩
    | true ht => exact ⟨_, _, rfl, by rw [ht]; simp [StartsExpression]⟩
    | false ht => exact ⟨_, _, rfl, by rw [ht]; simp [StartsExpression]⟩
    | var ht => exact ⟨_, _, rfl, by rw [ht]; simp [StartsExpression]⟩
    | element ht hl hi hr => exact ⟨_, _, rfl, by rw [ht]; simp [StartsExpression]⟩
    | callNone ht hl hr => exact ⟨_, _, rfl, by rw [ht]; simp [StartsExpression]⟩
    | call ht hl hargs hr => exact ⟨_, _, rfl, by rw [ht]; simp [StartsExpression]⟩
    | group hl h hr => exact ⟨_, _, rfl, by rw [hl]; simp [StartsExpression]⟩

/-- A condition is read with its parentheses. -/
theorem reads_test {steps : Nat} {construct : Construct} {ts : List Token} :
    Reads True ts (test steps construct) fun e used _ => ∃ l mid r, used = l :: (mid ++ [r]) ∧
      l.kind = .leftParen ∧ Expression 1 mid e ∧ r.kind = .rightParen := by
  unfold test
  refine (reads_expect (by decide) _).andThen fun _ one mid => ?_
  refine ((readsExpressions steps).expression le_rfl (by decide)).andThen fun e used mid₁ => ?_
  refine (reads_expect (by decide) _).andThen fun _ last mid₂ => Reads.pure ?_
  rintro ⟨⟨⟨-, -, l, -, rfl, hl⟩, -, he, -⟩, -, r, -, rfl, hr⟩
  exact ⟨l, used, r, by simp, hl, he, hr⟩

/-- What statement readers have read, with the given number of steps. -/
structure ReadsStatements (steps : Nat) : Prop where
  /-- An `else` that could belong to the statement has been read. -/
  statement : ∀ {ts}, Reads True ts (statement steps) fun a used rest =>
    Statement used a ∧ (Dangling a → ∀ t, Next rest t → t.kind ≠ .kwElse)
  blockRest : ∀ {ts}, Reads True ts (blockRest steps) fun x used _ => ∃ dts bts r,
    used = dts ++ bts ++ [r] ∧ Many Variable dts x.1 ∧ Many Statement bts x.2 ∧
      r.kind = .rightBrace
  statements : ∀ {ts}, Reads True ts (statements steps) fun body used _ =>
    Many Statement used body

/-- Asking for the state reads nothing. -/
theorem reads_get {ts : List Token} : Reads True ts get
    fun (s : State) used rest => used = [] ∧ Next rest s.current := by
  rintro s t s' ⟨⟩ hsane rfl
  exact ⟨hsane, fun herr => ⟨herr, fun _ => ⟨[], rfl, by simp, rfl, s.next_current⟩⟩⟩

/-- Without an error there is nothing to recover from. -/
theorem reads_recover {ts : List Token} (start : Pos) :
    Reads True ts (modify fun s => s.recover start) fun _ used _ => used = [] := by
  rintro s _ s' ⟨⟩ hsane rfl
  obtain ⟨hsane', herrors⟩ := hsane.recover start
  refine ⟨hsane', fun herr => ⟨(herrors herr).1, fun _ => ⟨[], ?_, by simp, rfl⟩⟩⟩
  exact (herrors herr).2.symm

namespace ReadsStatements

variable {steps : Nat} {ts : List Token}

/-- The first token decides what is read. The cases are those of the parser, in its order: a block,
an `if`, a `while`, a `return`, an empty statement, three words that start no statement, and an
expression. -/
theorem statement_succ (ih : ReadsStatements steps) : Reads True ts (Parser.statement (steps + 1))
    fun a used rest => Statement used a ∧ (Dangling a → ∀ t, Next rest t → t.kind ≠ .kwElse) := by
  have hexp := readsExpressions steps
  rw [Parser.statement]
  refine reads_peek.andThen fun t none mid => ?_
  split
  · rename_i ht
    refine (reads_read_of_next (t := t) (by rw [ht]; decide)).bind (fun h => h.2.2.2)
      fun u one mid₁ => ?_
    refine ih.blockRest.andThen fun x used mid₂ => ?_
    obtain ⟨decls, body⟩ := x
    refine Reads.pure ?_
    rintro ⟨⟨⟨-, -, rfl, -⟩, -, rfl, rfl⟩, -, dts, bts, r, rfl, hds, hbody, hr⟩
    exact ⟨by simpa using Statement.block ht hds hbody hr, fun h => h.elim⟩
  · rename_i ht
    refine (reads_read_of_next (t := t) (by rw [ht]; decide)).bind (fun h => h.2.2.2)
      fun u one mid₁ => ?_
    refine reads_test.andThen fun condition used mid₂ => ?_
    refine ih.statement.andThen fun a ats mid₃ => ?_
    refine (reads_accept (by decide)).andThen fun other two mid₄ => ?_
    split
    · refine ih.statement.andThen fun b bts mid₅ => Reads.pure ?_
      rintro ⟨⟨⟨⟨⟨⟨-, -, rfl, -⟩, -, rfl, rfl⟩, -, l, cts, r, rfl, hl, hc, hr⟩, -, ha, hnearest⟩,
        rfl, v, rfl, hv⟩, -, hb, hdangling⟩
      -- the branch would have taken the `else` that comes next
      have hclosed : ¬Dangling a := fun h => hnearest h v (Or.inl rfl) hv
      exact ⟨by simpa using Statement.ifElse ht hl hc hr ha hclosed hv hb, hdangling⟩
    · refine Reads.pure ?_
      rintro ⟨⟨⟨⟨⟨-, -, rfl, -⟩, -, rfl, rfl⟩, -, l, cts, r, rfl, hl, hc, hr⟩, -, ha, -⟩, -, rfl,
        hother⟩
      exact ⟨by simpa using Statement.ifThen ht hl hc hr ha, fun _ => hother⟩
  · rename_i ht
    refine (reads_read_of_next (t := t) (by rw [ht]; decide)).bind (fun h => h.2.2.2)
      fun u one mid₁ => ?_
    refine reads_test.andThen fun condition used mid₂ => ?_
    refine ih.statement.andThen fun b bts mid₃ => Reads.pure ?_
    rintro ⟨⟨⟨⟨-, -, rfl, -⟩, -, rfl, rfl⟩, -, l, cts, r, rfl, hl, hc, hr⟩, -, hb, hdangling⟩
    exact ⟨by simpa using Statement.whileDo ht hl hc hr hb, hdangling⟩
  · rename_i ht
    refine (reads_read_of_next (t := t) (by rw [ht]; decide)).bind (fun h => h.2.2.2)
      fun u one mid₁ => ?_
    refine (reads_accept (by decide)).andThen fun semi two mid₂ => ?_
    split
    · refine Reads.pure ?_
      rintro ⟨⟨⟨-, -, rfl, -⟩, -, rfl, rfl⟩, -, v, rfl, hv⟩
      exact ⟨by simpa using Statement.bareReturn ht hv, fun h => h.elim⟩
    · refine (hexp.expression le_rfl (by decide)).andThen fun e used mid₃ => ?_
      refine (reads_expect (by decide) _).andThen fun _ last mid₄ => Reads.pure ?_
      rintro ⟨⟨⟨⟨⟨-, -, rfl, -⟩, -, rfl, rfl⟩, -, rfl, -⟩, -, he, -⟩, -, v, -, rfl, hv⟩
      exact ⟨by simpa using Statement.valueReturn ht he hv, fun h => h.elim⟩
  · rename_i ht
    refine (reads_read_of_next (t := t) (by rw [ht]; decide)).bind (fun h => h.2.2.2)
      fun u one mid₁ => Reads.pure ?_
    rintro ⟨⟨-, -, rfl, -⟩, -, rfl, rfl⟩
    exact ⟨by simpa using Statement.empty ht, fun h => h.elim⟩
  iterate 3
    · -- these are reported, and an error is never forgotten
      refine (reads_report t _).andThen fun _ _ _ => reads_read.andThen fun _ _ _ => Reads.pure ?_
      rintro ⟨⟨-, -, ⟨⟩⟩, -⟩
  · refine (hexp.expression le_rfl (by decide)).andThen fun e used mid₁ => ?_
    refine (reads_expect (by decide) _).andThen fun _ last mid₂ => Reads.pure ?_
    rintro ⟨⟨⟨-, -, rfl, hnext⟩, rfl, he, -⟩, -, v, -, rfl, hv⟩
    -- the token that was looked at is the first one of the expression
    obtain ⟨u, rest, rfl, -⟩ := expression_first he
    obtain rfl := hnext.eq
    exact ⟨by simpa using Statement.exp he hv, fun h => h.elim⟩

/-- A block consists of declarations, statements and a closing brace. -/
theorem blockRest_succ (ih : ReadsStatements steps) : Reads True ts (Parser.blockRest (steps + 1))
    fun x used _ => ∃ dts bts r, used = dts ++ bts ++ [r] ∧ Many Variable dts x.1 ∧
      Many Statement bts x.2 ∧ r.kind = .rightBrace := by
  rw [Parser.blockRest]
  refine (reads_localVariables steps).andThen fun ds dts mid => ?_
  refine ih.statements.andThen fun body bts mid₁ => ?_
  refine (reads_expect (by decide) _).andThen fun _ last mid₂ => Reads.pure ?_
  rintro ⟨⟨⟨-, -, hds⟩, -, hbody⟩, -, r, -, rfl, hr⟩
  exact ⟨dts, bts, r, by simp, hds, hbody, hr⟩

/-- Statements are read up to a closing brace or the end of the input. -/
theorem statements_succ (ih : ReadsStatements steps) :
    Reads True ts (Parser.statements (steps + 1)) fun body used _ => Many Statement used body := by
  rw [Parser.statements]
  refine reads_get.andThen fun s none mid => ?_
  split
  · refine Reads.pure ?_
    rintro ⟨-, -, rfl, -⟩
    exact .nil
  · refine ih.statement.andThen fun a used mid₁ => ?_
    refine (reads_recover s.current.pos).andThen fun _ none' mid₂ => ?_
    refine ih.statements.andThen fun body later mid₃ => Reads.pure ?_
    rintro ⟨⟨⟨⟨-, -, rfl, -⟩, -, ha, -⟩, -, rfl⟩, -, hbody⟩
    simpa using Many.cons ha hbody

end ReadsStatements

/-- All readers of statements meet their specifications, for any number of steps. -/
theorem readsStatements (steps : Nat) : ReadsStatements steps := by
  induction steps with
  | zero =>
    refine ⟨?_, ?_, ?_⟩
    · rw [statement]; exact Reads.outOfSteps
    · rw [blockRest]; exact Reads.outOfSteps
    · rw [statements]; exact Reads.outOfSteps
  | succ steps ih => exact ⟨ih.statement_succ, ih.blockRest_succ, ih.statements_succ⟩

/-! ### Programs

Here too each reader is described by the production of the grammar that it reads. -/

section Programs

variable {ts : List Token}

/-- What follows the type in a parameter. -/
theorem reads_parameterRest {pos : Pos} {base : BaseType} (before : List Token) :
    Reads (∃ ty, before = [ty] ∧ NamesType ty base ∧ pos = ty.pos) ts (parameterRest pos base)
      fun o used _ => ∃ d, o = some d ∧ Parameter (before ++ used) d := by
  unfold parameterRest
  refine (reads_expect (by decide) _).andThen fun o one mid => ?_
  cases o with
  | none =>
    refine Reads.pure ?_
    rintro ⟨-, -, name, ⟨⟩, -⟩
  | some name =>
    refine (reads_accept (by decide)).andThen fun bracket two mid₁ => ?_
    split
    · refine (reads_expect (by decide) _).andThen fun o three mid₂ => ?_
      cases o with
      | none =>
        refine Reads.pure ?_
        rintro ⟨-, -, r, ⟨⟩, -⟩
      | some r =>
        refine Reads.pure ?_
        rintro ⟨⟨⟨⟨ty, rfl, hty, rfl⟩, -, name', ⟨⟩, rfl, hname⟩, -, l, rfl, hl⟩, -, r', ⟨⟩,
          rfl, hr⟩
        exact ⟨_, rfl, .reference hty hname hl hr⟩
    · refine Reads.pure ?_
      rintro ⟨⟨⟨ty, rfl, hty, rfl⟩, -, name', ⟨⟩, rfl, hname⟩, -, rfl, -⟩
      exact ⟨_, rfl, .scalar hty hname⟩

/-- Parameters with commas between them, or the word `void` in the place of the first one. Induction
on the steps. -/
theorem reads_parameterList (steps : Nat) (first : Bool) :
    Reads True ts (parameterList steps first) fun o used _ => ∃ params, o = some params ∧
      (Separated Parameter used params ∨
        first = true ∧ params = [] ∧ ∃ t, used = [t] ∧ t.kind = .kwVoid) := by
  induction steps generalizing ts first with
  | zero =>
    rw [parameterList]
    exact Reads.outOfSteps
  | succ steps ih =>
    rw [parameterList]
    refine reads_typeSpecifier.andThen fun o one mid => ?_
    cases o with
    | none =>
      refine Reads.pure ?_
      rintro ⟨-, -, _, _, ⟨⟩, -⟩
    | some x =>
      obtain ⟨pos, base⟩ := x
      refine reads_peek.andThen fun t none mid₁ => ?_
      split
      -- `void` in front of the closing parenthesis stands for no parameters
      · rename_i hvoid
        obtain ⟨hfirst, rfl, -⟩ := hvoid
        refine Reads.pure ?_
        rintro ⟨⟨-, -, ty, base, ⟨⟩, rfl, hty⟩, -, rfl, -⟩
        refine ⟨[], rfl, Or.inr ⟨hfirst, rfl, ty, by simp, ?_⟩⟩
        simpa [NamesType] using hty
      · refine (reads_parameterRest one).bind ?_ fun o used mid₂ => ?_
        · rintro ⟨⟨-, -, ty, base', ⟨⟩, rfl, hty⟩, -⟩
          exact ⟨ty, rfl, hty, rfl⟩
        cases o with
        | none =>
          refine Reads.pure ?_
          rintro ⟨-, -, d, ⟨⟩, -⟩
        | some param =>
          refine (reads_accept (by decide)).andThen fun comma two mid₃ => ?_
          split
          · refine (ih false).andThen fun o later mid₄ => ?_
            cases o with
            | none =>
              refine Reads.pure ?_
              rintro ⟨-, -, params, ⟨⟩, -⟩
            | some rest =>
              refine Reads.pure ?_
              rintro ⟨⟨⟨⟨-, -, rfl, -⟩, -, d, ⟨⟩, hd⟩, -, c, rfl, hc⟩, -, params, ⟨⟩, hparams⟩
              obtain hrest | ⟨⟨⟩, -⟩ := hparams
              exact ⟨_, rfl, Or.inl (by simpa using Separated.more hd hc hrest)⟩
          · refine Reads.pure ?_
            rintro ⟨⟨⟨-, -, rfl, -⟩, -, d, ⟨⟩, hd⟩, -, rfl, -⟩
            exact ⟨_, rfl, Or.inl (by simpa using Separated.one hd)⟩

/-- The parameters of a function, up to the closing parenthesis. -/
theorem reads_parameters (steps : Nat) : Reads True ts (parameters steps)
    fun o used _ => ∃ params, o = some params ∧ Parameters used params := by
  unfold parameters
  refine reads_peek.andThen fun t none mid => ?_
  split
  · refine Reads.pure ?_
    rintro ⟨-, -, rfl, -⟩
    exact ⟨[], rfl, .none⟩
  · refine (reads_parameterList steps true).mono (fun _ => trivial) ?_
    rintro o used rest ⟨-, -, rfl, -⟩ - ⟨params, rfl, hparams⟩
    refine ⟨params, rfl, ?_⟩
    obtain hparams | ⟨-, rfl, v, rfl, hv⟩ := hparams
    · simpa using Parameters.some hparams
    · simpa using Parameters.void hv

/-- What follows the opening parenthesis in a function: a prototype ends with a semicolon, a
definition has a block. -/
theorem reads_functionRest (steps : Nat) {pos : Pos} {result : BaseType} {name : Token}
    (before : List Token) : Reads (∃ l, l.kind = .leftParen ∧ ∃ start, before = start ++ [l] ∧
        Opens start pos result name) ts (functionRest steps pos result name)
      fun o used _ => ∃ f, o = some f ∧ Declaration (before ++ used) (.function f) := by
  unfold functionRest
  refine (reads_parameters steps).andThen fun o used mid => ?_
  cases o with
  | none =>
    refine Reads.pure ?_
    rintro ⟨-, -, params, ⟨⟩, -⟩
  | some params =>
    refine (reads_expect (by decide) _).andThen fun o one mid₁ => ?_
    cases o with
    | none =>
      refine Reads.pure ?_
      rintro ⟨-, -, r, ⟨⟩, -⟩
    | some r =>
      refine (reads_accept (by decide)).andThen fun semi two mid₂ => ?_
      split
      · refine Reads.pure ?_
        -- all parts were read without an error, and they are those of the production
        rintro ⟨⟨⟨⟨l, hl, start, rfl, ty, rfl, hty, rfl, hname⟩, -, params', ⟨⟩, hparams⟩,
          -, r', ⟨⟩, rfl, hr⟩, -, v, rfl, hv⟩
        exact ⟨_, rfl, by simpa using Declaration.prototype hty hname hl hparams hr hv⟩
      · refine (reads_expect (by decide) _).andThen fun o three mid₃ => ?_
        cases o with
        | none =>
          refine Reads.pure ?_
          rintro ⟨-, -, brace, ⟨⟩, -⟩
        | some brace =>
          refine (readsStatements steps).blockRest.andThen fun x body mid₄ => ?_
          obtain ⟨decls, stmts⟩ := x
          refine Reads.pure ?_
          rintro ⟨⟨⟨⟨⟨⟨l, hl, start, rfl, ty, rfl, hty, rfl, hname⟩, -, params', ⟨⟩,
            hparams⟩, -, r', ⟨⟩, rfl, hr⟩, -, rfl, -⟩, -, brace', ⟨⟩, rfl, hbrace⟩, -, dts, bts,
              stop, rfl, hds, hbody,
            hstop⟩
          exact ⟨_, rfl, by
            simpa using Declaration.definition hty hname hl hparams hr hbrace hds hbody hstop⟩

/-- A declaration of the outermost level. -/
theorem reads_declaration (steps : Nat) : Reads True ts (declaration steps)
    fun o used _ => ∃ d, o = some d ∧ Declaration used d := by
  unfold declaration
  refine reads_typeSpecifier.andThen fun o one mid => ?_
  cases o with
  | none =>
    refine Reads.pure ?_
    rintro ⟨-, -, _, _, ⟨⟩, -⟩
  | some x =>
    obtain ⟨pos, base⟩ := x
    refine (reads_expect (by decide) _).andThen fun o two mid₁ => ?_
    cases o with
    | none =>
      refine Reads.pure ?_
      rintro ⟨-, -, name, ⟨⟩, -⟩
    | some name =>
      refine (reads_accept (by decide)).andThen fun paren three mid₂ => ?_
      split
      · refine (reads_functionRest steps (one ++ two ++ three)).bind ?_ fun o used mid₃ =>
          Reads.pure ?_
        · rintro ⟨⟨⟨-, -, ty, base', ⟨⟩, rfl, hty⟩, -, name', ⟨⟩, rfl, hname⟩, -, l, rfl, hl⟩
          exact ⟨l, hl, _, rfl, ty, rfl, hty, rfl, hname⟩
        · rintro ⟨-, -, f, rfl, hf⟩
          exact ⟨_, rfl, by simpa using hf⟩
      · refine (reads_variableRest (one ++ two)).bind ?_ fun o used mid₃ => Reads.pure ?_
        · rintro ⟨⟨⟨-, -, ty, base', ⟨⟩, rfl, hty⟩, -, name', ⟨⟩, rfl, hname⟩, -⟩
          exact ⟨ty, rfl, hty, rfl, hname⟩
        · rintro ⟨⟨-, -, rfl, -⟩, -, d, rfl, hd⟩
          exact ⟨_, rfl, by simpa using Declaration.var hd⟩

/-- The declarations of a program, up to the end of the input. Induction on the steps. -/
theorem reads_declarations (steps : Nat) : Reads True ts (declarations steps)
    fun ds used rest => Many Declaration used ds ∧ ∀ t, Next rest t → t.kind = .eof := by
  induction steps generalizing ts with
  | zero =>
    rw [declarations]
    exact Reads.outOfSteps
  | succ steps ih =>
    rw [declarations]
    refine reads_get.andThen fun s none mid => ?_
    split
    · rename_i heof
      refine Reads.pure ?_
      rintro ⟨-, -, rfl, hnext⟩
      exact ⟨.nil, fun t ht => (ht.kind_eq hnext).trans heof⟩
    · refine (reads_declaration steps).andThen fun o used mid₁ => ?_
      refine (reads_recover s.current.pos).andThen fun _ none' mid₂ => ?_
      refine ih.andThen fun ds later mid₃ => Reads.pure ?_
      rintro ⟨⟨⟨⟨-, -, rfl, -⟩, -, d, rfl, hd⟩, -, rfl⟩, -, hds, hend⟩
      exact ⟨by simpa using Many.cons hd hds, hend⟩

end Programs

end Parser

end MiniC
