import Mathlib.Logic.Relation
import MiniC.Proofs.Grammar.Progress

/-!
# Why parsing ends

The parser is a handful of routines that call each other; a loop is a routine that calls itself.
Between a call of a routine and the next call of the same one a token is read, whatever the tokens
are and whether an error is being recovered from. The tokens that are left therefore bound how deep
calls can nest, and with that the steps of a parse.

* `Activation.Calls`: which calls a call leads to
* `Activation.returns_succ`: a call runs out of steps only if one that it leads to does
* `Activation.Calls.closer`: fewer tokens are left, or no more and the routine is a lower one
* `Activation.returns`: every call has an answer
* `parse_returns`: so has every source, and it does not depend on the number of steps
-/

namespace MiniC.Parser

/-! ### Readers that answer

A reader without recursion has an answer in every state. One that calls itself has one if the calls
in it do, which depends on the states they are made in, so `Ends` is about one state. -/

section Ends

variable {α β : Type} {s : State}

/-- In this state the reader does not run out of steps. -/
def Ends (r : Reader α) (s : State) : Prop :=
  ∃ x, r s = some x

/-- An answer is given. -/
theorem Ends.pure (a : α) : Ends (pure a) s :=
  ⟨(a, s), rfl⟩

/-- A sequence ends if its second part does in the state that the first one leaves. -/
theorem Ends.bind {x : Reader α} {f : α → Reader β} (hx : Ends x s)
    (hf : ∀ a t, x s = some (a, t) → Ends (f a) t) : Ends (x >>= f) s := by
  obtain ⟨⟨a, t⟩, ha⟩ := hx
  obtain ⟨y, hy⟩ := hf a t ha
  exact ⟨y, bind_eq_some_iff.mpr ⟨a, t, ha, hy⟩⟩

/-- A reader that answers in every state. -/
def Total (r : Reader α) : Prop :=
  ∀ s, Ends r s

/-- An answer is given in every state. -/
theorem Total.pure (a : α) : Total (pure a) :=
  fun _ => .pure a

/-- A sequence of readers that always answer. -/
theorem Total.bind {x : Reader α} {f : α → Reader β} (hx : Total x) (hf : ∀ a, Total (f a)) :
    Total (x >>= f) :=
  fun s => (hx s).bind fun a t _ => hf a t

/-- Looking at the next token. -/
theorem total_peek : Total peek :=
  fun _ => ⟨_, rfl⟩

/-- Reading a token, or the end of the input over and over. -/
theorem total_read : Total read :=
  fun _ => ⟨_, rfl⟩

/-- Reporting an error. -/
theorem total_report (t : Token) (fault : SyntaxFault) : Total (report t fault) :=
  fun _ => ⟨_, rfl⟩

/-- Changing the state. -/
theorem total_modify (f : State → State) : Total (modify f) :=
  fun _ => ⟨_, rfl⟩

/-- Reading a token if it is of the kind. -/
theorem total_accept (kind : Token.Kind) : Total (accept kind) := by
  intro s
  unfold Ends
  rw [accept_eq]
  split <;> exact ⟨_, rfl⟩

/-- Reading a token that is demanded; there is an answer also if it is missing. -/
theorem total_expect (kind : Token.Kind) (fault : SyntaxFault) : Total (expect kind fault) := by
  intro s
  unfold Ends
  rw [expect_eq]
  split <;> exact ⟨_, rfl⟩

/-- Joining two operands. -/
theorem total_join (c : Connective) (t : Token) (lhs rhs : Exp) : Total (join c t lhs rhs) := by
  cases c with
  | binary op => exact .pure _
  | assignment =>
    cases lhs with
    | var ty v => exact .pure _
    | element ty v i => exact .pure _
    | _ => exact (total_report _ _).bind fun _ => .pure _

/-- The name of a type. -/
theorem total_typeSpecifier : Total typeSpecifier := by
  intro s
  unfold Ends
  rw [typeSpecifier_eq]
  split <;> exact ⟨_, rfl⟩

/-- The size of an array, if there is one. -/
theorem total_shape : Total shape := by
  refine (total_accept _).bind fun bracket => ?_
  cases bracket with
  | true =>
    refine (total_expect _ _).bind fun size => ?_
    cases size with
    | none => exact .pure _
    | some size =>
      dsimp only
      cases literal? size.text with
      | none => exact (total_report _ _).bind fun _ => .pure _
      | some n =>
        refine (total_expect _ _).bind fun close => ?_
        cases close <;> exact .pure _
  | false => exact .pure _

/-- What follows the name of a variable. -/
theorem total_variableRest (pos : Pos) (base : BaseType) (name : Token) :
    Total (variableRest pos base name) := by
  refine total_shape.bind fun shape => ?_
  cases shape with
  | none => exact .pure _
  | some shape =>
    refine (total_expect _ _).bind fun semicolon => ?_
    cases semicolon <;> exact .pure _

/-- A declaration of a variable. -/
theorem total_localVariable : Total localVariable := by
  refine total_typeSpecifier.bind fun spec => ?_
  cases spec with
  | none => exact .pure _
  | some spec =>
    refine (total_expect _ _).bind fun name => ?_
    cases name with
    | none => exact .pure _
    | some name => exact total_variableRest _ _ name

/-- What follows the type of a parameter. -/
theorem total_parameterRest (pos : Pos) (base : BaseType) : Total (parameterRest pos base) := by
  refine (total_expect _ _).bind fun name => ?_
  cases name with
  | none => exact .pure _
  | some name =>
    refine (total_accept _).bind fun bracket => ?_
    cases bracket with
    | true =>
      refine (total_expect _ _).bind fun close => ?_
      cases close <;> exact .pure _
    | false => exact .pure _

end Ends

/-! ### Calls

The calls that each routine makes are listed with the conditions under which it makes them and the
state that it makes them in. What stands between two calls takes no steps; where a call comes after
another one, its state is the one that the first call has left. -/

/-- The routines of the parser that call each other. -/
inductive Routine where
  | expression (level : Nat)
  | operand
  | connected (level : Nat) (lhs : Exp)
  | arguments
  | localVariables
  | statement
  | blockRest
  | statements
  | parameterList (first : Bool)
  | declarations

/-- A call of a routine, in a state. -/
structure Activation where
  routine : Routine
  state : State

/-- Which statement with a test the keyword begins. -/
def construct? : Token.Kind → Option Construct
  | .kwIf => some .conditional
  | .kwWhile => some .loop
  | _ => none

namespace Activation

/-- The number of tokens that are left. -/
def unread (a : Activation) : Nat :=
  a.state.unread.length

/-- The call has an answer within the given number of steps. -/
def Returns (steps : Nat) (a : Activation) : Prop :=
  match a.routine with
  | .expression level => Ends (Parser.expression steps level) a.state
  | .operand => Ends (Parser.operand steps) a.state
  | .connected level lhs => Ends (Parser.connected steps level lhs) a.state
  | .arguments => Ends (Parser.arguments steps) a.state
  | .localVariables => Ends (Parser.localVariables steps) a.state
  | .statement => Ends (Parser.statement steps) a.state
  | .blockRest => Ends (Parser.blockRest steps) a.state
  | .statements => Ends (Parser.statements steps) a.state
  | .parameterList first => Ends (Parser.parameterList steps first) a.state
  | .declarations => Ends (Parser.declarations steps) a.state

/-- A call leads to another one, by recursion or in a loop: the state of the other one is the one in
which the readers in between leave off. -/
inductive Calls : Activation → Activation → Prop
  | operand {level s} : Calls ⟨.expression level, s⟩ ⟨.operand, s⟩
  | connected {level s steps lhs t} (hlhs : Parser.operand steps s = some (lhs, t)) :
      Calls ⟨.expression level, s⟩ ⟨.connected level lhs, t⟩
  | group {s} (hkind : s.current.kind = .leftParen) :
      Calls ⟨.operand, s⟩ ⟨.expression looseLevel, s.advance⟩
  | unary {s} (hkind : s.current.kind = .minus ∨ s.current.kind = .bang) :
      Calls ⟨.operand, s⟩ ⟨.expression tightLevel, s.advance⟩
  | arguments {s} (hkind : s.current.kind = .identifier)
      (hparen : s.advance.current.kind = .leftParen)
      (hmore : s.advance.advance.current.kind ≠ .rightParen) :
      Calls ⟨.operand, s⟩ ⟨.arguments, s.advance.advance⟩
  | index {s} (hkind : s.current.kind = .identifier)
      (hbracket : s.advance.current.kind = .leftBracket) :
      Calls ⟨.operand, s⟩ ⟨.expression looseLevel, s.advance.advance⟩
  | right {level lhs s c} (hc : Connective.ofKind? s.current.kind = some c)
      (hlevel : level ≤ c.level) :
      Calls ⟨.connected level lhs, s⟩ ⟨.expression c.rightLevel, s.advance⟩
  | further {level lhs s c steps rhs t e u} (hc : Connective.ofKind? s.current.kind = some c)
      (hlevel : level ≤ c.level)
      (hrhs : Parser.expression steps c.rightLevel s.advance = some (rhs, t))
      (hjoin : join c s.current lhs rhs t = some (e, u)) :
      Calls ⟨.connected level lhs, s⟩ ⟨.connected level e, u⟩
  | argument {s} : Calls ⟨.arguments, s⟩ ⟨.expression looseLevel, s⟩
  | nextArgument {s steps e t} (he : Parser.expression steps looseLevel s = some (e, t))
      (hcomma : t.current.kind = .comma) : Calls ⟨.arguments, s⟩ ⟨.arguments, t.advance⟩
  | nextVariable {s d t} (htype : (baseType? s.current.kind).isSome)
      (hd : localVariable s = some (d, t)) :
      Calls ⟨.localVariables, s⟩ ⟨.localVariables, if t.recovering then t.synchronize else t⟩
  | block {s} (hkind : s.current.kind = .leftBrace) :
      Calls ⟨.statement, s⟩ ⟨.blockRest, s.advance⟩
  | condition {s construct paren t} (hkind : construct? s.current.kind = some construct)
      (hparen : expect .leftParen (.noTest construct) s.advance = some (paren, t)) :
      Calls ⟨.statement, s⟩ ⟨.expression looseLevel, t⟩
  | branch {s construct steps e t} (hkind : construct? s.current.kind = some construct)
      (htest : test steps construct s.advance = some (e, t)) :
      Calls ⟨.statement, s⟩ ⟨.statement, t⟩
  | elseBranch {s steps e t a u} (hkind : s.current.kind = .kwIf)
      (htest : test steps .conditional s.advance = some (e, t))
      (hthen : Parser.statement steps t = some (a, u)) (helse : u.current.kind = .kwElse) :
      Calls ⟨.statement, s⟩ ⟨.statement, u.advance⟩
  | value {s} (hkind : s.current.kind = .kwReturn)
      (hmore : s.advance.current.kind ≠ .semicolon) :
      Calls ⟨.statement, s⟩ ⟨.expression looseLevel, s.advance⟩
  | expression {s} (hkind : ¬startsPhrase s.current.kind) (hmore : s.current.kind ≠ .semicolon) :
      Calls ⟨.statement, s⟩ ⟨.expression looseLevel, s⟩
  | locals {s} : Calls ⟨.blockRest, s⟩ ⟨.localVariables, s⟩
  | body {s steps ds t} (hds : Parser.localVariables steps s = some (ds, t)) :
      Calls ⟨.blockRest, s⟩ ⟨.statements, t⟩
  | first {s} (hkind : ¬(s.current.kind = .rightBrace ∨ s.current.kind = .eof)) :
      Calls ⟨.statements, s⟩ ⟨.statement, s⟩
  | next {s steps a t} (hkind : ¬(s.current.kind = .rightBrace ∨ s.current.kind = .eof))
      (ha : Parser.statement steps s = some (a, t)) :
      Calls ⟨.statements, s⟩ ⟨.statements, t.recover s.current.pos⟩
  | nextParameter {first : Bool} {s pos base t d u}
      (htype : typeSpecifier s = some (some (pos, base), t))
      (hvoid : ¬(first ∧ base = .void ∧ t.current.kind = .rightParen))
      (hd : parameterRest pos base t = some (some d, u)) (hcomma : u.current.kind = .comma) :
      Calls ⟨.parameterList first, s⟩ ⟨.parameterList false, u.advance⟩
  | parameters {s pos base t} (htype : typeSpecifier s = some (some (pos, base), t))
      (hname : t.current.kind = .identifier) (hparen : t.advance.current.kind = .leftParen)
      (hmore : t.advance.advance.current.kind ≠ .rightParen) :
      Calls ⟨.declarations, s⟩ ⟨.parameterList true, t.advance.advance⟩
  | functionBody {s pos base t steps ps u} (htype : typeSpecifier s = some (some (pos, base), t))
      (hname : t.current.kind = .identifier) (hparen : t.advance.current.kind = .leftParen)
      (hps : Parser.parameters steps t.advance.advance = some (some ps, u))
      (hclose : u.current.kind = .rightParen) (hbrace : u.advance.current.kind = .leftBrace) :
      Calls ⟨.declarations, s⟩ ⟨.blockRest, u.advance.advance⟩
  | nextDeclaration {s steps d t} (hkind : s.current.kind ≠ .eof)
      (hd : declaration steps s = some (d, t)) :
      Calls ⟨.declarations, s⟩ ⟨.declarations, t.recover s.current.pos⟩

/-! ### Calls come closer to the end

The order behind the measure is lexical: the tokens that are left come first, the rank of the
routine second. A routine of high rank may call one of lower rank at once. The other direction, and
every loop, must read a token in between. -/

/-- In a state where no token is left to be read, a call can only lead to calls of lower rank. -/
def rank (a : Activation) : Nat :=
  match a.routine with
  | .operand | .connected _ _ | .localVariables | .parameterList _ => 0
  | .expression _ => 1
  | .arguments | .statement => 2
  | .statements => 3
  | .blockRest => 4
  | .declarations => 5

/-- Behind the word `if` or `while` fewer tokens are left: it is not the end of the input. -/
theorem length_of_construct {s : State} {construct : Construct}
    (h : construct? s.current.kind = some construct) :
    s.advance.unread.length < s.unread.length := by
  apply length_advance_lt
  intro heof
  rw [heof] at h
  cases h

/-- Behind a connective fewer tokens are left. -/
theorem length_of_ofKind {s : State} {c : Connective}
    (h : Connective.ofKind? s.current.kind = some c) :
    s.advance.unread.length < s.unread.length := by
  apply length_advance_lt
  intro heof
  rw [heof] at h
  cases h

/-- Behind a token of a known kind fewer tokens are left. -/
theorem length_advance_lt_of_eq {s : State} {kind : Token.Kind} (h : s.current.kind = kind)
    (hkind : kind ≠ .eof) : s.advance.unread.length < s.unread.length :=
  length_advance_lt (h ▸ hkind)

/-- A call leads to calls with fewer tokens left, or to a lower routine with no more tokens left. -/
theorem Calls.closer {a b : Activation} (h : Calls a b) :
    b.unread < a.unread ∨ b.unread ≤ a.unread ∧ b.rank < a.rank := by
  cases h with
  -- where no token need have been read, the routine called is a lower one
  | operand => exact .inr ⟨Nat.le_refl _, Nat.zero_lt_one⟩
  | connected hlhs => exact .inr ⟨nonGrowing_operand _ _ _ _ hlhs, Nat.zero_lt_one⟩
  | group hkind => exact .inl (length_advance_lt_of_eq hkind (by decide))
  | unary hkind =>
    left
    rcases hkind with hkind | hkind <;> exact length_advance_lt_of_eq hkind (by decide)
  | arguments hkind hparen _ | index hkind hparen =>
    left
    exact Nat.lt_of_le_of_lt (length_advance_le _) (length_advance_lt_of_eq hkind (by decide))
  | right hc hlevel => exact .inl (length_of_ofKind hc)
  -- the connective has been read before the loop goes on
  | further hc hlevel hrhs hjoin =>
    left
    calc _ ≤ _ := nonGrowing_join _ _ _ _ _ _ _ hjoin
      _ ≤ _ := nonGrowing_expression _ _ _ _ _ hrhs
      _ < _ := length_of_ofKind hc
  | argument => exact .inr ⟨Nat.le_refl _, Nat.lt_succ_self 1⟩
  | nextArgument he hcomma =>
    left
    calc _ < _ := length_advance_lt_of_eq hcomma (by decide)
      _ ≤ _ := nonGrowing_expression _ _ _ _ _ he
  | nextVariable htype hd =>
    left
    refine Nat.lt_of_le_of_lt ?_ (length_localVariable_lt hd htype)
    simp only [unread]
    split
    · exact length_synchronize_le _
    · exact Nat.le_refl _
  | block hkind | value hkind _ => exact .inl (length_advance_lt_of_eq hkind (by decide))
  | condition hkind hparen =>
    exact .inl (Nat.lt_of_le_of_lt (nonGrowing_expect _ _ _ _ _ hparen) (length_of_construct hkind))
  | branch hkind htest =>
    exact .inl (Nat.lt_of_le_of_lt (nonGrowing_test _ _ _ _ _ htest) (length_of_construct hkind))
  | elseBranch hkind htest hthen helse =>
    left
    calc _ ≤ _ := length_advance_le _
      _ ≤ _ := nonGrowing_statement _ _ _ _ hthen
      _ ≤ _ := nonGrowing_test _ _ _ _ _ htest
      _ < _ := length_advance_lt_of_eq hkind (by decide)
  | expression => exact .inr ⟨Nat.le_refl _, Nat.lt_succ_self 1⟩
  | locals => exact .inr ⟨Nat.le_refl _, Nat.succ_pos 3⟩
  | body hds => exact .inr ⟨nonGrowing_localVariables _ _ _ _ hds, Nat.lt_succ_self 3⟩
  | first => exact .inr ⟨Nat.le_refl _, Nat.lt_succ_self 2⟩
  -- a statement always reads something, so that the loop over them moves on after an error too
  | next hkind ha =>
    left
    calc _ ≤ _ := length_recover_le _ _
      _ < _ := progresses_statement _ _ _ _ ha fun heof => hkind (.inr heof)
  | nextParameter htype hvoid hd hcomma =>
    left
    calc _ ≤ _ := length_advance_le _
      _ ≤ _ := nonGrowing_parameterRest _ _ _ _ _ hd
      _ < _ := length_typeSpecifier_lt htype
  | parameters htype hname hparen hmore =>
    left
    calc _ ≤ _ := length_advance_le _
      _ ≤ _ := length_advance_le _
      _ < _ := length_typeSpecifier_lt htype
  | functionBody htype hname hparen hps hclose hbrace =>
    left
    calc _ ≤ _ := length_advance_le _
      _ ≤ _ := length_advance_le _
      _ ≤ _ := nonGrowing_parameters _ _ _ _ hps
      _ ≤ _ := length_advance_le _
      _ ≤ _ := length_advance_le _
      _ < _ := length_typeSpecifier_lt htype
  | nextDeclaration hkind hd => exact .inl (length_declaration_lt hd hkind)

/-- However far calls lead from a call: as soon as the routine is not a lower one than that of the
call, a token has been read in between. -/
theorem Calls.trans_closer {a b : Activation} (h : Relation.TransGen Calls a b) :
    b.unread < a.unread ∨ b.unread ≤ a.unread ∧ b.rank < a.rank := by
  induction h with
  | single h => exact h.closer
  | tail _ h ih =>
    have := h.closer
    omega

/-! ### Calls that answer

One lemma for each routine: if all calls that it leads to have answers within some steps, it has one
within one step more. They follow the texts of the routines, and are the only place that looks into
them. -/

section Succ

variable {steps : Nat} {s : State}

/-- An operand: what it calls depends on the first token or two. -/
theorem operand_returns (h : ∀ b, Calls ⟨.operand, s⟩ b → b.Returns steps) :
    Ends (Parser.operand (steps + 1)) s := by
  refine (total_read s).bind ?_
  rintro t s₁ ⟨⟩
  split
  · rename_i hkind
    exact (h _ (.group hkind)).bind fun e t _ => ((total_expect _ _).bind fun _ => .pure _) t
  · rename_i hkind
    exact (h _ (.unary (.inl hkind))).bind fun e t _ => .pure _
  · rename_i hkind
    exact (h _ (.unary (.inr hkind))).bind fun e t _ => .pure _
  · split
    · exact .pure _
    · exact (total_report _ _).bind (fun _ => .pure _) _
  · exact .pure _
  · exact .pure _
  · rename_i hkind
    refine (total_accept _ _).bind fun called t hcalled => ?_
    rw [accept_eq] at hcalled
    split at hcalled <;> cases hcalled
    · -- a call, with what stands between its parentheses
      rename_i hparen
      refine (total_peek _).bind ?_
      rintro t s₂ ⟨⟩
      dsimp only
      split
      · exact Total.bind (.pure _) (fun args => (total_expect _ _).bind fun _ => .pure _) _
      · rename_i hmore
        exact (h _ (.arguments hkind hparen hmore)).bind fun args t _ =>
          (total_expect _ _).bind (fun _ => .pure _) t
    · refine (total_accept _ _).bind fun indexed t hindexed => ?_
      rw [accept_eq] at hindexed
      split at hindexed <;> cases hindexed
      · -- an element, with its index
        rename_i hbracket
        exact (h _ (.index hkind hbracket)).bind fun i t _ =>
          (total_expect _ _).bind (fun _ => .pure _) t
      · exact .pure _
  · exact (total_report _ _).bind (fun _ => .pure _) _

/-- The loop over connectives, which calls the right operand and then itself. -/
theorem connected_returns {level : Nat} {lhs : Exp}
    (h : ∀ b, Calls ⟨.connected level lhs, s⟩ b → b.Returns steps) :
    Ends (Parser.connected (steps + 1) level lhs) s := by
  refine (total_peek s).bind ?_
  rintro t s₁ ⟨⟩
  split
  · exact .pure _
  · rename_i c hc
    split
    · rename_i hlevel
      refine (total_read s).bind ?_
      rintro t s₁ ⟨⟩
      refine (h _ (.right hc hlevel)).bind fun rhs t hrhs => ?_
      refine (total_join _ _ _ _ t).bind fun e u hjoin => ?_
      exact h _ (.further hc hlevel hrhs hjoin)
    · exact .pure _

/-- Arguments, where another round follows a comma. -/
theorem arguments_returns (h : ∀ b, Calls ⟨.arguments, s⟩ b → b.Returns steps) :
    Ends (Parser.arguments (steps + 1)) s := by
  refine Ends.bind (h _ .argument) fun e t he => (total_accept _ t).bind fun more u hmore => ?_
  rw [accept_eq] at hmore
  split at hmore <;> cases hmore
  · rename_i hcomma
    exact (h _ (.nextArgument he hcomma)).bind fun rest _ _ => .pure _
  · exact .pure _

/-- Declarations at the start of a block. -/
theorem localVariables_returns (h : ∀ b, Calls ⟨.localVariables, s⟩ b → b.Returns steps) :
    Ends (Parser.localVariables (steps + 1)) s := by
  refine (total_peek s).bind ?_
  rintro t s₁ ⟨⟩
  split
  · rename_i htype
    refine (total_localVariable s).bind fun d t hd => (total_modify _ t).bind ?_
    rintro _ u ⟨⟩
    exact (h _ (.nextVariable htype hd)).bind fun rest _ _ => .pure _
  · exact .pure _

/-- A condition, which calls the reader of expressions behind the parenthesis, or where it should
be. -/
theorem test_ends {construct : Construct} (h : ∀ paren t,
      expect .leftParen (.noTest construct) s = some (paren, t) →
        Ends (Parser.expression steps looseLevel) t) : Ends (test steps construct) s :=
  (total_expect _ _ s).bind fun paren t hparen => (h paren t hparen).bind fun _ u _ =>
    (total_expect _ _).bind (fun _ => .pure _) u

/-- A statement, by its first token. -/
theorem statement_returns (h : ∀ b, Calls ⟨.statement, s⟩ b → b.Returns steps) :
    Ends (Parser.statement (steps + 1)) s := by
  have htest {construct : Construct} (hkind : construct? s.current.kind = some construct) :
      Ends (test steps construct) s.advance :=
    test_ends fun paren t hparen => h _ (.condition hkind hparen)
  refine (total_peek s).bind ?_
  rintro t s₁ ⟨⟩
  split
  · rename_i hkind
    refine (total_read s).bind ?_
    rintro t s₁ ⟨⟩
    exact (h _ (.block hkind)).bind fun _ _ _ => .pure _
  · rename_i hkind
    have hif : construct? s.current.kind = some .conditional := by rw [hkind]; rfl
    refine (total_read s).bind ?_
    rintro t s₁ ⟨⟩
    refine (htest hif).bind fun e t he => (h _ (.branch hif he)).bind fun a u ha => ?_
    refine (total_accept _ u).bind fun more v hmore => ?_
    rw [accept_eq] at hmore
    split at hmore <;> cases hmore
    · rename_i helse
      exact (h _ (.elseBranch hkind he ha helse)).bind fun _ _ _ => .pure _
    · exact .pure _
  · rename_i hkind
    have hwhile : construct? s.current.kind = some .loop := by rw [hkind]; rfl
    refine (total_read s).bind ?_
    rintro t s₁ ⟨⟩
    exact (htest hwhile).bind fun e t he => (h _ (.branch hwhile he)).bind fun _ _ _ => .pure _
  · rename_i hkind
    refine (total_read s).bind ?_
    rintro t s₁ ⟨⟩
    refine (total_accept _ _).bind fun bare u hbare => ?_
    rw [accept_eq] at hbare
    split at hbare <;> cases hbare
    · exact .pure _
    · rename_i hmore
      exact (h _ (.value hkind hmore)).bind fun _ t _ =>
        (total_expect _ _).bind (fun _ => .pure _) t
  · exact total_read.bind (fun _ => .pure _) s
  -- a declaration that comes too late is reported and its first word is read
  iterate 3 exact (total_report _ _).bind (fun _ => total_read.bind fun _ => .pure _) s
  · have hkind : ¬startsPhrase s.current.kind := by
      intro hphrase
      unfold startsPhrase at hphrase
      split at hphrase <;> contradiction
    exact (h _ (.expression hkind (by assumption))).bind fun _ t _ =>
      (total_expect _ _).bind (fun _ => .pure _) t

/-- A block: declarations, then statements. -/
theorem blockRest_returns (h : ∀ b, Calls ⟨.blockRest, s⟩ b → b.Returns steps) :
    Ends (Parser.blockRest (steps + 1)) s :=
  Ends.bind (h _ .locals) fun _ _ hds => Ends.bind (h _ (.body hds)) fun _ u _ =>
    (total_expect _ _).bind (fun _ => .pure _) u

/-- Statements up to the end of the block, with recovery between them. -/
theorem statements_returns (h : ∀ b, Calls ⟨.statements, s⟩ b → b.Returns steps) :
    Ends (Parser.statements (steps + 1)) s := by
  refine Ends.bind ⟨(s, s), rfl⟩ ?_
  rintro _ _ ⟨⟩
  split
  · exact .pure _
  · rename_i hkind
    refine Ends.bind (h _ (.first hkind)) fun a t ha => (total_modify _ t).bind ?_
    rintro _ u ⟨⟩
    exact (h _ (.next hkind ha)).bind fun rest _ _ => .pure _

/-- Parameters, where another round follows a comma. -/
theorem parameterList_returns {first : Bool}
    (h : ∀ b, Calls ⟨.parameterList first, s⟩ b → b.Returns steps) :
    Ends (Parser.parameterList (steps + 1) first) s := by
  refine (total_typeSpecifier s).bind fun spec t htype => ?_
  cases spec with
  | none => exact .pure _
  | some spec =>
    obtain ⟨pos, base⟩ := spec
    refine (total_peek t).bind ?_
    rintro _ _ ⟨⟩
    split
    · exact .pure _
    · rename_i hvoid
      refine (total_parameterRest _ _ t).bind fun d u hd => ?_
      cases d with
      | none => exact .pure _
      | some d =>
        refine (total_accept _ u).bind fun more v hmore => ?_
        rw [accept_eq] at hmore
        split at hmore <;> cases hmore
        · rename_i hcomma
          refine (h _ (.nextParameter htype hvoid hd hcomma)).bind fun rest _ _ => ?_
          cases rest <;> exact .pure _
        · exact .pure _

/-- The parameters of a function, unless the parenthesis is closed at once. -/
theorem parameters_ends (h : s.current.kind ≠ .rightParen →
      Ends (Parser.parameterList steps true) s) : Ends (Parser.parameters steps) s := by
  refine (total_peek s).bind ?_
  rintro _ _ ⟨⟩
  split
  · exact .pure _
  · rename_i hmore
    exact h hmore

/-- What follows the opening parenthesis of a function: parameters and a block. -/
theorem functionRest_ends {pos : Pos} {result : BaseType} {name : Token}
    (hlist : s.current.kind ≠ .rightParen → Ends (Parser.parameterList steps true) s)
    (hbody : ∀ ps t, Parser.parameters steps s = some (some ps, t) →
      t.current.kind = .rightParen → t.advance.current.kind = .leftBrace →
        Ends (Parser.blockRest steps) t.advance.advance) :
    Ends (Parser.functionRest steps pos result name) s := by
  refine (parameters_ends hlist).bind fun ps t hps => ?_
  cases ps with
  | none => exact .pure _
  | some ps =>
    refine (total_expect _ _ t).bind fun close u hclose => ?_
    rw [expect_eq] at hclose
    split at hclose <;> cases hclose
    · rename_i hclose
      refine (total_accept _ _).bind fun bare u hbare => ?_
      rw [accept_eq] at hbare
      split at hbare <;> cases hbare
      · exact .pure _
      · refine (total_expect _ _ _).bind fun brace u hbrace => ?_
        rw [expect_eq] at hbrace
        split at hbrace <;> cases hbrace
        · rename_i hbrace
          exact (hbody ps t hps hclose hbrace).bind fun _ _ _ => .pure _
        · exact .pure _
    · exact .pure _

/-- A declaration of the outermost level is a part of the loop over declarations, and takes its
calls from there. -/
theorem declaration_ends (h : ∀ b, Calls ⟨.declarations, s⟩ b → b.Returns steps) :
    Ends (declaration steps) s := by
  refine (total_typeSpecifier s).bind fun spec t htype => ?_
  cases spec with
  | none => exact .pure _
  | some spec =>
    obtain ⟨pos, base⟩ := spec
    refine (total_expect _ _ t).bind fun name u hname => ?_
    rw [expect_eq] at hname
    split at hname <;> cases hname
    · rename_i hname
      refine (total_accept _ _).bind fun called u hcalled => ?_
      rw [accept_eq] at hcalled
      split at hcalled <;> cases hcalled
      · rename_i hparen
        refine Ends.bind (functionRest_ends (fun hmore => ?_) fun ps v hps hclose hbrace => ?_)
          fun _ _ _ => .pure _
        · exact h _ (.parameters htype hname hparen hmore)
        · exact h _ (.functionBody htype hname hparen hps hclose hbrace)
      · exact (total_variableRest _ _ _ _).bind fun _ _ _ => .pure _
    · exact .pure _

/-- The declarations of a program, with recovery between them. -/
theorem declarations_returns (h : ∀ b, Calls ⟨.declarations, s⟩ b → b.Returns steps) :
    Ends (Parser.declarations (steps + 1)) s := by
  refine Ends.bind ⟨(s, s), rfl⟩ ?_
  rintro _ _ ⟨⟩
  split
  · exact .pure _
  · rename_i hkind
    refine (declaration_ends h).bind fun d t hd => (total_modify _ t).bind ?_
    rintro _ u ⟨⟩
    exact (h _ (.nextDeclaration hkind hd)).bind fun rest _ _ => .pure _

end Succ

/-- A call has an answer as soon as the calls that it leads to have answers within one step less. -/
theorem returns_succ {a : Activation} {steps : Nat} (h : ∀ b, Calls a b → b.Returns steps) :
    a.Returns (steps + 1) := by
  obtain ⟨routine, s⟩ := a
  cases routine with
  | expression level =>
    exact Ends.bind (h _ .operand) fun lhs t hlhs => h _ (.connected hlhs)
  | operand => exact operand_returns h
  | connected level lhs => exact connected_returns h
  | arguments => exact arguments_returns h
  | localVariables => exact localVariables_returns h
  | statement => exact statement_returns h
  | blockRest => exact blockRest_returns h
  | statements => exact statements_returns h
  | parameterList first => exact parameterList_returns h
  | declarations => exact declarations_returns h

/-- The steps that a call may take: a rank is below eight. -/
def weight (a : Activation) : Nat :=
  8 * a.unread + a.rank

/-- There are eight ranks at most. -/
theorem rank_lt (a : Activation) : a.rank < 8 := by
  unfold rank
  split <;> decide

/-- A token weighs more than all ranks, so every call is lighter than the one that leads to it. -/
theorem Calls.weight_lt {a b : Activation} (h : Calls a b) : b.weight < a.weight := by
  have hrank := b.rank_lt
  have := h.closer
  unfold weight
  omega

/-- Every call has an answer, within steps that only depend on how many tokens are left. -/
theorem returns {a : Activation} {steps : Nat} (h : a.weight < steps) : a.Returns steps := by
  induction steps generalizing a with
  | zero => exact absurd h (Nat.not_lt_zero _)
  | succ steps ih =>
    exact returns_succ fun b hb => ih (Nat.lt_of_lt_of_le hb.weight_lt (Nat.le_of_lt_succ h))

end Activation

/-! ### More steps change no answer

An answer does not tell how many steps were left, so a parse with more of them gives the same one.
The lemmas follow the texts of the readers once more, with `Extends` in the place of `Ends`. -/

section Extends

variable {α β : Type}

/-- Where `r` answers, `r'` gives the same answer. -/
def Extends (r r' : Reader α) : Prop :=
  ∀ s x, r s = some x → r' s = some x

/-- A reader gives its own answers. -/
theorem Extends.refl (r : Reader α) : Extends r r :=
  fun _ _ h => h

/-- Without steps there is no answer to be kept. -/
theorem Extends.outOfSteps (r : Reader α) : Extends outOfSteps r :=
  fun _ _ h => nomatch h

/-- Answers are kept twice. -/
theorem Extends.trans {r₁ r₂ r₃ : Reader α} (h : Extends r₁ r₂) (h' : Extends r₂ r₃) :
    Extends r₁ r₃ :=
  fun s x hx => h' s x (h s x hx)

/-- Readers in sequence keep their answers. -/
theorem Extends.bind {r r' : Reader α} {f f' : α → Reader β} (hr : Extends r r')
    (hf : ∀ a, Extends (f a) (f' a)) : Extends (r >>= f) (r' >>= f') := by
  rintro s ⟨b, s'⟩ h
  obtain ⟨a, t, ha, hb⟩ := bind_eq_some_iff.mp h
  exact bind_eq_some_iff.mpr ⟨a, t, hr s _ ha, hf a t _ hb⟩

/-- What comes first takes no steps. -/
theorem Extends.after {r : Reader α} {f f' : α → Reader β} (hf : ∀ a, Extends (f a) (f' a)) :
    Extends (r >>= f) (r >>= f') :=
  (Extends.refl r).bind hf

/-- What comes last takes no steps. -/
theorem Extends.before {r r' : Reader α} (hr : Extends r r') (f : α → Reader β) :
    Extends (r >>= f) (r' >>= f) :=
  hr.bind fun a => .refl (f a)

/-- A choice does not depend on the steps. -/
theorem Extends.ite {p : Prop} [Decidable p] {r₁ r₂ r₁' r₂' : Reader α} (h₁ : Extends r₁ r₁')
    (h₂ : Extends r₂ r₂') : Extends (if p then r₁ else r₂) (if p then r₁' else r₂') := by
  split
  · exact h₁
  · exact h₂

end Extends

/-- One more step changes no answer of the readers of expressions. -/
structure ExpExtends (steps : Nat) : Prop where
  expression : ∀ level, Extends (expression steps level) (expression (steps + 1) level)
  operand : Extends (operand steps) (operand (steps + 1))
  connected : ∀ level lhs, Extends (connected steps level lhs) (connected (steps + 1) level lhs)
  arguments : Extends (arguments steps) (arguments (steps + 1))

/-- An operand keeps its answer, whatever its first token is. -/
theorem extends_operand {steps : Nat} (ih : ExpExtends steps) :
    Extends (operand (steps + 1)) (operand (steps + 2)) := by
  refine .after fun t => ?_
  obtain ⟨kind, text, pos⟩ := t
  cases kind with
  | leftParen | minus | bang => exact .before (ih.expression _) _
  | identifier =>
    refine .after fun called => .ite (.after fun t => .ite (.refl _) (.before ih.arguments _)) ?_
    exact .after fun indexed => .ite (.before (ih.expression _) _) (.refl _)
  | _ => exact .refl _

/-- So does the loop over connectives. -/
theorem extends_connected {steps : Nat} (ih : ExpExtends steps) (level : Nat) (lhs : Exp) :
    Extends (connected (steps + 1) level lhs) (connected (steps + 2) level lhs) := by
  refine .after fun t => ?_
  cases Connective.ofKind? t.kind with
  | none => exact .refl _
  | some c =>
    refine .ite (.after fun t => ?_) (.refl _)
    exact .bind (ih.expression _) fun rhs => .after fun e => ih.connected level e

/-- The readers of expressions keep their answers. Induction on the steps. -/
theorem expExtends (steps : Nat) : ExpExtends steps := by
  induction steps with
  | zero =>
    exact ⟨fun _ => .outOfSteps _, .outOfSteps _, fun _ _ => .outOfSteps _, .outOfSteps _⟩
  | succ steps ih =>
    refine ⟨fun level => .bind ih.operand (ih.connected level), extends_operand ih,
      extends_connected ih, ?_⟩
    refine .bind (ih.expression _) fun e => ?_
    exact .after fun more => .ite (.before ih.arguments _) (.refl _)

/-- Declarations at the start of a block keep their answers. Induction on the steps. -/
theorem extends_localVariables (steps : Nat) :
    Extends (localVariables steps) (localVariables (steps + 1)) := by
  induction steps with
  | zero => exact .outOfSteps _
  | succ steps ih =>
    exact .after fun t => .ite (.after fun d => .after fun _ => .before ih _) (.refl _)

/-- A condition keeps its answer. -/
theorem extends_test (steps : Nat) (construct : Construct) :
    Extends (test steps construct) (test (steps + 1) construct) :=
  .after fun _ => .before ((expExtends steps).expression _) _

/-- One more step changes no answer of the readers of statements. -/
structure StmtExtends (steps : Nat) : Prop where
  statement : Extends (statement steps) (statement (steps + 1))
  blockRest : Extends (blockRest steps) (blockRest (steps + 1))
  statements : Extends (statements steps) (statements (steps + 1))

/-- A statement keeps its answer, whatever its first token is. -/
theorem extends_statement {steps : Nat} (ih : StmtExtends steps) :
    Extends (statement (steps + 1)) (statement (steps + 2)) := by
  have hexp := (expExtends steps).expression
  refine .after fun t => ?_
  obtain ⟨kind, text, pos⟩ := t
  cases kind with
  | leftBrace => exact .after fun _ => .before ih.blockRest _
  | kwIf =>
    refine .after fun _ => .bind (extends_test _ _) fun e => .bind ih.statement fun a => ?_
    exact .after fun more => .ite (.before ih.statement _) (.refl _)
  | kwWhile => exact .after fun _ => .bind (extends_test _ _) fun e => .before ih.statement _
  | kwReturn => exact .after fun _ => .after fun bare => .ite (.refl _) (.before (hexp _) _)
  | semicolon | kwInt | kwBool | kwVoid => exact .refl _
  | _ => exact .before (hexp _) _

/-- The readers of statements keep their answers. Induction on the steps. -/
theorem stmtExtends (steps : Nat) : StmtExtends steps := by
  induction steps with
  | zero => exact ⟨.outOfSteps _, .outOfSteps _, .outOfSteps _⟩
  | succ steps ih =>
    refine ⟨extends_statement ih, ?_, ?_⟩
    · exact .bind (extends_localVariables _) fun ds => .before ih.statements _
    · exact .after fun s => .ite (.refl _) <| .bind ih.statement fun a => .after fun _ =>
        .before ih.statements _

/-- Parameters keep their answers. Induction on the steps. -/
theorem extends_parameterList (steps : Nat) (first : Bool) :
    Extends (parameterList steps first) (parameterList (steps + 1) first) := by
  induction steps generalizing first with
  | zero => exact .outOfSteps _
  | succ steps ih =>
    refine .after fun spec => ?_
    cases spec with
    | none => exact .refl _
    | some spec =>
      refine .after fun t => .ite (.refl _) (.after fun d => ?_)
      cases d with
      | none => exact .refl _
      | some d => exact .after fun more => .ite (.before (ih false) _) (.refl _)

/-- What follows the opening parenthesis of a function keeps its answer. -/
theorem extends_functionRest (steps : Nat) (pos : Pos) (result : BaseType) (name : Token) :
    Extends (functionRest steps pos result name) (functionRest (steps + 1) pos result name) := by
  refine .bind (.after fun t => .ite (.refl _) (extends_parameterList steps true)) fun ps => ?_
  cases ps with
  | none => exact .refl _
  | some ps =>
    refine .after fun close => ?_
    cases close with
    | none => exact .refl _
    | some close =>
      refine .after fun bare => .ite (.refl _) (.after fun brace => ?_)
      cases brace with
      | none => exact .refl _
      | some brace => exact .before (stmtExtends steps).blockRest _

/-- A declaration of the outermost level keeps its answer. -/
theorem extends_declaration (steps : Nat) :
    Extends (declaration steps) (declaration (steps + 1)) := by
  refine .after fun spec => ?_
  cases spec with
  | none => exact .refl _
  | some spec =>
    refine .after fun name => ?_
    cases name with
    | none => exact .refl _
    | some name =>
      exact .after fun called => .ite (.before (extends_functionRest _ _ _ _) _) (.refl _)

/-- Declarations keep their answers. Induction on the steps. -/
theorem extends_declarations (steps : Nat) :
    Extends (declarations steps) (declarations (steps + 1)) := by
  induction steps with
  | zero => exact .outOfSteps _
  | succ steps ih =>
    exact .after fun s => .ite (.refl _) <| .bind (extends_declaration steps) fun d =>
      .after fun _ => .before ih _

/-- Any number of steps more changes no answer. -/
theorem extends_declarations_of_le {steps steps' : Nat} (h : steps ≤ steps') :
    Extends (declarations steps) (declarations steps') := by
  induction h with
  | refl => exact .refl _
  | step _ ih => exact ih.trans (extends_declarations _)

/-! ### Parsing ends

The steps that a parse is given suffice for all calls, by the weight of the first one. -/

/-- The parser starts with no more tokens than the source has. -/
theorem length_unread_start_le (stream : TokenStream) :
    (start stream).unread.length ≤ stream.tokens.length :=
  State.settle_unread_length_le _ _

/-- Every source has an answer, the one that the loop over the declarations gives for any number of
steps that suffices for its tokens. So has every call of a routine, whatever tokens are left and
whether or not an error is being recovered from. For a call runs out of steps only if one that it
leads to does; and the calls that a call leads to, at any depth, leave fewer tokens as soon as their
routine is not a lower one, so that a recursive call or another round of a loop comes after a token
has been read. -/
theorem parse_returns (source : String) :
    (∃ ds s, (∀ steps, bound (scan source).tokens.length ≤ steps →
        declarations steps (start (scan source)) = some (ds, s)) ∧
      parse source = if s.errors.isEmpty then .ok ⟨ds, 0⟩ else .error s.errors) ∧
    (∀ (a : Activation) (steps : Nat), bound a.unread ≤ steps → a.Returns steps) ∧
    (∀ (a : Activation) (steps : Nat),
      (∀ b, Activation.Calls a b → b.Returns steps) → a.Returns (steps + 1)) ∧
    ∀ a b : Activation, Relation.TransGen Activation.Calls a b →
      b.unread ≤ a.unread ∧ (a.rank ≤ b.rank → b.unread < a.unread) := by
  have hreturns (a : Activation) (steps : Nat) (h : bound a.unread ≤ steps) : a.Returns steps := by
    apply Activation.returns
    have hrank := a.rank_lt
    unfold bound at h
    unfold Activation.weight
    omega
  refine ⟨?_, hreturns, fun a steps => Activation.returns_succ, fun a b h => ?_⟩
  · have hends : Ends (declarations (bound (scan source).tokens.length)) (start (scan source)) := by
      apply hreturns ⟨.declarations, start (scan source)⟩
      exact Nat.add_le_add_right (Nat.mul_le_mul_left 8 (length_unread_start_le _)) 16
    obtain ⟨⟨ds, s⟩, hrun⟩ := hends
    refine ⟨ds, s, fun steps hle => extends_declarations_of_le hle _ _ hrun, ?_⟩
    unfold parse Program.ofTokens
    rw [StateT.run, hrun]
  · have hcloser := Activation.Calls.trans_closer h
    exact ⟨by omega, by omega⟩

end MiniC.Parser
