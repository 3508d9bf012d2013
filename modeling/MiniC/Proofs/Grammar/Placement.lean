import Mathlib.Logic.Equiv.Basic
import MiniC.Proofs.Scanning.Tiling
import MiniC.Syntax.Parser

/-!
# Parsing and the places of tokens

A parse looks at the kinds and spellings of the tokens, and carries their positions along. When the
tokens of a source are moved to other positions, no two of them to the same one, the parser reads
the same tree with its positions moved, and finds the same errors at the moved tokens
(`ofTokens_move`). Positions have to stay apart because recovery compares them.

Erasing positions is moving all of them to one place, so two sources with the same tokens have the
same trees up to positions, or the same messages (`outcome_eq_of_spelled`).
-/

namespace MiniC

/-! ## Moving positions

Positions are mapped in every place where one is kept, and nothing else is changed. -/

section Move

variable (f : Pos → Pos)

def Token.move (t : Token) : Token :=
  { t with pos := f t.pos }

def VarUse.move (v : VarUse) : VarUse :=
  { v with pos := f v.pos }

def VarDecl.move (d : VarDecl) : VarDecl :=
  { d with pos := f d.pos }

mutual

/-- The expression with its positions moved. -/
def Exp.move : Exp → Exp
  | .int p n => .int (f p) n
  | .bool p b => .bool (f p) b
  | .nil p => .nil (f p)
  | .unary p ty op e => .unary (f p) ty op e.move
  | .binary p ty op l r => .binary (f p) ty op l.move r.move
  | .var ty v => .var ty (v.move f)
  | .element ty v i => .element ty (v.move f) i.move
  | .assign p ty v e => .assign (f p) ty (v.move f) e.move
  | .assignElement p ty v i e => .assignElement (f p) ty (v.move f) i.move e.move
  | .call p ty callee args => .call (f p) ty callee (Exp.moveAll args)

def Exp.moveAll : List Exp → List Exp
  | [] => []
  | e :: rest => e.move :: Exp.moveAll rest

end

mutual

/-- The statement with its positions moved. -/
def Stmt.move : Stmt → Stmt
  | .exp p e => .exp (f p) (e.move f)
  | .block p decls body => .block (f p) (decls.map (VarDecl.move f)) (Stmt.moveAll body)
  | .ifThen p t a => .ifThen (f p) (t.move f) a.move
  | .ifElse p t a b => .ifElse (f p) (t.move f) a.move b.move
  | .whileDo p t a => .whileDo (f p) (t.move f) a.move
  | .ret p e => .ret (f p) (e.map (Exp.move f))

def Stmt.moveAll : List Stmt → List Stmt
  | [] => []
  | s :: rest => s.move :: Stmt.moveAll rest

end

def Block.move (b : Block) : Block :=
  ⟨f b.pos, b.decls.map (VarDecl.move f), Stmt.moveAll f b.stmts⟩

def FunDecl.move (d : FunDecl) : FunDecl :=
  { d with
    pos := f d.pos
    params := d.params.map (VarDecl.move f)
    body := d.body.map (Block.move f) }

def Decl.move : Decl → Decl
  | .var d => .var (d.move f)
  | .function d => .function (d.move f)

/-- The program with its positions moved. -/
def Program.move (p : Program) : Program :=
  { p with decls := p.decls.map (Decl.move f) }

def SyntaxError.move (e : SyntaxError) : SyntaxError :=
  ⟨e.fault, e.token.move f⟩

def TokenStream.move (s : TokenStream) : TokenStream :=
  ⟨s.tokens.map (Token.move f), f s.stop⟩

/-- The state with the positions of its tokens and errors moved. -/
def Parser.State.move (s : State) : State :=
  { s with
    unread := s.unread.map (Token.move f)
    stop := f s.stop
    errors := s.errors.map (SyntaxError.move f) }

end Move

/-! ## States and moved tokens

What the parser does in one step does not depend on positions, so it commutes with a change of the
positions of tokens. -/

namespace Parser

namespace State

variable (f : Pos → Pos) (s : State)

@[simp] theorem move_recovering : (s.move f).recovering = s.recovering := rfl

@[simp] theorem move_last : (s.move f).last = s.last := rfl

@[simp] theorem move_unread : (s.move f).unread = s.unread.map (Token.move f) := rfl

/-- The next token is moved with the others, and the end of the input too. -/
@[simp] theorem current_move : (s.move f).current = s.current.move f := by
  unfold current
  cases h : s.unread <;> simp [h, move, Token.ofEnd, Token.move]

/-- Reporting a moved token is reporting the token, moved. Silence does not look at positions. -/
@[simp] theorem report_move (t : Token) (fault : SyntaxFault) :
    (s.move f).report (t.move f) fault = (s.report t fault).move f := by
  unfold report
  rw [move_recovering]
  split
  · rfl
  · simp [move, SyntaxError.move]

/-- Which tokens are left out does not depend on their positions. Induction on the tokens. -/
theorem settle_move (ts : List Token) :
    (s.move f).settle (ts.map (Token.move f)) = (s.settle ts).move f := by
  induction ts generalizing s with
  | nil => rfl
  | cons t ts ih =>
    obtain ⟨kind, text, pos⟩ := t
    cases kind with
    | invalid fault =>
      simp only [List.map_cons, Token.move, settle]
      rw [← ih]
      exact congrArg (settle · _) (report_move f s ⟨.invalid fault, text, pos⟩ (.lexical fault))
    | _ => rfl

/-- Reading a token. -/
@[simp] theorem advance_move : (s.move f).advance = s.advance.move f := by
  unfold advance
  rw [← settle_move, move_unread, List.map_tail, current_move]
  rfl

/-- Skipping up to the start of a phrase. Induction along the skipped tokens. -/
theorem seekPhrase_move : (s.move f).seekPhrase = s.seekPhrase.move f := by
  induction s using seekPhrase.induct with
  | case1 s hend =>
    rw [seekPhrase.eq_1 s, seekPhrase.eq_1 (s.move f), dif_pos hend, dif_pos (by simp [hend])]
  | case2 s hmore hphrase =>
    rw [seekPhrase.eq_1 s, seekPhrase.eq_1 (s.move f), dif_neg hmore,
      dif_neg (by simpa using hmore), if_pos hphrase, if_pos (by simpa [Token.move] using hphrase)]
  | case3 s hmore hphrase ih =>
    rw [seekPhrase.eq_1 s, seekPhrase.eq_1 (s.move f), dif_neg hmore,
      dif_neg (by simpa using hmore), if_neg hphrase, if_neg (by simpa [Token.move] using hphrase),
        advance_move, ih]

/-- Ending a silence. -/
@[simp] theorem synchronize_move : (s.move f).synchronize = s.synchronize.move f :=
  seekPhrase_move f { s with recovering := false }

/-- Recovery compares two positions, so they must not be moved to one. -/
theorem recover_move {f : Pos → Pos} (hf : Function.Injective f) (s : State) (start : Pos) :
    (s.move f).recover (f start) = (s.recover start).move f := by
  unfold recover
  simp only [move_recovering, synchronize_move, current_move, advance_move, Token.move,
    hf.eq_iff]
  split
  · split <;> rfl
  · rfl

end State

/-! ## Readers and moved tokens

A reader is natural if it gives the moved result for moved tokens. Sequences and choices of natural
readers are natural, so it is shown for each reader from its parts. -/

section Natural

variable (f : Pos → Pos)

/-- On moved tokens `r'` reads what `r` reads, moved. -/
def Natural {α β : Type} (g : α → β) (r : Reader α) (r' : Reader β) : Prop :=
  ∀ s, r' (s.move f) = (r s).map (Prod.map g (State.move f))

variable {f}
variable {α β γ δ : Type} {g : α → β} {h : γ → δ}

namespace Natural

/-- An answer that is moved. -/
theorem pure (a : α) : Natural f g (pure a) (pure (g a)) :=
  fun _ => rfl

/-- Readers in sequence, where the second one gets the moved answer of the first. -/
theorem bind {r : Reader α} {r' : Reader β} {k : α → Reader γ} {k' : β → Reader δ}
    (hr : Natural f g r r') (hk : ∀ a, Natural f h (k a) (k' (g a))) :
    Natural f h (r >>= k) (r' >>= k') := by
  intro s
  simp only [Bind.bind, StateT.bind, hr s]
  cases r s with
  | none => rfl
  | some x => exact hk x.1 x.2

/-- A choice that does not depend on positions. -/
theorem ite {p : Prop} [Decidable p] {r₁ r₂ : Reader α} {r₁' r₂' : Reader β}
    (h₁ : Natural f g r₁ r₁') (h₂ : Natural f g r₂ r₂') :
    Natural f g (if p then r₁ else r₂) (if p then r₁' else r₂') := by
  split
  · exact h₁
  · exact h₂

/-- Neither has an answer. -/
theorem outOfSteps : Natural f g Parser.outOfSteps Parser.outOfSteps :=
  fun _ => rfl

/-- The state that is asked for is the moved one. -/
theorem get : Natural f (State.move f) MonadState.get MonadState.get :=
  fun _ => rfl

/-- A change of the state that commutes with moving. -/
theorem modify {u u' : State → State} (hu : ∀ s, u' (s.move f) = (u s).move f) :
    Natural f id (modify u) (modify u') := by
  intro s
  exact congrArg (fun t => some ((), t)) (hu s)

/-- The next token is the moved one. -/
theorem peek : Natural f (Token.move f) peek peek := by
  intro s
  exact congrArg (fun t => some (t, s.move f)) (s.current_move f)

/-- The token that is read is the moved one. -/
theorem read : Natural f (Token.move f) read read := by
  intro s
  change some ((s.move f).current, (s.move f).advance) = some (s.current.move f, s.advance.move f)
  rw [State.current_move, State.advance_move]

/-- An error at the moved token is reported. -/
theorem report (t : Token) (fault : SyntaxFault) :
    Natural f id (report t fault) (report (t.move f) fault) :=
  modify fun s => s.report_move f t fault

/-- Whether a token is there does not depend on its position. -/
theorem accept (kind : Token.Kind) : Natural f id (accept kind) (accept kind) := by
  exact bind peek fun t => ite (bind read fun _ => pure true) (pure false)

/-- The token that is demanded is the moved one, or else the moved next token is reported. -/
theorem expect (kind : Token.Kind) (fault : SyntaxFault) :
    Natural f (Option.map (Token.move f)) (expect kind fault) (expect kind fault) := by
  exact bind peek fun t => ite (bind read fun t => pure (some t))
    (bind (report t fault) fun _ => pure none)

end Natural

/-! ## Expressions

The readers of expressions call each other, with steps that are counted. Induction on that number.
-/

/-- Joining two operands keeps their positions, and a fault is reported at the equals sign. -/
theorem natural_join (c : Connective) (t : Token) (lhs rhs : Exp) :
    Natural f (Exp.move f) (join c t lhs rhs) (join c (t.move f) (lhs.move f) (rhs.move f)) := by
  cases c with
  | binary op => exact .pure (Exp.binary t.pos none op lhs rhs)
  | assignment =>
    cases lhs with
    | var ty v => exact .pure (Exp.assign t.pos none v rhs)
    | element ty v i => exact .pure (Exp.assignElement t.pos none v i rhs)
    | _ => exact .bind (.report t .assignmentTarget) fun _ => .pure rhs

/-- What the readers of expressions do on moved tokens, for a number of steps. -/
structure NaturalExp (f : Pos → Pos) (steps : Nat) : Prop where
  expression : ∀ level, Natural f (Exp.move f) (expression steps level) (expression steps level)
  operand : Natural f (Exp.move f) (operand steps) (operand steps)
  connected : ∀ level lhs,
    Natural f (Exp.move f) (connected steps level lhs) (connected steps level (lhs.move f))
  arguments : Natural f (Exp.moveAll f) (arguments steps) (arguments steps)

/-- An operand, by the kind of its first token, which is not moved. -/
theorem natural_operand {steps : Nat} (ih : NaturalExp f steps) :
    Natural f (Exp.move f) (operand (steps + 1)) (operand (steps + 1)) := by
  refine .bind .read fun t => ?_
  obtain ⟨kind, text, pos⟩ := t
  cases kind with
  | leftParen =>
    exact .bind (ih.expression _) fun e => .bind (.expect _ _) fun _ => .pure e
  | minus => exact .bind (ih.expression _) fun e => .pure (Exp.unary pos none .neg e)
  | bang => exact .bind (ih.expression _) fun e => .pure (Exp.unary pos none .not e)
  | integer =>
    dsimp only [Token.move]
    cases literal? text with
    | some value => exact .pure (Exp.int pos value)
    -- the fault of a literal out of range is at the token, so it moves along
    | none => exact .bind (.report ⟨_, text, pos⟩ _) fun _ => .pure (Exp.int pos 0)
  | kwTrue => exact .pure (Exp.bool pos true)
  | kwFalse => exact .pure (Exp.bool pos false)
  | identifier =>
    refine .bind (.accept _) fun called => ?_
    cases called with
    | true =>
      refine .bind .peek fun t => .ite (.bind (g := Exp.moveAll f) (.pure []) fun args => ?_)
        (.bind ih.arguments fun args => ?_)
      · exact .bind (.expect _ _) fun _ => .pure (Exp.call pos none text args)
      · exact .bind (.expect _ _) fun _ => .pure (Exp.call pos none text args)
    | false =>
      refine .bind (.accept _) fun indexed => ?_
      cases indexed with
      | true =>
        exact .bind (ih.expression _) fun i => .bind (.expect _ _) fun _ =>
          .pure (Exp.element none ⟨pos, text, none⟩ i)
      | false => exact .pure (Exp.var none ⟨pos, text, none⟩)
  | _ => exact .bind (.report ⟨_, text, pos⟩ _) fun _ => .pure (Exp.nil pos)

/-- The loop over connectives. -/
theorem natural_connected {steps : Nat} (ih : NaturalExp f steps) (level : Nat) (lhs : Exp) :
    Natural f (Exp.move f) (connected (steps + 1) level lhs)
      (connected (steps + 1) level (lhs.move f)) := by
  refine .bind .peek fun t => ?_
  obtain ⟨kind, text, pos⟩ := t
  dsimp only [Token.move]
  cases Connective.ofKind? kind with
  | none => exact .pure lhs
  | some c =>
    refine .ite (.bind .read fun t => ?_) (.pure lhs)
    exact .bind (ih.expression _) fun rhs => .bind (natural_join c t lhs rhs) (ih.connected level)

/-- The readers of expressions read moved trees from moved tokens. Induction on the steps. -/
theorem naturalExp (f : Pos → Pos) (steps : Nat) : NaturalExp f steps := by
  induction steps with
  | zero => exact ⟨fun _ => .outOfSteps, .outOfSteps, fun _ _ => .outOfSteps, .outOfSteps⟩
  | succ steps ih =>
    refine ⟨fun level => ?_, natural_operand ih, natural_connected ih, ?_⟩
    · exact .bind ih.operand (ih.connected level)
    · refine .bind (ih.expression _) fun e => .bind (.accept _) fun more => ?_
      cases more with
      | true => exact .bind ih.arguments fun rest => .pure (e :: rest)
      | false => exact .pure [e]

/-! ## Declarations of variables

These do not recur, except for lists, which are by induction on the number of steps. -/

/-- The name of a type, with its position moved. -/
theorem natural_typeSpecifier : Natural f (Option.map (Prod.map f id)) typeSpecifier
    typeSpecifier := by
  refine .bind .peek fun t => ?_
  obtain ⟨kind, text, pos⟩ := t
  dsimp only [Token.move]
  cases baseType? kind with
  | some base => exact .bind .read fun _ => .pure (some (pos, base))
  | none => exact .bind (.report _ _) fun _ => .pure none

/-- The size of an array has no position. -/
theorem natural_shape : Natural f id shape shape := by
  refine .bind (.accept _) fun bracket => ?_
  cases bracket with
  | false => exact .pure (some Shape.scalar)
  | true =>
    refine .bind (.expect _ _) fun size => ?_
    cases size with
    | none => exact .pure none
    | some size =>
      obtain ⟨kind, text, pos⟩ := size
      dsimp only [Option.map_some, Token.move]
      cases literal? text with
      | none => exact .bind (.report ⟨kind, text, pos⟩ _) fun _ => .pure none
      | some n =>
        refine .bind (.expect _ _) fun close => ?_
        cases close with
        | none => exact .pure none
        | some t => exact .pure (some (Shape.array n))

/-- What follows the name of a variable, which has the position of its type. -/
theorem natural_variableRest (pos : Pos) (base : BaseType) (name : Token) :
    Natural f (Option.map (VarDecl.move f)) (variableRest pos base name)
      (variableRest (f pos) base (name.move f)) := by
  refine .bind natural_shape fun shape => ?_
  cases shape with
  | none => exact .pure none
  | some shape =>
    refine .bind (.expect _ _) fun close => ?_
    cases close with
    | none => exact .pure none
    | some t => exact .pure (some (VarDecl.mk pos base name.text shape none))

/-- A declaration of a variable. -/
theorem natural_localVariable :
    Natural f (Option.map (VarDecl.move f)) localVariable localVariable := by
  refine .bind natural_typeSpecifier fun type => ?_
  cases type with
  | none => exact .pure none
  | some type =>
    refine .bind (.expect _ _) fun name => ?_
    cases name with
    | none => exact .pure none
    | some name => exact natural_variableRest type.1 type.2 name

/-- Moving an item that may be there and a list of items. -/
theorem toList_append_map {α β : Type} (g : α → β) (o : Option α) (l : List α) :
    (o.map g).toList ++ l.map g = (o.toList ++ l).map g := by
  cases o <;> simp

/-- Declarations at the start of a block. Induction on the steps. -/
theorem natural_localVariables (steps : Nat) :
    Natural f (List.map (VarDecl.move f)) (localVariables steps) (localVariables steps) := by
  induction steps with
  | zero => exact .outOfSteps
  | succ steps ih =>
    refine .bind .peek fun t => .ite ?_ (.pure [])
    refine .bind natural_localVariable fun d => .bind (.modify fun s => ?_) fun _ =>
      .bind ih fun rest => ?_
    · rw [State.move_recovering]
      split
      · exact s.synchronize_move f
      · rfl
    · rw [toList_append_map]
      exact .pure (d.toList ++ rest)

/-! ## Statements

As for expressions, by induction on the number of steps. -/

/-- A condition. -/
theorem natural_test (steps : Nat) (construct : Construct) :
    Natural f (Exp.move f) (test steps construct) (test steps construct) :=
  .bind (.expect _ _) fun _ => .bind ((naturalExp f steps).expression _) fun e =>
    .bind (.expect _ _) fun _ => .pure e

/-- What the readers of statements do on moved tokens, for a number of steps. -/
structure NaturalStmt (f : Pos → Pos) (steps : Nat) : Prop where
  statement : Natural f (Stmt.move f) (statement steps) (statement steps)
  blockRest : Natural f (Prod.map (List.map (VarDecl.move f)) (Stmt.moveAll f))
    (blockRest steps) (blockRest steps)
  statements : Natural f (Stmt.moveAll f) (statements steps) (statements steps)

/-- A statement, by the kind of its first token, which is not moved. -/
theorem natural_statement {steps : Nat} (ih : NaturalStmt f steps) :
    Natural f (Stmt.move f) (statement (steps + 1)) (statement (steps + 1)) := by
  have hexp := (naturalExp f steps).expression
  refine .bind .peek fun t => ?_
  obtain ⟨kind, text, pos⟩ := t
  cases kind with
  | leftBrace =>
    exact .bind .read fun _ => .bind ih.blockRest fun block =>
      .pure (Stmt.block pos block.1 block.2)
  | kwIf =>
    refine .bind .read fun _ => .bind (natural_test _ _) fun c => .bind ih.statement fun a =>
      .bind (.accept _) fun more => ?_
    cases more with
    | true => exact .bind ih.statement fun b => .pure (Stmt.ifElse pos c a b)
    | false => exact .pure (Stmt.ifThen pos c a)
  | kwWhile =>
    exact .bind .read fun _ => .bind (natural_test _ _) fun c => .bind ih.statement fun a =>
      .pure (Stmt.whileDo pos c a)
  | kwReturn =>
    refine .bind .read fun _ => .bind (.accept _) fun bare => ?_
    cases bare with
    | true => exact .pure (Stmt.ret pos none)
    | false =>
      exact .bind (hexp _) fun e => .bind (.expect _ _) fun _ => .pure (Stmt.ret pos (some e))
  | semicolon => exact .bind .read fun _ => .pure (Stmt.exp pos (.nil pos))
  | kwInt | kwBool | kwVoid =>
    exact .bind (.report ⟨_, text, pos⟩ _) fun _ => .bind .read fun _ =>
      .pure (Stmt.exp pos (.nil pos))
  | _ => exact .bind (hexp _) fun e => .bind (.expect _ _) fun _ => .pure (Stmt.exp pos e)

/-- The readers of statements read moved trees from moved tokens. Induction on the steps; recovery
between statements compares positions, so they must stay apart. -/
theorem naturalStmt (hf : Function.Injective f) (steps : Nat) : NaturalStmt f steps := by
  induction steps with
  | zero => exact ⟨.outOfSteps, .outOfSteps, .outOfSteps⟩
  | succ steps ih =>
    refine ⟨natural_statement ih, ?_, ?_⟩
    · exact .bind (natural_localVariables steps) fun decls => .bind ih.statements fun body =>
        .bind (.expect _ _) fun _ => .pure (decls, body)
    · refine .bind .get fun s => ?_
      rw [State.current_move]
      refine .ite (.pure []) (.bind ih.statement fun first => ?_)
      refine .bind (.modify fun t => State.recover_move hf t s.current.pos) fun _ => ?_
      exact .bind ih.statements fun rest => .pure (first :: rest)

/-! ## Declarations of the outermost level

Put together from the readers of the sections before. -/

/-- What follows the type of a parameter. -/
theorem natural_parameterRest (pos : Pos) (base : BaseType) :
    Natural f (Option.map (VarDecl.move f)) (parameterRest pos base)
      (parameterRest (f pos) base) := by
  refine .bind (.expect _ _) fun name => ?_
  cases name with
  | none => exact .pure none
  | some name =>
    refine .bind (.accept _) fun bracket => ?_
    cases bracket with
    | false => exact .pure (some (VarDecl.mk pos base name.text .scalar none))
    | true =>
      refine .bind (.expect _ _) fun close => ?_
      cases close with
      | none => exact .pure none
      | some t => exact .pure (some (VarDecl.mk pos base name.text .reference none))

/-- Parameters. Induction on the steps. -/
theorem natural_parameterList (steps : Nat) (first : Bool) :
    Natural f (Option.map (List.map (VarDecl.move f))) (parameterList steps first)
      (parameterList steps first) := by
  induction steps generalizing first with
  | zero => exact .outOfSteps
  | succ steps ih =>
    refine .bind natural_typeSpecifier fun type => ?_
    cases type with
    | none => exact .pure none
    | some type =>
      obtain ⟨pos, base⟩ := type
      refine .bind .peek fun t => .ite (.pure (some [])) ?_
      refine .bind (natural_parameterRest pos base) fun param => ?_
      cases param with
      | none => exact .pure none
      | some param =>
        refine .bind (.accept _) fun more => ?_
        cases more with
        | false => exact .pure (some [param])
        | true =>
          refine .bind (ih false) fun rest => ?_
          cases rest with
          | none => exact .pure none
          | some rest => exact .pure (some (param :: rest))

/-- What follows the opening parenthesis of a function. -/
theorem natural_functionRest (hf : Function.Injective f) (steps : Nat) (pos : Pos)
    (result : BaseType) (name : Token) :
    Natural f (Option.map (FunDecl.move f)) (functionRest steps pos result name)
      (functionRest steps (f pos) result (name.move f)) := by
  refine .bind (.bind .peek fun t => .ite (.pure (some [])) (natural_parameterList _ _))
    fun params => ?_
  cases params with
  | none => exact .pure none
  | some params =>
    refine .bind (.expect _ _) fun close => ?_
    cases close with
    | none => exact .pure none
    | some t =>
      refine .bind (.accept _) fun prototype => ?_
      cases prototype with
      | true => exact .pure (some (FunDecl.mk pos result name.text params none 0 none))
      | false =>
        refine .bind (.expect _ _) fun brace => ?_
        cases brace with
        | none => exact .pure none
        | some brace =>
          exact .bind (naturalStmt hf steps).blockRest fun block =>
            .pure (some (FunDecl.mk pos result name.text params
              (some ⟨brace.pos, block.1, block.2⟩) 0 none))

/-- A declaration of the outermost level. -/
theorem natural_declaration (hf : Function.Injective f) (steps : Nat) :
    Natural f (Option.map (Decl.move f)) (declaration steps) (declaration steps) := by
  refine .bind natural_typeSpecifier fun type => ?_
  cases type with
  | none => exact .pure none
  | some type =>
    refine .bind (.expect _ _) fun name => ?_
    cases name with
    | none => exact .pure none
    | some name =>
      refine .bind (.accept _) fun function => ?_
      cases function with
      | true =>
        refine .bind (natural_functionRest hf steps type.1 type.2 name) fun d => ?_
        cases d with
        | none => exact .pure none
        | some d => exact .pure (some (Decl.function d))
      | false =>
        refine .bind (natural_variableRest type.1 type.2 name) fun d => ?_
        cases d with
        | none => exact .pure none
        | some d => exact .pure (some (Decl.var d))

/-- Declarations of the outermost level, with recovery between them. Induction on the steps. -/
theorem natural_declarations (hf : Function.Injective f) (steps : Nat) :
    Natural f (List.map (Decl.move f)) (declarations steps) (declarations steps) := by
  induction steps with
  | zero => exact .outOfSteps
  | succ steps ih =>
    refine .bind .get fun s => ?_
    rw [State.current_move]
    refine .ite (.pure []) (.bind (natural_declaration hf steps) fun d => ?_)
    refine .bind (.modify fun t => State.recover_move hf t s.current.pos) fun _ => ?_
    refine .bind ih fun rest => ?_
    rw [toList_append_map]
    exact .pure (d.toList ++ rest)

end Natural

end Parser

/-! ## Whole sources

The whole parser is natural, so two sources with the same tokens but for their positions have the
same tree but for positions. -/

/-- Moving the tokens, no two of them to one place, moves the tree, or the errors. -/
theorem Program.ofTokens_move {f : Pos → Pos} (hf : Function.Injective f) (stream : TokenStream) :
    Program.ofTokens (stream.move f) =
      ((Program.ofTokens stream).map (Program.move f)).mapError
        (List.map (SyntaxError.move f)) := by
  have hstart : Parser.start (stream.move f) = (Parser.start stream).move f :=
    Parser.State.settle_move f ⟨none, [], stream.stop, [], false⟩ stream.tokens
  have hlength : (stream.move f).tokens.length = stream.tokens.length := List.length_map ..
  have hread := Parser.natural_declarations hf (Parser.bound stream.tokens.length)
    (Parser.start stream)
  unfold Program.ofTokens
  rw [hstart, hlength, StateT.run, StateT.run, hread]
  cases Parser.declarations (Parser.bound stream.tokens.length) (Parser.start stream) with
  | none => rfl
  | some x =>
    obtain ⟨decls, s⟩ := x
    have herrors : (s.move f).errors.isEmpty = s.errors.isEmpty := List.isEmpty_map
    simp only [Option.map_some, Prod.map_apply, herrors]
    split <;> rfl

/-! ### Erasing positions

Moving everything to one place is not injective, so the parser cannot be asked about it. But a tree
whose positions are erased is the same whether they were moved before or not. -/

/-- The place to which all positions are moved when positions are erased. -/
def Pos.nowhere : Pos → Pos :=
  fun _ => ⟨0, 0⟩

/-- The program without its positions. -/
def Program.unplaced (p : Program) : Program :=
  p.move Pos.nowhere

section Erase

variable (f : Pos → Pos)

theorem VarUse.move_nowhere (v : VarUse) : (v.move f).move Pos.nowhere = v.move Pos.nowhere := rfl

theorem VarDecl.move_nowhere (d : VarDecl) :
    (d.move f).move Pos.nowhere = d.move Pos.nowhere := rfl

/-- Declarations of variables, one by one. -/
theorem VarDecl.map_move_nowhere (ds : List VarDecl) :
    (ds.map (move f)).map (move Pos.nowhere) = ds.map (move Pos.nowhere) := by
  simp [Function.comp_def, VarDecl.move_nowhere]

mutual

/-- Expressions without positions are the same, moved before or not. By recursion on the tree. -/
theorem Exp.move_nowhere (e : Exp) : (e.move f).move Pos.nowhere = e.move Pos.nowhere := by
  cases e with
  | int | bool | nil | var => rfl
  | unary p ty op e => simp only [Exp.move, Exp.move_nowhere e, Pos.nowhere]
  | binary p ty op l r =>
    simp only [Exp.move, Exp.move_nowhere l, Exp.move_nowhere r, Pos.nowhere]
  | element ty v i => simp only [Exp.move, VarUse.move_nowhere, Exp.move_nowhere i]
  | assign p ty v e => simp only [Exp.move, VarUse.move_nowhere, Exp.move_nowhere e, Pos.nowhere]
  | assignElement p ty v i e =>
    simp only [Exp.move, VarUse.move_nowhere, Exp.move_nowhere i, Exp.move_nowhere e, Pos.nowhere]
  | call p ty callee args => simp only [Exp.move, Exp.moveAll_nowhere args, Pos.nowhere]

theorem Exp.moveAll_nowhere (es : List Exp) :
    Exp.moveAll Pos.nowhere (Exp.moveAll f es) = Exp.moveAll Pos.nowhere es := by
  cases es with
  | nil => rfl
  | cons e rest => simp only [Exp.moveAll, Exp.move_nowhere e, Exp.moveAll_nowhere rest]

end

mutual

/-- So are statements. -/
theorem Stmt.move_nowhere (s : Stmt) : (s.move f).move Pos.nowhere = s.move Pos.nowhere := by
  cases s with
  | exp p e => simp only [Stmt.move, Exp.move_nowhere, Pos.nowhere]
  | block p decls body =>
    simp only [Stmt.move, VarDecl.map_move_nowhere, Stmt.moveAll_nowhere body, Pos.nowhere]
  | ifThen p t a => simp only [Stmt.move, Exp.move_nowhere, Stmt.move_nowhere a, Pos.nowhere]
  | ifElse p t a b =>
    simp only [Stmt.move, Exp.move_nowhere, Stmt.move_nowhere a, Stmt.move_nowhere b, Pos.nowhere]
  | whileDo p t a => simp only [Stmt.move, Exp.move_nowhere, Stmt.move_nowhere a, Pos.nowhere]
  | ret p e => cases e <;> simp [Stmt.move, Exp.move_nowhere, Pos.nowhere]

theorem Stmt.moveAll_nowhere (ss : List Stmt) :
    Stmt.moveAll Pos.nowhere (Stmt.moveAll f ss) = Stmt.moveAll Pos.nowhere ss := by
  cases ss with
  | nil => rfl
  | cons s rest => simp only [Stmt.moveAll, Stmt.move_nowhere s, Stmt.moveAll_nowhere rest]

end

/-- So are the bodies of functions. -/
theorem Block.move_nowhere (b : Block) : (b.move f).move Pos.nowhere = b.move Pos.nowhere := by
  simp only [Block.move, VarDecl.map_move_nowhere, Stmt.moveAll_nowhere, Pos.nowhere]

/-- So are declarations. -/
theorem Decl.move_nowhere (d : Decl) : (d.move f).move Pos.nowhere = d.move Pos.nowhere := by
  cases d with
  | var d => rfl
  | function d =>
    have hbody : (d.body.map (Block.move f)).map (Block.move Pos.nowhere) =
        d.body.map (Block.move Pos.nowhere) := by
      cases d.body <;> simp [Block.move_nowhere]
    simp only [Decl.move, FunDecl.move, VarDecl.map_move_nowhere, hbody, Pos.nowhere]

/-- So are programs. -/
@[simp] theorem Program.unplaced_move (p : Program) : (p.move f).unplaced = p.unplaced := by
  simp [Program.unplaced, Program.move, Function.comp_def, Decl.move_nowhere]

/-- The message of an error does not name its place. -/
@[simp] theorem SyntaxError.message_move (e : SyntaxError) : (e.move f).message = e.message := rfl

end Erase

/-! ### Sources with the same tokens

If two sources have the same tokens in other places, the places of one can be moved to those of the
other: no two tokens of a source are at one place, so the move is injective where it matters, and
can be made so everywhere. -/

/-- Different elements can be renamed to different elements. -/
theorem exists_injective_map_eq {α : Type} [DecidableEq α] {as bs : List α}
    (hlength : as.length = bs.length) (has : as.Nodup) (hbs : bs.Nodup) :
    ∃ f : α → α, Function.Injective f ∧ as.map f = bs := by
  induction as generalizing bs with
  | nil =>
    exact ⟨id, Function.injective_id, by simpa using (List.length_eq_zero_iff.mp hlength.symm).symm⟩
  | cons a as ih =>
    cases bs with
    | nil => simp at hlength
    | cons b bs =>
      obtain ⟨ha, has⟩ := List.nodup_cons.mp has
      obtain ⟨hb, hbs⟩ := List.nodup_cons.mp hbs
      obtain ⟨f, hf, hmap⟩ := ih (Nat.succ.inj hlength) has hbs
      -- `f` sends `a` anywhere; exchanging that place with `b` leaves the other elements alone.
      refine ⟨Equiv.swap (f a) b ∘ f, (Equiv.injective _).comp hf, ?_⟩
      have hrest : as.map (Equiv.swap (f a) b ∘ f) = as.map f := by
        refine List.map_congr_left fun x hx => Equiv.swap_apply_of_ne_of_ne ?_ ?_
        · exact fun heq => ha (hf heq ▸ hx)
        · exact fun heq => hb (hmap ▸ heq ▸ List.mem_map_of_mem hx)
      rw [List.map_cons, hrest, hmap, Function.comp_apply, Equiv.swap_apply_left]

/-- The kinds and spellings of the tokens in order. -/
def TokenStream.spelled (s : TokenStream) : List (Token.Kind × String) :=
  s.tokens.map fun t => (t.kind, t.text)

/-- What a parse says, positions apart: the tree, or the messages of its errors in order. -/
def outcome (source : String) : Except (List String) Program :=
  ((parse source).map Program.unplaced).mapError (List.map SyntaxError.message)

/-- Tokens with the same kinds and spellings are the same when they are moved to the same places.
Induction on both lists. -/
theorem map_move_eq {f : Pos → Pos} {ts ts' : List Token}
    (hspelled : (ts.map fun t => (t.kind, t.text)) = ts'.map fun t => (t.kind, t.text))
    (hpos : (ts.map Token.pos).map f = ts'.map Token.pos) : ts.map (Token.move f) = ts' := by
  induction ts generalizing ts' with
  | nil => simpa using hpos
  | cons t ts ih =>
    cases ts' with
    | nil => simp at hpos
    | cons t' ts' =>
      simp only [List.map_cons, List.cons.injEq, Prod.mk.injEq] at hspelled hpos
      rw [List.map_cons, ih hspelled.2 hpos.2]
      obtain ⟨kind, text, pos⟩ := t
      obtain ⟨kind', text', pos'⟩ := t'
      obtain ⟨⟨rfl, rfl⟩, -⟩ := hspelled
      obtain ⟨rfl, -⟩ := hpos
      rfl

/-- Two sources with the same tokens are the same up to places. -/
theorem exists_move_eq {source source' : String}
    (h : (scan source).spelled = (scan source').spelled) :
    ∃ f : Pos → Pos, Function.Injective f ∧ (scan source).move f = scan source' := by
  have hlength : (scan source).tokens.length = (scan source').tokens.length := by
    simpa [TokenStream.spelled] using congrArg List.length h
  obtain ⟨f, hf, hmap⟩ := exists_injective_map_eq (by simp [TokenStream.toList, hlength])
    ((scan_pos_pairwise source).imp Pos.lt.ne) ((scan_pos_pairwise source').imp Pos.lt.ne)
  simp only [TokenStream.toList, List.map_append] at hmap
  obtain ⟨hpos, hstop⟩ := List.append_inj hmap (by simp [hlength])
  have hstop : f (scan source).stop = (scan source').stop := List.singleton_inj.mp hstop
  refine ⟨f, hf, ?_⟩
  rw [TokenStream.move, map_move_eq h hpos, hstop]

/-- A parse says the same of sources that are the same up to places: the moved tree has lost its
positions, and messages never had any. -/
theorem outcome_eq_of_spelled {source source' : String}
    (h : (scan source).spelled = (scan source').spelled) : outcome source = outcome source' := by
  obtain ⟨f, hf, hmove⟩ := exists_move_eq h
  unfold outcome parse
  rw [← hmove, Program.ofTokens_move hf]
  cases Program.ofTokens (scan source) with
  | ok p => simp [Except.map, Except.mapError]
  | error es => simp [Except.map, Except.mapError, Function.comp_def]

/-- The bytes of a span. -/
def Span.bytes (source : List Char) (s : Span) : List Char :=
  source.extract s.start s.stop

/-- Tokens that stand on the same bytes have the same kinds and spellings. Induction along both
tilings. -/
theorem spelled_eq_of_bytes {source source' : List Char} {ts ts' : List Token}
    {spans spans' : List Span} (h : List.Forall₂ (Token.Stands source) ts spans)
    (h' : List.Forall₂ (Token.Stands source') ts' spans')
    (hbytes : spans.map (Span.bytes source) = spans'.map (Span.bytes source')) :
    (ts.map fun t => (t.kind, t.text)) = ts'.map fun t => (t.kind, t.text) := by
  induction h generalizing ts' spans' with
  | nil =>
    obtain rfl := List.map_eq_nil_iff.mp hbytes.symm
    cases h'
    rfl
  | @cons t s ts spans ht _ ih =>
    cases h' with
    | nil => simp at hbytes
    | @cons t' s' ts' spans' ht' hrest' =>
      obtain ⟨hhead, htail⟩ := List.cons.inj hbytes
      have hreads := ht.reads
      rw [show source.extract s.start s.stop =
        source'.extract s'.start s'.stop from hhead] at hreads
      obtain ⟨hkind, htext⟩ := hreads.unique ht'.reads
      rw [List.map_cons, List.map_cons, ih hrest' htail, hkind, htext]

/-- A parse depends on the kinds and spellings of the tokens alone: where they agree, the trees
agree up to positions, or else the messages agree, in number, wording and order. So it does not
depend on what stands between the tokens: sources whose tokens have the same bytes agree,
whatever the filling. -/
theorem outcome_of_tokens (source source' : String) :
    ((scan source).spelled = (scan source').spelled → outcome source = outcome source') ∧
    ∀ spans spans', Tiling (octets source) (scan source) spans →
      Tiling (octets source') (scan source') spans' →
      spans.map (Span.bytes (octets source)) = spans'.map (Span.bytes (octets source')) →
      outcome source = outcome source' := by
  refine ⟨outcome_eq_of_spelled, fun spans spans' h h' hbytes => ?_⟩
  exact outcome_eq_of_spelled (spelled_eq_of_bytes h.stands h'.stands hbytes)

/-- A text with two errors, one of them a byte that is no token. -/
def denseSource : String :=
  "int f(int x)\x7bx=$1;if(x return 2;\x7d"

/-- The same tokens, with blanks, rows and comments between them. -/
def airySource : String :=
  "int f ( int x ) // first\n\x7b\n  x = $ 1;\n\n  if (x /* no end */ return 2; \x7d\n"

/-- A text and the same text with blanks, lines and comments between its tokens. -/
theorem outcome_of_tokens_layouts :
    (scan denseSource).spelled = (scan airySource).spelled ∧
      outcome denseSource = outcome airySource := by
  have hdense : Ascii denseSource _ := ⟨rfl, rfl⟩
  have hairy : Ascii airySource _ := ⟨rfl, rfl⟩
  have h : (scan denseSource).spelled = (scan airySource).spelled := by
    rw [hdense.scan_eq, hairy.scan_eq]
    decide +kernel
  exact ⟨h, (outcome_of_tokens _ _).1 h⟩

end MiniC
