import MiniC.Proofs.Sizes

/-!
# The parser reads on

No reader puts tokens back, and each round of a loop of the parser takes a token. Statements take
one whatever they begin with. A declaration need not: recovery then drops the token that it could
not begin with, also when an error was being recovered from before.

* `progresses_expression`, `progresses_statement`: these readers take a token
* `length_localVariable_lt`: so does a declaration inside a block, which is tried at a type only
* `length_recover_lt`, `length_declaration_lt`: so does a declaration together with recovery
-/

namespace MiniC.Parser

/-! ### Tokens that are left

What a phrase is worth bounds the tokens that are read for it from below, so the lemmas on sizes say
already that no token is put back. What they do not say is that a token is read at all. -/

section Reading

variable {α β : Type}

/-- The reader does not put tokens back. -/
def NonGrowing (r : Reader α) : Prop :=
  ∀ s a s', r s = some (a, s') → s'.unread.length ≤ s.unread.length

/-- The reader reads a token if there is one. -/
def Progresses (r : Reader α) : Prop :=
  ∀ s a s', r s = some (a, s') → s.current.kind ≠ .eof → s'.unread.length < s.unread.length

/-- Tokens are counted by what they are worth. -/
theorem length_le_of_worth {s s' : State} (h : s'.worth ≤ s.worth) :
    s'.unread.length ≤ s.unread.length := by
  unfold State.worth at h
  omega

/-- Reading makes no tokens. -/
theorem length_advance_le (s : State) : s.advance.unread.length ≤ s.unread.length :=
  length_le_of_worth (worth_advance_le s)

/-- Reading takes a token, unless there is none. -/
theorem length_advance_lt {s : State} (h : s.current.kind ≠ .eof) :
    s.advance.unread.length < s.unread.length := by
  have := worth_advance h
  unfold State.worth at this
  omega

/-- A report leaves the next token where it is. -/
theorem current_report (t : Token) (fault : SyntaxFault) (s : State) :
    (s.report t fault).current = s.current := by
  unfold State.report
  split <;> rfl

/-- Behind a report there is silence. -/
theorem recovering_report (t : Token) (fault : SyntaxFault) (s : State) :
    (s.report t fault).recovering := by
  unfold State.report
  split
  · assumption
  · rfl

/-- An answer puts no token back. -/
theorem NonGrowing.pure (a : α) : NonGrowing (pure a) := by
  intro s b s' h
  obtain ⟨-, rfl⟩ := pure_eq_some_iff.mp h
  exact Nat.le_refl _

/-- Readers in sequence put no token back. -/
theorem NonGrowing.bind {x : Reader α} {f : α → Reader β} (hx : NonGrowing x)
    (hf : ∀ a, NonGrowing (f a)) : NonGrowing (x >>= f) := by
  intro s b s' h
  obtain ⟨a, t, ha, hb⟩ := bind_eq_some_iff.mp h
  exact Nat.le_trans (hf a _ _ _ hb) (hx _ _ _ ha)

/-- A sequence reads a token if its first part does. -/
theorem Progresses.bind {x : Reader α} {f : α → Reader β} (hx : Progresses x)
    (hf : ∀ a, NonGrowing (f a)) : Progresses (x >>= f) := by
  intro s b s' h hs
  obtain ⟨a, t, ha, hb⟩ := bind_eq_some_iff.mp h
  exact Nat.lt_of_le_of_lt (hf a _ _ _ hb) (hx _ _ _ ha hs)

/-- Looking at the next token reads none. -/
theorem Progresses.peek {f : Token → Reader β} (hf : ∀ t, Progresses (f t)) :
    Progresses (Parser.peek >>= f) := by
  intro s b s' h hs
  obtain ⟨a, t, ha, hb⟩ := bind_eq_some_iff.mp h
  cases ha
  exact hf _ _ _ _ hb hs

/-- Reading takes a token. -/
theorem progresses_read : Progresses read := by
  rintro s a s' ⟨⟩ hs
  exact length_advance_lt hs

/-- Reporting an error does not move on. -/
theorem Progresses.report (t : Token) (fault : SyntaxFault) {r : Reader β} (hr : Progresses r) :
    Progresses (Parser.report t fault >>= fun _ => r) := by
  intro s b s' h hs
  obtain ⟨a, u, ha, hb⟩ := bind_eq_some_iff.mp h
  cases ha
  have hs' : (s.report t fault).current.kind ≠ .eof := by rwa [current_report]
  simpa using hr _ _ _ hb hs'

/-- Reading puts no token back. -/
theorem nonGrowing_read : NonGrowing read := by
  rintro s a s' ⟨⟩
  exact length_advance_le s

/-- Looking at the next token changes nothing. -/
theorem nonGrowing_peek : NonGrowing peek := by
  rintro s a s' ⟨⟩
  exact Nat.le_refl _

/-- A report puts no token back. -/
theorem nonGrowing_report (t : Token) (fault : SyntaxFault) : NonGrowing (report t fault) := by
  rintro s a s' ⟨⟩
  simp

/-- Accepting a token puts none back. -/
theorem nonGrowing_accept (kind : Token.Kind) : NonGrowing (accept kind) := by
  intro s b s' h
  rw [accept_eq] at h
  split at h
  · cases h
    exact length_advance_le s
  · cases h
    exact Nat.le_refl _

/-- Demanding a token puts none back. -/
theorem nonGrowing_expect (kind : Token.Kind) (fault : SyntaxFault) :
    NonGrowing (expect kind fault) :=
  fun _ _ _ h => length_le_of_worth (worth_expect h)

/-- The code of an expression is paid for by its tokens, so there are no more of them. -/
theorem nonGrowing_expression (steps level : Nat) : NonGrowing (expression steps level) := by
  intro s e s' h
  have := (paysExpressions steps).expression h
  exact length_le_of_worth (by omega)

/-- The same for an operand. -/
theorem nonGrowing_operand (steps : Nat) : NonGrowing (operand steps) := by
  intro s e s' h
  have := (paysExpressions steps).operand h
  exact length_le_of_worth (by omega)

/-- The same for arguments: their size makes up for the comma that the first one has not. -/
theorem nonGrowing_arguments (steps : Nat) : NonGrowing (arguments steps) := by
  intro s args s' h
  have := (paysExpressions steps).arguments h
  unfold State.worth at this
  omega

/-- Joining operands reads nothing. -/
theorem nonGrowing_join (c : Connective) (t : Token) (lhs rhs : Exp) :
    NonGrowing (join c t lhs rhs) := by
  intro s e s' h
  exact length_le_of_worth (Nat.le_of_eq (join_size h).2)

/-- A condition puts no token back. -/
theorem nonGrowing_test (steps : Nat) (construct : Construct) :
    NonGrowing (test steps construct) := by
  intro s e s' h
  have := test_size h
  exact length_le_of_worth (by omega)

/-- Declarations at the start of a block put no token back. -/
theorem nonGrowing_localVariables (steps : Nat) : NonGrowing (localVariables steps) := by
  intro s ds s' h
  have := (localVariables_size h).1
  exact length_le_of_worth (by omega)

/-- A statement puts no token back. -/
theorem nonGrowing_statement (steps : Nat) : NonGrowing (statement steps) := by
  intro s a s' h
  have := ((paysStatements steps).statement h).1
  exact length_le_of_worth (by omega)

/-- The rest of a block puts no token back. -/
theorem nonGrowing_blockRest (steps : Nat) : NonGrowing (blockRest steps) := by
  rintro s ⟨ds, body⟩ s' h
  have := ((paysStatements steps).blockRest h).1
  exact length_le_of_worth (by omega)

/-- Whatever the next token is, an operand takes it. -/
theorem progresses_operand (steps : Nat) : Progresses (operand steps) := by
  cases steps with
  | zero =>
    intro s e s' h
    cases h
  | succ steps =>
    -- the token is taken before it is looked at, so the rest need only put none back
    refine progresses_read.bind fun t => ?_
    obtain ⟨kind, text, pos⟩ := t
    have hclose := nonGrowing_expect
    cases kind with
    | leftParen =>
      exact (nonGrowing_expression _ _).bind fun e => (hclose _ _).bind fun _ => .pure e
    | minus | bang => exact (nonGrowing_expression _ _).bind fun e => .pure _
    | integer =>
      dsimp only
      cases literal? text with
      | some value => exact .pure _
      | none => exact (nonGrowing_report _ _).bind fun _ => .pure _
    | kwTrue | kwFalse => exact .pure _
    | identifier =>
      refine (nonGrowing_accept _).bind fun called => ?_
      cases called with
      | true =>
        refine nonGrowing_peek.bind fun t => ?_
        dsimp only
        split
        · exact NonGrowing.bind (.pure []) fun args => (hclose _ _).bind fun _ => .pure _
        · exact (nonGrowing_arguments _).bind fun args => (hclose _ _).bind fun _ => .pure _
      | false =>
        refine (nonGrowing_accept _).bind fun indexed => ?_
        cases indexed with
        | true =>
          exact (nonGrowing_expression _ _).bind fun i => (hclose _ _).bind fun _ => .pure _
        | false => exact .pure _
    | _ => exact (nonGrowing_report _ _).bind fun _ => .pure _

/-- The loop over connectives puts no token back. Induction on the steps, since its left operand
counts too. -/
theorem nonGrowing_connected (steps level : Nat) (lhs : Exp) :
    NonGrowing (connected steps level lhs) := by
  induction steps generalizing lhs with
  | zero =>
    intro s e s' h
    cases h
  | succ steps ih =>
    refine nonGrowing_peek.bind fun t => ?_
    cases Connective.ofKind? t.kind with
    | none => exact .pure lhs
    | some c =>
      dsimp only
      split
      · refine nonGrowing_read.bind fun t => (nonGrowing_expression _ _).bind fun rhs => ?_
        exact (nonGrowing_join _ _ _ _).bind ih
      · exact .pure lhs

/-- An expression starts with an operand, which takes a token. -/
theorem progresses_expression (steps level : Nat) : Progresses (expression steps level) := by
  cases steps with
  | zero =>
    intro s e s' h
    cases h
  | succ steps => exact (progresses_operand steps).bind (nonGrowing_connected steps level)

/-- Whatever the next token is, a statement takes it, a declaration that comes too late included. -/
theorem progresses_statement (steps : Nat) : Progresses (statement steps) := by
  cases steps with
  | zero =>
    intro s a s' h
    cases h
  | succ steps =>
    -- here the token is looked at first, and every branch takes one
    refine .peek fun t => ?_
    obtain ⟨kind, text, pos⟩ := t
    cases kind with
    | leftBrace =>
      exact progresses_read.bind fun _ => (nonGrowing_blockRest _).bind fun _ => .pure _
    | kwIf =>
      refine progresses_read.bind fun _ => (nonGrowing_test _ _).bind fun c =>
        (nonGrowing_statement _).bind fun a => (nonGrowing_accept _).bind fun more => ?_
      cases more with
      | true => exact (nonGrowing_statement _).bind fun b => .pure _
      | false => exact .pure _
    | kwWhile =>
      exact progresses_read.bind fun _ => (nonGrowing_test _ _).bind fun c =>
        (nonGrowing_statement _).bind fun a => .pure _
    | kwReturn =>
      refine progresses_read.bind fun _ => (nonGrowing_accept _).bind fun bare => ?_
      cases bare with
      | true => exact .pure _
      | false =>
        exact (nonGrowing_expression _ _).bind fun e =>
          (nonGrowing_expect _ _).bind fun _ => .pure _
    | semicolon => exact progresses_read.bind fun _ => .pure _
    | kwInt | kwBool | kwVoid =>
      exact .report _ _ (progresses_read.bind fun _ => .pure _)
    -- any other token starts an expression, which takes one itself
    | _ =>
      exact (progresses_expression _ _).bind fun e => (nonGrowing_expect _ _).bind fun _ => .pure _

/-- What follows the type of a parameter puts no token back. -/
theorem nonGrowing_parameterRest (pos : Pos) (base : BaseType) :
    NonGrowing (parameterRest pos base) :=
  fun _ _ _ h => length_le_of_worth (parameterRest_plain h).1

/-- Parameters put no token back. -/
theorem nonGrowing_parameters (steps : Nat) : NonGrowing (parameters steps) :=
  fun _ _ _ h => length_le_of_worth (parameters_plain h).1

/-- What follows the parenthesis of a function puts no token back. -/
theorem nonGrowing_functionRest (steps : Nat) (pos : Pos) (result : BaseType) (name : Token) :
    NonGrowing (functionRest steps pos result name) :=
  fun _ _ _ h => length_le_of_worth (functionRest_size h).1

end Reading

/-! ### Progress of loops

The loops over statements and declarations could stand still at a token that no phrase starts with.
Recovery prevents that: if it ends where the phrase began, it drops this token. -/

/-- The name of a type is read, or reported as missing. -/
theorem typeSpecifier_eq (s : State) :
    typeSpecifier s = match baseType? s.current.kind with
      | some base => some (some (s.current.pos, base), s.advance)
      | none => some (none, s.report s.current .noTypeSpecifier) := by
  unfold typeSpecifier
  simp only [bind, StateT.bind, peek_eq, Option.bind_some]
  cases baseType? s.current.kind <;> rfl

/-- A name of a type that was read is a token. -/
theorem length_typeSpecifier_lt {s t : State} {spec : Pos × BaseType}
    (h : typeSpecifier s = some (some spec, t)) : t.unread.length < s.unread.length := by
  have := worth_typeSpecifier h
  simp only [Option.isSome_some, if_true, State.worth] at this
  omega

/-- What follows the name of a variable puts no token back. -/
theorem nonGrowing_variableRest (pos : Pos) (base : BaseType) (name : Token) :
    NonGrowing (variableRest pos base name) :=
  fun _ _ _ h => length_le_of_worth (worth_variableRest h).1

/-- A type ahead is read, whatever becomes of the variable. -/
theorem length_localVariable_lt {s t : State} {d : Option VarDecl}
    (h : localVariable s = some (d, t)) (htype : (baseType? s.current.kind).isSome) :
    t.unread.length < s.unread.length := by
  obtain ⟨base, hbase⟩ := Option.isSome_iff_exists.mp htype
  simp only [localVariable, bind_eq_some_iff, typeSpecifier_eq, hbase] at h
  obtain ⟨spec, s₁, h₁, h⟩ := h
  cases h₁
  have hlt : s.advance.unread.length < s.unread.length :=
    length_typeSpecifier_lt (by rw [typeSpecifier_eq, hbase])
  refine Nat.lt_of_le_of_lt ?_ hlt
  refine (nonGrowing_expect _ _).bind (fun name => ?_) _ _ _ h
  cases name with
  | none => exact .pure none
  | some name => exact nonGrowing_variableRest _ _ name

/-- Skipping stays where it is, or takes a token. Induction along the skipped tokens. -/
theorem seekPhrase_eq_or_lt (s : State) :
    s.seekPhrase = s ∨ s.seekPhrase.unread.length < s.unread.length := by
  fun_induction State.seekPhrase s with
  | case1 s h => exact .inl rfl
  | case2 s h hphrase => exact .inl rfl
  | case3 s h hphrase ih =>
    right
    have hlt := s.advance_unread_lt h
    rcases ih with heq | hle
    · rwa [heq]
    · exact Nat.lt_trans hle hlt

/-- Ending a silence puts no token back. -/
theorem length_synchronize_le (s : State) : s.synchronize.unread.length ≤ s.unread.length :=
  length_le_of_worth (worth_synchronize_le s)

/-- Recovery puts no token back. -/
theorem length_recover_le (s : State) (start : Pos) :
    (s.recover start).unread.length ≤ s.unread.length :=
  length_le_of_worth (worth_recover_le s start)

/-- Recovery that would stay at the token where the phrase began drops that token. -/
theorem length_recover_lt {s : State} (h : s.recovering) (hkind : s.current.kind ≠ .eof) :
    (s.recover s.current.pos).unread.length < s.unread.length := by
  have hsync : s.synchronize.current = s.current ∨
      s.synchronize.unread.length < s.unread.length := by
    rcases seekPhrase_eq_or_lt { s with recovering := false } with heq | hlt
    · left
      rw [State.synchronize, heq]
      rfl
    · exact .inr hlt
  unfold State.recover
  rw [if_pos h]
  dsimp only
  rcases hsync with hcurrent | hlt
  · rw [hcurrent, if_pos ⟨rfl, hkind⟩]
    have := length_advance_lt (s := s.synchronize) (by rwa [hcurrent])
    exact Nat.lt_of_lt_of_le this (length_synchronize_le s)
  · split
    · exact Nat.lt_of_le_of_lt (length_advance_le _) hlt
    · exact hlt

/-- A declaration that begins with a type takes it, and in front of anything else recovery moves on,
also from an error that was there before. -/
theorem length_declaration_lt {steps : Nat} {s t : State} {d : Option Decl}
    (h : declaration steps s = some (d, t)) (hkind : s.current.kind ≠ .eof) :
    (t.recover s.current.pos).unread.length < s.unread.length := by
  simp only [declaration, bind_eq_some_iff, typeSpecifier_eq] at h
  obtain ⟨spec, s₁, h₁, h⟩ := h
  cases hbase : baseType? s.current.kind with
  | none =>
    simp only [hbase] at h₁
    cases h₁
    obtain ⟨rfl, rfl⟩ := pure_eq_some_iff.mp h
    have hlt := length_recover_lt (s := s.report s.current .noTypeSpecifier)
      (recovering_report _ _ _) (by rwa [current_report])
    rwa [current_report, report_unread] at hlt
  | some base =>
    simp only [hbase] at h₁
    cases h₁
    refine Nat.lt_of_le_of_lt (length_recover_le t _) ?_
    refine Nat.lt_of_le_of_lt ?_ (length_advance_lt hkind)
    refine (nonGrowing_expect _ _).bind (fun name => ?_) _ _ _ h
    cases name with
    | none => exact .pure none
    | some name =>
      refine (nonGrowing_accept _).bind fun called => ?_
      cases called with
      | true => exact (nonGrowing_functionRest _ _ _ _).bind fun f => .pure _
      | false => exact (nonGrowing_variableRest _ _ _).bind fun v => .pure _

end MiniC.Parser
