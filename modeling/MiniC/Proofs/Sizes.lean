import MiniC.Code.Program
import MiniC.Proofs.Emission
import MiniC.Proofs.Scanning.Bytes
import MiniC.Syntax.Parser

/-!
# How long the code of a source is

Each phrase has code of a length that depends on its form alone, so the two layouts of a program
give every function the same address. Each token of a source accounts for at most eight
instructions; the code of a short source therefore stays within the range of relative jumps.

* `Exp.length_code`, `Stmt.length_code`: the length of the code of a phrase
* `parse_size`: a source has code for at most eight instructions for each of its bytes
-/

namespace MiniC

/-! ### Sizes of phrases

The number of instructions of a phrase is computed from the phrase alone, without addresses. `Plain`
is what the parser knows of declarations besides. -/

mutual

/-- The number of instructions of an expression. -/
def Exp.size : Exp → Nat
  | .int _ _ => 1
  | .bool _ _ => 1
  | .nil _ => 0
  | .unary _ _ .neg e => e.size + 2
  | .unary _ _ .not e => e.size + 4
  | .binary _ _ op l r =>
    match op.combination with
    | .shortCircuit _ _ => l.size + r.size + 1
    | .operation _ => l.size + r.size + 3
    | .comparison _ => l.size + r.size + 7
  | .var _ _ => 1
  | .element _ _ i => i.size + 9
  | .assign _ _ _ e => e.size + 1
  | .assignElement _ _ _ i e => i.size + e.size + 11
  | .call _ _ _ args => Exp.argumentSize args + 2 * args.length + 5

/-- The number of instructions that evaluate and store arguments. -/
def Exp.argumentSize : List Exp → Nat
  | [] => 0
  | e :: rest => e.size + 1 + Exp.argumentSize rest

end

/-- The number of instructions that set the length cell of a variable of this shape. -/
def Shape.size : Shape → Nat
  | .array _ => 2
  | _ => 0

/-- The number of instructions that set the length cells of declared variables. -/
def VarDecl.sizes (ds : List VarDecl) : Nat :=
  (ds.map fun d => d.shape.size).sum

mutual

/-- The number of instructions of a statement. -/
def Stmt.size : Stmt → Nat
  | .exp _ e => e.size
  | .block _ decls body => VarDecl.sizes decls + Stmt.sizeAll body
  | .ifThen _ t a => t.size + a.size + 1
  | .ifElse _ t a b => t.size + a.size + b.size + 2
  | .whileDo _ t b => t.size + b.size + 2
  | .ret _ none => 1
  | .ret _ (some e) => e.size + 1

/-- The number of instructions of statements in order. -/
def Stmt.sizeAll : List Stmt → Nat
  | [] => 0
  | s :: rest => s.size + Stmt.sizeAll rest

end

/-- The number of instructions of a declaration: a function has a jump around it, stores its
return address, and returns at its end. -/
def Decl.size : Decl → Nat
  | .var d => d.shape.size
  | .function f =>
    match f.body with
    | none => 0
    | some body => VarDecl.sizes body.decls + Stmt.sizeAll body.stmts + 3

/-- The number of instructions of declarations in order. -/
def Decl.sizes (ds : List Decl) : Nat :=
  (ds.map Decl.size).sum

mutual

/-- No local variable is a reference to an array. -/
def Stmt.Plain : Stmt → Prop
  | .exp _ _ => True
  | .block _ decls body => (∀ d ∈ decls, d.shape ≠ .reference) ∧ Stmt.PlainAll body
  | .ifThen _ _ a => a.Plain
  | .ifElse _ _ a b => a.Plain ∧ b.Plain
  | .whileDo _ _ b => b.Plain
  | .ret _ _ => True

/-- The same for statements in order. -/
def Stmt.PlainAll : List Stmt → Prop
  | [] => True
  | s :: rest => s.Plain ∧ Stmt.PlainAll rest

end

/-- Parameters are single values or references; other variables are no references. -/
def Decl.Plain : Decl → Prop
  | .var d => d.shape ≠ .reference
  | .function f => (∀ d ∈ f.params, d.shape = .scalar ∨ d.shape = .reference) ∧
      ∀ body, f.body = some body → (∀ d ∈ body.decls, d.shape ≠ .reference) ∧
        Stmt.PlainAll body.stmts

/-! ### The analysis keeps sizes

The analysis fills in types and layouts, which do not count. -/

/-- Arguments keep their sizes. Induction on the list. -/
theorem Exp.argumentSize_check {S : ScopeTable} {args : List Exp}
    (h : ∀ a ∈ args, (a.check S).exp.size = a.size) :
    Exp.argumentSize ((Exp.checkAll S args).map TypedExp.exp) = Exp.argumentSize args := by
  induction args with
  | nil => rfl
  | cons e rest ih =>
    simp only [Exp.checkAll, List.map_cons, Exp.argumentSize]
    rw [h e List.mem_cons_self, ih fun a ha => h a (List.mem_cons_of_mem e ha)]

/-- An expression keeps its size. Induction on its structure. -/
theorem Exp.size_check (S : ScopeTable) (e : Exp) : (e.check S).exp.size = e.size := by
  induction e using Exp.induction with
  | int p n => rfl
  | bool p b => rfl
  | nil p => rfl
  | unary p t op e ih => cases op <;> simp only [Exp.check, Exp.size, ih]
  | binary p t op l r ihl ihr => simp only [Exp.check, Exp.size, ihl, ihr]
  | var t v => rfl
  | element t v i ih => simp only [Exp.check, Exp.size, ih]
  | assign p t v e ih => simp only [Exp.check, Exp.size, ih]
  | assignElement p t v i e ihi ihe => simp only [Exp.check, Exp.size, ihi, ihe]
  | call p t f args ih =>
    simp only [Exp.check, Exp.size, List.length_map, Exp.length_checkAll,
      Exp.argumentSize_check ih]

/-- Placing variables does not change their shapes. -/
theorem VarDecl.sizes_checkAll (role : Role) (level : Nat) (S : ScopeTable) (next : Int)
    (ds : List VarDecl) :
    VarDecl.sizes (VarDecl.checkAll role level S next ds).value = VarDecl.sizes ds := by
  induction ds generalizing S next with
  | nil => rfl
  | cons d rest ih =>
    have hrest := ih (d.check role level S next).scopes (d.check role level S next).next
    simp only [VarDecl.sizes, VarDecl.checkAll, List.map_cons, List.sum_cons] at hrest ⊢
    rw [hrest]
    rfl

/-- Statements keep their sizes, if each of them does in all scopes. Induction on the list. -/
theorem Stmt.sizeAll_check {f : Enclosing} {S : ScopeTable} {next : Int} {body : List Stmt}
    (h : ∀ s ∈ body, ∀ (S : ScopeTable) (next : Int), (s.check f S next).value.size = s.size) :
    Stmt.sizeAll (Stmt.checkAll f S next body).value = Stmt.sizeAll body := by
  induction body generalizing next with
  | nil => rfl
  | cons s rest ih =>
    simp only [Stmt.checkAll, Stmt.sizeAll]
    rw [h s List.mem_cons_self, ih fun a ha => h a (List.mem_cons_of_mem s ha)]

/-- A statement keeps its size, in all scopes. Induction on its structure. -/
theorem Stmt.size_check (f : Enclosing) (S : ScopeTable) (next : Int) (s : Stmt) :
    (s.check f S next).value.size = s.size := by
  induction s using Stmt.induction generalizing S next with
  | exp p e => exact Exp.size_check S e
  | block p ds body ih =>
    simp only [Stmt.check, Stmt.size, VarDecl.sizes_checkAll]
    rw [Stmt.sizeAll_check ih]
  | ifThen p t a ih => simp only [Stmt.check, Stmt.size, Exp.size_check, ih]
  | ifElse p t a b iha ihb => simp only [Stmt.check, Stmt.size, Exp.size_check, iha, ihb]
  | whileDo p t b ih => simp only [Stmt.check, Stmt.size, Exp.size_check, ih]
  | ret p v =>
    cases v with
    | none => rfl
    | some e => simp only [Stmt.check, Stmt.size, Exp.size_check]

/-! ### The length of code

Along the rules for the code of a phrase: each production adds a fixed number of instructions. -/

/-- The address of an element takes eight instructions. -/
theorem VarUse.length_elementAddress {v : VarUse} {start : Nat} {is : List Instr}
    (h : v.elementAddress start = .ok is) : is.length = 8 := by
  unfold VarUse.elementAddress at h
  simp only [Except.bind_eq_ok_iff, Except.pure_eq_ok_iff] at h
  obtain ⟨_, -, _, -, _, -, rfl⟩ := h
  rfl

/-- The code of arguments, if the code of each has the length of its form. Induction on the list. -/
theorem Exp.length_argumentCode {k : Linker} {args : List Exp}
    (h : ∀ a ∈ args, ∀ {offset start is}, a.code k offset start = .ok is → is.length = a.size)
    {offset : Int} {start : Nat} {is : List Instr}
    (hc : Exp.argumentCode k offset start args = .ok is) : is.length = Exp.argumentSize args := by
  induction args generalizing offset start is with
  | nil =>
    rw [Exp.argumentCode_nil hc]
    rfl
  | cons e rest ih =>
    obtain ⟨i, j, -, hi, hj, rfl⟩ := Exp.argumentCode_cons hc
    have hfirst := h e List.mem_cons_self hi
    have hrest := ih (fun a ha => h a (List.mem_cons_of_mem e ha)) hj
    simp only [List.length_append, List.length_cons, Exp.argumentSize]
    omega

/-- The code of an expression has the length of its form, at every address. -/
theorem Exp.length_code {k : Linker} {e : Exp} {offset : Int} {start : Nat} {is : List Instr}
    (h : e.code k offset start = .ok is) : is.length = e.size := by
  replace h := Exp.coded h
  -- by induction on how the code is made, along the cases of `Exp.size`
  induction h with
  | int p n => rfl
  | bool p b => rfl
  | nil p => rfl
  | @unary _ _ _ _ op _ _ _ ih =>
    cases op with
    | neg => simp [Exp.size, unaryTail, ih]
    | not => simp [Exp.size, unaryTail, truthValue, ih]
  | shortCircuit hop _ _ _ ihl ihr =>
    simp only [Exp.size, hop, List.length_append, List.length_cons]
    omega
  | operation hop _ _ _ ihl ihr =>
    simp only [Exp.size, hop, List.length_append, List.length_cons, List.length_nil]
    omega
  | comparison hop _ _ _ ihl ihr =>
    simp only [Exp.size, hop, truthValue, List.length_append, List.length_cons, List.length_nil]
    omega
  | var _ => rfl
  | element _ ha ih =>
    have ha := VarUse.length_elementAddress ha
    simp only [Exp.size, List.length_append, List.length_cons, List.length_nil]
    omega
  | assign _ _ ih => simp [Exp.size, ih]
  | assignElement _ ha _ _ ihi ihe =>
    have ha := VarUse.length_elementAddress ha
    simp only [Exp.size, List.length_append, List.length_cons, List.length_nil]
    omega
  | @call offset _ _ _ _ args _ _ _ hargs _ _ _ _ ih =>
    have ha := Exp.length_argumentCode ih hargs
    have hcopy := length_copyArguments offset args.length
    simp only [Exp.size, callSequence, List.length_append, List.length_cons, List.length_nil]
    omega

/-- The code of an accepted expression has the length of its form. -/
theorem Exp.Emits.length_eq {S : ScopeTable} {k : Linker} {offset : Int} {start : Nat} {e : Exp}
    {ty : Ty} {is : List Instr} (h : e.Emits S k offset start ty is) : is.length = e.size := by
  rw [Exp.length_code h.code_eq, Exp.size_check]

/-- The length cell of a placed array is set by two instructions. -/
theorem VarDecl.length_lengthCode {level : Nat} {S S' : ScopeTable} {next : Int} {d : VarDecl}
    {l : Layout} (h : d.Accepted level S next S' l) (base : Reg) :
    ({ d with layout := some l }.lengthCode base).length = d.shape.size := by
  unfold VarDecl.lengthCode
  rw [h.layout_eq]
  cases d.shape with
  | scalar => rfl
  | array n => rfl
  | reference => rfl

/-- The code for the lengths of arrays that have been placed. -/
theorem Declares.length_eq {level : Nat} {S S' : ScopeTable} {next next' : Int}
    {ds placed : List VarDecl} (h : Declares level S next ds S' next' placed) (base : Reg) :
    (placed.flatMap (VarDecl.lengthCode · base)).length = VarDecl.sizes ds := by
  induction h with
  | nil S next => rfl
  | cons hd hrest ih =>
    have hfirst := VarDecl.length_lengthCode hd base
    simp only [VarDecl.sizes, List.map_cons, List.sum_cons, List.flatMap_cons,
      List.length_append] at ih ⊢
    omega

/-- The code of statements, if the code of each has the length of its form. Induction on the list.
-/
theorem Stmt.EmitsAll.length_eq {f : Enclosing} {S : ScopeTable} {next : Int} {k : Linker}
    {offset : Int} {start : Nat} {body : List Stmt} {next' : Int} {is : List Instr}
    (ih : ∀ s ∈ body, ∀ {S next start next' is}, s.Emits f S next k offset start next' is →
      is.length = s.size)
    (h : Stmt.EmitsAll f S next k offset start body next' is) : is.length = Stmt.sizeAll body := by
  induction body generalizing next start is with
  | nil =>
    obtain ⟨-, rfl⟩ := Stmt.emitsAll_nil h
    rfl
  | cons s rest hrest =>
    obtain ⟨next₁, i, j, hi, hj, rfl⟩ := Stmt.emitsAll_cons h
    have hfirst := ih s List.mem_cons_self hi
    have hothers := hrest (fun a ha => ih a (List.mem_cons_of_mem s ha)) hj
    simp only [Stmt.sizeAll, List.length_append]
    omega

/-- The code of an accepted statement has the length of its form, at every address. -/
theorem Stmt.Emits.length_eq {f : Enclosing} {S : ScopeTable} {next : Int} {k : Linker}
    {offset : Int} {start : Nat} {s : Stmt} {next' : Int} {is : List Instr}
    (h : s.Emits f S next k offset start next' is) : is.length = s.size := by
  induction s using Stmt.induction generalizing S next start next' is with
  | exp p e =>
    obtain ⟨-, ty, he⟩ := Stmt.emits_exp h
    exact he.length_eq
  | block p ds body ih =>
    obtain ⟨S₁, next₁, placed, j, -, hi, hj, rfl⟩ := Stmt.emits_block h
    have hbody := hj.length_eq ih
    simp only [Stmt.size, List.length_append, hi.length_eq, hbody]
  | ifThen p t a ih =>
    obtain ⟨ty, i, j, skip, -, hi, hj, -, rfl⟩ := Stmt.emits_ifThen h
    have ht := hi.length_eq
    have ha := ih hj
    simp only [Stmt.size, List.length_append, List.length_cons]
    omega
  | ifElse p t a b iha ihb =>
    obtain ⟨ty, next₁, i, j, l, toElse, toEnd, -, hi, hj, hl, -, -, rfl⟩ := Stmt.emits_ifElse h
    have ht := hi.length_eq
    have ha := iha hj
    have hb := ihb hl
    simp only [Stmt.size, List.length_append, List.length_cons]
    omega
  | whileDo p t b ih =>
    obtain ⟨ty, i, j, skip, back, -, hi, hj, -, -, rfl⟩ := Stmt.emits_whileDo h
    have ht := hi.length_eq
    have hb := ih hj
    simp only [Stmt.size, List.length_append, List.length_cons, List.length_nil]
    omega
  | ret p v =>
    cases v with
    | none =>
      obtain ⟨-, rfl⟩ := Stmt.emits_ret_none h
      rfl
    | some e =>
      obtain ⟨-, ty, i, -, hi, rfl⟩ := Stmt.emits_ret_some h
      simp [Stmt.size, hi.length_eq]

/-! ### Tokens pay for instructions

An amortised count: a token is worth eight instructions, and a reader that has read a phrase has
used up tokens that are worth its code at least. The dearest for its tokens is a comparison, with
seven instructions for one connective. The tokens that are skipped after an error pay for nothing.
-/

namespace Parser

/-- A sequence has an answer if both of its parts have. -/
theorem bind_eq_some_iff {α β : Type} {x : Reader α} {f : α → Reader β} {s s' : State} {b : β} :
    (x >>= f) s = some (b, s') ↔ ∃ a t, x s = some (a, t) ∧ f a t = some (b, s') := by
  cases h : x s with
  | none => simp [bind, StateT.bind, h]
  | some r =>
    obtain ⟨a, t⟩ := r
    simp only [bind, StateT.bind, h, Option.bind_some, Option.some.injEq, Prod.mk.injEq]
    constructor
    · intro hf
      exact ⟨a, t, ⟨rfl, rfl⟩, hf⟩
    · rintro ⟨_, _, ⟨rfl, rfl⟩, hf⟩
      exact hf

/-- An answer leaves the state as it was. -/
theorem pure_eq_some_iff {α : Type} {s s' : State} {a b : α} :
    (pure a : Reader α) s = some (b, s') ↔ a = b ∧ s = s' := by
  show some (a, s) = some (b, s') ↔ a = b ∧ s = s'
  simp only [Option.some.injEq, Prod.mk.injEq]

/-- Names the reader that is applied to a state, so that its cases can be told apart. -/
theorem reader_eq {α : Type} {x : Reader α} {s : State} {r : Option (α × State)} (h : x s = r) :
    ∃ y, x = y ∧ y s = r :=
  ⟨x, rfl, h⟩

/-- Reading answers the next token and goes on behind it. -/
theorem read_eq (s : State) : read s = some (s.current, s.advance) := rfl

/-- Looking at the next token leaves the state as it was. -/
theorem peek_eq (s : State) : peek s = some (s.current, s) := rfl

/-- A report changes the errors alone. -/
theorem report_eq (t : Token) (fault : SyntaxFault) (s : State) :
    report t fault s = some ((), s.report t fault) := rfl

/-- A token is read if it is of the kind. -/
theorem accept_eq (kind : Token.Kind) (s : State) :
    accept kind s = if s.current.kind = kind then some (true, s.advance) else some (false, s) := by
  unfold accept
  simp only [bind, StateT.bind, peek_eq, Option.bind_some]
  split
  · rfl
  · rfl

/-- A report reads nothing. -/
@[simp]
theorem report_unread (t : Token) (fault : SyntaxFault) (s : State) :
    (s.report t fault).unread = s.unread := by
  unfold State.report
  split <;> rfl

/-- A token is read if it is of the kind, and else it is reported. -/
theorem expect_eq (kind : Token.Kind) (fault : SyntaxFault) (s : State) :
    expect kind fault s = if s.current.kind = kind then some (some s.current, s.advance)
      else some (none, s.report s.current fault) := by
  unfold expect
  simp only [bind, StateT.bind, peek_eq, Option.bind_some]
  split
  · rfl
  · rfl

/-- What the unread tokens are worth, in instructions. -/
def State.worth (s : State) : Nat :=
  8 * s.unread.length

/-- Reading makes no tokens. -/
theorem worth_advance_le (s : State) : s.advance.worth ≤ s.worth := by
  have := State.settle_unread_length_le { s with last := some s.current.kind } s.unread.tail
  simp only [List.length_tail] at this
  unfold State.worth State.advance
  omega

/-- A token other than the end of the input is paid for. -/
theorem worth_advance {s : State} (h : s.current.kind ≠ .eof) : s.advance.worth + 8 ≤ s.worth := by
  have hne : s.unread ≠ [] := by
    intro hnil
    exact h (by simp [State.current, hnil, Token.ofEnd])
  have := s.advance_unread_lt hne
  unfold State.worth
  omega

/-- A report costs nothing. -/
@[simp]
theorem worth_report (t : Token) (fault : SyntaxFault) (s : State) :
    (s.report t fault).worth = s.worth := by
  simp [State.worth]

/-- A token that is accepted is paid for. -/
theorem worth_accept {kind : Token.Kind} {s s' : State} {b : Bool}
    (h : accept kind s = some (b, s')) (hk : kind ≠ .eof) :
    s'.worth + (if b then 8 else 0) ≤ s.worth := by
  rw [accept_eq] at h
  split at h
  · rename_i hkind
    cases h
    exact worth_advance (by rw [hkind]; exact hk)
  · cases h
    simp

/-- A token that is demanded makes no tokens, there or not. -/
theorem worth_expect {kind : Token.Kind} {fault : SyntaxFault} {s s' : State} {t : Option Token}
    (h : expect kind fault s = some (t, s')) : s'.worth ≤ s.worth := by
  rw [expect_eq] at h
  split at h
  · cases h
    exact worth_advance_le s
  · cases h
    simp

/-- A connective pays for joining its operands. -/
theorem join_size {c : Connective} {t : Token} {l r e : Exp} {s s' : State}
    (h : join c t l r s = some (e, s')) :
    e.size ≤ l.size + r.size + 8 ∧ s'.worth = s.worth := by
  unfold join at h
  split at h
  · rename_i op
    obtain ⟨rfl, rfl⟩ := pure_eq_some_iff.mp h
    refine ⟨?_, rfl⟩
    simp only [Exp.size]
    split <;> omega
  · obtain ⟨rfl, rfl⟩ := pure_eq_some_iff.mp h
    refine ⟨?_, rfl⟩
    simp only [Exp.size]
    omega
  · obtain ⟨rfl, rfl⟩ := pure_eq_some_iff.mp h
    refine ⟨?_, rfl⟩
    simp only [Exp.size]
    omega
  · simp only [bind_eq_some_iff, report_eq, pure_eq_some_iff] at h
    obtain ⟨_, _, hr, rfl, rfl⟩ := h
    cases hr
    refine ⟨by omega, by simp⟩

/-- The tokens that expression readers use up pay for the code of what is read, with the given
number of steps. -/
structure PaysExpressions (steps : Nat) : Prop where
  expression : ∀ {level s e s'}, expression steps level s = some (e, s') →
    e.size + s'.worth ≤ s.worth
  operand : ∀ {s e s'}, operand steps s = some (e, s') → e.size + s'.worth ≤ s.worth
  connected : ∀ {level lhs s e s'}, connected steps level lhs s = some (e, s') →
    e.size + s'.worth ≤ lhs.size + s.worth
  /-- The first argument is not preceded by a comma of its own. -/
  arguments : ∀ {s args s'}, arguments steps s = some (args, s') →
    Exp.argumentSize args + 2 * args.length + s'.worth ≤ s.worth + 3

/-- An operand that starts with a name, whose eight instructions are still to be spent. -/
theorem PaysExpressions.identifier {steps : Nat} (ih : PaysExpressions steps) {t : Token}
    {s s' : State} {e : Exp}
    (h : (do
      if ← accept .leftParen then
        let args ← if (← peek).kind = .rightParen then pure [] else Parser.arguments steps
        let _ ← expect .rightParen .openArguments
        return .call t.pos none t.text args
      else if ← accept .leftBracket then
        let index ← Parser.expression steps looseLevel
        let _ ← expect .rightBracket .openIndex
        return .element none ⟨t.pos, t.text, none⟩ index
      else
        return .var none ⟨t.pos, t.text, none⟩ : Reader Exp) s = some (e, s')) :
    e.size + s'.worth ≤ s.worth + 8 := by
  simp only [bind_eq_some_iff] at h
  obtain ⟨paren, s₁, h₁, h⟩ := h
  have hw₁ := worth_accept h₁ (by decide)
  split at h
  · -- a call, with no arguments or with some
    rename_i hparen
    rw [hparen] at hw₁
    simp only [bind_eq_some_iff] at h
    obtain ⟨u, s₂, h₂, h⟩ := h
    cases h₂
    split at h
    · simp only [bind_eq_some_iff, pure_eq_some_iff] at h
      obtain ⟨args, s₃, ⟨rfl, rfl⟩, _, s₄, h₄, rfl, rfl⟩ := h
      have hw₄ := worth_expect h₄
      simp only [Exp.size, Exp.argumentSize, List.length_nil, if_pos] at hw₁ ⊢
      omega
    · simp only [bind_eq_some_iff, pure_eq_some_iff] at h
      obtain ⟨args, s₃, h₃, _, s₄, h₄, rfl, rfl⟩ := h
      have hargs := ih.arguments h₃
      have hw₄ := worth_expect h₄
      simp only [Exp.size, if_pos] at hw₁ ⊢
      omega
  · simp only [bind_eq_some_iff] at h
    obtain ⟨bracket, s₂, h₂, h⟩ := h
    have hw₂ := worth_accept h₂ (by decide)
    split at h
    · -- an element
      rename_i hbracket
      rw [hbracket] at hw₂
      simp only [bind_eq_some_iff, pure_eq_some_iff] at h
      obtain ⟨i, s₃, h₃, _, s₄, h₄, rfl, rfl⟩ := h
      have hi := ih.expression h₃
      have hw₄ := worth_expect h₄
      simp only [Exp.size, if_pos] at hw₂ ⊢
      omega
    · obtain ⟨rfl, rfl⟩ := pure_eq_some_iff.mp h
      simp only [Exp.size]
      omega

/-- An operand pays with its first token, whatever it is. -/
theorem PaysExpressions.operand_succ {steps : Nat} (ih : PaysExpressions steps) {s s' : State}
    {e : Exp} (h : Parser.operand (steps + 1) s = some (e, s')) :
    e.size + s'.worth ≤ s.worth := by
  simp only [Parser.operand, bind_eq_some_iff, read_eq] at h
  obtain ⟨t, s₁, h₁, h⟩ := h
  cases h₁
  obtain ⟨y, hy, h⟩ := reader_eq h
  split at hy <;> subst hy
  · -- an expression in parentheses
    rename_i hkind
    have hw := worth_advance (s := s) (by rw [hkind]; decide)
    simp only [bind_eq_some_iff, pure_eq_some_iff] at h
    obtain ⟨e', s₂, h₂, _, s₃, h₃, rfl, rfl⟩ := h
    have he := ih.expression h₂
    have hw₃ := worth_expect h₃
    omega
  · -- the two unary operators
    rename_i hkind
    have hw := worth_advance (s := s) (by rw [hkind]; decide)
    simp only [bind_eq_some_iff, pure_eq_some_iff] at h
    obtain ⟨e', s₂, h₂, rfl, rfl⟩ := h
    have he := ih.expression h₂
    simp only [Exp.size]
    omega
  · rename_i hkind
    have hw := worth_advance (s := s) (by rw [hkind]; decide)
    simp only [bind_eq_some_iff, pure_eq_some_iff] at h
    obtain ⟨e', s₂, h₂, rfl, rfl⟩ := h
    have he := ih.expression h₂
    simp only [Exp.size]
    omega
  · -- a number, which may be too large
    rename_i hkind
    have hw := worth_advance (s := s) (by rw [hkind]; decide)
    obtain ⟨y, hy, h⟩ := reader_eq h
    split at hy <;> subst hy
    · obtain ⟨rfl, rfl⟩ := pure_eq_some_iff.mp h
      simp only [Exp.size]
      omega
    · simp only [bind_eq_some_iff, report_eq, pure_eq_some_iff] at h
      obtain ⟨_, _, hr, rfl, rfl⟩ := h
      cases hr
      simp only [Exp.size, worth_report]
      omega
  · -- the two truth values
    rename_i hkind
    have hw := worth_advance (s := s) (by rw [hkind]; decide)
    obtain ⟨rfl, rfl⟩ := pure_eq_some_iff.mp h
    simp only [Exp.size]
    omega
  · rename_i hkind
    have hw := worth_advance (s := s) (by rw [hkind]; decide)
    obtain ⟨rfl, rfl⟩ := pure_eq_some_iff.mp h
    simp only [Exp.size]
    omega
  · -- a name, with what follows it
    rename_i hkind
    have hw := worth_advance (s := s) (by rw [hkind]; decide)
    have he := ih.identifier h
    omega
  · simp only [bind_eq_some_iff, report_eq, pure_eq_some_iff] at h
    obtain ⟨_, _, hr, rfl, rfl⟩ := h
    cases hr
    -- no operand at all: an error is reported at the token
    have hw := worth_advance_le s
    simp only [Exp.size, worth_report]
    omega

/-- A round of the loop pays with its connective. -/
theorem PaysExpressions.connected_succ {steps : Nat} (ih : PaysExpressions steps) {level : Nat}
    {lhs e : Exp} {s s' : State} (h : Parser.connected (steps + 1) level lhs s = some (e, s')) :
    e.size + s'.worth ≤ lhs.size + s.worth := by
  simp only [Parser.connected, bind_eq_some_iff, peek_eq] at h
  obtain ⟨t, s₁, h₁, h⟩ := h
  cases h₁
  obtain ⟨y, hy, h⟩ := reader_eq h
  split at hy <;> subst hy
  · obtain ⟨rfl, rfl⟩ := pure_eq_some_iff.mp h
    omega
  · rename_i c hc
    have hkind : s.current.kind ≠ .eof := by
      intro heof
      rw [heof] at hc
      cases hc
    have hw := worth_advance hkind
    split at h
    · simp only [bind_eq_some_iff, read_eq] at h
      obtain ⟨_, _, hr, rhs, s₂, h₂, e', s₃, h₃, h₄⟩ := h
      cases hr
      have hrhs := ih.expression h₂
      have hjoin := join_size h₃
      have hrest := ih.connected h₄
      omega
    · obtain ⟨rfl, rfl⟩ := pure_eq_some_iff.mp h
      omega

/-- Arguments pay with the commas between them, of which there is one less. -/
theorem PaysExpressions.arguments_succ {steps : Nat} (ih : PaysExpressions steps) {s s' : State}
    {args : List Exp} (h : Parser.arguments (steps + 1) s = some (args, s')) :
    Exp.argumentSize args + 2 * args.length + s'.worth ≤ s.worth + 3 := by
  simp only [Parser.arguments, bind_eq_some_iff] at h
  obtain ⟨e, s₁, h₁, comma, s₂, h₂, h⟩ := h
  have he := ih.expression h₁
  have hw := worth_accept h₂ (by decide)
  split at h
  · rename_i hcomma
    rw [hcomma] at hw
    simp only [bind_eq_some_iff, pure_eq_some_iff] at h
    obtain ⟨rest, s₃, h₃, rfl, rfl⟩ := h
    have hrest := ih.arguments h₃
    simp only [Exp.argumentSize, List.length_cons, if_pos] at hw ⊢
    omega
  · obtain ⟨rfl, rfl⟩ := pure_eq_some_iff.mp h
    simp only [Exp.argumentSize, List.length_cons, List.length_nil]
    omega

/-- The readers of expressions pay for their code. Induction on the steps. -/
theorem paysExpressions (steps : Nat) : PaysExpressions steps := by
  induction steps with
  | zero =>
    constructor
    · intro _ _ _ _ h
      cases h
    · intro _ _ _ h
      cases h
    · intro _ _ _ _ _ h
      cases h
    · intro _ _ _ h
      cases h
  | succ steps ih =>
    refine ⟨?_, ih.operand_succ, ih.connected_succ, ih.arguments_succ⟩
    intro level s e s' h
    simp only [Parser.expression, bind_eq_some_iff] at h
    obtain ⟨first, s₁, h₁, h₂⟩ := h
    have hfirst := ih.operand h₁
    have hrest := ih.connected h₂
    omega

/-! ### Declarations and statements

The same for statements, whose first tokens pay for their jumps. A declaration pays for a length
cell with its type. -/

/-- Skipping makes no tokens. Induction along the skipped ones. -/
theorem worth_seekPhrase_le (s : State) : s.seekPhrase.worth ≤ s.worth := by
  fun_induction State.seekPhrase s with
  | case1 s h => exact Nat.le_refl _
  | case2 s h hphrase => exact Nat.le_refl _
  | case3 s h hphrase ih => exact Nat.le_trans ih (worth_advance_le s)

/-- Ending a silence makes no tokens. -/
theorem worth_synchronize_le (s : State) : s.synchronize.worth ≤ s.worth :=
  worth_seekPhrase_le { s with recovering := false }

/-- Recovery makes no tokens. -/
theorem worth_recover_le (s : State) (start : Pos) : (s.recover start).worth ≤ s.worth := by
  have hsync := worth_synchronize_le s
  unfold State.recover
  split
  · simp only
    split
    · exact Nat.le_trans (worth_advance_le _) hsync
    · exact hsync
  · exact Nat.le_refl _

/-- The keyword of a type is paid for. -/
theorem worth_typeSpecifier {s s' : State} {r : Option (Pos × BaseType)}
    (h : typeSpecifier s = some (r, s')) : s'.worth + (if r.isSome then 8 else 0) ≤ s.worth := by
  simp only [typeSpecifier, bind_eq_some_iff, peek_eq] at h
  obtain ⟨t, s₁, h₁, h⟩ := h
  cases h₁
  obtain ⟨y, hy, h⟩ := reader_eq h
  split at hy <;> subst hy
  · rename_i base hbase
    have hw : s.advance.worth + 8 ≤ s.worth := by
      apply worth_advance
      intro heof
      rw [heof] at hbase
      cases hbase
    simp only [bind_eq_some_iff, read_eq, pure_eq_some_iff] at h
    obtain ⟨_, _, hr, rfl, rfl⟩ := h
    cases hr
    simpa using hw
  · simp only [bind_eq_some_iff, report_eq, pure_eq_some_iff] at h
    obtain ⟨_, _, hr, rfl, rfl⟩ := h
    cases hr
    simp

/-- The size of an array makes no tokens, and no reference to an array. -/
theorem worth_shape {s s' : State} {r : Option Shape} (h : shape s = some (r, s')) :
    s'.worth ≤ s.worth ∧ r ≠ some .reference := by
  simp only [shape, bind_eq_some_iff] at h
  obtain ⟨bracket, s₁, h₁, h⟩ := h
  have hw₁ := worth_accept h₁ (by decide)
  split at h
  · simp only [bind_eq_some_iff] at h
    obtain ⟨size, s₂, h₂, h⟩ := h
    have hw₂ := worth_expect h₂
    obtain ⟨y, hy, h⟩ := reader_eq h
    split at hy <;> subst hy
    · obtain ⟨y, hy, h⟩ := reader_eq h
      split at hy <;> subst hy
      · simp only [bind_eq_some_iff, report_eq, pure_eq_some_iff] at h
        obtain ⟨_, _, hr, rfl, rfl⟩ := h
        cases hr
        refine ⟨by simp only [worth_report]; omega, by simp⟩
      · simp only [bind_eq_some_iff] at h
        obtain ⟨close, s₃, h₃, h⟩ := h
        have hw₃ := worth_expect h₃
        obtain ⟨y, hy, h⟩ := reader_eq h
        split at hy <;> subst hy
        · obtain ⟨rfl, rfl⟩ := pure_eq_some_iff.mp h
          exact ⟨by omega, by simp⟩
        · obtain ⟨rfl, rfl⟩ := pure_eq_some_iff.mp h
          exact ⟨by omega, by simp⟩
    · obtain ⟨rfl, rfl⟩ := pure_eq_some_iff.mp h
      exact ⟨by omega, by simp⟩
  · obtain ⟨rfl, rfl⟩ := pure_eq_some_iff.mp h
    exact ⟨by omega, by simp⟩

/-- What follows the name of a variable makes no reference. -/
theorem worth_variableRest {pos : Pos} {base : BaseType} {name : Token} {s s' : State}
    {r : Option VarDecl} (h : variableRest pos base name s = some (r, s')) :
    s'.worth ≤ s.worth ∧ ∀ d, r = some d → d.shape ≠ .reference := by
  simp only [variableRest, bind_eq_some_iff] at h
  obtain ⟨shape, s₁, h₁, h⟩ := h
  obtain ⟨hw₁, hshape⟩ := worth_shape h₁
  obtain ⟨y, hy, h⟩ := reader_eq h
  split at hy <;> subst hy
  · simp only [bind_eq_some_iff] at h
    obtain ⟨semi, s₂, h₂, h⟩ := h
    have hw₂ := worth_expect h₂
    obtain ⟨y, hy, h⟩ := reader_eq h
    split at hy <;> subst hy
    · obtain ⟨rfl, rfl⟩ := pure_eq_some_iff.mp h
      refine ⟨by omega, ?_⟩
      rintro d ⟨⟩
      simpa using hshape
    · obtain ⟨rfl, rfl⟩ := pure_eq_some_iff.mp h
      exact ⟨by omega, by simp⟩
  · obtain ⟨rfl, rfl⟩ := pure_eq_some_iff.mp h
    exact ⟨by omega, by simp⟩

/-- A declaration pays for the length cell of an array with its type. -/
theorem localVariable_size {s s' : State} {r : Option VarDecl}
    (h : localVariable s = some (r, s')) :
    VarDecl.sizes r.toList + s'.worth ≤ s.worth ∧ ∀ d ∈ r.toList, d.shape ≠ .reference := by
  simp only [localVariable, bind_eq_some_iff] at h
  obtain ⟨spec, s₁, h₁, h⟩ := h
  have hw₁ := worth_typeSpecifier h₁
  obtain ⟨y, hy, h⟩ := reader_eq h
  split at hy <;> subst hy
  · simp only [bind_eq_some_iff] at h
    obtain ⟨name, s₂, h₂, h⟩ := h
    have hw₂ := worth_expect h₂
    simp only [Option.isSome_some, if_true] at hw₁
    obtain ⟨y, hy, h⟩ := reader_eq h
    split at hy <;> subst hy
    · obtain ⟨hw₃, hplain⟩ := worth_variableRest h
      cases r with
      | none =>
        refine ⟨?_, by simp⟩
        simp only [Option.toList, VarDecl.sizes, List.map_nil, List.sum_nil]
        omega
      | some d =>
        -- an array has two instructions, fewer than the token of its type is worth
        have hsize : d.shape.size ≤ 2 := by cases d.shape <;> simp [Shape.size]
        refine ⟨?_, by simpa using hplain⟩
        simp only [Option.toList, VarDecl.sizes, List.map_cons, List.map_nil, List.sum_cons,
          List.sum_nil]
        omega
    · obtain ⟨rfl, rfl⟩ := pure_eq_some_iff.mp h
      refine ⟨?_, by simp⟩
      simp only [Option.toList, VarDecl.sizes, List.map_nil, List.sum_nil]
      omega
  · obtain ⟨rfl, rfl⟩ := pure_eq_some_iff.mp h
    refine ⟨?_, by simp⟩
    simp only [Option.toList, VarDecl.sizes, List.map_nil, List.sum_nil]
    omega

/-- Declarations pay for their length cells. Induction on the steps. -/
theorem localVariables_size {steps : Nat} {s s' : State} {ds : List VarDecl}
    (h : localVariables steps s = some (ds, s')) :
    VarDecl.sizes ds + s'.worth ≤ s.worth ∧ ∀ d ∈ ds, d.shape ≠ .reference := by
  induction steps generalizing s ds with
  | zero => cases h
  | succ steps ih =>
    simp only [localVariables, bind_eq_some_iff, peek_eq] at h
    obtain ⟨t, s₁, h₁, h⟩ := h
    cases h₁
    split at h
    · simp only [bind_eq_some_iff, pure_eq_some_iff] at h
      obtain ⟨r, s₂, h₂, _, s₃, h₃, rest, s₄, h₄, rfl, rfl⟩ := h
      obtain ⟨hfirst, hplain⟩ := localVariable_size h₂
      obtain ⟨hrest, hplains⟩ := ih h₄
      have hw₃ : s₃.worth ≤ s₂.worth := by
        cases h₃
        simp only
        split
        · exact worth_synchronize_le s₂
        · exact Nat.le_refl _
      refine ⟨?_, ?_⟩
      · simp only [VarDecl.sizes, List.map_append, List.sum_append] at hfirst hrest ⊢
        omega
      · intro d hd
        rcases List.mem_append.mp hd with hd | hd
        · exact hplain d hd
        · exact hplains d hd
    · obtain ⟨rfl, rfl⟩ := pure_eq_some_iff.mp h
      exact ⟨by simp [VarDecl.sizes], by simp⟩

/-- A condition pays for its code. -/
theorem test_size {steps : Nat} {construct : Construct} {s s' : State} {e : Exp}
    (h : test steps construct s = some (e, s')) : e.size + s'.worth ≤ s.worth := by
  simp only [test, bind_eq_some_iff, pure_eq_some_iff] at h
  obtain ⟨_, s₁, h₁, e', s₂, h₂, _, s₃, h₃, rfl, rfl⟩ := h
  have hw₁ := worth_expect h₁
  have he := (paysExpressions steps).expression h₂
  have hw₃ := worth_expect h₃
  omega

/-- The tokens that statement readers use up pay for the code of what is read, with the given
number of steps. -/
structure PaysStatements (steps : Nat) : Prop where
  statement : ∀ {s a s'}, statement steps s = some (a, s') → a.size + s'.worth ≤ s.worth ∧ a.Plain
  blockRest : ∀ {s ds body s'}, blockRest steps s = some ((ds, body), s') →
    VarDecl.sizes ds + Stmt.sizeAll body + s'.worth ≤ s.worth ∧
      (∀ d ∈ ds, d.shape ≠ .reference) ∧ Stmt.PlainAll body
  statements : ∀ {s body s'}, statements steps s = some (body, s') →
    Stmt.sizeAll body + s'.worth ≤ s.worth ∧ Stmt.PlainAll body

/-- A statement pays with its first token for the jumps that it needs. -/
theorem PaysStatements.statement_succ {steps : Nat} (ih : PaysStatements steps) {s s' : State}
    {a : Stmt} (h : Parser.statement (steps + 1) s = some (a, s')) :
    a.size + s'.worth ≤ s.worth ∧ a.Plain := by
  have hexp := paysExpressions steps
  have hread := worth_advance_le s
  simp only [Parser.statement, bind_eq_some_iff, peek_eq] at h
  obtain ⟨t, s₁, h₁, h⟩ := h
  cases h₁
  obtain ⟨y, hy, h⟩ := reader_eq h
  split at hy <;> subst hy
  · -- a block
    simp only [bind_eq_some_iff, read_eq, pure_eq_some_iff] at h
    obtain ⟨_, _, hr, ⟨ds, body⟩, s₂, h₂, rfl, rfl⟩ := h
    cases hr
    obtain ⟨hsize, hplain⟩ := ih.blockRest h₂
    exact ⟨by simp only [Stmt.size]; omega, hplain⟩
  · -- a conditional statement, with an alternative or without one
    rename_i hkind
    have hw := worth_advance (s := s) (by rw [hkind]; decide)
    simp only [bind_eq_some_iff, read_eq] at h
    obtain ⟨_, _, hr, e, s₂, h₂, a₁, s₃, h₃, els, s₄, h₄, h⟩ := h
    cases hr
    have he := test_size h₂
    obtain ⟨hthen, hplain⟩ := ih.statement h₃
    have hw₄ := worth_accept h₄ (by decide)
    split at h
    · simp only [bind_eq_some_iff, pure_eq_some_iff] at h
      obtain ⟨a₂, s₅, h₅, rfl, rfl⟩ := h
      obtain ⟨helse, hplain'⟩ := ih.statement h₅
      exact ⟨by simp only [Stmt.size]; omega, hplain, hplain'⟩
    · obtain ⟨rfl, rfl⟩ := pure_eq_some_iff.mp h
      exact ⟨by simp only [Stmt.size]; omega, hplain⟩
  · -- a loop
    rename_i hkind
    have hw := worth_advance (s := s) (by rw [hkind]; decide)
    simp only [bind_eq_some_iff, read_eq, pure_eq_some_iff] at h
    obtain ⟨_, _, hr, e, s₂, h₂, b, s₃, h₃, rfl, rfl⟩ := h
    cases hr
    have he := test_size h₂
    obtain ⟨hbody, hplain⟩ := ih.statement h₃
    exact ⟨by simp only [Stmt.size]; omega, hplain⟩
  · -- a return, of a value or of none
    rename_i hkind
    have hw := worth_advance (s := s) (by rw [hkind]; decide)
    simp only [bind_eq_some_iff, read_eq] at h
    obtain ⟨_, _, hr, semi, s₂, h₂, h⟩ := h
    cases hr
    have hw₂ := worth_accept h₂ (by decide)
    split at h
    · obtain ⟨rfl, rfl⟩ := pure_eq_some_iff.mp h
      exact ⟨by simp only [Stmt.size]; omega, trivial⟩
    · simp only [bind_eq_some_iff, pure_eq_some_iff] at h
      obtain ⟨e, s₃, h₃, _, s₄, h₄, rfl, rfl⟩ := h
      have he := hexp.expression h₃
      have hw₄ := worth_expect h₄
      exact ⟨by simp only [Stmt.size]; omega, trivial⟩
  · -- nothing but a semicolon
    simp only [bind_eq_some_iff, read_eq, pure_eq_some_iff] at h
    obtain ⟨_, _, hr, rfl, rfl⟩ := h
    cases hr
    exact ⟨by simp only [Stmt.size, Exp.size]; omega, trivial⟩
  -- a type, where no declaration is allowed any more
  iterate 3
    · simp only [bind_eq_some_iff, report_eq, read_eq, pure_eq_some_iff] at h
      obtain ⟨_, s₂, hr, _, s₃, hr', rfl, rfl⟩ := h
      cases hr
      cases hr'
      have hw := worth_advance_le (s.report s.current .lateDeclaration)
      rw [worth_report] at hw
      exact ⟨by simp only [Stmt.size, Exp.size]; omega, trivial⟩
  · -- an expression
    simp only [bind_eq_some_iff, pure_eq_some_iff] at h
    obtain ⟨e, s₂, h₂, _, s₃, h₃, rfl, rfl⟩ := h
    have he := hexp.expression h₂
    have hw₃ := worth_expect h₃
    exact ⟨by simp only [Stmt.size]; omega, trivial⟩

/-- The readers of statements pay for their code. Induction on the steps. -/
theorem paysStatements (steps : Nat) : PaysStatements steps := by
  induction steps with
  | zero =>
    constructor
    · intro _ _ _ h
      cases h
    · intro _ _ _ _ h
      cases h
    · intro _ _ _ h
      cases h
  | succ steps ih =>
    refine ⟨ih.statement_succ, ?_, ?_⟩
    · intro s ds body s' h
      simp only [Parser.blockRest, bind_eq_some_iff, pure_eq_some_iff, Prod.mk.injEq] at h
      obtain ⟨ds', s₁, h₁, body', s₂, h₂, _, s₃, h₃, ⟨rfl, rfl⟩, rfl⟩ := h
      obtain ⟨hds, hplain⟩ := localVariables_size h₁
      obtain ⟨hbody, hplains⟩ := ih.statements h₂
      have hw₃ := worth_expect h₃
      exact ⟨by omega, hplain, hplains⟩
    · intro s body s' h
      simp only [Parser.statements, bind_eq_some_iff] at h
      obtain ⟨t, s₁, h₁, h⟩ := h
      cases h₁
      split at h
      · obtain ⟨rfl, rfl⟩ := pure_eq_some_iff.mp h
        exact ⟨by simp [Stmt.sizeAll], trivial⟩
      · simp only [bind_eq_some_iff, pure_eq_some_iff] at h
        obtain ⟨a, s₂, h₂, _, s₃, h₃, rest, s₄, h₄, rfl, rfl⟩ := h
        obtain ⟨hfirst, hplain⟩ := ih.statement h₂
        obtain ⟨hrest, hplains⟩ := ih.statements h₄
        -- recovery drops tokens only
        have hw₃ : s₃.worth ≤ s₂.worth := by
          cases h₃
          exact worth_recover_le s₂ _
        exact ⟨by simp only [Stmt.sizeAll]; omega, hplain, hplains⟩

/-! ### Programs

A function has three instructions more than its parts, which its type pays for. -/

/-- A parameter is a scalar or a reference, and has no code. -/
theorem parameterRest_plain {pos : Pos} {base : BaseType} {s s' : State} {r : Option VarDecl}
    (h : parameterRest pos base s = some (r, s')) :
    s'.worth ≤ s.worth ∧ ∀ d, r = some d → d.shape = .scalar ∨ d.shape = .reference := by
  simp only [parameterRest, bind_eq_some_iff] at h
  obtain ⟨name, s₁, h₁, h⟩ := h
  have hw₁ := worth_expect h₁
  obtain ⟨y, hy, h⟩ := reader_eq h
  split at hy <;> subst hy
  · simp only [bind_eq_some_iff] at h
    obtain ⟨bracket, s₂, h₂, h⟩ := h
    have hw₂ := worth_accept h₂ (by decide)
    split at h
    · simp only [bind_eq_some_iff] at h
      obtain ⟨close, s₃, h₃, h⟩ := h
      have hw₃ := worth_expect h₃
      obtain ⟨y, hy, h⟩ := reader_eq h
      split at hy <;> subst hy
      · obtain ⟨rfl, rfl⟩ := pure_eq_some_iff.mp h
        exact ⟨by omega, by rintro d ⟨⟩; exact Or.inr rfl⟩
      · obtain ⟨rfl, rfl⟩ := pure_eq_some_iff.mp h
        exact ⟨by omega, by simp⟩
    · obtain ⟨rfl, rfl⟩ := pure_eq_some_iff.mp h
      exact ⟨by omega, by rintro d ⟨⟩; exact Or.inl rfl⟩
  · obtain ⟨rfl, rfl⟩ := pure_eq_some_iff.mp h
    exact ⟨by omega, by simp⟩

/-- Parameters are scalars or references. Induction on the steps. -/
theorem parameterList_plain {steps : Nat} {first : Bool} {s s' : State} {r : Option (List VarDecl)}
    (h : parameterList steps first s = some (r, s')) :
    s'.worth ≤ s.worth ∧ ∀ ds, r = some ds → ∀ d ∈ ds, d.shape = .scalar ∨
      d.shape = .reference := by
  induction steps generalizing first s r s' with
  | zero => cases h
  | succ steps ih =>
    simp only [parameterList, bind_eq_some_iff] at h
    obtain ⟨spec, s₁, h₁, h⟩ := h
    have hw₁ := worth_typeSpecifier h₁
    obtain ⟨y, hy, h⟩ := reader_eq h
    split at hy <;> subst hy
    · simp only [bind_eq_some_iff, peek_eq] at h
      obtain ⟨t, s₂, h₂, h⟩ := h
      cases h₂
      split at h
      · obtain ⟨rfl, rfl⟩ := pure_eq_some_iff.mp h
        exact ⟨by omega, by rintro ds ⟨⟩; simp⟩
      · simp only [bind_eq_some_iff] at h
        obtain ⟨param, s₃, h₃, h⟩ := h
        obtain ⟨hw₃, hparam⟩ := parameterRest_plain h₃
        obtain ⟨y, hy, h⟩ := reader_eq h
        split at hy <;> subst hy
        · -- a parameter was read; a comma behind it says that there is another one
          rename_i d
          simp only [bind_eq_some_iff] at h
          obtain ⟨comma, s₄, h₄, h⟩ := h
          have hw₄ := worth_accept h₄ (by decide)
          split at h
          · simp only [bind_eq_some_iff] at h
            obtain ⟨rest, s₅, h₅, h⟩ := h
            obtain ⟨hw₅, hrest⟩ := ih h₅
            obtain ⟨y, hy, h⟩ := reader_eq h
            split at hy <;> subst hy
            · rename_i ds
              obtain ⟨rfl, rfl⟩ := pure_eq_some_iff.mp h
              refine ⟨by omega, ?_⟩
              rintro _ ⟨⟩ e he
              rcases List.mem_cons.mp he with rfl | he
              · exact hparam _ rfl
              · exact hrest _ rfl e he
            · obtain ⟨rfl, rfl⟩ := pure_eq_some_iff.mp h
              exact ⟨by omega, by simp⟩
          · obtain ⟨rfl, rfl⟩ := pure_eq_some_iff.mp h
            refine ⟨by omega, ?_⟩
            rintro _ ⟨⟩ e he
            obtain rfl := List.mem_singleton.mp he
            exact hparam _ rfl
        · obtain ⟨rfl, rfl⟩ := pure_eq_some_iff.mp h
          exact ⟨by omega, by simp⟩
    · obtain ⟨rfl, rfl⟩ := pure_eq_some_iff.mp h
      exact ⟨by omega, by simp⟩

/-- So are the parameters of a function. -/
theorem parameters_plain {steps : Nat} {s s' : State} {r : Option (List VarDecl)}
    (h : parameters steps s = some (r, s')) :
    s'.worth ≤ s.worth ∧ ∀ ds, r = some ds → ∀ d ∈ ds, d.shape = .scalar ∨
      d.shape = .reference := by
  simp only [parameters, bind_eq_some_iff, peek_eq] at h
  obtain ⟨t, s₁, h₁, h⟩ := h
  cases h₁
  split at h
  · obtain ⟨rfl, rfl⟩ := pure_eq_some_iff.mp h
    exact ⟨by omega, by rintro ds ⟨⟩; simp⟩
  · exact parameterList_plain h

/-- What follows the parenthesis of a function pays for its body. -/
theorem functionRest_size {steps : Nat} {pos : Pos} {result : BaseType} {name : Token}
    {s s' : State} {r : Option FunDecl} (h : functionRest steps pos result name s = some (r, s')) :
    s'.worth ≤ s.worth ∧ ∀ f, r = some f →
      (Decl.function f).size + s'.worth ≤ s.worth + 3 ∧ (Decl.function f).Plain := by
  simp only [functionRest, bind_eq_some_iff] at h
  obtain ⟨params, s₁, h₁, h⟩ := h
  obtain ⟨hw₁, hparams⟩ := parameters_plain h₁
  obtain ⟨y, hy, h⟩ := reader_eq h
  split at hy <;> subst hy
  · simp only [bind_eq_some_iff] at h
    obtain ⟨close, s₂, h₂, h⟩ := h
    have hw₂ := worth_expect h₂
    obtain ⟨y, hy, h⟩ := reader_eq h
    split at hy <;> subst hy
    · simp only [bind_eq_some_iff] at h
      -- with a semicolon it is a prototype, and with a body it needs a brace
      obtain ⟨semi, s₃, h₃, h⟩ := h
      have hw₃ := worth_accept h₃ (by decide)
      split at h
      · obtain ⟨rfl, rfl⟩ := pure_eq_some_iff.mp h
        refine ⟨by omega, ?_⟩
        rintro f ⟨⟩
        exact ⟨by simp only [Decl.size]; omega, hparams _ rfl, by simp⟩
      · simp only [bind_eq_some_iff] at h
        obtain ⟨brace, s₄, h₄, h⟩ := h
        have hw₄ := worth_expect h₄
        obtain ⟨y, hy, h⟩ := reader_eq h
        split at hy <;> subst hy
        · simp only [bind_eq_some_iff, pure_eq_some_iff] at h
          obtain ⟨⟨ds, body⟩, s₅, h₅, rfl, rfl⟩ := h
          obtain ⟨hsize, hplain, hplains⟩ := (paysStatements steps).blockRest h₅
          refine ⟨by omega, ?_⟩
          rintro f ⟨⟩
          refine ⟨by simp only [Decl.size]; omega, hparams _ rfl, ?_⟩
          rintro body ⟨⟩
          exact ⟨hplain, hplains⟩
        · obtain ⟨rfl, rfl⟩ := pure_eq_some_iff.mp h
          exact ⟨by omega, by simp⟩
    · obtain ⟨rfl, rfl⟩ := pure_eq_some_iff.mp h
      exact ⟨by omega, by simp⟩
  · obtain ⟨rfl, rfl⟩ := pure_eq_some_iff.mp h
    exact ⟨by omega, by simp⟩

/-- A declaration pays with its type for what it needs besides the code inside it. -/
theorem declaration_size {steps : Nat} {s s' : State} {r : Option Decl}
    (h : declaration steps s = some (r, s')) :
    s'.worth ≤ s.worth ∧ ∀ d, r = some d → d.size + s'.worth ≤ s.worth ∧ d.Plain := by
  simp only [declaration, bind_eq_some_iff] at h
  obtain ⟨spec, s₁, h₁, h⟩ := h
  have hw₁ := worth_typeSpecifier h₁
  obtain ⟨y, hy, h⟩ := reader_eq h
  split at hy <;> subst hy
  · simp only [bind_eq_some_iff, Option.isSome_some, if_true] at h hw₁
    obtain ⟨name, s₂, h₂, h⟩ := h
    have hw₂ := worth_expect h₂
    obtain ⟨y, hy, h⟩ := reader_eq h
    split at hy <;> subst hy
    · simp only [bind_eq_some_iff] at h
      -- a parenthesis behind the name tells functions from variables
      obtain ⟨paren, s₃, h₃, h⟩ := h
      have hw₃ := worth_accept h₃ (by decide)
      split at h
      · simp only [bind_eq_some_iff, pure_eq_some_iff] at h
        obtain ⟨f, s₄, h₄, rfl, rfl⟩ := h
        obtain ⟨hw₄, hfun⟩ := functionRest_size h₄
        refine ⟨by omega, ?_⟩
        intro d hd
        obtain ⟨g, rfl, rfl⟩ := Option.map_eq_some_iff.mp hd
        obtain ⟨hsize, hplain⟩ := hfun g rfl
        exact ⟨by omega, hplain⟩
      · simp only [bind_eq_some_iff, pure_eq_some_iff] at h
        obtain ⟨v, s₄, h₄, rfl, rfl⟩ := h
        obtain ⟨hw₄, hvar⟩ := worth_variableRest h₄
        refine ⟨by omega, ?_⟩
        intro d hd
        obtain ⟨g, rfl, rfl⟩ := Option.map_eq_some_iff.mp hd
        have hsize : g.shape.size ≤ 2 := by cases g.shape <;> simp [Shape.size]
        exact ⟨by simp only [Decl.size]; omega, hvar g rfl⟩
    · obtain ⟨rfl, rfl⟩ := pure_eq_some_iff.mp h
      exact ⟨by omega, by simp⟩
  · obtain ⟨rfl, rfl⟩ := pure_eq_some_iff.mp h
    exact ⟨by omega, by simp⟩

/-- Declarations pay for their code. Induction on the steps. -/
theorem declarations_size {steps : Nat} {s s' : State} {ds : List Decl}
    (h : declarations steps s = some (ds, s')) :
    Decl.sizes ds + s'.worth ≤ s.worth ∧ ∀ d ∈ ds, d.Plain := by
  induction steps generalizing s ds with
  | zero => cases h
  | succ steps ih =>
    simp only [declarations, bind_eq_some_iff] at h
    obtain ⟨t, s₁, h₁, h⟩ := h
    cases h₁
    split at h
    · obtain ⟨rfl, rfl⟩ := pure_eq_some_iff.mp h
      exact ⟨by simp [Decl.sizes], by simp⟩
    · simp only [bind_eq_some_iff, pure_eq_some_iff] at h
      obtain ⟨r, s₂, h₂, _, s₃, h₃, rest, s₄, h₄, rfl, rfl⟩ := h
      obtain ⟨hw₂, hfirst⟩ := declaration_size h₂
      obtain ⟨hrest, hplains⟩ := ih h₄
      have hw₃ : s₃.worth ≤ s₂.worth := by
        cases h₃
        exact worth_recover_le s₂ _
      cases r with
      | none => exact ⟨by simp only [Option.toList, List.nil_append]; omega, hplains⟩
      | some d =>
        obtain ⟨hsize, hplain⟩ := hfirst d rfl
        refine ⟨?_, ?_⟩
        · simp only [Option.toList, Decl.sizes, List.cons_append, List.nil_append, List.map_cons,
            List.sum_cons] at hrest ⊢
          omega
        · intro e he
          rcases List.mem_cons.mp he with rfl | he
          · exact hplain
          · exact hplains e he

end Parser

/-- A source has no more tokens than bytes. Induction along the scan. -/
theorem Cursor.length_tokens_le (cursor : Cursor) :
    cursor.tokens.tokens.length ≤ cursor.rest.length := by
  fun_induction Cursor.tokens cursor with
  | case1 cursor h => exact Nat.zero_le _
  | case2 cursor h behind ih =>
    have hnext := cursor.next_shorter h
    show behind.tokens.length + 1 ≤ cursor.rest.length
    exact Nat.lt_of_le_of_lt ih hnext

/-- A source has code for at most eight instructions for each of its bytes, and only parameters of
it are references. -/
theorem parse_size {source : String} {tree : Program} (h : parse source = .ok tree) :
    Decl.sizes tree.decls ≤ 8 * source.utf8ByteSize ∧ ∀ d ∈ tree.decls, d.Plain := by
  unfold parse Program.ofTokens at h
  split at h
  · cases h
  · rename_i ds s hrun
    split at h
    · cases h
      obtain ⟨hsize, hplain⟩ := Parser.declarations_size hrun
      refine ⟨?_, hplain⟩
      have hsettle := Parser.State.settle_unread_length_le
        ⟨none, [], (scan source).stop, [], false⟩ (scan source).tokens
      have htokens := Cursor.length_tokens_le ⟨octets source, ⟨0, 0⟩⟩
      have hbytes := length_octets source
      unfold Parser.State.worth Parser.start scan at hsize
      unfold scan at hsettle
      show Decl.sizes ds ≤ 8 * source.utf8ByteSize
      simp only at htokens
      omega
    · cases h

end MiniC
