import MiniC.Proofs.Grammar.Complete
import MiniC.Proofs.Scanning.Tiling
import MiniC.Proofs.Typing.Rules

/-!
# Parsed trees

Nothing is recorded in a tree that was just parsed. The declarations of variables in it stand at
different positions, each at that of a token that names a type; so a position tells which of them a
diagnostic is about.

* `Program.variables`: the variables of a program, in the order of the text
* `bare_of_parse`: a parsed tree is bare
* `nodup_of_parse`: its variables have different positions
-/

namespace MiniC

/-! ### Variables in the order of the text

The analysis records the place of a variable in the tree. Dropping the records changes no names and
no positions, so the variables of a tree and of the bare tree are the same but for them. -/

mutual

/-- The variables that are declared in a statement, those of a block before those of the blocks
inside it. -/
def Stmt.variables : Stmt → List VarDecl
  | .exp _ _ | .ret _ _ => []
  | .block _ ds body => ds ++ Stmt.variablesAll body
  | .ifThen _ _ a => a.variables
  | .ifElse _ _ a b => a.variables ++ b.variables
  | .whileDo _ _ b => b.variables

/-- The variables that are declared in statements. -/
def Stmt.variablesAll : List Stmt → List VarDecl
  | [] => []
  | s :: rest => s.variables ++ Stmt.variablesAll rest

end

/-- The variables that are declared in a function body. -/
def Block.variables (b : Block) : List VarDecl :=
  b.decls ++ Stmt.variablesAll b.stmts

/-- The parameters of a function, then the variables of its body. -/
def FunDecl.variables (f : FunDecl) : List VarDecl :=
  f.params ++ (f.body.map Block.variables).getD []

/-- The variables that a declaration of the outermost level declares. -/
def Decl.variables : Decl → List VarDecl
  | .var d => [d]
  | .function f => f.variables

/-- The variables of a program. -/
def Program.variables (p : Program) : List VarDecl :=
  p.decls.flatMap Decl.variables

/-- Dropping the records of statements, if it is so for each of them. -/
theorem Stmt.variablesAll_bare {body : List Stmt}
    (ih : ∀ s ∈ body, s.bare.variables = s.variables.map VarDecl.bare) :
    Stmt.variablesAll (Stmt.bareAll body) = (Stmt.variablesAll body).map VarDecl.bare := by
  induction body with
  | nil => rfl
  | cons s rest hrest =>
    simp only [Stmt.bareAll, Stmt.variablesAll, List.map_append, ih s List.mem_cons_self,
      hrest fun a ha => ih a (List.mem_cons_of_mem s ha)]

/-- The variables of a statement without records. -/
theorem Stmt.variables_bare (s : Stmt) : s.bare.variables = s.variables.map VarDecl.bare := by
  induction s using Stmt.induction with
  | exp p e => rfl
  | block p ds body ih =>
    simp only [Stmt.bare, Stmt.variables, List.map_append, Stmt.variablesAll_bare ih]
  | ifThen p t a ih => exact ih
  | ifElse p t a b iha ihb => simp only [Stmt.bare, Stmt.variables, List.map_append, iha, ihb]
  | whileDo p t b ih => exact ih
  | ret p v => rfl

/-- The variables of a program without records. -/
theorem Program.variables_bare (p : Program) : p.bare.variables = p.variables.map VarDecl.bare := by
  unfold Program.variables Program.bare
  rw [List.map_flatMap, List.flatMap_map]
  congr 1
  funext d
  cases d with
  | var d => rfl
  | function f =>
    cases hbody : f.body with
    | none => simp [Decl.bare, FunDecl.bare, Decl.variables, FunDecl.variables, hbody]
    | some b =>
      simp [Decl.bare, FunDecl.bare, Block.bare, Decl.variables, FunDecl.variables, Block.variables,
        hbody, Stmt.variablesAll_bare fun s _ => s.variables_bare]

namespace Grammar

/-! ### Nothing is recorded

By induction on derivations: no rule of the grammar makes a node with a record in it. -/

/-- No rule for expressions records anything. The cases are those of the rules, in their order, and
then those of the arguments of a call. -/
theorem Expression.bare_eq {n : Nat} {ts : List Token} {e : Exp} (h : Expression n ts e) :
    e.bare = e :=
  @Expression.rec (fun _ _ e _ => e.bare = e) (fun _ args _ => Exp.bareAll args = args)
    (fun _ _ ih => ih)
    (fun _ _ _ _ ih => by simp only [Exp.bare, ih, useOf, VarUse.bare])
    (fun _ _ _ _ _ _ _ ihi ihe => by simp only [Exp.bare, ihi, ihe, useOf, VarUse.bare])
    (fun _ _ _ ihl ihr => by simp only [Exp.bare, ihl, ihr])
    (fun _ _ ih => by simp only [Exp.bare, ih])
    (fun _ _ ih => by simp only [Exp.bare, ih])
    (fun _ => rfl) (fun _ => rfl) (fun _ => rfl) (fun _ => rfl)
    (fun _ _ _ _ ih => by simp only [Exp.bare, ih, useOf, VarUse.bare])
    (fun _ _ _ => rfl)
    (fun _ _ _ _ ih => by simp only [Exp.bare, ih])
    (fun _ _ _ ih => ih)
    (fun _ ih => by simp only [Exp.bareAll, ih])
    (fun _ _ _ ih ihrest => by simp only [Exp.bareAll, ih, ihrest])
    n ts e h

/-- A declaration that was just parsed has no place. -/
theorem Variable.bare_eq {ts : List Token} {d : VarDecl} (h : Variable ts d) : d.bare = d := by
  cases h <;> rfl

/-- A parameter that was just parsed has no place. -/
theorem Parameter.bare_eq {ts : List Token} {d : VarDecl} (h : Parameter ts d) : d.bare = d := by
  cases h <;> rfl

/-- What leaves each item of a list alone leaves the list alone. -/
theorem Many.map_eq {α : Type} {P : List Token → α → Prop} {f : α → α}
    (hP : ∀ ts a, P ts a → f a = a) {ts : List Token} {as : List α} (h : Many P ts as) :
    as.map f = as := by
  induction h with
  | nil => rfl
  | cons h _ ih => rw [List.map_cons, hP _ _ h, ih]

/-- The same of a list with commas, as in `Many.map_eq`. -/
theorem Separated.map_eq {α : Type} {P : List Token → α → Prop} {f : α → α}
    (hP : ∀ ts a, P ts a → f a = a) {ts : List Token} {as : List α} (h : Separated P ts as) :
    as.map f = as := by
  induction h with
  | one h => rw [List.map_singleton, hP _ _ h]
  | more h _ _ ih => rw [List.map_cons, hP _ _ h, ih]

/-- No rule for statements records anything. The cases are those of the rules, in their order, and
then those of the statements in a block. -/
theorem Statement.bare_eq {ts : List Token} {a : Stmt} (h : Statement ts a) : a.bare = a :=
  @Statement.rec (fun _ a _ => a.bare = a) (fun _ body _ => Stmt.bareAll body = body)
    (fun _ hds _ _ ih => by
      simp only [Stmt.bare, ih, hds.map_eq fun _ _ h => Variable.bare_eq h])
    (fun _ _ ht _ _ ih => by simp only [Stmt.bare, ht.bare_eq, ih])
    (fun _ _ ht _ _ _ _ _ iha ihb => by simp only [Stmt.bare, ht.bare_eq, iha, ihb])
    (fun _ _ ht _ _ ih => by simp only [Stmt.bare, ht.bare_eq, ih])
    (fun _ _ => rfl)
    (fun _ he _ => by simp only [Stmt.bare, Option.map_some, he.bare_eq])
    (fun _ => rfl)
    (fun he _ => by simp only [Stmt.bare, he.bare_eq])
    rfl
    (fun _ _ ih ihrest => by simp only [Stmt.bareAll, ih, ihrest])
    ts a h

/-- Nothing is recorded in the statements of a body. -/
theorem Many.bareAll_eq {ts : List Token} {body : List Stmt} (h : Many Statement ts body) :
    Stmt.bareAll body = body := by
  induction h with
  | nil => rfl
  | cons h _ ih => simp only [Stmt.bareAll, h.bare_eq, ih]

/-- Nothing is recorded in the parameters of a function. -/
theorem Parameters.map_eq {ts : List Token} {params : List VarDecl} (h : Parameters ts params) :
    params.map VarDecl.bare = params := by
  cases h with
  | none => rfl
  | void => rfl
  | some h => exact h.map_eq fun _ _ h => h.bare_eq

/-- Nothing is recorded in a declaration of the outermost level. -/
theorem Declaration.bare_eq {ts : List Token} {d : Decl} (h : Declaration ts d) : d.bare = d := by
  cases h with
  | var h => simp only [Decl.bare, h.bare_eq]
  | prototype hty hname hl hparams hr hsemi =>
    simp only [Decl.bare, FunDecl.bare, hparams.map_eq, Option.map_none]
  | definition hty hname hl hparams hr hbrace hds hbody hstop =>
    simp only [Decl.bare, FunDecl.bare, Block.bare, hparams.map_eq, Option.map_some,
      hds.map_eq fun _ _ h => Variable.bare_eq h, hbody.bareAll_eq]

/-! ### Positions

A variable stands at the token of its type. Tokens have increasing positions, so all that is to be
shown is that the tokens of the variables are different ones, in their order. -/

/-- The variables stand at tokens of the list, in their order. -/
def Marked (ts : List Token) (ds : List VarDecl) : Prop :=
  (ds.map VarDecl.pos).Sublist (ts.map Token.pos)

namespace Marked

variable {ts us : List Token} {ds es : List VarDecl}

/-- No variables stand anywhere. -/
theorem nil : Marked ts [] :=
  List.nil_sublist _

/-- Variables of texts one behind the other. -/
theorem append (h : Marked ts ds) (h' : Marked us es) : Marked (ts ++ us) (ds ++ es) := by
  unfold Marked
  rw [List.map_append, List.map_append]
  exact List.Sublist.append h h'

/-- More tokens, in the same order. -/
theorem mono (h : Marked ts ds) (hsub : ts.Sublist us) : Marked us ds :=
  List.Sublist.trans h (hsub.map _)

end Marked

/-- A variable stands at the token of its type. -/
theorem Variable.marked {ts : List Token} {d : VarDecl} (h : Variable ts d) : Marked ts [d] := by
  cases h <;> exact List.Sublist.cons_cons _ (List.nil_sublist _)

/-- A parameter stands at the token of its type. -/
theorem Parameter.marked {ts : List Token} {d : VarDecl} (h : Parameter ts d) : Marked ts [d] := by
  cases h <;> exact List.Sublist.cons_cons _ (List.nil_sublist _)

/-- The items of a list stand one behind the other. -/
theorem Many.marked {α : Type} {P : List Token → α → Prop} {f : α → List VarDecl}
    (hP : ∀ ts a, P ts a → Marked ts (f a)) {ts : List Token} {as : List α} (h : Many P ts as) :
    Marked ts (as.flatMap f) := by
  induction h with
  | nil => exact .nil
  | cons h _ ih => exact (hP _ _ h).append ih

/-- Parameters stand one behind the other, with commas between them. -/
theorem Separated.marked {ts : List Token} {params : List VarDecl}
    (h : Separated Parameter ts params) : Marked ts params := by
  induction h with
  | one h => exact h.marked
  | more h _ _ ih => exact h.marked.append (ih.mono (List.sublist_cons_self _ _))

/-- The parameters of a function, of which there may be none. -/
theorem Parameters.marked {ts : List Token} {params : List VarDecl} (h : Parameters ts params) :
    Marked ts params := by
  cases h with
  | none => exact .nil
  | void => exact .nil
  | some h => exact h.marked

/-- The variables at the start of a block. -/
theorem Many.marked_variables {ts : List Token} {ds : List VarDecl} (h : Many Variable ts ds) :
    Marked ts ds := by
  have := h.marked (f := fun d => [d]) fun _ _ h => h.marked
  simpa using this

/-- What follows the test of a statement. -/
theorem sublist_behind_test (word l r : Token) (ts us : List Token) :
    us.Sublist (word :: l :: (ts ++ r :: us)) :=
  List.IsSuffix.sublist ⟨word :: l :: (ts ++ [r]), by simp⟩

/-- Declarations stand only at the start of blocks. The cases are those of the rules, in their
order, and then those of the statements in a block. -/
theorem Statement.marked {ts : List Token} {a : Stmt} (h : Statement ts a) :
    Marked ts a.variables :=
  @Statement.rec (fun ts a _ => Marked ts a.variables)
    (fun ts body _ => Marked ts (Stmt.variablesAll body))
    (fun _ hds _ _ ih => (hds.marked_variables.append ih).mono (by simp))
    (fun _ _ _ _ _ ih => ih.mono (sublist_behind_test _ _ _ _ _))
    (fun _ _ _ _ _ _ _ _ iha ihb => (iha.append (ihb.mono (List.sublist_cons_self _ _))).mono
      (sublist_behind_test _ _ _ _ _))
    (fun _ _ _ _ _ ih => ih.mono (sublist_behind_test _ _ _ _ _))
    (fun _ _ => .nil) (fun _ _ _ => .nil) (fun _ => .nil) (fun _ _ => .nil)
    .nil
    (fun _ _ ih ihrest => ih.append ihrest)
    ts a h

/-- The variables of the statements of a body. -/
theorem Many.marked_variablesAll {ts : List Token} {body : List Stmt} (h : Many Statement ts body) :
    Marked ts (Stmt.variablesAll body) := by
  induction h with
  | nil => exact .nil
  | cons h _ ih => exact h.marked.append ih

/-- The variables of a declaration of the outermost level: parameters before the body. -/
theorem Declaration.marked {ts : List Token} {d : Decl} (h : Declaration ts d) :
    Marked ts d.variables := by
  cases h with
  | var h => exact h.marked
  | @prototype ty _ name l _ _ r semi hty hname hl hparams hr hsemi =>
    simp only [Decl.variables, FunDecl.variables, Option.map_none, Option.getD_none,
      List.append_nil]
    exact hparams.marked.mono (List.IsInfix.sublist ⟨[ty, name, l], [r, semi], by simp⟩)
  | @definition ty _ name l _ _ r brace dts _ bts _ stop hty hname hl hparams hr hbrace hds hbody
      hstop =>
    have hblock := hds.marked_variables.append hbody.marked_variablesAll
    have hinner : (dts ++ bts).Sublist (r :: brace :: (dts ++ bts ++ [stop])) :=
      List.IsInfix.sublist ⟨[r, brace], [stop], by simp⟩
    exact (hparams.marked.append (hblock.mono hinner)).mono
      (List.IsSuffix.sublist ⟨[ty, name, l], rfl⟩)

end Grammar

/-- Nothing is recorded in a parsed tree. -/
theorem bare_of_parse {source : String} {p : Program} (h : parse source = .ok p) : p.bare = p := by
  obtain ⟨-, hdecls, hend⟩ := derives_of_parse h
  obtain ⟨ds, globalsEnd⟩ := p
  obtain rfl : globalsEnd = 0 := hend
  simp only [Program.bare, hdecls.map_eq fun _ _ h => h.bare_eq]

/-- The variables of a parsed tree have different positions. -/
theorem nodup_of_parse {source : String} {p : Program} (h : parse source = .ok p) :
    (p.variables.map VarDecl.pos).Nodup := by
  obtain ⟨-, hdecls, -⟩ := derives_of_parse h
  have hmarked : Grammar.Marked _ p.variables := hdecls.marked fun _ _ h => h.marked
  have hpairs := scan_pos_pairwise source
  rw [TokenStream.toList, List.map_append] at hpairs
  have htokens := (List.pairwise_append.mp hpairs).1
  exact (htokens.sublist hmarked).imp Pos.lt.ne

end MiniC
