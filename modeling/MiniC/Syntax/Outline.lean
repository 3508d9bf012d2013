import MiniC.Syntax
import MiniC.Text.Align

/-!
# Outlines

The outline of a program has one line per node, indented by the depth of the node; it shows names,
operators and literals, and neither positions nor anything the analysis records.
-/

namespace MiniC

/-- A line of an outline: the depth of a node and its label. -/
structure OutlineLine where
  depth : Nat
  label : String
deriving DecidableEq, Repr

/-- Each level of depth is four blanks wide. -/
def OutlineLine.text (l : OutlineLine) : String :=
  Text.blanks (4 * l.depth) ++ l.label

/-- Array variables show their size, array parameters do not. -/
def VarDecl.outline (depth : Nat) (d : VarDecl) : OutlineLine :=
  match d.shape with
  | .array size => ⟨depth, s!"VarDec: {d.name} : {d.base.text}[{size}]"⟩
  | _ => ⟨depth, s!"VarDec: {d.name} : {d.ty.text}"⟩

/-- The line of a variable's occurrence. -/
def VarUse.outline (depth : Nat) (v : VarUse) : OutlineLine :=
  ⟨depth, s!"Var: {v.name}"⟩

mutual

/-- The lines of an expression. -/
def Exp.outline (depth : Nat) : Exp → List OutlineLine
  | .int _ value => [⟨depth, s!"Int: {value}"⟩]
  | .bool _ value => [⟨depth, if value then "Bool: true" else "Bool: false"⟩]
  | .nil _ => [⟨depth, "Nil"⟩]
  | .unary _ _ op operand => ⟨depth, s!"Unary: {op.symbol}"⟩ :: operand.outline (depth + 1)
  | .binary _ _ op lhs rhs =>
    ⟨depth, s!"Op: {op.symbol}"⟩ :: (lhs.outline (depth + 1) ++ rhs.outline (depth + 1))
  | .var _ v => [v.outline depth]
  | .element _ v index => v.outline depth :: index.outline (depth + 1)
  | .assign _ _ v value =>
    ⟨depth, "Assign:"⟩ :: v.outline (depth + 1) :: value.outline (depth + 1)
  | .assignElement _ _ v index value =>
    ⟨depth, "Assign:"⟩ :: v.outline (depth + 1) ::
      (index.outline (depth + 2) ++ value.outline (depth + 1))
  | .call _ _ callee args => ⟨depth, s!"Call: {callee}"⟩ :: Exp.outlineAll (depth + 1) args

/-- The lines of several expressions. -/
def Exp.outlineAll (depth : Nat) : List Exp → List OutlineLine
  | [] => []
  | e :: rest => e.outline depth ++ Exp.outlineAll depth rest

end

mutual

/-- The lines of a statement. -/
def Stmt.outline (depth : Nat) : Stmt → List OutlineLine
  | .exp _ e => e.outline depth
  | .block _ decls body =>
    ⟨depth, "Compound:"⟩ ::
      (decls.map (VarDecl.outline (depth + 1)) ++ Stmt.outlineAll (depth + 1) body)
  | .ifThen _ test thenBranch =>
    ⟨depth, "If:"⟩ :: (test.outline (depth + 1) ++ thenBranch.outline (depth + 1))
  | .ifElse _ test thenBranch elseBranch =>
    ⟨depth, "If:"⟩ :: (test.outline (depth + 1) ++ thenBranch.outline (depth + 1) ++
      ⟨depth + 1, "Else:"⟩ :: elseBranch.outline (depth + 2))
  | .whileDo _ test body =>
    ⟨depth, "While:"⟩ :: (test.outline (depth + 1) ++ body.outline (depth + 1))
  | .ret _ none => [⟨depth, "Return:"⟩]
  | .ret _ (some value) => ⟨depth, "Return:"⟩ :: value.outline (depth + 1)

/-- The lines of several statements. -/
def Stmt.outlineAll (depth : Nat) : List Stmt → List OutlineLine
  | [] => []
  | s :: rest => s.outline depth ++ Stmt.outlineAll depth rest

end

/-- The lines of a function body are those of the same block as a statement. -/
def Block.outline (depth : Nat) (b : Block) : List OutlineLine :=
  (Stmt.block b.pos b.decls b.stmts).outline depth

/-- The lines of the parameters. -/
def FunDecl.outlineParams (depth : Nat) (f : FunDecl) : List OutlineLine :=
  if f.params.isEmpty then
    [⟨depth, "Parameters: void"⟩]
  else
    ⟨depth, "Parameters:"⟩ :: f.params.map (VarDecl.outline (depth + 1))

/-- The lines of a function. -/
def FunDecl.outline (depth : Nat) (f : FunDecl) : List OutlineLine :=
  ⟨depth, s!"FunctionDec: {f.name} : {f.result.text}"⟩ ::
    (f.outlineParams (depth + 1) ++
      match f.body with
      | some body => body.outline (depth + 1)
      | none => [⟨depth + 1, "Prototype"⟩])

/-- The lines of a declaration. -/
def Decl.outline (depth : Nat) : Decl → List OutlineLine
  | .var d => [d.outline depth]
  | .function f => f.outline depth

/-- The lines of a program. -/
def Program.outline (p : Program) : List OutlineLine :=
  ⟨0, "Program:"⟩ :: p.decls.flatMap (Decl.outline 1)

/-- The outline as text, each line ended by a line feed. -/
def Program.outlineText (p : Program) : String :=
  String.join (p.outline.map fun l => l.text ++ "\n")

end MiniC
