import MiniC.Scope
import MiniC.Typing.Diagnostic

/-!
# Types of expressions

The analysis of an expression records a type at every node and the storage of every variable, and
collects diagnostics in the order of the text. A node whose parts are at fault still gets a type,
so one mistake is reported once.
-/

namespace MiniC

/-- An analysed expression. -/
structure TypedExp where
  exp : Exp
  ty : Ty
  errors : List Diagnostic

/-- An analysed occurrence of a variable. -/
structure TypedUse where
  var : VarUse
  ty : Ty
  errors : List Diagnostic

/-- A single integer. -/
def Ty.int : Ty := .scalar .int

/-- A single truth value. -/
def Ty.bool : Ty := .scalar .bool

/-- The type of the operand and of the result of a unary operator. -/
def UnaryOp.ty : UnaryOp → Ty
  | .neg => .int
  | .not => .bool

namespace BinaryOp

/-- The family of an operator. -/
def family : BinaryOp → Family
  | .add | .sub | .mul | .div => .arithmetic
  | .and | .or => .logical
  | .less | .greater | .lessEqual | .greaterEqual | .equal | .notEqual => .comparison

/-- Whether operands of these types fit: integers for arithmetic, truth values for logic, and two
values of one type other than void for a comparison. -/
def Family.accepts (family : Family) (lhs rhs : Ty) : Bool :=
  match family with
  | .arithmetic => lhs = .int && rhs = .int
  | .logical => lhs = .bool && rhs = .bool
  | .comparison => lhs = rhs && !lhs.isArray && lhs.base != .void

/-- The type of the result. -/
def Family.ty : Family → Ty
  | .arithmetic => .int
  | .logical => .bool
  | .comparison => .bool

end BinaryOp

/-- A variable used as a whole. -/
def VarUse.check (scopes : ScopeTable) (v : VarUse) : TypedUse :=
  match scopes.lookup v.name with
  | some (.var _ ty layout) => ⟨{ v with layout := some layout }, ty, []⟩
  | some (.function _ _ _ _) => ⟨v, .int, [⟨v.pos, .notVariable v.name⟩]⟩
  | none => ⟨v, .int, [⟨v.pos, .undefinedVariable v.name⟩]⟩

/-- An array used at an index of the given type. -/
def VarUse.checkIndexed (scopes : ScopeTable) (v : VarUse) (index : Ty) : TypedUse :=
  match scopes.lookup v.name with
  | some (.var _ ty layout) =>
    ⟨{ v with layout := some layout }, .scalar ty.base,
      if ty.isArray then demand (index = .int) v.pos .indexType
      else [⟨v.pos, .notArray v.name⟩]⟩
  | some (.function _ _ _ _) => ⟨v, .int, [⟨v.pos, .notVariable v.name⟩]⟩
  | none => ⟨v, .int, [⟨v.pos, .undefinedArray v.name⟩]⟩

/-- The fault of an assignment between these types, if there is one. -/
def assignmentErrors (pos : Pos) (target value : Ty) : List Diagnostic :=
  if target.base = .void ∨ value.base = .void then [⟨pos, .voidAssigned⟩]
  else demand (!target.isArray && target = value) pos .assignedType

/-- The faults of arguments that stand where parameters of other types do, numbered from `n`. -/
def argumentErrors (pos : Pos) (function : String) :
    Nat → List Param → List Ty → List Diagnostic
  | n, p :: params, t :: args =>
    demand (p.ty = t) pos (.argumentType n function p.ty t) ++
      argumentErrors pos function (n + 1) params args
  | _, _, _ => []

/-- The type of a call, and its faults. A wrong number of arguments hides their types; the routine
that writes a value has a wording of its own for them. -/
def checkCall (scopes : ScopeTable) (pos : Pos) (callee : String) (args : List Ty) :
    Ty × List Diagnostic :=
  match scopes.lookup callee with
  | some (.function name result params _) =>
    (.scalar result,
      if params.length ≠ args.length then [⟨pos, .arity callee params.length args.length⟩]
      else if name = "output" then args.flatMap fun t => demand (t = .int) pos .outputArgument
      else argumentErrors pos callee 1 params args)
  | some (.var _ _ _) => (.int, [⟨pos, .notFunction callee⟩])
  | none => (.int, [⟨pos, .undefinedFunction callee⟩])

mutual

/-- Analyses an expression. -/
def Exp.check (scopes : ScopeTable) : Exp → TypedExp
  | .int p value => ⟨.int p value, .int, []⟩
  | .bool p value => ⟨.bool p value, .bool, []⟩
  | .nil p => ⟨.nil p, .scalar .void, []⟩
  | .unary p _ op operand =>
    let e := operand.check scopes
    ⟨.unary p (some op.ty) op e.exp, op.ty, e.errors ++ demand (e.ty = op.ty) p (.operand op)⟩
  | .binary p _ op lhs rhs =>
    let l := lhs.check scopes
    let r := rhs.check scopes
    ⟨.binary p (some op.family.ty) op l.exp r.exp, op.family.ty,
      l.errors ++ r.errors ++ demand (op.family.accepts l.ty r.ty) p (.operands op.family)⟩
  | .var _ v =>
    let u := v.check scopes
    ⟨.var (some u.ty) u.var, u.ty, u.errors⟩
  | .element _ v index =>
    let i := index.check scopes
    let u := v.checkIndexed scopes i.ty
    ⟨.element (some u.ty) u.var i.exp, u.ty, i.errors ++ u.errors⟩
  | .assign p _ v value =>
    let u := v.check scopes
    let e := value.check scopes
    ⟨.assign p (some u.ty) u.var e.exp, u.ty,
      u.errors ++ e.errors ++ assignmentErrors p u.ty e.ty⟩
  | .assignElement p _ v index value =>
    let i := index.check scopes
    let u := v.checkIndexed scopes i.ty
    let e := value.check scopes
    ⟨.assignElement p (some u.ty) u.var i.exp e.exp, u.ty,
      i.errors ++ u.errors ++ e.errors ++ assignmentErrors p u.ty e.ty⟩
  | .call p _ callee args =>
    let as := Exp.checkAll scopes args
    let c := checkCall scopes p callee (as.map TypedExp.ty)
    ⟨.call p (some c.1) callee (as.map TypedExp.exp), c.1, as.flatMap TypedExp.errors ++ c.2⟩

/-- Analyses expressions from left to right. -/
def Exp.checkAll (scopes : ScopeTable) : List Exp → List TypedExp
  | [] => []
  | e :: rest => e.check scopes :: Exp.checkAll scopes rest

end

end MiniC
