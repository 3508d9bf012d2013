import Mathlib.Algebra.Ring.Int.Defs
import Mathlib.Algebra.Ring.Nat
import MiniC.Machine
import MiniC.Syntax

/-!
# The meaning of programs

A program is evaluated on its tree, without storage and without code. A name stands for an object,
which is found in an environment that lists the innermost declarations first. An object is a cell
for one word, or an array of such cells. The cells of global variables hold zero at first, all
others hold nothing until they are assigned.

Words are 64-bit numbers: sums, differences and products wrap around, and quotients are rounded
towards zero. An evaluation stops when it divides by zero, when an index is out of bounds, and when
there is no input left. It also stops where its result would not be that of the machine: when
something without a value is read, and when a number leaves the range of `InRange`.

* `Eval`: computations that read, write, make objects and may stop
* `Exp.eval`, `Stmt.exec`: the meaning of expressions and statements
* `Program.evaluate`: the meaning of a program for a list of inputs
-/

namespace MiniC

/-! ### Values and objects

A value is a word or the identity of an array; an expression without a value has nothing. -/

/-- What an expression evaluates to. -/
inductive Value where
  | word (w : Word)
  /-- The name of an array stands for the object with this number. -/
  | array (id : Nat)
  /-- What is left by a function without a result, or one that reached its end. -/
  | nothing
deriving DecidableEq, Repr

/-- What a name stands for; a cell that has not been assigned holds no word. -/
inductive Object where
  | cell (content : Option Word)
  | array (cells : List (Option Word))
deriving DecidableEq, Repr

/-- The objects made so far, by number, and the words still to be read. -/
structure World where
  objects : List Object
  input : List Word
deriving DecidableEq, Repr

/-- Why an evaluation stops before its end. -/
inductive Stop where
  /-- An index is out of bounds. -/
  | bounds (fault : BoundsFault)
  | zeroDivide
  | noInput
  /-- Something is read that has no value. -/
  | undefined
  /-- A number is out of range. -/
  | tooLarge
  /-- Calls are nested too deeply, or a loop is repeated too often. -/
  | exhausted
deriving DecidableEq, Repr

/-! ### Computations

A computation takes a world and gives an ending with the words that were written on the way. The
laws of a monad hold, so computations can be regrouped to follow the code. -/

/-- How a computation ends. -/
inductive Ending (α : Type) where
  | done (a : α) (w : World)
  | stopped (why : Stop)

/-- The words that a computation writes, and how it ends. -/
structure Result (α : Type) where
  outputs : List Word
  ending : Ending α

/-- Whether the evaluation came to an end that the machine can be compared with. -/
def Result.settled {α : Type} (r : Result α) : Bool :=
  match r.ending with
  | .done _ _ => true
  | .stopped (.bounds _) => true
  | .stopped .zeroDivide => true
  | .stopped .noInput => true
  | .stopped _ => false

/-- A computation. -/
def Eval (α : Type) : Type :=
  World → Result α

namespace Eval

variable {α β : Type}

/-- A computation followed by another one. -/
protected def bind (x : Eval α) (f : α → Eval β) : Eval β := fun w =>
  match x w with
  | ⟨outputs, .stopped why⟩ => ⟨outputs, .stopped why⟩
  | ⟨outputs, .done a w⟩ =>
    match f a w with
    | ⟨more, ending⟩ => ⟨outputs ++ more, ending⟩

instance : Monad Eval where
  pure a := fun w => ⟨[], .done a w⟩
  bind := Eval.bind

theorem pure_apply (a : α) (w : World) : (pure a : Eval α) w = ⟨[], .done a w⟩ :=
  rfl

theorem bind_done {x : Eval α} {w w' : World} {outputs : List Word} {a : α}
    (h : x w = ⟨outputs, .done a w'⟩) (f : α → Eval β) :
    (x >>= f) w = ⟨outputs ++ (f a w').outputs, (f a w').ending⟩ := by
  show Eval.bind x f w = _
  simp only [Eval.bind, h]

theorem bind_stopped {x : Eval α} {w : World} {outputs : List Word} {why : Stop}
    (h : x w = ⟨outputs, .stopped why⟩) (f : α → Eval β) :
    (x >>= f) w = ⟨outputs, .stopped why⟩ := by
  show Eval.bind x f w = _
  simp only [Eval.bind, h]

theorem map_id (x : Eval α) : id <$> x = x := by
  funext w
  show (x >>= pure ∘ id) w = x w
  cases hx : x w with
  | mk outputs ending =>
    cases ending with
    | stopped why => rw [bind_stopped hx]
    | done a w' =>
      rw [bind_done hx]
      simp only [Function.comp_apply, id_eq, pure_apply, List.append_nil]

theorem bind_of_pure (a : α) (f : α → Eval β) : pure a >>= f = f a := by
  funext w
  rw [bind_done (pure_apply a w)]
  simp only [List.nil_append]

theorem bind_bind {γ : Type} (x : Eval α) (f : α → Eval β) (g : β → Eval γ) :
    x >>= f >>= g = x >>= fun a => f a >>= g := by
  funext w
  cases hx : x w with
  | mk outputs ending =>
    cases ending with
    | stopped why => rw [bind_stopped hx, bind_stopped (bind_stopped hx f)]
    | done a w' =>
      rw [bind_done hx]
      cases hf : f a w' with
      | mk more ending =>
        cases ending with
        | stopped why => rw [bind_stopped hf, bind_stopped (by rw [bind_done hx, hf])]
        | done b w'' =>
          rw [bind_done hf, bind_done (a := b) (by rw [bind_done hx, hf]), List.append_assoc]

instance : LawfulMonad Eval :=
  LawfulMonad.mk' Eval map_id bind_of_pure bind_bind

/-- Ends the evaluation. -/
def stop (why : Stop) : Eval α := fun _ =>
  ⟨[], .stopped why⟩

/-- Takes the next word of the input. -/
def read : Eval Word := fun w =>
  match w.input with
  | [] => ⟨[], .stopped .noInput⟩
  | a :: rest => ⟨[], .done a { w with input := rest }⟩

/-- Writes a word. -/
def write (a : Word) : Eval Unit := fun w =>
  ⟨[a], .done () w⟩

/-- Makes an object, whose number is new. -/
def make (o : Object) : Eval Nat := fun w =>
  ⟨[], .done w.objects.length { w with objects := w.objects ++ [o] }⟩

/-- The object with a number. -/
def find (id : Nat) : Eval Object := fun w =>
  match w.objects[id]? with
  | some o => ⟨[], .done o w⟩
  | none => ⟨[], .stopped .undefined⟩

/-- Puts another object in the place of the one with a number. -/
def replace (id : Nat) (o : Object) : Eval Unit := fun w =>
  ⟨[], .done () { w with objects := w.objects.set id o }⟩

end Eval

/-! ### Words

Operations are those of the machine on 64-bit numbers. `InRange` excludes the words for which a
later step of the machine would have no answer. -/

/-- The numbers that can be read and computed. -/
def InRange (a : Word) : Prop :=
  -2 ^ 61 ≤ a.toInt ∧ a.toInt < 2 ^ 61

instance (a : Word) : Decidable (InRange a) :=
  inferInstanceAs (Decidable (_ ∧ _))

/-- A number that was read or computed. -/
def checked (a : Word) : Eval Value :=
  if InRange a then pure (.word a) else Eval.stop .tooLarge

/-- Truth values are one and zero. -/
def truth (b : Bool) : Value :=
  .word (if b then 1 else 0)

/-- The word of a value that is used as one. -/
def Value.asWord : Value → Eval Word
  | .word a => pure a
  | _ => Eval.stop .undefined

/-- A value that is passed on. -/
def Value.present : Value → Eval Value
  | .nothing => Eval.stop .undefined
  | v => pure v

/-- The result of an operator for both operands. The logical operators give the second one, since
the first has not decided. -/
def BinaryOp.apply (op : BinaryOp) (a b : Word) : Eval Value :=
  match op with
  | .add => checked (a + b)
  | .sub => checked (a - b)
  | .mul => checked (a * b)
  | .div => if b = 0 then Eval.stop .zeroDivide else checked (a / b)
  | .less => pure (truth (a < b))
  | .greater => pure (truth (b < a))
  | .lessEqual => pure (truth (a ≤ b))
  | .greaterEqual => pure (truth (b ≤ a))
  | .equal => pure (truth (a = b))
  | .notEqual => pure (truth (a ≠ b))
  | .and | .or => pure (.word b)

/-- Whether the first operand decides the result alone. -/
def BinaryOp.decides (op : BinaryOp) (a : Word) : Bool :=
  match op with
  | .and => a = 0
  | .or => a ≠ 0
  | _ => false

/-! ### Names

An environment lists names with the innermost declaration first, so the first entry of a name
counts. -/

/-- The names in use, the innermost first, with the numbers of their objects. A parameter for an
array that was never passed has none. -/
abbrev Env := List (String × Option Nat)

/-- The number of the object that a name stands for. -/
def Env.get (env : Env) (x : String) : Eval Nat :=
  match env.lookup x with
  | some (some id) => pure id
  | _ => Eval.stop .undefined

namespace Object

/-- The value of a name that stands for the object. -/
def value (id : Nat) : Object → Eval Value
  | .cell (some a) => pure (.word a)
  | .cell none => Eval.stop .undefined
  | .array _ => pure (.array id)

/-- The place of an element, whose index is checked against both bounds. -/
def place (index : Word) : Object → Eval Nat
  | .array cells =>
    if index.toInt < 0 then Eval.stop (.bounds .lower)
    else if cells.length ≤ index.toInt then Eval.stop (.bounds .upper)
    else pure index.toInt.toNat
  | .cell _ => Eval.stop .undefined

/-- The value of an element. -/
def element (i : Nat) : Object → Eval Value
  | .array cells =>
    match cells[i]? with
    | some (some a) => pure (.word a)
    | _ => Eval.stop .undefined
  | .cell _ => Eval.stop .undefined

/-- The object after an assignment to an element. -/
def assign (i : Nat) (a : Word) : Object → Object
  | .array cells => .array (cells.set i (some a))
  | .cell content => .cell content

end Object

/-- Adds a name for a new object, whose cells hold `content`. A reference to an array is left
without one. -/
def Env.declare (env : Env) (content : Option Word) (d : VarDecl) : Eval Env :=
  match d.shape with
  | .scalar => do
    let id ← Eval.make (.cell content)
    return (d.name, some id) :: env
  | .array size => do
    let id ← Eval.make (.array (List.replicate size content))
    return (d.name, some id) :: env
  | .reference => return (d.name, none) :: env

/-- Adds names in order. -/
def Env.declareAll (content : Option Word) : Env → List VarDecl → Eval Env
  | env, [] => return env
  | env, d :: rest => do
    let env ← env.declare content d
    env.declareAll content rest

/-- Adds a parameter: a word is copied, an array is not. -/
def Env.bind (env : Env) (d : VarDecl) : Value → Eval Env
  | .word a => do
    let id ← Eval.make (.cell (some a))
    return (d.name, some id) :: env
  | .array id => return (d.name, some id) :: env
  | .nothing => Eval.stop .undefined

/-- Adds parameters in order; those to which nothing is passed are left without a value. -/
def Env.bindAll : Env → List VarDecl → List Value → Eval Env
  | env, [], _ => return env
  | env, d :: rest, [] => do
    let env ← env.declare none d
    env.bindAll rest []
  | env, d :: rest, v :: values => do
    let env ← env.bind d v
    env.bindAll rest values

/-! ### Expressions and statements

By recursion on the tree. The meaning of calls is a parameter, and loops are repeated as often as a
limit allows. -/

/-- What the calls of functions with some arguments do. -/
abbrev Callees := String → List Value → Eval Value

mutual

/-- The meaning of an expression. Operands and arguments are evaluated from left to right. -/
def Exp.eval (call : Callees) (env : Env) : Exp → Eval Value
  | .int _ n => if n < 2 ^ 61 then return .word (Int64.ofInt n) else Eval.stop .tooLarge
  | .bool _ b => return truth b
  | .nil _ => return .nothing
  | .unary _ _ .neg operand => do
    let v ← operand.eval call env
    let a ← v.asWord
    checked (-a)
  | .unary _ _ .not operand => do
    let v ← operand.eval call env
    let a ← v.asWord
    return truth (a = 0)
  | .binary _ _ op lhs rhs => do
    let l ← lhs.eval call env
    let a ← l.asWord
    if op.decides a then return .word a
    else do
      let r ← rhs.eval call env
      let b ← r.asWord
      op.apply a b
  | .var _ v => do
    let id ← env.get v.name
    let o ← Eval.find id
    o.value id
  | .element _ v index => do
    let i ← index.eval call env
    let i ← i.asWord
    let id ← env.get v.name
    let o ← Eval.find id
    let place ← o.place i
    o.element place
  | .assign _ _ v value => do
    let r ← value.eval call env
    let a ← r.asWord
    let id ← env.get v.name
    Eval.replace id (.cell (some a))
    return .word a
  | .assignElement _ _ v index value => do
    let i ← index.eval call env
    let i ← i.asWord
    let id ← env.get v.name
    let o ← Eval.find id
    let place ← o.place i
    let r ← value.eval call env
    let a ← r.asWord
    let o ← Eval.find id
    Eval.replace id (o.assign place a)
    return .word a
  | .call _ _ callee args => do
    let values ← Exp.evalAll call env args
    call callee values

/-- The values of arguments. -/
def Exp.evalAll (call : Callees) (env : Env) : List Exp → Eval (List Value)
  | [] => return []
  | e :: rest => do
    let v ← e.eval call env
    let v ← v.present
    let values ← Exp.evalAll call env rest
    return v :: values

end

/-- An operator that is never decided by its left operand is applied to both. -/
theorem Exp.eval_binary {op : BinaryOp} (h : ∀ a, op.decides a = false) (call : Callees) (env : Env)
    (p : Pos) (t : Option Ty) (l r : Exp) :
    (Exp.binary p t op l r).eval call env =
      (do
        let l ← l.eval call env
        let a ← l.asWord
        let r ← r.eval call env
        let b ← r.asWord
        op.apply a b) := by
  simp only [Exp.eval, h, Bool.false_eq_true, if_false]

/-- A test succeeds on every number but zero. -/
def Exp.test (call : Callees) (env : Env) (e : Exp) : Eval Bool := do
  let v ← e.eval call env
  let a ← v.asWord
  return a ≠ 0

/-- How a statement leaves. -/
inductive Flow where
  | next
  | returned (v : Value)

/-- A loop of at most `limit` rounds. -/
def repeatWhile (test : Eval Bool) (body : Eval Flow) : Nat → Eval Flow
  | 0 => Eval.stop .exhausted
  | limit + 1 => do
    let go ← test
    if go then
      let flow ← body
      match flow with
      | .next => repeatWhile test body limit
      | .returned v => return .returned v
    else return .next

mutual

/-- The meaning of a statement. A block makes new objects each time it is entered. -/
def Stmt.exec (call : Callees) (limit : Nat) (env : Env) : Stmt → Eval Flow
  | .exp _ e => do
    let _ ← e.eval call env
    return .next
  | .block _ decls body => do
    let env ← env.declareAll none decls
    Stmt.execAll call limit env body
  | .ifThen _ test thenBranch => do
    let go ← test.test call env
    if go then thenBranch.exec call limit env else return .next
  | .ifElse _ test thenBranch elseBranch => do
    let go ← test.test call env
    if go then thenBranch.exec call limit env else elseBranch.exec call limit env
  | .whileDo _ test body => repeatWhile (test.test call env) (body.exec call limit env) limit
  | .ret _ none => return .returned .nothing
  | .ret _ (some value) => do
    let v ← value.eval call env
    let a ← v.asWord
    return .returned (.word a)

/-- Statements in order, up to one that returns. -/
def Stmt.execAll (call : Callees) (limit : Nat) (env : Env) : List Stmt → Eval Flow
  | [] => return .next
  | s :: rest => do
    let flow ← s.exec call limit env
    match flow with
    | .next => Stmt.execAll call limit env rest
    | .returned v => return .returned v

end

/-! ### Programs

Calls are evaluated to a given depth of nesting, each by evaluating the body with one less. -/

/-- What a function returns; one that reached its end returns nothing. -/
def Flow.result : Flow → Value
  | .next => .nothing
  | .returned v => v

/-- The variable declared by a declaration, if it declares one. -/
def Decl.variable? : Decl → Option VarDecl
  | .var d => some d
  | .function _ => none

/-- The function that a declaration gives a body, if it has this name. -/
def Decl.defines? (name : String) : Decl → Option (FunDecl × Block)
  | .var _ => none
  | .function f => if f.name = name then f.body.map fun body => (f, body) else none

namespace Program

/-- The global variables in order. -/
def globals (p : Program) : List VarDecl :=
  p.decls.filterMap Decl.variable?

/-- The meaning of a call, in which calls are nested at most `depth` deep and loops have at most
`limit` rounds. A function sees the global variables and its parameters. -/
def call (p : Program) (names : Env) (limit : Nat) : Nat → Callees
  | 0, _, _ => Eval.stop .exhausted
  | depth + 1, callee, values =>
    if callee = "input" then do
      let a ← Eval.read
      checked a
    else if callee = "output" then do
      let a ← (values.headD .nothing).asWord
      Eval.write a
      return .nothing
    else
      match p.decls.findSome? (Decl.defines? callee) with
      | none => Eval.stop .undefined
      | some (f, body) => do
        let env ← names.bindAll f.params values
        let flow ← (Stmt.block body.pos body.decls body.stmts).exec
          (p.call names limit depth) limit env
        return flow.result

/-- The meaning of a program: the global variables are made, and `main` is called, to which nothing
is passed. -/
def main (p : Program) (limit depth : Nat) : Eval Value := do
  let names ← Env.declareAll (some 0) [] p.globals
  p.call names limit depth "main" []

/-- What a program does with a list of inputs. -/
def evaluate (p : Program) (limit depth : Nat) (input : List Word) : Result Value :=
  p.main limit depth ⟨[], input⟩

end Program

end MiniC
