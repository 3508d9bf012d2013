import MiniC.Proofs.Linking
import MiniC.Proofs.Stepping

/-!
# Watching a run

What a run means in terms of the program: which functions are active, which arrays exist, and which
array a name stands for. A watcher follows the run beside the machine. It knows what each
instruction is there for from the tree of the program, and never looks at the memory.

* `Program.marks`: what each instruction of a program is there for
* `Shadow`: the active calls and the existing arrays
* `Watched.after`: the machine and the watcher after a number of steps
* `ArraysIntact`, `StackIntact`, `Orderly`: what holds of generated code before every step
-/

namespace MiniC

/-! ### What instructions are there for

The marks are read off the tree alone, in a list beside the code with one entry for each
instruction. They follow the definitions of the code case by case. -/

/-- What an instruction is there for. -/
inductive Mark where
  /-- Code outside of functions. -/
  | outside
  /-- The store of the return address at the start of a function. -/
  | entry
  /-- Code of a function with nothing special about it. -/
  | body
  /-- The store that puts the value of an argument aside. -/
  | aside
  /-- The store of the length of a local array. -/
  | declare (size : Nat)
  /-- The store of the length of a global array. -/
  | declareGlobal (size : Nat)
  /-- The access to an element of an array, behind the check of the index. -/
  | access (array : VarUse)
  /-- Part of a call, when the frame base is already that of the called function. -/
  | calling
  /-- The jump of a call; the arrays among the arguments are named. -/
  | call (arrays : List (Option VarUse))
  /-- The end of a call, when the frame base is still that of the called function. -/
  | resume
  /-- The return from a function. -/
  | leave

/-- Whether the instruction belongs to a function whose frame is set up. -/
def Mark.inside : Mark → Bool
  | .body | .aside | .declare _ | .access _ | .leave => true
  | _ => false

/-- Whether the watcher takes note of the instruction. -/
def Mark.watched : Mark → Bool
  | .declare _ | .declareGlobal _ | .call _ | .leave => true
  | _ => false

/-- The array that an argument names, if it names one. -/
def Exp.arrayName : Exp → Option VarUse
  | .var (some ty) v => if ty.isArray then some v else none
  | _ => none

/-- The marks of a call sequence. -/
def callMarks (arrays : List (Option VarUse)) : List Mark :=
  [.body, .body, .calling, .call arrays, .resume]

mutual

/-- What the instructions of an analysed expression are there for. -/
def Exp.marks : Exp → List Mark
  | .int _ _ => [.body]
  | .bool _ _ => [.body]
  | .nil _ => []
  | .unary _ _ .neg e => e.marks ++ List.replicate 2 .body
  | .unary _ _ .not e => e.marks ++ List.replicate 4 .body
  | .binary _ _ op l r =>
    match op.combination with
    | .shortCircuit _ _ => l.marks ++ (.body :: r.marks)
    | .operation _ => l.marks ++ (.body :: (r.marks ++ List.replicate 2 .body))
    | .comparison _ => l.marks ++ (.body :: (r.marks ++ List.replicate 6 .body))
  | .var _ _ => [.body]
  | .element _ v i => i.marks ++ (List.replicate 8 .body ++ [.access v])
  | .assign _ _ _ e => e.marks ++ [.body]
  | .assignElement _ _ v i e =>
    i.marks ++ (List.replicate 8 .body ++ (.body :: (e.marks ++ [.body, .access v])))
  | .call _ _ _ args =>
    Exp.argumentMarks args ++
      (List.replicate (2 * args.length) .body ++ callMarks (args.map Exp.arrayName))

/-- What the instructions that evaluate and store arguments are there for. -/
def Exp.argumentMarks : List Exp → List Mark
  | [] => []
  | e :: rest => e.marks ++ (.aside :: Exp.argumentMarks rest)

end

/-- What the instructions of a placed declaration are there for. -/
def VarDecl.marks (d : VarDecl) (constant : Mark) (store : Nat → Mark) : List Mark :=
  match d.layout, d.shape with
  | some ⟨_, _, .array⟩, .array size => [constant, store size]
  | _, _ => []

mutual

/-- What the instructions of an analysed statement are there for. -/
def Stmt.marks : Stmt → List Mark
  | .exp _ e => e.marks
  | .block _ decls body => decls.flatMap (VarDecl.marks · .body .declare) ++ Stmt.marksAll body
  | .ifThen _ t a => t.marks ++ (.body :: a.marks)
  | .ifElse _ t a b => t.marks ++ (.body :: (a.marks ++ (.body :: b.marks)))
  | .whileDo _ t b => t.marks ++ (.body :: (b.marks ++ [.body]))
  | .ret _ none => [.leave]
  | .ret _ (some e) => e.marks ++ [.leave]

/-- What the instructions of analysed statements in order are there for. -/
def Stmt.marksAll : List Stmt → List Mark
  | [] => []
  | s :: rest => s.marks ++ Stmt.marksAll rest

end

/-- What the instructions of an analysed declaration are there for. -/
def Decl.marks : Decl → List Mark
  | .var d => d.marks .outside .declareGlobal
  | .function f =>
    match f.body with
    | none => []
    | some body =>
      .outside :: .entry :: ((Stmt.block body.pos body.decls body.stmts).marks ++ [.leave])

/-- What the fixed instructions at the start of a program are there for. -/
def fixedMarks : List Mark :=
  List.replicate 4 .outside ++ [.entry, .body, .leave] ++ [.entry, .body, .body, .leave] ++
    List.replicate 10 .outside

/-- What the instructions that call `main` are there for. -/
def finaleMarks : List Mark :=
  [.outside, .outside, .outside, .call [], .resume, .outside]

/-- What the instructions of an analysed program are there for. -/
def Program.marks (p : Program) : List Mark :=
  fixedMarks ++ (p.decls.flatMap Decl.marks ++ finaleMarks)

/-! ### The watcher

It keeps a stack of the active calls and the arrays that exist, and changes them where a mark says
so: at declarations of arrays, at calls and at returns. -/

/-- An array in memory: the address of its length cell and its declared size. The elements lie
above the length cell. -/
structure Extent where
  base : Int
  size : Nat
deriving DecidableEq, Repr

/-- A cell of an element of the array. -/
def Extent.Element (e : Extent) (x : Int) : Prop :=
  e.base < x ∧ x ≤ e.base + e.size

/-- An active call. -/
structure Activation where
  /-- The frame base. -/
  base : Int
  /-- The address of the instruction behind the jump that made the call. -/
  ret : Nat
  /-- The arrays passed to parameters, by the offset of the parameter. -/
  references : List (Int × Extent)
  /-- The arrays of the function whose declarations have been executed. -/
  arrays : List Extent

/-- What the watcher knows: the global arrays whose declarations have been executed, and the active
calls, the latest first. -/
structure Shadow where
  globals : List Extent
  stack : List Activation

namespace Shadow

/-- All arrays that exist. -/
def live (g : Shadow) : List Extent :=
  g.globals ++ g.stack.flatMap Activation.arrays

/-- The array that a name stands for in the latest call; a parameter stands for the array that was
passed to it. -/
def denote (g : Shadow) (gp : Int) (v : VarUse) : Option Extent :=
  match v.layout, g.stack with
  | some l, a :: _ =>
    match l.storage with
    | .scalar => none
    | .array =>
      if l.isGlobal then g.globals.find? fun e => e.base = gp + l.offset
      else a.arrays.find? fun e => e.base = a.base + l.offset
    | .arrayRef => a.references.lookup l.offset
  | _, _ => none

/-- The arrays passed by arguments to the parameters from `offset` downwards. -/
def passed (g : Shadow) (gp : Int) (offset : Int) : List (Option VarUse) → List (Int × Extent)
  | [] => []
  | v :: rest =>
    match v.bind (g.denote gp) with
    | some e => (offset, e) :: g.passed gp (offset - 1) rest
    | none => g.passed gp (offset - 1) rest

/-- A local array comes into existence, or exists already. -/
def declare (g : Shadow) (e : Extent) : Shadow :=
  match g.stack with
  | [] => g
  | a :: rest => { g with stack := { a with arrays := a.arrays.insert e } :: rest }

/-- The instruction declares an existing array again: a global one, or one of the running
function. -/
def Redeclares (g : Shadow) (mk : Mark) (e : Extent) : Prop :=
  (mk = .declareGlobal e.size ∧ e ∈ g.globals) ∨
    (mk = .declare e.size ∧ ∃ a ∈ g.stack.head?, e ∈ a.arrays)

/-- The base of the frame below a list of calls, which is that of the global cells at the end. -/
def callerBase (gp : Int) : List Activation → Int
  | [] => gp
  | a :: _ => a.base

end Shadow

namespace Machine

/-- The instruction that is executed next. -/
def current (code : Array Instr) (m : Machine) : Option Instr :=
  fetch code (m.reg .pc).toInt

/-- The cell that the next instruction stores to. -/
def stored? (code : Array Instr) (m : Machine) : Option Int :=
  match m.current code with
  | some (.rm .st _ d s _) => some (d + (m.reg s).toInt)
  | _ => none

/-- The cell that the next instruction accesses through an accumulator, the length cells apart:
those are loaded into the second accumulator. -/
def accessed? (code : Array Instr) (m : Machine) : Option Int :=
  match m.current code with
  | some (.rm .st _ d s _) => if s = .ac ∨ s = .ac1 then some (d + (m.reg s).toInt) else none
  | some (.rm .ld r d s _) =>
    if r = .ac ∧ (s = .ac ∨ s = .ac1) then some (d + (m.reg s).toInt) else none
  | _ => none

/-- What the next instruction is there for. -/
def mark (marks : List Mark) (m : Machine) : Option Mark :=
  marks[(m.reg .pc).toInt.toNat]?

end Machine

/-- The watcher after the machine has executed its next instruction. -/
def Shadow.step (code : Array Instr) (marks : List Mark) (m : Machine) (g : Shadow) : Shadow :=
  match m.mark marks with
  | some (.declare size) => g.declare ⟨(m.stored? code).getD 0, size⟩
  | some (.declareGlobal size) =>
    { g with globals := g.globals.insert ⟨(m.stored? code).getD 0, size⟩ }
  | some (.call arrays) =>
    { g with stack := ⟨(m.reg .fp).toInt, (m.reg .pc).toInt.toNat + 1,
        g.passed (m.reg .gp).toInt firstParamOffset arrays, []⟩ :: g.stack }
  | some .leave => { g with stack := g.stack.tail }
  | _ => g

/-- A machine with its device and the watcher beside it. -/
structure Watched (σ : Type) where
  machine : Machine
  io : σ
  shadow : Shadow

namespace Watched

/-- A new machine, before which nothing has happened. -/
def start {σ : Type} (memory : Nat) (io : σ) : Watched σ :=
  ⟨Machine.init memory, io, ⟨[], []⟩⟩

/-- The state after one instruction, unless the machine has stopped. -/
def next {σ : Type} (code : Array Instr) (marks : List Mark) (device : Device σ) (w : Watched σ) :
    Option (Watched σ) :=
  let result := Machine.step code device w.machine w.io
  match result.stopped with
  | some _ => none
  | none => some ⟨result.machine, result.io, w.shadow.step code marks w.machine⟩

/-- The state after `n` instructions, unless the machine has stopped before. -/
def after {σ : Type} (code : Array Instr) (marks : List Mark) (device : Device σ) :
    Nat → Watched σ → Option (Watched σ)
  | 0, w => some w
  | n + 1, w => (w.next code marks device).bind (after code marks device n)

/-- The watcher changes nothing: a run that has not stopped is in the watched state. -/
theorem after_eq_some {σ : Type} {code : Array Instr} {marks : List Mark} {device : Device σ}
    {n : Nat} {w w' : Watched σ} (h : w.after code marks device n = some w') :
    Machine.runFor code device n w.machine w.io = ⟨none, w'.machine, w'.io⟩ := by
  induction n generalizing w with
  | zero =>
    cases h
    rfl
  | succ n ih =>
    obtain ⟨w₁, hnext, hafter⟩ := Option.bind_eq_some_iff.mp h
    simp only [next] at hnext
    split at hnext
    · cases hnext
    · rename_i hgo
      cases hnext
      simp only [Machine.runFor, hgo]
      exact ih hafter

end Watched

/-! ### What holds before every step

The properties are stated of a machine with the watcher beside it. Those of arrays and of the stack
say what the next instruction may do, and `Orderly` how it may end the run. -/

section Properties

variable {σ : Type} (code : Array Instr) (marks : List Mark) (device : Device σ)

/-- How an instruction may end a run: the addresses that instructions name are in range, except
that the unused address of a constant may overflow. -/
inductive Orderly (w : Watched σ) : Option Outcome → Prop where
  | goesOn : Orderly w none
  | halted : Orderly w (some .halted)
  | zeroDivide (site : Nat) : Orderly w (some (.failed (.zeroDivide site)))
  | stackOverflow (site : Nat) : Orderly w (some (.failed (.stackOverflow site)))
  | read (e : MachineError) (h : (device.read w.io).1 = .error e) : Orderly w (some (.failed e))
  | write (e : MachineError) (v : Word) (h : (device.write v w.io).1 = .error e) :
      Orderly w (some (.failed e))
  | overflow (r s : Reg) (d : Int) (t : String)
      (h : w.machine.current code = some (.rm .ldc r d s t)) : Orderly w (some .addressOverflow)

/-- Arrays keep their lengths, and accesses to elements stay inside the array that is named. -/
structure ArraysIntact (w : Watched σ) : Prop where
  /-- The length cell of an array holds its declared size. -/
  lengths : ∀ e ∈ w.shadow.live, w.machine.memory.read e.base = Int64.ofInt e.size
  /-- A length cell is stored to by the declaration of the array alone. -/
  declared : ∀ e ∈ w.shadow.live, w.machine.stored? code = some e.base →
    ∃ mk, w.machine.mark marks = some mk ∧ w.shadow.Redeclares mk e
  /-- An access through an accumulator reaches an element of the array that is named there. -/
  accesses : ∀ x, w.machine.accessed? code = some x → bodyStart ≤ (w.machine.reg .pc).toInt →
    ∃ v e, w.machine.mark marks = some (.access v) ∧
      w.shadow.denote (w.machine.reg .gp).toInt v = some e ∧ e ∈ w.shadow.live ∧ e.Element x

/-- The calls are chained by their frames: each frame holds the return address of its call, and
below it the base of the frame of the caller. The first frame lies at `start`. -/
def Chained (mem : Memory) (gp start : Int) : List Activation → Prop
  | [] => True
  | a :: rest =>
    mem.read a.base = Int64.ofInt a.ret ∧
    mem.read (a.base - 1) = Int64.ofInt (Shadow.callerBase gp rest) ∧
    (match rest with
      | [] => a.base = start
      | b :: _ => a.base < b.base) ∧
    Chained mem gp start rest

/-- The calls whose return address has been stored. -/
def Watched.settled (w : Watched σ) : List Activation :=
  match w.machine.mark marks with
  | some .entry => w.shadow.stack.tail
  | _ => w.shadow.stack

/-- A cell that nothing may store to: one that holds a return address or a saved frame base, or one
in the frame of a call that waits for another, unless it is an element of an array. -/
def Watched.Protected (w : Watched σ) (x : Int) : Prop :=
  (∃ a ∈ w.settled marks, x = a.base ∨ x = a.base - 1) ∨
  ((∃ a ∈ w.shadow.stack.head?, a.base < x) ∧ (∃ a ∈ w.shadow.stack.tail, x ≤ a.base) ∧
    ¬∃ e ∈ w.shadow.live, e.Element x)

/-- The frames of the active calls are in order, and returns lead back to the calls. The global
cells lie below `top`, and the frame of `main` below the global cells at `top + globalsEnd`. -/
structure StackIntact (top globalsEnd : Int) (w : Watched σ) : Prop where
  /-- Inside a function the frames are chained, and the latest is that of the running function. -/
  frames : ∀ mk, w.machine.mark marks = some mk → mk.inside = true →
    w.machine.reg .gp = Int64.ofInt top ∧
    Chained w.machine.memory top (top + globalsEnd) w.shadow.stack ∧
    ∃ a rest, w.shadow.stack = a :: rest ∧ w.machine.reg .fp = Int64.ofInt a.base ∧ 0 < a.base
  /-- A return goes on behind the jump that made the call. -/
  leaves : ∀ d t, w.machine.current code = some (.rm .ld .pc d .fp t) →
    ∃ a rest, w.shadow.stack = a :: rest ∧ marks[a.ret]? = some .resume ∧
      (Machine.step code device w.machine w.io).stopped = none ∧
      (Machine.step code device w.machine w.io).machine.reg .pc = Int64.ofInt a.ret
  /-- The end of a call restores the frame base of the caller. -/
  resumes : ∀ d t, w.machine.current code = some (.rm .ld .fp d .fp t) →
    (Machine.step code device w.machine w.io).stopped = none ∧
    (Machine.step code device w.machine w.io).machine.reg .fp
      = Int64.ofInt (Shadow.callerBase top w.shadow.stack)
  /-- Nothing stores to a protected cell. -/
  stores : ∀ x, w.machine.stored? code = some x → ¬w.Protected marks x

end Properties

end MiniC
