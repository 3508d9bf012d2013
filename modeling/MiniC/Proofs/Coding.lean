import Mathlib.Algebra.Ring.Int.Defs
import Mathlib.Algebra.Ring.Nat
import MiniC.Code.Statement

/-!
# How code is made

The code of a phrase is made from the code of its parts. As a list of instructions it depends on the
address that it starts at alone, and not on the buffer that it is written to; its jumps are in their
places, and no slot is ever free. That the generator writes these lists is said in
`MiniC.Proofs.Patching`.

What each form of phrase adds to its parts is said here once, so that a property of code follows by
induction on how the code was made.

* `Exp.code`, `Stmt.code`, `FunDecl.code`: the code of a phrase at an address
* `Exp.Coded`, `Stmt.Coded`: how it is made, one case for each form
* `Exp.code_eq_ok_iff`, `Stmt.code_eq_ok_iff`: it is made in this way only
* `Exp.induction`, `Stmt.induction`: properties of phrases, case by case
-/

namespace MiniC

/-- Two computations succeed one after the other if both do. This takes apart the code of every
phrase. -/
theorem Except.bind_eq_ok_iff {ε α β : Type} {x : Except ε α} {f : α → Except ε β} {b : β} :
    (x >>= f) = .ok b ↔ ∃ a, x = .ok a ∧ f a = .ok b := by
  cases x with
  | error e => simp [bind, Except.bind]
  | ok a => simp [bind, Except.bind]

/-- A value is returned as it is. -/
theorem Except.pure_eq_ok_iff {ε α : Type} {a b : α} :
    (pure a : Except ε α) = .ok b ↔ a = b := by
  simp [pure, Except.pure]

/-- An answer that is there is not a fault. -/
theorem Except.eq_ok_of_toOption {ε α : Type} {x : Except ε α} {a : α} (h : x.toOption = some a) :
    x = .ok a := by
  cases x with
  | error e => cases h
  | ok b => exact congrArg Except.ok (Option.some.inj h)

/-! ### Numbers that fit their field

A number is checked against its field by comparing with the bounds, and is itself if it is between
them. -/

/-- A number that fits is itself. -/
theorem fit32_eq_ok {n m : Int} (h : fit32 n = .ok m) : m = n ∧ -2 ^ 31 ≤ n ∧ n < 2 ^ 31 := by
  unfold fit32 minInt32 maxInt32 at h
  split at h
  · cases h
    refine ⟨rfl, ?_, ?_⟩ <;> omega
  · cases h

/-- An offset that can be lowered is above the lowest one. -/
theorem lowered_eq_ok {offset m : Int} {n : Nat} (h : lowered offset n = .ok m) :
    m = offset - n ∧ -2 ^ 31 ≤ offset - n :=
  have h' := fit32_eq_ok h
  ⟨h'.1, h'.2.1⟩

/-- The next cell below can be named. -/
theorem lowered_one_eq_ok {offset m : Int} (h : lowered offset 1 = .ok m) :
    m = offset - 1 ∧ lowered offset 1 = .ok (offset - 1) := by
  obtain ⟨rfl, -⟩ := lowered_eq_ok h
  exact ⟨rfl, h⟩

/-! ### Expressions

The code is a function into answers or faults. `Coded` says the same as a relation, with one rule
for each form of expression: it is what inductions are on, and an equation of the function is needed
only here. -/

mutual

/-- The code of an expression at the address `start`, with temporary cells from `offset` down. -/
def Exp.code (k : Linker) (offset : Int) (start : Nat) : Exp → Except CodeFault (List Instr)
  | .int _ value => return [.rm .ldc .ac value .unused "load constant"]
  | .bool _ value => return [.rm .ldc .ac (if value then 1 else 0) .unused "load boolean"]
  | .nil _ => return []
  | .unary _ _ op operand => do
    let e ← operand.code k offset start
    match op with
    | .neg => return e ++ [.rm .ldc .ac1 0 .unused "load 0", .ro .sub .ac .ac1 .ac "negate"]
    | .not => return e ++ truthValue .jeq "not"
  | .binary _ _ op lhs rhs => do
    let l ← lhs.code k offset start
    match op.combination with
    | .shortCircuit jump comment => do
      let slot := start + l.length
      let r ← rhs.code k offset (slot + 1)
      let skip ← Instr.relative jump .ac slot (slot + 1 + r.length) comment
      return l ++ skip :: r
    | .operation operation => do
      let r ← rhs.code k (← lowered offset 1) (start + l.length + 1)
      return l ++ .rm .st .ac offset .fp "op: push left" :: r ++
        [.rm .ld .ac1 offset .fp "op: load left",
         .ro operation .ac .ac1 .ac s!"op {op.symbol}"]
    | .comparison jump => do
      let r ← rhs.code k (← lowered offset 1) (start + l.length + 1)
      return l ++ .rm .st .ac offset .fp "op: push left" :: r ++
        [.rm .ld .ac1 offset .fp "op: load left",
         .ro .sub .ac .ac1 .ac s!"op {op.symbol}"] ++
        truthValue jump op.symbol
  | .var _ v => return [← v.load .ac]
  | .element _ v index => do
    let i ← index.code k offset start
    let a ← v.elementAddress (start + i.length)
    return i ++ a ++ [.rm .ld .ac 0 .ac s!"load {v.name}[]"]
  | .assign _ _ v value => do
    let e ← value.code k offset start
    return e ++ [← v.store]
  | .assignElement _ _ v index value => do
    let i ← index.code k offset start
    let a ← v.elementAddress (start + i.length)
    let e ← value.code k (← lowered offset 1) (start + i.length + a.length + 1)
    return i ++ a ++ .rm .st .ac offset .fp "assign: push address" :: e ++
      [.rm .ld .ac1 offset .fp "assign: load address",
       .rm .st .ac 0 .ac1 s!"assign: store {v.name}[]"]
  | .call _ _ callee args => do
    let a ← Exp.argumentCode k offset start args
    let n := args.length
    let _ ← lowered offset (2 * n + 1)
    let here := start + a.length + 2 * n
    let entry ← k.entry callee here
    let jump ← Instr.relative .lda .pc (here + 3) entry s!"jump to {callee}"
    return a ++ copyArguments offset n ++ callSequence (offset - n) jump

/-- Evaluates arguments from left to right and stores each, from `offset` downwards. -/
def Exp.argumentCode (k : Linker) (offset : Int) (start : Nat) :
    List Exp → Except CodeFault (List Instr)
  | [] => return []
  | e :: rest => do
    let lower ← lowered offset 1
    let first ← e.code k lower start
    let others ← Exp.argumentCode k lower (start + first.length + 1) rest
    return first ++ .rm .st .ac offset .fp "call: store argument" :: others

end

namespace Exp

/-- A property of every expression follows from its cases; that of a call may use the property of
each argument. -/
theorem induction {motive : Exp → Prop}
    (int : ∀ p n, motive (.int p n)) (bool : ∀ p b, motive (.bool p b))
    (nil : ∀ p, motive (.nil p))
    (unary : ∀ p t op e, motive e → motive (.unary p t op e))
    (binary : ∀ p t op l r, motive l → motive r → motive (.binary p t op l r))
    (var : ∀ t v, motive (.var t v))
    (element : ∀ t v i, motive i → motive (.element t v i))
    (assign : ∀ p t v e, motive e → motive (.assign p t v e))
    (assignElement : ∀ p t v i e, motive i → motive e → motive (.assignElement p t v i e))
    (call : ∀ p t f args, (∀ a ∈ args, motive a) → motive (.call p t f args)) (e : Exp) :
    motive e :=
  @Exp.rec motive (fun args => ∀ a ∈ args, motive a) int bool nil unary binary var element assign
    assignElement call (fun _ h => absurd h List.not_mem_nil)
    (fun _ _ hhead htail a ha => by
      rcases List.mem_cons.mp ha with rfl | ha
      · exact hhead
      · exact htail a ha) e

/-- What follows the operand of a unary operator. -/
def unaryTail : UnaryOp → List Instr
  | .neg => [.rm .ldc .ac1 0 .unused "load 0", .ro .sub .ac .ac1 .ac "negate"]
  | .not => truthValue .jeq "not"

/-- How the code of an expression is made, for an address and with temporary cells from an offset
down. A left operand, the address of an element and an argument are put aside in the cell at the
offset, and what is evaluated in the meantime has the cells below it. -/
inductive Coded (k : Linker) : Exp → Int → Nat → List Instr → Prop
  | int {offset : Int} {start : Nat} (p : Pos) (n : Nat) :
      Coded k (.int p n) offset start [.rm .ldc .ac n .unused "load constant"]
  | bool {offset : Int} {start : Nat} (p : Pos) (b : Bool) :
      Coded k (.bool p b) offset start
        [.rm .ldc .ac (if b then 1 else 0) .unused "load boolean"]
  | nil {offset : Int} {start : Nat} (p : Pos) : Coded k (.nil p) offset start []
  | unary {offset : Int} {start : Nat} {p : Pos} {t : Option Ty} {op : UnaryOp} {e : Exp}
      {i : List Instr} (he : e.Coded k offset start i) :
      Coded k (.unary p t op e) offset start (i ++ unaryTail op)
  | shortCircuit {offset : Int} {start : Nat} {p : Pos} {t : Option Ty} {op : BinaryOp} {l r : Exp}
      {jump : Opcode} {comment : String} {i j : List Instr} {skip : Instr}
      (hop : op.combination = .shortCircuit jump comment) (hl : l.Coded k offset start i)
      (hr : r.Coded k offset (start + i.length + 1) j)
      (hskip : Instr.relative jump .ac (start + i.length) (start + i.length + 1 + j.length) comment
        = .ok skip) :
      Coded k (.binary p t op l r) offset start (i ++ skip :: j)
  | operation {offset : Int} {start : Nat} {p : Pos} {t : Option Ty} {op : BinaryOp} {l r : Exp}
      {operation : Opcode} {i j : List Instr} (hop : op.combination = .operation operation)
      (hl : l.Coded k offset start i) (hlower : lowered offset 1 = .ok (offset - 1))
      (hr : r.Coded k (offset - 1) (start + i.length + 1) j) :
      Coded k (.binary p t op l r) offset start
        (i ++ (.rm .st .ac offset .fp "op: push left" :: (j ++
          [.rm .ld .ac1 offset .fp "op: load left",
           .ro operation .ac .ac1 .ac s!"op {op.symbol}"])))
  | comparison {offset : Int} {start : Nat} {p : Pos} {t : Option Ty} {op : BinaryOp} {l r : Exp}
      {jump : Opcode} {i j : List Instr} (hop : op.combination = .comparison jump)
      (hl : l.Coded k offset start i) (hlower : lowered offset 1 = .ok (offset - 1))
      (hr : r.Coded k (offset - 1) (start + i.length + 1) j) :
      Coded k (.binary p t op l r) offset start
        (i ++ (.rm .st .ac offset .fp "op: push left" :: (j ++
          (.rm .ld .ac1 offset .fp "op: load left" ::
           .ro .sub .ac .ac1 .ac s!"op {op.symbol}" :: truthValue jump op.symbol))))
  | var {offset : Int} {start : Nat} {t : Option Ty} {v : VarUse} {load : Instr}
      (hload : v.load .ac = .ok load) : Coded k (.var t v) offset start [load]
  | element {offset : Int} {start : Nat} {t : Option Ty} {v : VarUse} {index : Exp}
      {i a : List Instr} (hi : index.Coded k offset start i)
      (ha : v.elementAddress (start + i.length) = .ok a) :
      Coded k (.element t v index) offset start
        (i ++ (a ++ [.rm .ld .ac 0 .ac s!"load {v.name}[]"]))
  | assign {offset : Int} {start : Nat} {p : Pos} {t : Option Ty} {v : VarUse} {e : Exp}
      {i : List Instr} {store : Instr} (he : e.Coded k offset start i)
        (hstore : v.store = .ok store) :
      Coded k (.assign p t v e) offset start (i ++ [store])
  | assignElement {offset : Int} {start : Nat} {p : Pos} {t : Option Ty} {v : VarUse}
      {index e : Exp} {i a j : List Instr} (hi : index.Coded k offset start i)
      (ha : v.elementAddress (start + i.length) = .ok a)
      (hlower : lowered offset 1 = .ok (offset - 1))
      (he : e.Coded k (offset - 1) (start + i.length + a.length + 1) j) :
      Coded k (.assignElement p t v index e) offset start
        (i ++ (a ++ (.rm .st .ac offset .fp "assign: push address" :: (j ++
          [.rm .ld .ac1 offset .fp "assign: load address",
           .rm .st .ac 0 .ac1 s!"assign: store {v.name}[]"]))))
  | call {offset : Int} {start : Nat} {p : Pos} {t : Option Ty} {f : String} {args : List Exp}
      {a : List Instr} {target : Nat} {jump : Instr}
      (hargs : Exp.argumentCode k offset start args = .ok a)
      (hparts : ∀ b ∈ args, ∀ {offset start is}, b.code k offset start = .ok is →
        b.Coded k offset start is)
      (hlower : lowered offset (2 * args.length + 1) = .ok (offset - (2 * args.length + 1 : Nat)))
      (htarget : k.entry f (start + a.length + 2 * args.length) = .ok target)
      (hjump : Instr.relative .lda .pc (start + a.length + 2 * args.length + 3) target
        s!"jump to {f}" = .ok jump) :
      Coded k (.call p t f args) offset start
        (a ++ (copyArguments offset args.length ++ callSequence (offset - args.length) jump))

variable {k : Linker} {offset : Int} {start : Nat} {is : List Instr}

/-- No arguments have no code. -/
theorem argumentCode_nil (h : argumentCode k offset start [] = .ok is) : is = [] := by
  simp only [argumentCode, Except.pure_eq_ok_iff] at h
  exact h.symm

/-- The first argument is stored at the offset, and the others below it. -/
theorem argumentCode_cons {e : Exp} {rest : List Exp}
    (h : argumentCode k offset start (e :: rest) = .ok is) :
    ∃ i j, lowered offset 1 = .ok (offset - 1) ∧ e.code k (offset - 1) start = .ok i ∧
      argumentCode k (offset - 1) (start + i.length + 1) rest = .ok j ∧
      is = i ++ .rm .st .ac offset .fp "call: store argument" :: j := by
  simp only [argumentCode, Except.bind_eq_ok_iff, Except.pure_eq_ok_iff] at h
  obtain ⟨lower, hlower, i, hi, j, hj, rfl⟩ := h
  obtain ⟨rfl, hlower⟩ := lowered_one_eq_ok hlower
  exact ⟨i, j, hlower, hi, hj, rfl⟩

/-- Code that is returned is made by one of the rules. By induction on the expression. -/
theorem coded {e : Exp} (h : e.code k offset start = .ok is) : e.Coded k offset start is := by
  induction e using Exp.induction generalizing offset start is with
  | int p n =>
    cases h
    exact .int p n
  | bool p b =>
    cases h
    exact .bool p b
  | nil p =>
    cases h
    exact .nil p
  | unary p t op e ih =>
    simp only [Exp.code, Except.bind_eq_ok_iff] at h
    obtain ⟨i, hi, hrest⟩ := h
    cases op with
    | neg =>
      rw [← Except.pure_eq_ok_iff.mp hrest]
      exact .unary (ih hi)
    | not =>
      rw [← Except.pure_eq_ok_iff.mp hrest]
      exact .unary (ih hi)
  | binary p t op l r ihl ihr =>
    simp only [Exp.code, Except.bind_eq_ok_iff] at h
    obtain ⟨i, hi, hrest⟩ := h
    cases hop : op.combination with
    | shortCircuit jump comment =>
      simp only [hop, Except.bind_eq_ok_iff, Except.pure_eq_ok_iff] at hrest
      obtain ⟨j, hj, skip, hskip, rfl⟩ := hrest
      exact .shortCircuit hop (ihl hi) (ihr hj) hskip
    | operation operation =>
      simp only [hop, Except.bind_eq_ok_iff, Except.pure_eq_ok_iff] at hrest
      obtain ⟨lower, hlower, j, hj, rfl⟩ := hrest
      -- the left operand waits one cell further down
      obtain ⟨rfl, hlower⟩ := lowered_one_eq_ok hlower
      simpa only [List.append_assoc, List.cons_append] using
        Coded.operation hop (ihl hi) hlower (ihr hj)
    | comparison jump =>
      simp only [hop, Except.bind_eq_ok_iff, Except.pure_eq_ok_iff] at hrest
      obtain ⟨lower, hlower, j, hj, rfl⟩ := hrest
      obtain ⟨rfl, hlower⟩ := lowered_one_eq_ok hlower
      simpa only [List.append_assoc, List.cons_append, List.nil_append] using
        Coded.comparison hop (ihl hi) hlower (ihr hj)
  | var t v =>
    simp only [Exp.code, Except.bind_eq_ok_iff, Except.pure_eq_ok_iff] at h
    obtain ⟨load, hload, rfl⟩ := h
    exact .var hload
  | element t v index ih =>
    simp only [Exp.code, Except.bind_eq_ok_iff, Except.pure_eq_ok_iff] at h
    obtain ⟨i, hi, a, ha, rfl⟩ := h
    rw [List.append_assoc]
    exact .element (ih hi) ha
  | assign p t v e ih =>
    simp only [Exp.code, Except.bind_eq_ok_iff, Except.pure_eq_ok_iff] at h
    obtain ⟨i, hi, store, hstore, rfl⟩ := h
    exact .assign (ih hi) hstore
  | assignElement p t v index e ihi ihe =>
    simp only [Exp.code, Except.bind_eq_ok_iff, Except.pure_eq_ok_iff] at h
    obtain ⟨i, hi, a, ha, lower, hlower, j, hj, rfl⟩ := h
    obtain ⟨rfl, hlower⟩ := lowered_one_eq_ok hlower
    simpa only [List.append_assoc, List.cons_append] using
      Coded.assignElement (ihi hi) ha hlower (ihe hj)
  | call p t f args ih =>
    simp only [Exp.code, Except.bind_eq_ok_iff, Except.pure_eq_ok_iff] at h
    obtain ⟨a, ha, lower, hlower, target, htarget, jump, hjump, rfl⟩ := h
    obtain ⟨rfl, -⟩ := lowered_eq_ok hlower
    rw [List.append_assoc]
    exact .call ha (fun b hb _ _ _ => ih b hb) hlower htarget hjump

/-- Code that is made by a rule is returned. By induction on how it is made. -/
theorem Coded.code_eq {e : Exp} (h : e.Coded k offset start is) :
    e.code k offset start = .ok is := by
  induction h with
  | int p n => rfl
  | bool p b => rfl
  | nil p => rfl
  | @unary offset start p t op e i he ih =>
    rw [Exp.code, ih]
    cases op with
    | neg => rfl
    | not => rfl
  | shortCircuit hop hl hr hskip ihl ihr =>
    simp only [Exp.code, ihl, hop, Except.bind_eq_ok_iff, Except.pure_eq_ok_iff]
    exact ⟨_, rfl, _, ihr, _, hskip, rfl⟩
  | operation hop hl hlower hr ihl ihr =>
    simp only [Exp.code, ihl, hop, Except.bind_eq_ok_iff, Except.pure_eq_ok_iff]
    exact ⟨_, rfl, _, hlower, _, ihr, by simp⟩
  | comparison hop hl hlower hr ihl ihr =>
    simp only [Exp.code, ihl, hop, Except.bind_eq_ok_iff, Except.pure_eq_ok_iff]
    exact ⟨_, rfl, _, hlower, _, ihr, by simp⟩
  | var hload =>
    rw [Exp.code, hload]
    rfl
  | element hi ha ih =>
    simp only [Exp.code, Except.bind_eq_ok_iff, Except.pure_eq_ok_iff]
    exact ⟨_, ih, _, ha, List.append_assoc _ _ _⟩
  | assign he hstore ih =>
    rw [Exp.code, ih, hstore]
    rfl
  | assignElement hi ha hlower he ihi ihe =>
    simp only [Exp.code, Except.bind_eq_ok_iff, Except.pure_eq_ok_iff]
    exact ⟨_, ihi, _, ha, _, hlower, _, ihe, by simp⟩
  | call hargs hparts hlower htarget hjump ih =>
    simp only [Exp.code, Except.bind_eq_ok_iff, Except.pure_eq_ok_iff]
    exact ⟨_, hargs, _, hlower, _, htarget, _, hjump, List.append_assoc _ _ _⟩

/-- Code is made in this way, and in no other. -/
theorem code_eq_ok_iff {e : Exp} : e.code k offset start = .ok is ↔ e.Coded k offset start is :=
  ⟨coded, Coded.code_eq⟩

end Exp

/-- Two instructions copy an argument to its parameter cell. -/
theorem length_copyArguments (offset : Int) (n : Nat) :
    (copyArguments offset n).length = 2 * n := by
  simp [copyArguments, List.length_flatMap, List.map_const', Nat.mul_comm]

/-! ### Statements

The rules of statements take the code of their parts at their addresses, and give the jumps the
displacements that these have. -/

mutual

/-- The code of a statement at the address `start`, with temporary cells from `offset` down. -/
def Stmt.code (k : Linker) (offset : Int) (start : Nat) : Stmt → Except CodeFault (List Instr)
  | .exp _ e => e.code k offset start
  | .block _ decls body => do
    let lengths := decls.flatMap (VarDecl.lengthCode · .fp)
    return lengths ++ (← Stmt.codeAll k offset (start + lengths.length) body)
  | .ifThen _ test thenBranch => do
    let t ← test.code k offset start
    let slot := start + t.length
    let a ← thenBranch.code k offset (slot + 1)
    let skip ← Instr.relative .jeq .ac slot (slot + 1 + a.length) "if: jump to end"
    return t ++ skip :: a
  | .ifElse _ test thenBranch elseBranch => do
    let t ← test.code k offset start
    let slot := start + t.length
    let a ← thenBranch.code k offset (slot + 1)
    let exit := slot + 1 + a.length
    let toElse ← Instr.relative .jeq .ac slot (exit + 1) "if: jump to else"
    let b ← elseBranch.code k offset (exit + 1)
    let toEnd ← Instr.relative .lda .pc exit (exit + 1 + b.length) "if: jump to end"
    return t ++ toElse :: a ++ toEnd :: b
  | .whileDo _ test body => do
    let t ← test.code k offset start
    let slot := start + t.length
    let b ← body.code k offset (slot + 1)
    let back := slot + 1 + b.length
    let repeatTest ← Instr.relative .lda .pc back start "while: jump back to test"
    let skip ← Instr.relative .jeq .ac slot (back + 1) "while: jump to end"
    return t ++ skip :: b ++ [repeatTest]
  | .ret _ none => return [returnInstr]
  | .ret _ (some value) => return (← value.code k offset start) ++ [returnInstr]

/-- The code of statements in order. -/
def Stmt.codeAll (k : Linker) (offset : Int) (start : Nat) :
    List Stmt → Except CodeFault (List Instr)
  | [] => return []
  | s :: rest => do
    let first ← s.code k offset start
    return first ++ (← Stmt.codeAll k offset (start + first.length) rest)

end

/-- The code of a function body. -/
def Block.code (k : Linker) (offset : Int) (start : Nat) (b : Block) :
    Except CodeFault (List Instr) :=
  (Stmt.block b.pos b.decls b.stmts).code k offset start

/-- The code of a function at its address. -/
def FunDecl.code (k : Linker) (start : Nat) (f : FunDecl) (body : Block) :
    Except CodeFault (List Instr) := do
  let b ← body.code k f.frameEnd (start + 1)
  return .rm .st .ac returnOffset .fp s!"{f.name}: store return" :: b ++ [returnInstr]

namespace Stmt

/-- A property of every statement follows from its cases; that of a block may use the property of
each statement in it. -/
theorem induction {motive : Stmt → Prop}
    (exp : ∀ p e, motive (.exp p e))
    (block : ∀ p ds body, (∀ s ∈ body, motive s) → motive (.block p ds body))
    (ifThen : ∀ p t a, motive a → motive (.ifThen p t a))
    (ifElse : ∀ p t a b, motive a → motive b → motive (.ifElse p t a b))
    (whileDo : ∀ p t b, motive b → motive (.whileDo p t b))
    (ret : ∀ p v, motive (.ret p v)) (s : Stmt) : motive s :=
  @Stmt.rec motive (fun body => ∀ s ∈ body, motive s) exp block ifThen ifElse whileDo ret
    (fun _ h => absurd h List.not_mem_nil)
    (fun _ _ hhead htail a ha => by
      rcases List.mem_cons.mp ha with rfl | ha
      · exact hhead
      · exact htail a ha) s

/-- How the code of a statement is made. All expressions in it have the same temporary cells. -/
inductive Coded (k : Linker) (offset : Int) : Stmt → Nat → List Instr → Prop
  | exp {start : Nat} {p : Pos} {e : Exp} {is : List Instr} (he : e.code k offset start = .ok is) :
      Coded k offset (.exp p e) start is
  | block {start : Nat} {p : Pos} {decls : List VarDecl} {body : List Stmt} {j : List Instr}
      (hbody : Stmt.codeAll k offset (start +
        (decls.flatMap (VarDecl.lengthCode · .fp)).length) body
        = .ok j)
      (hparts : ∀ s ∈ body, ∀ {start is}, s.code k offset start = .ok is →
        s.Coded k offset start is) :
      Coded k offset (.block p decls body) start (decls.flatMap (VarDecl.lengthCode · .fp) ++ j)
  | ifThen {start : Nat} {p : Pos} {t : Exp} {a : Stmt} {i j : List Instr} {skip : Instr}
      (ht : t.code k offset start = .ok i) (ha : a.Coded k offset (start + i.length + 1) j)
      (hskip : Instr.relative .jeq .ac (start + i.length) (start + i.length + 1 + j.length)
        "if: jump to end" = .ok skip) :
      Coded k offset (.ifThen p t a) start (i ++ skip :: j)
  | ifElse {start : Nat} {p : Pos} {t : Exp} {a b : Stmt} {i j l : List Instr}
      {toElse toEnd : Instr} (ht : t.code k offset start = .ok i)
      (ha : a.Coded k offset (start + i.length + 1) j)
      (hElse : Instr.relative .jeq .ac (start + i.length) (start + i.length + 1 + j.length + 1)
        "if: jump to else" = .ok toElse)
      (hb : b.Coded k offset (start + i.length + 1 + j.length + 1) l)
      (hEnd : Instr.relative .lda .pc (start + i.length + 1 + j.length)
        (start + i.length + 1 + j.length + 1 + l.length) "if: jump to end" = .ok toEnd) :
      Coded k offset (.ifElse p t a b) start (i ++ (toElse :: (j ++ toEnd :: l)))
  | whileDo {start : Nat} {p : Pos} {t : Exp} {b : Stmt} {i j : List Instr} {skip back : Instr}
      (ht : t.code k offset start = .ok i) (hb : b.Coded k offset (start + i.length + 1) j)
      (hback : Instr.relative .lda .pc (start + i.length + 1 + j.length) start
        "while: jump back to test" = .ok back)
      (hskip : Instr.relative .jeq .ac (start + i.length) (start + i.length + 1 + j.length + 1)
        "while: jump to end" = .ok skip) :
      Coded k offset (.whileDo p t b) start (i ++ (skip :: (j ++ [back])))
  | retNone {start : Nat} (p : Pos) : Coded k offset (.ret p none) start [returnInstr]
  | retSome {start : Nat} {p : Pos} {e : Exp} {i : List Instr}
      (he : e.code k offset start = .ok i) :
      Coded k offset (.ret p (some e)) start (i ++ [returnInstr])

variable {k : Linker} {offset : Int} {start : Nat} {is : List Instr}

/-- No statements have no code. -/
theorem codeAll_nil (h : codeAll k offset start [] = .ok is) : is = [] := by
  simp only [codeAll, Except.pure_eq_ok_iff] at h
  exact h.symm

/-- Statements have their code one behind the other. -/
theorem codeAll_cons {s : Stmt} {rest : List Stmt}
    (h : codeAll k offset start (s :: rest) = .ok is) :
    ∃ i j, s.code k offset start = .ok i ∧
      codeAll k offset (start + i.length) rest = .ok j ∧ is = i ++ j := by
  simp only [codeAll, Except.bind_eq_ok_iff, Except.pure_eq_ok_iff] at h
  obtain ⟨i, hi, j, hj, rfl⟩ := h
  exact ⟨i, j, hi, hj, rfl⟩

/-- Code of a statement that is returned is made by one of the rules, as in `Exp.coded`. -/
theorem coded {s : Stmt} (h : s.code k offset start = .ok is) : s.Coded k offset start is := by
  induction s using Stmt.induction generalizing start is with
  | exp p e => exact .exp h
  | block p ds body ih =>
    simp only [Stmt.code, Except.bind_eq_ok_iff, Except.pure_eq_ok_iff] at h
    obtain ⟨j, hj, rfl⟩ := h
    exact .block hj fun s hs _ _ => ih s hs
  | ifThen p t a ih =>
    simp only [Stmt.code, Except.bind_eq_ok_iff, Except.pure_eq_ok_iff] at h
    obtain ⟨i, hi, j, hj, skip, hskip, rfl⟩ := h
    exact .ifThen hi (ih hj) hskip
  | ifElse p t a b iha ihb =>
    simp only [Stmt.code, Except.bind_eq_ok_iff, Except.pure_eq_ok_iff] at h
    obtain ⟨i, hi, j, hj, toElse, hElse, l, hl, toEnd, hEnd, rfl⟩ := h
    simpa only [List.append_assoc, List.cons_append] using
      Coded.ifElse hi (iha hj) hElse (ihb hl) hEnd
  | whileDo p t b ih =>
    simp only [Stmt.code, Except.bind_eq_ok_iff, Except.pure_eq_ok_iff] at h
    obtain ⟨i, hi, j, hj, back, hback, skip, hskip, rfl⟩ := h
    simpa only [List.append_assoc, List.cons_append] using Coded.whileDo hi (ih hj) hback hskip
  | ret p v =>
    cases v with
    | none =>
      cases h
      exact .retNone p
    | some e =>
      simp only [Stmt.code, Except.bind_eq_ok_iff, Except.pure_eq_ok_iff] at h
      obtain ⟨i, hi, rfl⟩ := h
      exact .retSome hi

/-- Code of a statement that is made by a rule is returned, as in `Exp.Coded.code_eq`. -/
theorem Coded.code_eq {s : Stmt} (h : s.Coded k offset start is) :
    s.code k offset start = .ok is := by
  induction h with
  | exp he => exact he
  | block hbody hparts ih =>
    rw [Stmt.code, hbody]
    rfl
  | ifThen ht ha hskip ih =>
    simp only [Stmt.code, Except.bind_eq_ok_iff, Except.pure_eq_ok_iff]
    exact ⟨_, ht, _, ih, _, hskip, rfl⟩
  | ifElse ht ha hElse hb hEnd iha ihb =>
    simp only [Stmt.code, Except.bind_eq_ok_iff, Except.pure_eq_ok_iff]
    exact ⟨_, ht, _, iha, _, hElse, _, ihb, _, hEnd, by simp⟩
  | whileDo ht hb hback hskip ih =>
    simp only [Stmt.code, Except.bind_eq_ok_iff, Except.pure_eq_ok_iff]
    exact ⟨_, ht, _, ih, _, hback, _, hskip, by simp⟩
  | retNone p => rfl
  | retSome he =>
    rw [Stmt.code, he]
    rfl

/-- For statements, the rules and the function say the same. -/
theorem code_eq_ok_iff {s : Stmt} : s.code k offset start = .ok is ↔ s.Coded k offset start is :=
  ⟨coded, Coded.code_eq⟩

end Stmt

end MiniC
