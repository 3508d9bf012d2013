import MiniC.Proofs.Steps

/-!
# A careful machine

The words and the cells of a machine are finite in number. A sum may be no word, an index may name
no element, and there is no quotient by zero. The careful machine does what the machine does, one
operation after the other, and stops at the first that has no result, with the registers and the
memory that it has then. There is one kind of operation only that ever has none: the sum that gives
an instruction its address.

* `Careful`: computations that stop at an operation without a result
* `Careful.step_of_isWord`, `Careful.step_of_not_isWord`: a step of the careful machine
* `Careful.run_of_not_overflows`, `Careful.run_of_overflows`: a run of it
-/

namespace MiniC

/-- An operation that has no result. -/
inductive Undefined where
  /-- The sum of two numbers, where it is no word. -/
  | sum (a b : Int)
  /-- The element at an index that is not below the number of elements. -/
  | element (index size : Nat)
  /-- The quotient of a word and zero. -/
  | quotient (a : Word)
deriving DecidableEq, Repr

/-- A computation on a machine and its device that stops at an operation without a result. -/
def Careful (σ α : Type) : Type :=
  Machine × σ → Except Undefined α × (Machine × σ)

namespace Careful

variable {σ α β : Type}

instance : Monad (Careful σ) where
  pure a s := (.ok a, s)
  bind x f s :=
    match x s with
    | (.ok a, s) => f a s
    | (.error u, s) => (.error u, s)

/-- A value is returned as it is. -/
@[simp] theorem pure_apply (a : α) (s : Machine × σ) : (pure a : Careful σ α) s = (.ok a, s) := rfl

/-- An operation without a result ends the computation. -/
@[simp] theorem bind_apply (x : Careful σ α) (f : α → Careful σ β) (s : Machine × σ) :
    (x >>= f) s =
      match x s with
      | (.ok a, s) => f a s
      | (.error u, s) => (.error u, s) := rfl

/-! ### Operations

These are the operations that have no result on some arguments: each stops there. An operation that
wraps around has a result always, and needs no care. -/

/-- The sum of two numbers, as a word. -/
def sum (a b : Int) : Careful σ Word := fun s =>
  if Core.IsWord (a + b) then (.ok (Int64.ofInt (a + b)), s) else (.error (.sum a b), s)

/-- The quotient of two words. -/
def quotient (a b : Word) : Careful σ Word := fun s =>
  if b = 0 then (.error (.quotient a), s) else (.ok (a / b), s)

/-- The instruction at an index. -/
def instruction (code : Array Instr) (index : Nat) : Careful σ Instr := fun s =>
  match code[index]? with
  | some i => (.ok i, s)
  | none => (.error (.element index code.size), s)

/-- The machine. -/
def machine : Careful σ Machine := fun s => (.ok s.1, s)

/-- The register with a number. -/
def register (index : Nat) : Careful σ Word := fun s =>
  if h : index < 8 then (.ok (s.1.reg ⟨index, h⟩), s) else (.error (.element index 8), s)

/-- Gives the register with a number a value. -/
def setRegister (index : Nat) (w : Word) : Careful σ Unit := fun s =>
  if h : index < 8 then (.ok (), s.1.setReg ⟨index, h⟩ w, s.2) else (.error (.element index 8), s)

/-- The word of a cell. -/
def cell (index : Nat) : Careful σ Word := fun s =>
  if index < s.1.memory.size then (.ok (s.1.memory.get index), s)
  else (.error (.element index s.1.memory.size), s)

/-- Gives a cell a word. -/
def setCell (index : Nat) (w : Word) : Careful σ Unit := fun s =>
  if index < s.1.memory.size then (.ok (), s.1.setCell index w, s.2)
  else (.error (.element index s.1.memory.size), s)

/-- Reads a word from the device. -/
def read (device : Device σ) : Careful σ (Except MachineError Word) := fun s =>
  (.ok (device.read s.2).1, s.1, (device.read s.2).2)

/-- Writes a word to the device. -/
def write (device : Device σ) (w : Word) : Careful σ (Except MachineError Unit) := fun s =>
  (.ok (device.write w s.2).1, s.1, (device.write w s.2).2)

/-! ### The machine

The same machine as `Machine.step`, instruction by instruction, with the operations above in place
of those that always have a result. -/

/-- Executes a register-only instruction, one operation after the other. -/
def stepRo (device : Device σ) (site : Nat) (op : Opcode) (r s t : Nat) :
    Careful σ (Option Outcome) := do
  let a ← register s
  let b ← register t
  match op with
  | .halt => return some .halted
  | .read =>
    match ← read device with
    | .ok w =>
      setRegister r w
      return none
    | .error e => return some (.failed e)
  | .write =>
    match ← write device (← register r) with
    | .ok _ => return none
    | .error e => return some (.failed e)
  | .add =>
    setRegister r (a + b)
    return none
  | .sub =>
    setRegister r (a - b)
    return none
  | .mul =>
    setRegister r (a * b)
    return none
  | .div =>
    if b = 0 then
      return some (.failed (.zeroDivide site))
    setRegister r (← quotient a b)
    return none
  | _ => return some (.failed (.malformed site))

/-- Executes a register-memory instruction, one operation after the other. -/
def stepRm (site : Nat) (op : Opcode) (r : Nat) (d : Int) (s : Reg) :
    Careful σ (Option Outcome) := do
  let address ← sum d (← register s).toInt
  let value ← register r
  match op with
  | .ld =>
    match (← machine).cell s address.toInt site with
    | .ok a =>
      setRegister r (← cell a)
      return none
    | .error e => return some (.failed e)
  | .lda =>
    setRegister r address
    return none
  | .ldc =>
    setRegister r (Int64.ofInt d)
    return none
  | .st =>
    match (← machine).cell s address.toInt site with
    | .ok a =>
      setCell a value
      return none
    | .error e => return some (.failed e)
  | op =>
    match Machine.jumps? op value with
    | some true =>
      setRegister Reg.pc address
      return none
    | some false => return none
    | none => return some (.failed (.malformed site))

/-- Executes the instruction that the program counter names, one operation after the other. -/
def step (code : Array Instr) (device : Device σ) : Careful σ (Option Outcome) := do
  let counter ← register Reg.pc
  if counter < 0 ∨ code.size ≤ counter.toInt.toNat then
    return some (.failed (.instructionAddress counter.toInt))
  setRegister Reg.pc (← sum counter.toInt 1)
  match ← instruction code counter.toInt.toNat with
  | .ro op r s t _ => stepRo device counter.toInt.toNat op r s t
  | .rm op r d s _ => stepRm counter.toInt.toNat op r d s

/-- Executes at most `steps` instructions. -/
def runFor (code : Array Instr) (device : Device σ) : Nat → Careful σ (Option Outcome)
  | 0 => return none
  | steps + 1 => do
    match ← step code device with
    | some o => return some o
    | none => runFor code device steps

/-- Runs until the machine stops, or comes to an operation without a result. -/
def run (code : Array Instr) (device : Device σ) (limit : Nat) : Careful σ Outcome := do
  return (← runFor code device limit).getD (.failed (.stepLimit limit))

/-! ### Operations that have a result

What each operation does where it has a result. Registers and devices always have one, since there
are only eight registers and a device always answers. -/

section Results

variable {m : Machine} {io : σ}

/-- Every register can be read. -/
@[simp] theorem register_apply (r : Reg) (s : Machine × σ) :
    (register r : Careful σ Word) s = (.ok (s.1.reg r), s) :=
  dif_pos r.isLt

/-- Every register can be written. -/
@[simp] theorem setRegister_apply (r : Reg) (w : Word) (s : Machine × σ) :
    (setRegister r w : Careful σ Unit) s = (.ok (), s.1.setReg r w, s.2) :=
  dif_pos r.isLt

/-- The machine can be looked at. -/
@[simp] theorem machine_apply (s : Machine × σ) : (machine : Careful σ Machine) s = (.ok s.1, s) :=
  rfl

/-- A device answers. -/
@[simp] theorem read_apply (device : Device σ) (s : Machine × σ) :
    read device s = (.ok (device.read s.2).1, s.1, (device.read s.2).2) := rfl

/-- A device takes a word, or reports that it does not. -/
@[simp] theorem write_apply (device : Device σ) (w : Word) (s : Machine × σ) :
    write device w s = (.ok (device.write w s.2).1, s.1, (device.write w s.2).2) := rfl

/-- A sum that is a word has a result. -/
theorem sum_of_isWord {a b : Int} (h : Core.IsWord (a + b)) (s : Machine × σ) :
    (sum a b : Careful σ Word) s = (.ok (Int64.ofInt (a + b)), s) :=
  if_pos h

/-- A sum that is no word has none. -/
theorem sum_of_not_isWord {a b : Int} (h : ¬Core.IsWord (a + b)) (s : Machine × σ) :
    (sum a b : Careful σ Word) s = (.error (.sum a b), s) :=
  if_neg h

/-- A quotient has a result unless the divisor is zero. -/
theorem quotient_of_ne_zero {a b : Word} (h : b ≠ 0) (s : Machine × σ) :
    (quotient a b : Careful σ Word) s = (.ok (a / b), s) :=
  if_neg h

/-- An address at which the machine lets an instruction access the memory is that of a cell. -/
theorem lt_size_of_cell_eq_ok {base : Reg} {address : Int} {site a : Nat}
    (h : m.cell base address site = .ok a) : a < m.memory.size := by
  unfold Machine.cell at h
  split at h
  · cases h
  · split at h <;> cases h
    omega

/-- A cell of the memory can be read. -/
theorem cell_apply {a : Nat} (h : a < m.memory.size) :
    (cell a : Careful σ Word) (m, io) = (.ok (m.memory.get a), m, io) :=
  if_pos h

/-- A cell of the memory can be written. -/
theorem setCell_apply {a : Nat} (h : a < m.memory.size) (w : Word) :
    (setCell a w : Careful σ Unit) (m, io) = (.ok (), m.setCell a w, io) :=
  if_pos h

end Results

/-! ### Instructions

The careful machine and the machine of the model do the same in an instruction on registers, and in
one on memory if its address is a word. -/

/-- The result of a step, if all its operations have one. -/
def completed (r : Machine.StepResult σ) : Except Undefined (Option Outcome) × (Machine × σ) :=
  (.ok r.stopped, r.machine, r.io)

section Instructions

variable {m : Machine} {io : σ} {code : Array Instr} {device : Device σ}

/-- All operations of an instruction on registers have a result, division included: the machine
looks at the divisor before. -/
theorem stepRo_eq (site : Nat) (op : Opcode) (r s t : Reg) :
    stepRo device site op r s t (m, io) = completed (Machine.stepRo device m io site op r s t) := by
  cases op with
  | read =>
    simp only [stepRo, Machine.stepRo, bind_apply, register_apply, read_apply]
    generalize device.read io = x
    obtain ⟨a, io'⟩ := x
    cases a with
    | ok w => simp [completed]
    | error e => rfl
  | write =>
    simp only [stepRo, Machine.stepRo, bind_apply, register_apply, write_apply]
    generalize device.write (m.reg r) io = x
    obtain ⟨a, io'⟩ := x
    cases a <;> rfl
  | div =>
    simp only [stepRo, Machine.stepRo, bind_apply, register_apply]
    by_cases hzero : m.reg t = 0
    · simp [hzero, completed]
    · simp [hzero, quotient_of_ne_zero hzero, completed]
  | _ => simp [stepRo, Machine.stepRo, completed]

/-- An instruction on memory whose address is a word. What it accesses is a cell, because the
machine has looked at the address before. -/
theorem stepRm_of_isWord {d : Int} {s : Reg} (h : Core.IsWord (d + (m.reg s).toInt)) (site : Nat)
    (op : Opcode) (r : Reg) :
    stepRm site op r d s (m, io) = completed (Machine.stepRm m io site op r d s) := by
  have hrange : Machine.minWord ≤ d + (m.reg s).toInt ∧ d + (m.reg s).toInt ≤ Machine.maxWord := h
  simp only [stepRm, Machine.stepRm, bind_apply, register_apply, sum_of_isWord h, if_pos hrange]
  cases op with
  | ld =>
    simp only [bind_apply, machine_apply, Core.toInt_ofInt_of_isWord h]
    cases hcell : m.cell s (d + (m.reg s).toInt) site with
    | ok a =>
      simp only [bind_apply, cell_apply (lt_size_of_cell_eq_ok hcell), setRegister_apply]
      rfl
    | error e => rfl
  | st =>
    simp only [bind_apply, machine_apply, Core.toInt_ofInt_of_isWord h]
    cases hcell : m.cell s (d + (m.reg s).toInt) site with
    | ok a =>
      simp only [bind_apply, setCell_apply (lt_size_of_cell_eq_ok hcell)]
      rfl
    | error e => rfl
  | lda | ldc =>
    simp only [bind_apply, setRegister_apply]
    rfl
  | _ =>
    -- the jumps, and the operations that belong to the other form
    dsimp only
    cases Machine.jumps? _ (m.reg r) with
    | none => rfl
    | some taken =>
      cases taken with
      | false => rfl
      | true =>
        simp only [bind_apply, setRegister_apply]
        rfl

/-- An instruction on memory whose address is no word. -/
theorem stepRm_of_not_isWord {d : Int} {s : Reg} (h : ¬Core.IsWord (d + (m.reg s).toInt))
    (site : Nat) (op : Opcode) (r : Reg) :
    stepRm site op r d s (m, io) = (.error (.sum d (m.reg s).toInt), m, io) := by
  simp [stepRm, sum_of_not_isWord h]

/-- An instruction that there is can be reached, and the program counter can move on from it. -/
theorem step_of_current (hsize : code.size < 2 ^ 63) {i : Instr} (hi : m.current code = some i) :
    step code device (m, io) =
      (match i with
        | .ro op r s t _ => stepRo device (m.reg .pc).toInt.toNat op r s t
        | .rm op r d s _ => stepRm (m.reg .pc).toInt.toNat op r d s) (m.advanced, io) := by
  obtain ⟨hpos, hget⟩ := Machine.current_eq_some_iff.mp hi
  have hlt := (Array.getElem?_eq_some_iff.mp hget).1
  -- the check of the program counter lets just these addresses pass
  have hinside : ¬(m.reg .pc < 0 ∨ code.size ≤ (m.reg .pc).toInt.toNat) := by
    rw [Int64.lt_iff_toInt_lt]
    show ¬((m.reg .pc).toInt < 0 ∨ _)
    omega
  simp only [step, bind_apply, register_apply, if_neg hinside,
    sum_of_isWord (Machine.isWord_next hsize hi), setRegister_apply, instruction, hget]
  rfl

/-- There is a result of each operation of a step, unless the sum that gives an instruction its
address is no word. -/
theorem step_of_isWord (hsize : code.size < 2 ^ 63)
    (h : ∀ a b, m.Adds code a b → Core.IsWord (a + b)) :
    step code device (m, io) = completed (Machine.step code device m io) := by
  cases hi : m.current code with
  | none =>
    have hout := Machine.current_eq_none_iff.mp hi
    have houtside : m.reg .pc < 0 ∨ code.size ≤ (m.reg .pc).toInt.toNat := by
      rw [Int64.lt_iff_toInt_lt]
      show (m.reg .pc).toInt < 0 ∨ _
      omega
    rw [Machine.step_of_current_none hi]
    simp only [step, bind_apply, register_apply, if_pos houtside]
    rfl
  | some i =>
    rw [step_of_current hsize hi]
    cases i with
    | ro op r s t c =>
      rw [Machine.step_ro_eq hi]
      exact stepRo_eq ..
    | rm op r d s c =>
      rw [Machine.step_rm_eq hi]
      exact stepRm_of_isWord (h d _ ⟨op, r, s, c, hi, rfl⟩) ..

/-- Where that sum is no word, the program counter has moved on and nothing else has happened. -/
theorem step_of_not_isWord (hsize : code.size < 2 ^ 63) {a b : Int} (hadds : m.Adds code a b)
    (h : ¬Core.IsWord (a + b)) :
    step code device (m, io) = (.error (.sum a b), m.advanced, io) := by
  obtain ⟨op, r, s, c, hi, rfl⟩ := hadds
  rw [step_of_current hsize hi]
  exact stepRm_of_not_isWord h ..

end Instructions

/-! ### Runs

By induction on the number of steps. -/

section Runs

variable {m : Machine} {io : σ} {code : Array Instr} {device : Device σ} {n : Nat} {a b : Int}

/-- A run that forms no sum outside the range of a word is a run of the machine. -/
theorem runFor_of_not_overflows (hsize : code.size < 2 ^ 63)
    (h : ∀ a b, ¬Machine.Overflows code device n m io a b) :
    runFor code device n (m, io) = completed (Machine.runFor code device n m io) ∧
      (Machine.runFor code device n m io).stopped ≠ some .addressOverflow := by
  induction n generalizing m io with
  | zero => exact ⟨rfl, nofun⟩
  | succ n ih =>
    -- the first instruction of the run is one of those that form no such sum
    have hword : ∀ a b, m.Adds code a b → Core.IsWord (a + b) := by
      intro a b hadds
      by_contra hword
      exact h a b (Machine.overflows_succ_iff.mpr (.inl ⟨hadds, hword⟩))
    have hstep : step code device (m, io) = completed (Machine.step code device m io) :=
      step_of_isWord hsize hword
    simp only [runFor, Machine.runFor, bind_apply, hstep, completed]
    cases hstop : (Machine.step code device m io).stopped with
    | some o =>
      simp only [hstop]
      exact ⟨rfl, hstop ▸ Machine.stopped_ne_of_isWord hword⟩
    | none =>
      exact ih fun a b hrest => h a b (Machine.overflows_succ_iff.mpr (.inr ⟨hstop, hrest⟩))

/-- A run that forms one stops there. -/
theorem runFor_of_overflows (hsize : code.size < 2 ^ 63)
    (h : Machine.Overflows code device n m io a b) :
    runFor code device n (m, io) = (.error (.sum a b), (Machine.runFor code device n m io).machine,
        (Machine.runFor code device n m io).io) ∧
      (Machine.runFor code device n m io).stopped = some .addressOverflow := by
  induction n generalizing m io with
  | zero =>
    obtain ⟨k, hk, -⟩ := h
    exact absurd hk (Nat.not_lt_zero k)
  | succ n ih =>
    rcases Machine.overflows_succ_iff.mp h with ⟨hadds, hword⟩ | ⟨hstop, hrest⟩
    · have hcareful : step code device (m, io) = (.error (.sum a b), m.advanced, io) :=
        step_of_not_isWord hsize hadds hword
      have hstep : Machine.step code device m io = ⟨some .addressOverflow, m.advanced, io⟩ :=
        Machine.step_of_not_isWord hadds hword
      simp only [runFor, Machine.runFor, bind_apply, hcareful, hstep]
      exact ⟨trivial, trivial⟩
    · -- a machine that goes on has formed no such sum
      have hword : ∀ a b, m.Adds code a b → Core.IsWord (a + b) := by
        intro a b hadds
        by_contra hword
        rw [Machine.step_of_not_isWord hadds hword] at hstop
        cases hstop
      have hcareful : step code device (m, io) = completed (Machine.step code device m io) :=
        step_of_isWord hsize hword
      simp only [runFor, Machine.runFor, bind_apply, hcareful, completed, hstop]
      exact ih hrest

/-- If no address of a run is beyond the words, the careful machine runs the same. -/
theorem run_of_not_overflows (hsize : code.size < 2 ^ 63)
    (h : ∀ a b, ¬Machine.Overflows code device n m io a b) :
    run code device n (m, io) = (.ok (Machine.run code device n m io).outcome,
        (Machine.run code device n m io).machine, (Machine.run code device n m io).io) ∧
      (Machine.run code device n m io).outcome ≠ .addressOverflow := by
  obtain ⟨hrun, hne⟩ := runFor_of_not_overflows hsize h
  constructor
  · simp only [run, bind_apply, hrun]
    rfl
  · show (Machine.runFor code device n m io).stopped.getD _ ≠ _
    cases hstop : (Machine.runFor code device n m io).stopped with
    | none => nofun
    | some o =>
      rintro rfl
      exact hne hstop

/-- If one is, the careful machine stops there, in the same state. -/
theorem run_of_overflows (hsize : code.size < 2 ^ 63)
    (h : Machine.Overflows code device n m io a b) :
    run code device n (m, io) = (.error (.sum a b), (Machine.run code device n m io).machine,
        (Machine.run code device n m io).io) ∧
      (Machine.run code device n m io).outcome = .addressOverflow := by
  obtain ⟨hrun, hstop⟩ := runFor_of_overflows hsize h
  constructor
  · simp only [run, bind_apply, hrun]
    rfl
  · show (Machine.runFor code device n m io).stopped.getD _ = _
    rw [hstop]
    rfl

/-- The machine reports an address that is no word where a run forms one, and only there. -/
theorem overflows_iff (hsize : code.size < 2 ^ 63) :
    (Machine.run code device n m io).outcome = .addressOverflow ↔
      ∃ a b, Machine.Overflows code device n m io a b := by
  constructor
  · intro houtcome
    by_contra hnone
    have hword : ∀ a b, ¬Machine.Overflows code device n m io a b := fun a b h => hnone ⟨a, b, h⟩
    exact (run_of_not_overflows hsize hword).2 houtcome
  · rintro ⟨a, b, h⟩
    exact (run_of_overflows hsize h).2

end Runs

end Careful

end MiniC
