import Mathlib.Algebra.Ring.Int.Defs
import Mathlib.Algebra.Ring.Nat
import MiniC.Code.Statement

/-!
# Executing generated instructions

Generated code uses five of the eight registers. A `Core` lists them, with the base registers and
the program counter as plain numbers, so that the effect of an instruction is a record update.

* `Core.step_rm`, `Core.step_ro`: an instruction at the program counter is the one executed
* `Core.step_ld_base`, `Core.step_st_base`, …: one equation for each form of instruction that
  generated code contains
-/

namespace MiniC

/-- The registers that generated code uses, and the memory. -/
structure Core where
  pc : Nat
  ac : Word
  ac1 : Word
  fp : Int
  gp : Int
  mem : Memory

/-- The word of a cell that is named by a number. -/
def Memory.read (m : Memory) (address : Int) : Word :=
  m.get address.toNat

/-- Gives a cell that is named by a number a word. -/
def Memory.write (m : Memory) (address : Int) (w : Word) : Memory :=
  m.set address.toNat w

namespace Memory

/-- What a cell holds after a write. -/
theorem read_write {m : Memory} {a b : Int} (ha : 0 ≤ a) (hb : 0 ≤ b) (w : Word) :
    (m.write a w).read b = if a = b then w else m.read b := by
  rw [read, write, get_set]
  have hiff : a.toNat = b.toNat ↔ a = b := by omega
  simp only [hiff, read]

/-- A cell holds what was written to it. -/
theorem read_write_self (m : Memory) (a : Int) (w : Word) : (m.write a w).read a = w := by
  rw [read, write, get_set, if_pos rfl]

/-- A write changes no other cell. -/
theorem read_write_ne {m : Memory} {a b : Int} (ha : 0 ≤ a) (hb : 0 ≤ b) (h : a ≠ b) (w : Word) :
    (m.write a w).read b = m.read b := by
  rw [read_write ha hb, if_neg h]

/-- A write leaves the other cells alone. -/
theorem read_write_of_ne {m : Memory} {x y : Int} (hx : 0 < x) (h : x ≠ y) (w : Word) :
    (m.write x w).read y = m.read y := by
  rw [read, write, get_set, if_neg (by omega), read]

/-- A write does not change the size of the memory. -/
@[simp]
theorem size_write (m : Memory) (a : Int) (w : Word) : (m.write a w).size = m.size :=
  rfl

end Memory

namespace Core

/-- The machine with these registers; the others are never written. -/
def machine (c : Core) : Machine :=
  ⟨#v[c.ac, c.ac1, 0, 0, 0, Int64.ofInt c.fp, Int64.ofInt c.gp, Int64.ofInt c.pc], c.mem⟩

/-- The core whose program counter has moved on. -/
def next (c : Core) : Core :=
  { c with pc := c.pc + 1 }

/-- Gives one of the accumulators a word. -/
def put (c : Core) (r : Reg) (w : Word) : Core :=
  if r = .ac then { c with ac := w } else { c with ac1 := w }

/-- The base that a variable's offset counts from. -/
def origin (c : Core) (isGlobal : Bool) : Int :=
  if isGlobal then c.gp else c.fp

/-- The base registers name cells of the memory. -/
structure Sane (c : Core) : Prop where
  fp_nonneg : 0 ≤ c.fp
  fp_le : c.fp ≤ c.gp
  gp_lt : c.gp < 2 ^ 60
  size_eq : (c.mem.size : Int) = c.gp + 1

/-- Neither base is negative. -/
theorem Sane.origin_nonneg {c : Core} (h : c.Sane) (g : Bool) : 0 ≤ c.origin g := by
  have h1 := h.fp_nonneg
  have h2 := h.fp_le
  unfold origin
  split
  · omega
  · omega

/-- Both bases are at most that of the global cells, which is the last cell. -/
theorem Sane.origin_le {c : Core} (h : c.Sane) (g : Bool) : c.origin g ≤ c.gp := by
  have h2 := h.fp_le
  unfold origin
  split
  · omega
  · omega

/-! ### Registers of a core

The registers of the machine of a core, read and written. The simp set turns a step of that machine
into an update of the core. -/

@[simp] theorem reg_ac (c : Core) : c.machine.reg .ac = c.ac := rfl
@[simp] theorem reg_ac1 (c : Core) : c.machine.reg .ac1 = c.ac1 := rfl
@[simp] theorem reg_fp (c : Core) : c.machine.reg .fp = Int64.ofInt c.fp := rfl
@[simp] theorem reg_gp (c : Core) : c.machine.reg .gp = Int64.ofInt c.gp := rfl
@[simp] theorem reg_pc (c : Core) : c.machine.reg .pc = Int64.ofInt c.pc := rfl
@[simp] theorem memory_machine (c : Core) : c.machine.memory = c.mem := rfl

theorem setReg_fp (c : Core) (n : Int) :
    c.machine.setReg .fp (Int64.ofInt n) = { c with fp := n }.machine := rfl

theorem setReg_pc (c : Core) (n : Nat) :
    c.machine.setReg .pc (Int64.ofInt n) = { c with pc := n }.machine := rfl

/-- Writing an accumulator of the machine is writing that of the core. -/
theorem setReg_put (c : Core) {r : Reg} (h : r = .ac ∨ r = .ac1) (w : Word) :
    c.machine.setReg r w = (c.put r w).machine := by
  rcases h with rfl | rfl
  · rfl
  · rfl

@[simp] theorem put_ac (c : Core) (w : Word) : c.put .ac w = { c with ac := w } := rfl
@[simp] theorem put_ac1 (c : Core) (w : Word) : c.put .ac1 w = { c with ac1 := w } := rfl

/-- Whether a number is the value of a word. -/
def IsWord (n : Int) : Prop :=
  Machine.minWord ≤ n ∧ n ≤ Machine.maxWord

instance (n : Int) : Decidable (IsWord n) :=
  inferInstanceAs (Decidable (_ ∧ _))

/-- Words are the numbers of 64 bits. -/
theorem isWord_iff {n : Int} : IsWord n ↔ -2 ^ 63 ≤ n ∧ n < 2 ^ 63 := by
  unfold IsWord Machine.minWord Machine.maxWord
  omega

/-- A number that is the value of a word is the value of its word. -/
theorem toInt_ofInt_of_isWord {n : Int} (h : IsWord n) : (Int64.ofInt n).toInt = n :=
  Int64.toInt_ofInt_of_le (isWord_iff.mp h).1 (isWord_iff.mp h).2

/-- The difference of two words wraps around once at most. -/
theorem toInt_sub_cases (u v : Word) :
    (IsWord (u.toInt - v.toInt) ∧ (u - v).toInt = u.toInt - v.toInt) ∨
      (2 ^ 63 ≤ u.toInt - v.toInt ∧ (u - v).toInt = u.toInt - v.toInt - 2 ^ 64) ∨
      (u.toInt - v.toInt < -2 ^ 63 ∧ (u - v).toInt = u.toInt - v.toInt + 2 ^ 64) := by
  have hu := u.toInt_lt
  have hu' := u.le_toInt
  have hv := v.toInt_lt
  have hv' := v.le_toInt
  rw [Int64.toInt_sub, isWord_iff]
  simp only [Int.bmod_def]
  omega

/-- A base register holds its number. -/
theorem Sane.toInt_origin {c : Core} (h : c.Sane) (g : Bool) :
    (Int64.ofInt (c.origin g)).toInt = c.origin g := by
  have h1 := h.origin_nonneg g
  have h2 := h.origin_le g
  have h3 := h.gp_lt
  exact toInt_ofInt_of_isWord (isWord_iff.mpr ⟨by omega, by omega⟩)

/-- The base register that an access goes through holds the base. -/
theorem reg_origin (c : Core) (g : Bool) :
    c.machine.reg (if g then .gp else .fp) = Int64.ofInt (c.origin g) := by
  cases g <;> rfl

/-! ### The instruction at the program counter

The counter is behind the instruction when it takes effect, so the equations below start from
`c.next`. -/

section Step

variable {σ : Type} {code : Array Instr} {device : Device σ} {c : Core} {io : σ}

/-- An instruction has an address below 2 ^ 31, as all the code has. -/
theorem pc_lt_of_getElem? {i : Instr} (hsize : code.size < 2 ^ 31) (hi : code[c.pc]? = some i) :
    c.pc < 2 ^ 31 := by
  obtain ⟨hlt, -⟩ := Array.getElem?_eq_some_iff.mp hi
  omega

/-- Code addresses are words. -/
theorem toInt_pc {n : Nat} (h : n ≤ 2 ^ 31) : (Int64.ofInt n).toInt = n :=
  toInt_ofInt_of_isWord (isWord_iff.mpr ⟨by omega, by omega⟩)

/-- A register-memory instruction at the program counter is executed. -/
theorem step_rm {op : Opcode} {r s : Reg} {d : Int} {t : String} (hsize : code.size < 2 ^ 31)
    (hi : code[c.pc]? = some (.rm op r d s t)) :
    Machine.step code device c.machine io = Machine.stepRm c.next.machine io c.pc op r d s := by
  have hpc := toInt_pc (Nat.le_of_lt (pc_lt_of_getElem? hsize hi))
  have hfetch : Machine.fetch code c.pc = some (.rm op r d s t) := by
    rw [Machine.fetch, if_pos (Int.natCast_nonneg _), Int.toNat_natCast, hi]
  simp only [Machine.step, reg_pc, hpc, hfetch, Int.toNat_natCast]
  rfl

/-- A register-only instruction at the program counter is executed. -/
theorem step_ro {op : Opcode} {r s q : Reg} {t : String} (hsize : code.size < 2 ^ 31)
    (hi : code[c.pc]? = some (.ro op r s q t)) :
    Machine.step code device c.machine io = Machine.stepRo device c.next.machine io c.pc op r
      s q := by
  have hpc := toInt_pc (Nat.le_of_lt (pc_lt_of_getElem? hsize hi))
  have hfetch : Machine.fetch code c.pc = some (.ro op r s q t) := by
    rw [Machine.fetch, if_pos (Int.natCast_nonneg _), Int.toNat_natCast, hi]
  simp only [Machine.step, reg_pc, hpc, hfetch, Int.toNat_natCast]
  rfl

/-! ### Constants and arithmetic

Every operation forms an address first, used or not, which can overflow for a constant only: its
displacement is the constant itself. -/

/-- A constant is loaded, unless the unused address that is formed with it is no word. -/
theorem step_ldc {r : Reg} {d : Int} {t : String} (hsize : code.size < 2 ^ 31)
    (hr : r = .ac ∨ r = .ac1) (hi : code[c.pc]? = some (.rm .ldc r d .ac t)) :
    Machine.step code device c.machine io
      = if IsWord (d + c.ac.toInt) then ⟨none, (c.next.put r (Int64.ofInt d)).machine, io⟩
        else ⟨some .addressOverflow, c.next.machine, io⟩ := by
  rw [step_rm hsize hi]
  simp only [Machine.stepRm, reg_ac, setReg_put _ hr]
  rfl

/-- The operations on two words that always have a result. -/
def arithmetic? (op : Opcode) (a b : Word) : Option Word :=
  match op with
  | .add => some (a + b)
  | .sub => some (a - b)
  | .mul => some (a * b)
  | _ => none

/-- Sums, differences and products of the accumulators. -/
theorem step_operation {op : Opcode} {r s q : Reg} {t : String} {w : Word}
    (hsize : code.size < 2 ^ 31) (hr : r = .ac ∨ r = .ac1) (hs : s = .ac ∨ s = .ac1)
    (hq : q = .ac ∨ q = .ac1) (hop : arithmetic? op (c.machine.reg s) (c.machine.reg q) = some w)
    (hi : code[c.pc]? = some (.ro op r s q t)) :
    Machine.step code device c.machine io = ⟨none, (c.next.put r w).machine, io⟩ := by
  have hs' : c.next.machine.reg s = c.machine.reg s := by rcases hs with rfl | rfl <;> rfl
  have hq' : c.next.machine.reg q = c.machine.reg q := by rcases hq with rfl | rfl <;> rfl
  rw [step_ro hsize hi]
  cases op
  case add => rw [← Option.some.inj hop, ← setReg_put _ hr, ← hs', ← hq']; rfl
  case sub => rw [← Option.some.inj hop, ← setReg_put _ hr, ← hs', ← hq']; rfl
  case mul => rw [← Option.some.inj hop, ← setReg_put _ hr, ← hs', ← hq']; rfl
  all_goals simp [arithmetic?] at hop

/-- A quotient, unless the divisor is zero. -/
theorem step_div {t : String} (hsize : code.size < 2 ^ 31)
    (hi : code[c.pc]? = some (.ro .div .ac .ac1 .ac t)) :
    Machine.step code device c.machine io
      = if c.ac = 0 then ⟨some (.failed (.zeroDivide c.pc)), c.next.machine, io⟩
        else ⟨none, { c.next with ac := c.ac1 / c.ac }.machine, io⟩ := by
  rw [step_ro hsize hi]
  rfl

/-- A number is read from the device, or its error stops the machine. -/
theorem step_read {t : String} (hsize : code.size < 2 ^ 31)
    (hi : code[c.pc]? = some (.ro .read .ac .unused .unused t)) :
    Machine.step code device c.machine io
      = match device.read io with
        | (.ok w, io) => ⟨none, { c.next with ac := w }.machine, io⟩
        | (.error e, io) => ⟨some (.failed e), c.next.machine, io⟩ := by
  rw [step_ro hsize hi]
  rfl

/-- The accumulator is written to the device, or its error stops the machine. -/
theorem step_write {t : String} (hsize : code.size < 2 ^ 31)
    (hi : code[c.pc]? = some (.ro .write .ac .unused .unused t)) :
    Machine.step code device c.machine io
      = match device.write c.ac io with
        | (.ok _, io) => ⟨none, c.next.machine, io⟩
        | (.error e, io) => ⟨some (.failed e), c.next.machine, io⟩ := by
  rw [step_ro hsize hi]
  rfl

/-- The machine stops. -/
theorem step_halt {t : String} (hsize : code.size < 2 ^ 31)
    (hi : code[c.pc]? = some (.ro .halt .unused .unused .unused t)) :
    Machine.step code device c.machine io = ⟨some .halted, c.next.machine, io⟩ := by
  rw [step_ro hsize hi]
  rfl

/-! ### Cells that are named relative to a base

Offsets are never positive, so a cell lies at its base or below, and the one thing that can be wrong
is that it lies below the memory. Then the access stops with a stack overflow. -/

/-- The address that an offset of a frame or of the global cells stands for is a word. -/
theorem Sane.isWord_offset (h : c.Sane) (g : Bool) {d : Int} (hd : -2 ^ 31 ≤ d) (hd' : d < 2 ^ 31) :
    IsWord (d + c.origin g) := by
  have h1 := h.origin_nonneg g
  have h2 := h.origin_le g
  have h3 := h.gp_lt
  exact isWord_iff.mpr ⟨by omega, by omega⟩

/-- An access through a base register reaches its cell, or has run out of room. -/
theorem Sane.cell_base (h : c.Sane) (g : Bool) {d : Int} (hd : d ≤ 0) (site : Nat) :
    c.machine.cell (if g then .gp else .fp) (d + c.origin g) site
      = if 0 < d + c.origin g then .ok (d + c.origin g).toNat
        else .error (.stackOverflow site) := by
  have h2 := h.origin_le g
  have hsize : (c.machine.memory.size : Int) = c.gp + 1 := h.size_eq
  have hbase : (if g then Reg.gp else Reg.fp) = Reg.fp ∨ (if g then Reg.gp else Reg.fp) =
      Reg.gp := by
    cases g
    · exact Or.inl rfl
    · exact Or.inr rfl
  by_cases hpos : 0 < d + c.origin g
  · rw [Machine.cell, if_neg (by omega), if_pos (by omega), if_pos hpos]
  · rw [Machine.cell, if_pos ⟨hbase, by omega⟩, if_neg hpos]

/-- Moving on keeps the bases. -/
theorem Sane.next (h : c.Sane) : c.next.Sane :=
  ⟨h.fp_nonneg, h.fp_le, h.gp_lt, h.size_eq⟩

@[simp] theorem next_origin (c : Core) (g : Bool) : c.next.origin g = c.origin g := rfl

/-- A cell that is named relative to a base is loaded. -/
theorem step_ld_base {g : Bool} {r : Reg} {d : Int} {t : String} (hsize : code.size < 2 ^ 31)
    (h : c.Sane) (hr : r = .ac ∨ r = .ac1) (hd : -2 ^ 31 ≤ d) (hd' : d ≤ 0)
    (hi : code[c.pc]? = some (.rm .ld r d (if g then .gp else .fp) t)) :
    Machine.step code device c.machine io
      = if 0 < d + c.origin g then
          ⟨none, (c.next.put r (c.mem.read (d + c.origin g))).machine, io⟩
        else ⟨some (.failed (.stackOverflow c.pc)), c.next.machine, io⟩ := by
  have hword : IsWord (d + c.origin g) := h.isWord_offset g hd (by omega)
  rw [step_rm hsize hi, Machine.stepRm]
  have hcell : c.next.machine.cell (if g then .gp else .fp) (d + c.origin g) c.pc
      = if 0 < d + c.origin g then .ok (d + c.origin g).toNat
        else .error (.stackOverflow c.pc) := h.next.cell_base g hd' c.pc
  simp only [reg_origin, next_origin, h.toInt_origin g]
  rw [if_pos (show Machine.minWord ≤ _ ∧ _ from hword), hcell]
  by_cases hpos : 0 < d + c.origin g
  · simp only [if_pos hpos, setReg_put _ hr]
    rfl
  · simp only [if_neg hpos]

/-- The address of a cell that is named relative to a base is loaded, also if there is no such cell.
-/
theorem step_lda_base {g : Bool} {r : Reg} {d : Int} {t : String} (hsize : code.size < 2 ^ 31)
    (h : c.Sane) (hr : r = .ac ∨ r = .ac1) (hd : -2 ^ 31 ≤ d) (hd' : d ≤ 0)
    (hi : code[c.pc]? = some (.rm .lda r d (if g then .gp else .fp) t)) :
    Machine.step code device c.machine io
      = ⟨none, (c.next.put r (Int64.ofInt (d + c.origin g))).machine, io⟩ := by
  have hword : IsWord (d + c.origin g) := h.isWord_offset g hd (by omega)
  rw [step_rm hsize hi, Machine.stepRm]
  simp only [reg_origin, next_origin, h.toInt_origin g]
  rw [if_pos (show Machine.minWord ≤ _ ∧ _ from hword), setReg_put _ hr]

/-- The accumulator is stored in a cell that is named relative to a base. -/
theorem step_st_base {g : Bool} {d : Int} {t : String} (hsize : code.size < 2 ^ 31)
    (h : c.Sane) (hd : -2 ^ 31 ≤ d) (hd' : d ≤ 0)
    (hi : code[c.pc]? = some (.rm .st .ac d (if g then .gp else .fp) t)) :
    Machine.step code device c.machine io
      = if 0 < d + c.origin g then
          ⟨none, { c.next with mem := c.mem.write (d + c.origin g) c.ac }.machine, io⟩
        else ⟨some (.failed (.stackOverflow c.pc)), c.next.machine, io⟩ := by
  have hword : IsWord (d + c.origin g) := h.isWord_offset g hd (by omega)
  rw [step_rm hsize hi, Machine.stepRm]
  have hcell : c.next.machine.cell (if g then .gp else .fp) (d + c.origin g) c.pc
      = if 0 < d + c.origin g then .ok (d + c.origin g).toNat
        else .error (.stackOverflow c.pc) := h.next.cell_base g hd' c.pc
  simp only [reg_origin, next_origin, h.toInt_origin g]
  rw [if_pos (show Machine.minWord ≤ _ ∧ _ from hword), hcell]
  by_cases hpos : 0 < d + c.origin g
  · simp only [if_pos hpos]
    rfl
  · simp only [if_neg hpos]

/-! ### Frames

The instructions of calls and returns. They read and write the frame base itself, and a return takes
the program counter from the frame. -/

/-- The frame base is saved in a cell of the frame that it names. -/
theorem step_st_fp {d : Int} {t : String} (hsize : code.size < 2 ^ 31) (h : c.Sane)
    (hd : -2 ^ 31 ≤ d) (hd' : d ≤ 0) (hi : code[c.pc]? = some (.rm .st .fp d .fp t)) :
    Machine.step code device c.machine io
      = if 0 < d + c.fp then
          ⟨none, { c.next with mem := c.mem.write (d + c.fp) (Int64.ofInt c.fp) }.machine, io⟩
        else ⟨some (.failed (.stackOverflow c.pc)), c.next.machine, io⟩ := by
  have hword : IsWord (d + c.fp) := h.isWord_offset false hd (by omega)
  have hfp : (Int64.ofInt c.next.fp).toInt = c.fp := h.toInt_origin false
  have hcell := h.next.cell_base false hd' c.pc
  rw [step_rm hsize hi, Machine.stepRm]
  simp only [reg_fp, hfp]
  rw [if_pos (show Machine.minWord ≤ _ ∧ _ from hword)]
  have hcell' : c.next.machine.cell .fp (d + c.fp) c.pc
      = if 0 < d + c.fp then .ok (d + c.fp).toNat else .error (.stackOverflow c.pc) := hcell
  rw [hcell']
  by_cases hpos : 0 < d + c.fp
  · simp only [if_pos hpos]
    rfl
  · simp only [if_neg hpos]

/-- The frame base moves by an offset. -/
theorem step_lda_fp {d : Int} {t : String} (hsize : code.size < 2 ^ 31) (h : c.Sane)
    (hd : -2 ^ 31 ≤ d) (hd' : d ≤ 0) (hi : code[c.pc]? = some (.rm .lda .fp d .fp t)) :
    Machine.step code device c.machine io = ⟨none, { c.next with fp := d + c.fp }.machine, io⟩ := by
  have hword : IsWord (d + c.fp) := h.isWord_offset false hd (by omega)
  have hfp : (Int64.ofInt c.next.fp).toInt = c.fp := h.toInt_origin false
  rw [step_rm hsize hi, Machine.stepRm]
  simp only [reg_fp, hfp]
  rw [if_pos (show Machine.minWord ≤ _ ∧ _ from hword), setReg_fp]

/-- A cell of the frame becomes the program counter. -/
theorem step_ld_pc {d : Int} {n : Nat} {t : String} (hsize : code.size < 2 ^ 31) (h : c.Sane)
    (hd : -2 ^ 31 ≤ d) (hd' : d ≤ 0) (hpos : 0 < d + c.fp)
    (hn : c.mem.read (d + c.fp) = Int64.ofInt n)
    (hi : code[c.pc]? = some (.rm .ld .pc d .fp t)) :
    Machine.step code device c.machine io = ⟨none, { c with pc := n }.machine, io⟩ := by
  have hword : IsWord (d + c.fp) := h.isWord_offset false hd (by omega)
  have hfp : (Int64.ofInt c.next.fp).toInt = c.fp := h.toInt_origin false
  have hcell : c.next.machine.cell .fp (d + c.fp) c.pc = .ok (d + c.fp).toNat := by
    have hcell := h.next.cell_base false hd' c.pc
    exact hcell.trans (if_pos hpos)
  rw [step_rm hsize hi, Machine.stepRm]
  simp only [reg_fp, hfp]
  rw [if_pos (show Machine.minWord ≤ _ ∧ _ from hword)]
  simp only [hcell]
  change (Machine.StepResult.mk none (c.next.machine.setReg .pc (c.mem.read (d + c.fp))) io :
    Machine.StepResult σ) = _
  rw [hn, setReg_pc]
  rfl

/-- A cell of the frame becomes the frame base. -/
theorem step_ld_fp {d n : Int} {t : String} (hsize : code.size < 2 ^ 31) (h : c.Sane)
    (hd : -2 ^ 31 ≤ d) (hd' : d ≤ 0) (hpos : 0 < d + c.fp)
    (hn : c.mem.read (d + c.fp) = Int64.ofInt n)
    (hi : code[c.pc]? = some (.rm .ld .fp d .fp t)) :
    Machine.step code device c.machine io = ⟨none, { c.next with fp := n }.machine, io⟩ := by
  have hword : IsWord (d + c.fp) := h.isWord_offset false hd (by omega)
  have hfp : (Int64.ofInt c.next.fp).toInt = c.fp := h.toInt_origin false
  have hcell : c.next.machine.cell .fp (d + c.fp) c.pc = .ok (d + c.fp).toNat := by
    have hcell := h.next.cell_base false hd' c.pc
    exact hcell.trans (if_pos hpos)
  rw [step_rm hsize hi, Machine.stepRm]
  simp only [reg_fp, hfp]
  rw [if_pos (show Machine.minWord ≤ _ ∧ _ from hword)]
  simp only [hcell]
  change (Machine.StepResult.mk none (c.next.machine.setReg .fp (c.mem.read (d + c.fp))) io :
    Machine.StepResult σ) = _
  rw [hn, setReg_fp]

/-! ### Jumps and code addresses

All jumps are relative to the address behind them. Code is shorter than 2 ^ 31, so nothing
overflows. -/

/-- The address that a jump names relative to the instruction behind it. -/
theorem toInt_next_pc (hsize : code.size < 2 ^ 31) {i : Instr} (hi : code[c.pc]? = some i) :
    (Int64.ofInt c.next.pc).toInt = c.pc + 1 := by
  have hpc := pc_lt_of_getElem? hsize hi
  rw [toInt_pc (by show c.pc + 1 ≤ 2 ^ 31; omega)]
  rfl

/-- Addresses of instructions, and those right behind them, are words. -/
theorem isWord_of_code_address {n : Int} (h : 0 ≤ n) (h' : n < 2 ^ 32) : IsWord n :=
  isWord_iff.mpr ⟨by omega, by omega⟩

/-- The address of the second instruction behind. -/
theorem step_lda_pc {t : String} (hsize : code.size < 2 ^ 31)
    (hi : code[c.pc]? = some (.rm .lda .ac 1 .pc t)) :
    Machine.step code device c.machine io
      = ⟨none, { c.next with ac := Int64.ofInt (c.pc + 2 : Nat) }.machine, io⟩ := by
  have hpc := pc_lt_of_getElem? hsize hi
  rw [step_rm hsize hi, Machine.stepRm]
  simp only [reg_pc, toInt_next_pc hsize hi]
  rw [if_pos (show Machine.minWord ≤ _ ∧ _ from isWord_of_code_address (by omega) (by omega)),
    show (1 + ((c.pc : Int) + 1)) = ((c.pc + 2 : Nat) : Int) from by omega]
  rfl

/-- An unconditional jump. -/
theorem step_jump {d : Int} {n : Nat} {t : String} (hsize : code.size < 2 ^ 31)
    (hd : d = n - (c.pc + 1)) (hn : n ≤ 2 ^ 31) (hi : code[c.pc]? = some (.rm .lda .pc d .pc t)) :
    Machine.step code device c.machine io = ⟨none, { c with pc := n }.machine, io⟩ := by
  have hpc := pc_lt_of_getElem? hsize hi
  rw [step_rm hsize hi, Machine.stepRm]
  simp only [reg_pc, toInt_next_pc hsize hi]
  rw [show d + ((c.pc : Int) + 1) = (n : Int) from by omega,
    if_pos (show Machine.minWord ≤ _ ∧ _ from isWord_of_code_address (by omega) (by omega)),
    setReg_pc]
  rfl

/-- A conditional jump on one of the accumulators. -/
theorem step_branch {op : Opcode} {r : Reg} {d : Int} {n : Nat} {taken : Bool} {t : String}
    (hsize : code.size < 2 ^ 31) (hr : r = .ac ∨ r = .ac1)
    (hop : Machine.jumps? op (c.machine.reg r) = some taken)
    (hd : d = n - (c.pc + 1)) (hn : n ≤ 2 ^ 31) (hi : code[c.pc]? = some (.rm op r d .pc t)) :
    Machine.step code device c.machine io
      = ⟨none, if taken then { c with pc := n }.machine else c.next.machine, io⟩ := by
  have hpc := pc_lt_of_getElem? hsize hi
  -- the jump is decided before the counter moves, and neither accumulator is the counter
  have hreg : c.next.machine.reg r = c.machine.reg r := by rcases hr with rfl | rfl <;> rfl
  rw [step_rm hsize hi]
  unfold Machine.stepRm
  simp only [reg_pc, toInt_next_pc hsize hi]
  rw [show d + ((c.pc : Int) + 1) = (n : Int) from by omega,
    if_pos (show Machine.minWord ≤ _ ∧ _ from isWord_of_code_address (by omega) (by omega))]
  -- only the six conditional jumps answer whether they are taken
  cases op
  case jlt | jle | jgt | jge | jeq | jne =>
    dsimp only
    rw [hreg, hop]
    cases taken
    · rfl
    · rfl
  all_goals simp [Machine.jumps?] at hop

/-! ### Cells that are named by an accumulator

An address in an accumulator is not checked against the bottom of the memory: generated code has put
a sound one there. -/

/-- An access through an accumulator reaches every cell. -/
theorem Sane.cell_accumulator (h : c.Sane) {r : Reg} (hr : r = .ac ∨ r = .ac1) {a : Int}
    (hpos : 0 ≤ a) (hle : a ≤ c.gp) (site : Nat) : c.machine.cell r a site = .ok a.toNat := by
  have hsz : (c.machine.memory.size : Int) = c.gp + 1 := h.size_eq
  have hbase : ¬(r = .fp ∨ r = .gp) := by
    rcases hr with rfl | rfl
    · decide
    · decide
  rw [Machine.cell, if_neg (fun hc => hbase hc.1), if_pos ⟨hpos, by omega⟩]

/-- The length cell of an array is read. -/
theorem step_ld_ac1 {a : Int} {t : String} (hsize : code.size < 2 ^ 31) (h : c.Sane)
    (ha : c.ac1 = Int64.ofInt a) (hpos : 0 ≤ a) (hle : a ≤ c.gp)
    (hi : code[c.pc]? = some (.rm .ld .ac1 0 .ac1 t)) :
    Machine.step code device c.machine io
      = ⟨none, { c.next with ac1 := c.mem.read a }.machine, io⟩ := by
  have hgp := h.gp_lt
  have hword : IsWord a := isWord_iff.mpr ⟨by omega, by omega⟩
  have hac : (c.next.ac1).toInt = a := by
    rw [show c.next.ac1 = c.ac1 from rfl, ha, toInt_ofInt_of_isWord hword]
  rw [step_rm hsize hi, Machine.stepRm]
  simp only [reg_ac1, hac, Int.zero_add]
  rw [if_pos (show Machine.minWord ≤ _ ∧ _ from hword),
    h.next.cell_accumulator (Or.inr rfl) hpos hle]
  rfl

/-- An element of an array is read. -/
theorem step_ld_ac {a : Int} {t : String} (hsize : code.size < 2 ^ 31) (h : c.Sane)
    (ha : c.ac = Int64.ofInt a) (hpos : 0 ≤ a) (hle : a ≤ c.gp)
    (hi : code[c.pc]? = some (.rm .ld .ac 0 .ac t)) :
    Machine.step code device c.machine io
      = ⟨none, { c.next with ac := c.mem.read a }.machine, io⟩ := by
  have hgp := h.gp_lt
  have hword : IsWord a := isWord_iff.mpr ⟨by omega, by omega⟩
  have hac : (c.next.ac).toInt = a := by
    rw [show c.next.ac = c.ac from rfl, ha, toInt_ofInt_of_isWord hword]
  rw [step_rm hsize hi, Machine.stepRm]
  simp only [reg_ac, hac, Int.zero_add]
  rw [if_pos (show Machine.minWord ≤ _ ∧ _ from hword),
    h.next.cell_accumulator (Or.inl rfl) hpos hle]
  rfl

/-- The address in the accumulator moves past the length cell. -/
theorem step_lda_ac {a : Int} {t : String} (hsize : code.size < 2 ^ 31) (h : c.Sane)
    (ha : c.ac = Int64.ofInt a) (hpos : 0 ≤ a) (hle : a ≤ c.gp)
    (hi : code[c.pc]? = some (.rm .lda .ac 1 .ac t)) :
    Machine.step code device c.machine io
      = ⟨none, { c.next with ac := Int64.ofInt (a + 1) }.machine, io⟩ := by
  have hgp := h.gp_lt
  have hword : IsWord a := isWord_iff.mpr ⟨by omega, by omega⟩
  have hword' : IsWord (1 + a) := isWord_iff.mpr ⟨by omega, by omega⟩
  have hac : (c.next.ac).toInt = a := by
    rw [show c.next.ac = c.ac from rfl, ha, toInt_ofInt_of_isWord hword]
  rw [step_rm hsize hi, Machine.stepRm]
  simp only [reg_ac, hac]
  rw [if_pos (show Machine.minWord ≤ _ ∧ _ from hword'), Int.add_comm 1 a]
  rfl

/-- The accumulator is stored in an element of an array, or in the cell for faults. -/
theorem step_st_ac1 {a : Int} {t : String} (hsize : code.size < 2 ^ 31) (h : c.Sane)
    (ha : c.ac1 = Int64.ofInt a) (hpos : 0 ≤ a) (hle : a ≤ c.gp)
    (hi : code[c.pc]? = some (.rm .st .ac 0 .ac1 t)) :
    Machine.step code device c.machine io
      = ⟨none, { c.next with mem := c.mem.write a c.ac }.machine, io⟩ := by
  have hgp := h.gp_lt
  have hword : IsWord a := isWord_iff.mpr ⟨by omega, by omega⟩
  have hac : (c.next.ac1).toInt = a := by
    rw [show c.next.ac1 = c.ac1 from rfl, ha, toInt_ofInt_of_isWord hword]
  rw [step_rm hsize hi, Machine.stepRm]
  simp only [reg_ac1, hac, Int.zero_add]
  rw [if_pos (show Machine.minWord ≤ _ ∧ _ from hword),
    h.next.cell_accumulator (Or.inr rfl) hpos hle]
  rfl

end Step

end Core

/-- Instructions in a list are those in its array. -/
theorem code_at {code : List Instr} {n : Nat} {i : Instr} (hi : code[n]? = some i) :
    code.toArray[n]? = some i := by
  rw [List.getElem?_toArray, hi]

/-! ### Runs of a few instructions

Short stretches of code are executed one equation at a time. -/

namespace Machine

section Runs

variable {σ : Type} {code : Array Instr} {device : Device σ} {m m' : Machine} {io io' : σ}

/-- A run starts with a step that goes on. -/
theorem runFor_of_step (h : step code device m io = ⟨none, m', io'⟩) (n : Nat) :
    runFor code device (n + 1) m io = runFor code device n m' io' := by
  simp only [runFor, h]

/-- A run ends with a step that stops. -/
theorem runFor_of_stop {o : Outcome} (h : step code device m io = ⟨some o, m', io'⟩) (n : Nat) :
    runFor code device (n + 1) m io = ⟨some o, m', io'⟩ := by
  simp only [runFor, h]

end Runs

/-- After `n` instructions the machine is at the address `target` with this value in the
accumulator. Neither the memory nor the base registers nor the state of the device are changed. -/
def Yields {σ : Type} (code : Array Instr) (device : Device σ) (n : Nat) (m : Machine) (io : σ)
    (target : Nat) (value : Word) : Prop :=
  ∃ m', runFor code device n m io = ⟨none, m', io⟩ ∧ (m'.reg .pc).toInt = target ∧
    m'.reg .ac = value ∧ m'.memory = m.memory ∧ m'.reg .fp = m.reg .fp ∧ m'.reg .gp = m.reg .gp

end Machine

/-- A run that changes the accumulators and the program counter alone. -/
theorem Core.yields {σ : Type} {code : Array Instr} {device : Device σ} {io : σ} {n : Nat}
    {c c' : Core} {target : Nat} {value : Word}
    (hrun : Machine.runFor code device n c.machine io = ⟨none, c'.machine, io⟩)
    (hpc : c'.pc = target) (htarget : target ≤ 2 ^ 31) (hac : c'.ac = value)
    (hmem : c'.mem = c.mem) (hfp : c'.fp = c.fp) (hgp : c'.gp = c.gp) :
    c.machine.Yields code device n io target value := by
  refine ⟨c'.machine, hrun, ?_, hac, hmem, ?_, ?_⟩
  · rw [reg_pc, hpc, Core.toInt_pc htarget]
  · rw [reg_fp, reg_fp, hfp]
  · rw [reg_gp, reg_gp, hgp]

/-! ### New machines

The first cell of a new memory holds the address of the last one. The first three instructions set
the base registers to it and clear the cell. -/

/-- The memory of a new machine whose last cell is `top`. -/
def Memory.fresh (top : Nat) : Memory :=
  (Memory.zeros (top + 1)).set 0 (Int64.ofInt top)

/-- A new machine as a core. -/
theorem Machine.init_eq (memory : Nat) :
    Machine.init memory = (Core.mk 0 0 0 0 0 (Memory.fresh (memory - 1))).machine := by
  have hcells : max memory 1 = memory - 1 + 1 := by omega
  unfold Machine.init Memory.fresh
  simp only [hcells]
  rw [show ((memory - 1 + 1 : Nat) : Int) - 1 = (memory - 1 : Nat) by omega]
  rfl

/-- Once cell 0 is cleared, all cells are. -/
theorem Memory.read_fresh_clear (top : Nat) (x : Int) :
    ((Memory.fresh top).write 0 0).read x = 0 := by
  rw [Memory.read, Memory.write, Memory.get_set]
  split
  · rfl
  · rename_i hne
    rw [Memory.fresh, Memory.get_set, if_neg (by simpa using hne), Memory.get_zeros]

section Startup

variable {σ : Type} {code : Array Instr} {device : Device σ} {io : σ}

/-- The base of the global cells is loaded from cell 0. -/
theorem Core.step_startup_gp {top : Nat} {t : String} (hsize : code.size < 2 ^ 31)
    (hi : code[0]? = some (.rm .ld .gp 0 .ac t)) :
    Machine.step code device (Core.mk 0 0 0 0 0 (Memory.fresh top)).machine io
      = ⟨none, (Core.mk 1 0 0 0 top (Memory.fresh top)).machine, io⟩ := by
  rw [Core.step_rm (c := Core.mk 0 0 0 0 0 (Memory.fresh top)) hsize hi]
  have hget : (Memory.fresh top).get 0 = Int64.ofInt top := by
    rw [Memory.fresh, Memory.get_set, if_pos rfl]
  have hcell : (Core.mk 0 0 0 0 0 (Memory.fresh top)).next.machine.cell .ac 0 0 = .ok 0 := by
    rw [Machine.cell, if_neg (by decide), if_pos]
    · rfl
    · refine ⟨Int.le_refl 0, ?_⟩
      show (0 : Int) < ((top + 1 : Nat) : Int)
      omega
  have hzero : 0 + ((Core.mk 0 0 0 0 0 (Memory.fresh top)).next.machine.reg .ac).toInt = 0 := rfl
  simp only [Machine.stepRm, hzero, hcell]
  rw [if_pos (by decide)]
  show (Machine.StepResult.mk none ((Core.mk 1 0 0 0 0 (Memory.fresh top)).machine.setReg .gp
    ((Memory.fresh top).get 0)) io : Machine.StepResult σ) = _
  rw [hget]
  rfl

/-- The frame base is set to the same cell. -/
theorem Core.step_startup_fp {top : Nat} {mem : Memory} {t : String} (hsize : code.size < 2 ^ 31)
    (htop : top < 2 ^ 60) (hi : code[1]? = some (.rm .lda .fp 0 .gp t)) :
    Machine.step code device (Core.mk 1 0 0 0 top mem).machine io
      = ⟨none, (Core.mk 2 0 0 top top mem).machine, io⟩ := by
  rw [Core.step_rm (c := Core.mk 1 0 0 0 top mem) hsize hi]
  have hgp : 0 + ((Core.mk 1 0 0 0 top mem).next.machine.reg .gp).toInt = top := by
    rw [Int.zero_add]
    show (Int64.ofInt (top : Int)).toInt = top
    exact Core.toInt_ofInt_of_isWord (Core.isWord_iff.mpr ⟨by omega, by omega⟩)
  simp only [Machine.stepRm, hgp]
  rw [if_pos (show Machine.minWord ≤ _ ∧ _ from Core.isWord_iff.mpr ⟨by omega, by omega⟩)]
  rfl

/-- Cell 0 is cleared. -/
theorem Core.step_startup_clear {top : Nat} {mem : Memory} {t : String} (hsize : code.size < 2 ^ 31)
    (hmem : mem.size = top + 1) (hi : code[2]? = some (.rm .st .ac 0 .ac t)) :
    Machine.step code device (Core.mk 2 0 0 top top mem).machine io
      = ⟨none, (Core.mk 3 0 0 top top (mem.write 0 0)).machine, io⟩ := by
  rw [Core.step_rm (c := Core.mk 2 0 0 top top mem) hsize hi]
  have hcell : (Core.mk 2 0 0 top top mem).next.machine.cell .ac 0 2 = .ok 0 := by
    rw [Machine.cell, if_neg (by decide), if_pos]
    · rfl
    · refine ⟨Int.le_refl 0, ?_⟩
      show (0 : Int) < (mem.size : Int)
      omega
  have hzero : 0 + ((Core.mk 2 0 0 top top mem).next.machine.reg .ac).toInt = 0 := rfl
  simp only [Machine.stepRm, hzero, hcell]
  rw [if_pos (by decide)]
  rfl

end Startup

end MiniC
