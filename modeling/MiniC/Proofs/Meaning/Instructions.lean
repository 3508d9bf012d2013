import MiniC.Proofs.Meaning.Homes

/-!
# Instructions in runs

One statement for each kind of instruction: a machine at which it is next agrees with a computation
if the machine does that it leads to. An access through a base register may find that the memory is
too small, which ends the run.

* `Runs.constant`, `Runs.load`, `Runs.store`, `Runs.branch`, `Runs.divide`
* `Runs.fault`: the report of an index that is out of bounds
* `Runs.truthValue`: the accumulator becomes a truth value
-/

namespace MiniC

section Instructions

variable {P : Stage} {depth : Nat} {homes : List Home} {c : Core} {w : World} {α : Type}
  {x : Eval α}

/-! ### Registers

The instruction has no counterpart in the computation: the machine takes a step, and the computation
stays where it is. -/

/-- A constant is loaded. -/
theorem Runs.constant (hP : P.Fits) (hmild : Mild c.ac) {r : Reg} {d : Int} {t : String}
    (hi : P.code[c.pc]? = some (.rm .ldc r d .unused t)) (hr : r = .ac ∨ r = .ac1)
    (hlow : -2 ^ 62 ≤ d) (hhigh : d < 2 ^ 62)
    (h : Runs P (c.next.put r (Int64.ofInt d)) w x) : Runs P c w x := by
  refine Runs.step (fun t => ?_) h
  have hstep : P.step c.machine t = _ := Core.step_ldc hP.size_lt hr (code_at hi)
  unfold Mild at hmild
  rw [hstep, if_pos (Core.isWord_iff.mpr ⟨by omega, by omega⟩)]

/-- A sum, difference or product of the accumulators. -/
theorem Runs.arithmetic (hP : P.Fits) {op : Opcode} {r s q : Reg} {t : String} {a : Word}
    (hi : P.code[c.pc]? = some (.ro op r s q t)) (hr : r = .ac ∨ r = .ac1) (hs : s = .ac ∨ s = .ac1)
    (hq : q = .ac ∨ q = .ac1)
    (hop : Core.arithmetic? op (c.machine.reg s) (c.machine.reg q) = some a)
    (h : Runs P (c.next.put r a) w x) : Runs P c w x :=
  Runs.step (fun _ => Core.step_operation hP.size_lt hr hs hq hop (code_at hi)) h

/-- An unconditional jump. -/
theorem Runs.jump (hP : P.Fits) {address target : Nat} {t : String} {i : Instr}
    (hrel : Instr.relative .lda .pc address target t = .ok i) (hpc : c.pc = address)
    (hi : P.code[address]? = some i) (htarget : target < 2 ^ 31)
    (h : Runs P { c with pc := target } w x) : Runs P c w x := by
  subst hpc
  have hlt := Core.pc_lt_of_getElem? hP.size_lt (code_at hi)
  obtain rfl := Instr.relative_eq_ok hrel hlt htarget
  exact Runs.step (fun _ => Core.step_jump hP.size_lt rfl (by omega) (code_at hi)) h

/-- A conditional jump. -/
theorem Runs.branch (hP : P.Fits) {op : Opcode} {r : Reg} {d : Int} {target : Nat} {taken : Bool}
    {t : String} (hi : P.code[c.pc]? = some (.rm op r d .pc t)) (hr : r = .ac ∨ r = .ac1)
    (hop : Machine.jumps? op (c.machine.reg r) = some taken) (hd : d = target - (c.pc + 1))
    (htarget : target < 2 ^ 31) (hjump : taken = true → Runs P { c with pc := target } w x)
    (hnext : taken = false → Runs P c.next w x) : Runs P c w x := by
  have hstep : ∀ t, P.step c.machine t = _ := fun _ =>
    Core.step_branch hP.size_lt hr hop hd (by omega) (code_at hi)
  cases taken with
  | true => exact Runs.step hstep (hjump rfl)
  | false => exact Runs.step hstep (hnext rfl)

/-- A conditional jump to a given address. -/
theorem Runs.branch_relative (hP : P.Fits) {op : Opcode} {r : Reg} {address target : Nat}
    {taken : Bool} {t : String} {i : Instr} (hrel : Instr.relative op r address target t = .ok i)
    (hpc : c.pc = address) (hi : P.code[address]? = some i) (hr : r = .ac ∨ r = .ac1)
    (hop : Machine.jumps? op (c.machine.reg r) = some taken) (htarget : target < 2 ^ 31)
    (hjump : taken = true → Runs P { c with pc := target } w x)
    (hnext : taken = false → Runs P c.next w x) : Runs P c w x := by
  subst hpc
  have hlt := Core.pc_lt_of_getElem? hP.size_lt (code_at hi)
  obtain rfl := Instr.relative_eq_ok hrel hlt htarget
  exact Runs.branch hP hi hr hop rfl htarget hjump hnext

/-- No fault is recorded as long as cell 0 is clear. -/
theorem Core.fault_eq_none (h : c.mem.read 0 = 0) : c.machine.fault = none := by
  have hget : c.machine.memory.get 0 = 0 := h
  unfold Machine.fault
  simp only [hget]
  rfl

/-- The code of a fault in cell 0 is recognised. -/
theorem Core.fault_eq_some {fault : BoundsFault} (h : c.mem.read 0 = Int64.ofInt fault.code) :
    c.machine.fault = some fault := by
  have hget : c.machine.memory.get 0 = Int64.ofInt fault.code := h
  unfold Machine.fault
  simp only [hget]
  cases fault <;> rfl

/-- A quotient, or a division by zero, at which both stop. -/
theorem Runs.divide (hP : P.Fits) (hclear : c.mem.read 0 = 0) {t : String}
    (hi : P.code[c.pc]? = some (.ro .div .ac .ac1 .ac t))
    (hzero : c.ac = 0 → x w = ⟨[], .stopped .zeroDivide⟩)
    (h : c.ac ≠ 0 → Runs P { c.next with ac := c.ac1 / c.ac } w x) : Runs P c w x := by
  have hstep : ∀ t, P.step c.machine t = _ := fun _ => Core.step_div hP.size_lt (code_at hi)
  by_cases hac : c.ac = 0
  · simp only [if_pos hac] at hstep
    refine Runs.stops hstep ?_
    rw [hzero hac, Core.fault_eq_none (c := c.next) hclear]
    exact .zeroDivide c.pc rfl
  · simp only [if_neg hac] at hstep
    exact Runs.step hstep (h hac)

/-! ### Cells

A cell of the frame or of the global cells is named by a base and an offset. There may be no room
for it, and then the machine has run out of memory. -/

/-- A cell that is named relative to a base is loaded, unless the memory is too small. -/
theorem Runs.load (hP : P.Fits) (hF : Faithful P depth homes c w) {g : Bool} {r : Reg} {d : Int}
    {t : String} (hi : P.code[c.pc]? = some (.rm .ld r d (if g then .gp else .fp) t))
    (hr : r = .ac ∨ r = .ac1) (hlow : -2 ^ 31 ≤ d) (hhigh : d ≤ 0)
    (h : 0 < d + c.origin g → Runs P (c.next.put r (c.mem.read (d + c.origin g))) w x) :
    Runs P c w x := by
  have hstep : ∀ t, P.step c.machine t = _ := fun _ =>
    Core.step_ld_base hP.size_lt hF.sane hr hlow hhigh (code_at hi)
  by_cases hpos : 0 < d + c.origin g
  · simp only [if_pos hpos] at hstep
    exact Runs.step hstep (h hpos)
  · simp only [if_neg hpos] at hstep
    exact Runs.overflow (hF.top_le_cap hlow g (by omega)) hstep

/-- The accumulator is stored in a cell that is named relative to a base, unless the memory is too
small. -/
theorem Runs.store (hP : P.Fits) (hF : Faithful P depth homes c w) {g : Bool} {d : Int} {t : String}
    (hi : P.code[c.pc]? = some (.rm .st .ac d (if g then .gp else .fp) t)) (hlow : -2 ^ 31 ≤ d)
    (hhigh : d ≤ 0)
    (h : 0 < d + c.origin g →
      Runs P { c.next with mem := c.mem.write (d + c.origin g) c.ac } w x) : Runs P c w x := by
  have hstep : ∀ t, P.step c.machine t = _ := fun _ =>
    Core.step_st_base hP.size_lt hF.sane hlow hhigh (code_at hi)
  by_cases hpos : 0 < d + c.origin g
  · simp only [if_pos hpos] at hstep
    exact Runs.step hstep (h hpos)
  · simp only [if_neg hpos] at hstep
    exact Runs.overflow (hF.top_le_cap hlow g (by omega)) hstep

/-- The address of a cell is loaded. -/
theorem Runs.address (hP : P.Fits) (hF : Faithful P depth homes c w) {g : Bool} {r : Reg} {d : Int}
    {t : String} (hi : P.code[c.pc]? = some (.rm .lda r d (if g then .gp else .fp) t))
    (hr : r = .ac ∨ r = .ac1) (hlow : -2 ^ 31 ≤ d) (hhigh : d ≤ 0)
    (h : Runs P (c.next.put r (Int64.ofInt (d + c.origin g))) w x) : Runs P c w x :=
  Runs.step (fun _ => Core.step_lda_base hP.size_lt hF.sane hr hlow hhigh (code_at hi)) h

/-! ### Truth values

Four instructions replace the accumulator by one or zero, with a jump between them. -/

/-- The accumulator becomes a truth value. -/
theorem Runs.truthValue (hP : P.Fits) (hmild : Mild c.ac) {jump : Opcode} {what : String}
    {taken : Bool} {start : Nat} (hpc : c.pc = start)
    (hcode : Holds P.code start (truthValue jump what))
    (hop : Machine.jumps? jump c.ac = some taken)
    (h : Runs P { c with pc := start + 4, ac := if taken then 1 else 0 } w x) : Runs P c w x := by
  subst hpc
  have hlen := hP.code_lt
  have hbound : c.pc + 4 ≤ P.code.length := hcode.bound (List.cons_ne_nil _ _)
  simp only [MiniC.truthValue, holds_cons] at hcode
  obtain ⟨h₀, h₁, h₂, h₃, -⟩ := hcode
  have hd : (2 : Int) = (c.pc + 3 : Nat) - (c.pc + 1) := by omega
  apply Runs.branch hP h₀ (Or.inl rfl) hop hd (by omega)
  · rintro rfl
    exact Runs.constant (c := { c with pc := c.pc + 3 }) hP hmild h₃ (Or.inl rfl) (by decide)
      (by decide) h
  · rintro rfl
    apply Runs.constant (c := c.next) hP hmild h₁ (Or.inl rfl) (by decide) (by decide)
    refine Runs.step (fun t => ?_) h
    exact Core.step_jump (c := (c.next.put .ac (Int64.ofInt 0)).next) (n := c.pc + 4) hP.size_lt
      (by simp [Core.next]; omega) (by omega) (code_at h₂)

/-! ### Faults

The computation ends with the fault, and the machine halts once it has recorded and written it. -/

/-- A recorded fault is written, and the machine halts. -/
theorem Runs.report (hP : P.Fits) {fault : BoundsFault} {t t' : String}
    (hwrite : P.code[c.pc]? = some (.ro .write .ac .unused .unused t))
    (hhalt : P.code[c.pc + 1]? = some (.ro .halt .unused .unused .unused t'))
    (hac : c.ac = Int64.ofInt fault.code) (hmem : c.mem.read 0 = Int64.ofInt fault.code)
    (hx : x w = ⟨[], .stopped (.bounds fault)⟩) : Runs P c w x := by
  intro written _
  have hstep : Machine.step P.code.toArray Tape.device c.machine ⟨w.input, written, none⟩
      = ⟨none, c.next.machine, ⟨w.input, written.push c.ac, none⟩⟩ :=
    Core.step_write hP.size_lt (code_at hwrite)
  have hstop : Machine.step P.code.toArray Tape.device c.next.machine
      ⟨w.input, written.push c.ac, none⟩ = ⟨some .halted, c.next.next.machine, _⟩ :=
    Core.step_halt hP.size_lt (code_at hhalt)
  rw [hx]
  refine ⟨2, .halted, c.next.next.machine, ⟨w.input, written.push c.ac, none⟩,
    [Int64.ofInt fault.code], ?_, ?_, Or.inl ?_⟩
  · simp only [Machine.runFor, hstep, hstop]
  · rw [Array.toList_push, hac]
  · rw [Core.fault_eq_some (c := c.next.next) hmem]
    exact .bounds rfl

/-- The machine records and reports a fault at which the computation stops. -/
theorem Runs.fault (hP : P.Fits) (hF : Faithful P depth homes c w) {fault : BoundsFault}
    (hpc : c.pc = faultEntry fault) (hx : x w = ⟨[], .stopped (.bounds fault)⟩) : Runs P c w x := by
  have hroutine := holds_faultRoutine hP.routines fault
  rw [← hpc] at hroutine
  simp only [faultRoutine, holds_cons] at hroutine
  obtain ⟨h₀, h₁, h₂, h₃, h₄, -⟩ := hroutine
  have hrange : -2 ^ 62 ≤ fault.code ∧ fault.code < 2 ^ 62 := by
    cases fault <;> decide
  apply Runs.constant hP hF.mild h₀ (Or.inr rfl) (by decide) (by decide)
  apply Runs.constant (c := c.next.put .ac1 (Int64.ofInt 0)) hP hF.mild h₁
    (Or.inl rfl) hrange.1 hrange.2
  have hsane : Core.Sane ((c.next.put .ac1 (Int64.ofInt 0)).next.put .ac
      (Int64.ofInt fault.code)) :=
    ⟨hF.sane.fp_nonneg, hF.sane.fp_le, hF.sane.gp_lt, hF.sane.size_eq⟩
  have htop : 0 ≤ c.gp := by
    rw [hF.gp_eq]
    exact hP.top_nonneg
  refine Runs.step (fun t => Core.step_st_ac1 (a := 0) hP.size_lt hsane rfl (Int.le_refl 0) htop
    (code_at h₂)) ?_
  exact Runs.report hP h₃ h₄ rfl (Memory.read_write_self _ _ _) hx

end Instructions

end MiniC
