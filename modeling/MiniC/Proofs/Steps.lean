import MiniC.Proofs.Watch

/-!
# Steps and runs of any code

What a step and a run do whatever the code is. The program counter moves on before an instruction
takes effect, and an instruction at which the machine stops takes none. A run of several steps is a
run of the first ones, and then a run of the others unless the machine has stopped before.

* `Machine.step_ro_eq`, `Machine.step_rm_eq`: the instruction at the program counter is executed
* `Machine.eq_advanced_of_stopped`, `Machine.stopped_cases`: a machine that stops at an instruction
* `Machine.Adds`, `Machine.Overflows`: sums that give an instruction its address
* `Machine.runFor_add`, `Machine.runFor_stopped_iff`: runs taken apart
-/

namespace MiniC

/-- A call of the device in this state fails with this error. -/
def Device.Refuses {σ : Type} (device : Device σ) (io : σ) (e : MachineError) : Prop :=
  (device.read io).1 = .error e ∨ ∃ w, (device.write w io).1 = .error e

/-- The outcome is that of an instruction that the machine has executed at an address. -/
def Outcome.IsAt (site : Nat) : Outcome → Prop
  | .halted | .addressOverflow => True
  | .failed (.dataAddress _ k) | .failed (.zeroDivide k) => k = site
  | .failed (.stackOverflow k) | .failed (.malformed k) => k = site
  | .failed (.instructionAddress _) | .failed (.stepLimit _) => False
  | .failed (.input _) | .failed (.output _) => False

namespace Machine

section Step

variable {σ : Type} {code : Array Instr} {device : Device σ} {m m' : Machine} {io io' : σ}

/-- The machine whose program counter has moved on. -/
def advanced (m : Machine) : Machine :=
  m.setReg .pc (Int64.ofInt ((m.reg .pc).toInt + 1))

/-- Moving on does not touch the memory. -/
@[simp] theorem memory_advanced : m.advanced.memory = m.memory := rfl
/-- A store writes to one cell. -/
@[simp] theorem memory_setCell (a : Nat) (w : Word) :
    (m.setCell a w).memory = m.memory.set a w := rfl

/-- Moving on does not touch the other registers. -/
theorem reg_advanced {r : Reg} (h : r ≠ .pc) : m.advanced.reg r = m.reg r :=
  Vector.getElem_set_ne Reg.pc.isLt r.isLt fun heq => h (Fin.ext heq.symm)

/-- The next instruction follows this one. -/
theorem reg_advanced_pc : m.advanced.reg .pc = Int64.ofInt ((m.reg .pc).toInt + 1) :=
  Vector.getElem_set_self _

/-- An instruction on registers is executed once the program counter has moved on. -/
theorem step_ro_eq {op : Opcode} {r s q : Reg} {t : String}
    (h : m.current code = some (.ro op r s q t)) :
    step code device m io = stepRo device m.advanced io (m.reg .pc).toInt.toNat op r s q := by
  unfold current at h
  simp only [step, h]
  rfl

/-- An instruction on memory is executed once the program counter has moved on. -/
theorem step_rm_eq {op : Opcode} {r s : Reg} {d : Int} {t : String}
    (h : m.current code = some (.rm op r d s t)) :
    step code device m io = stepRm m.advanced io (m.reg .pc).toInt.toNat op r d s := by
  unfold current at h
  simp only [step, h]
  rfl

/-- Nothing happens where there is no instruction. -/
theorem step_of_current_none (h : m.current code = none) :
    step code device m io = ⟨some (.failed (.instructionAddress (m.reg .pc).toInt)), m, io⟩ := by
  unfold current at h
  simp only [step, h]

/-- The current instruction is the one at the program counter. -/
theorem current_eq_some_iff {i : Instr} :
    m.current code = some i ↔ 0 ≤ (m.reg .pc).toInt ∧ code[(m.reg .pc).toInt.toNat]? = some i := by
  unfold current fetch
  split
  next hpos => simp [hpos]
  next hneg => simp [hneg]

/-- There is none if the program counter is outside of the code. -/
theorem current_eq_none_iff :
    m.current code = none ↔ ¬(0 ≤ (m.reg .pc).toInt ∧ (m.reg .pc).toInt < code.size) := by
  unfold current fetch
  split
  next hpos =>
    rw [Array.getElem?_eq_none_iff]
    omega
  next hneg => simp [hneg]

/-- The program counter can move on from an instruction. An array has fewer elements than there are
words that are not negative. -/
theorem isWord_next (hsize : code.size < 2 ^ 63) {i : Instr} (h : m.current code = some i) :
    Core.IsWord ((m.reg .pc).toInt + 1) := by
  obtain ⟨hpos, hget⟩ := current_eq_some_iff.mp h
  have hlt := (Array.getElem?_eq_some_iff.mp hget).1
  exact Core.isWord_iff.mpr ⟨by omega, by omega⟩

/-! ### Instructions that stop the machine

A step fetches an instruction, moves the program counter on, and executes it. If it stops there,
nothing else has been done, whatever the reason. -/

/-- An instruction on registers that stops the machine has done nothing else. -/
theorem eq_of_stepRo_stopped {site : Nat} {op : Opcode} {r s q : Reg} {o : Outcome}
    (h : stepRo device m io site op r s q = ⟨some o, m', io'⟩) : m' = m := by
  unfold stepRo at h
  split at h
  case h_2 | h_3 | h_7 =>
    split at h <;> cases h
    rfl
  all_goals cases h <;> rfl

/-- An instruction on memory that stops the machine has done nothing else. -/
theorem eq_of_stepRm_stopped {site : Nat} {op : Opcode} {r s : Reg} {d : Int} {o : Outcome}
    (h : stepRm m io site op r d s = ⟨some o, m', io'⟩) : m' = m := by
  unfold stepRm at h
  dsimp only at h
  split at h
  · split at h
    case h_1 | h_4 | h_5 =>
      split at h <;> cases h
      rfl
    all_goals cases h
  · cases h
    rfl

/-- An instruction at which the machine stops has moved the program counter on, and nothing else. -/
theorem eq_advanced_of_stopped {i : Instr} {o : Outcome} (hi : m.current code = some i)
    (h : step code device m io = ⟨some o, m', io'⟩) : m' = m.advanced := by
  cases i with
  | ro op r s q t =>
    rw [step_ro_eq hi] at h
    exact eq_of_stepRo_stopped h
  | rm op r d s t =>
    rw [step_rm_eq hi] at h
    exact eq_of_stepRm_stopped h

/-- An instruction on registers stops because the device refuses, or for a reason of its own: it
halts, or divides by zero. -/
theorem stepRo_stopped_cases {site : Nat} {op : Opcode} {r s q : Reg} {o : Outcome}
    (h : stepRo device m io site op r s q = ⟨some o, m', io'⟩) :
    (∃ e, o = .failed e ∧ device.Refuses io e) ∨ o.IsAt site := by
  unfold stepRo at h
  split at h
  case h_2 =>
    split at h
    next => cases h
    next e _ hread =>
      cases h
      exact .inl ⟨e, rfl, .inl (congrArg Prod.fst hread)⟩
  case h_3 =>
    split at h
    next => cases h
    next e _ hwrite =>
      cases h
      exact .inl ⟨e, rfl, .inr ⟨_, congrArg Prod.fst hwrite⟩⟩
  case h_1 | h_8 =>
    cases h
    exact .inr (by simp [Outcome.IsAt])
  case h_7 =>
    split at h <;> cases h
    exact .inr rfl
  all_goals cases h

/-- An access that fails tells the address of its instruction. -/
theorem cell_eq_error {base : Reg} {address : Int} {site : Nat} {e : MachineError}
    (h : m.cell base address site = .error e) : (Outcome.failed e).IsAt site := by
  unfold cell at h
  split at h
  · cases h
    rfl
  · split at h <;> cases h
    rfl

/-- An instruction on memory stops because it may not access the cell, or names none. -/
theorem stepRm_stopped_cases {site : Nat} {op : Opcode} {r s : Reg} {d : Int} {o : Outcome}
    (h : stepRm m io site op r d s = ⟨some o, m', io'⟩) : o.IsAt site := by
  unfold stepRm at h
  dsimp only at h
  split at h
  · split at h
    case h_1 | h_4 =>
      split at h
      next => cases h
      next hcell =>
        cases h
        exact cell_eq_error hcell
    case h_5 =>
      split at h <;> cases h
      rfl
    all_goals cases h
  · cases h
    trivial

/-- A machine stops at an instruction because its device fails, or because of the instruction. -/
theorem stopped_cases {i : Instr} {o : Outcome} (hi : m.current code = some i)
    (h : step code device m io = ⟨some o, m', io'⟩) :
    (∃ e, o = .failed e ∧ device.Refuses io e) ∨ o.IsAt (m.reg .pc).toInt.toNat := by
  cases i with
  | ro op r s q t =>
    rw [step_ro_eq hi] at h
    exact stepRo_stopped_cases h
  | rm op r d s t =>
    rw [step_rm_eq hi] at h
    exact .inr (stepRm_stopped_cases h)

/-- A machine that stops keeps its memory. -/
theorem memory_step_of_stopped {o : Outcome} (h : (step code device m io).stopped = some o) :
    (step code device m io).machine.memory = m.memory := by
  rcases hstep : step code device m io with ⟨_, m', io'⟩
  rw [hstep] at h
  cases h
  cases hi : m.current code with
  | none =>
    rw [step_of_current_none hi] at hstep
    cases hstep
    rfl
  | some i =>
    rw [eq_advanced_of_stopped hi hstep]
    exact memory_advanced

/-! ### Sums that are no word

The address of an instruction is the sum of its displacement and a register. `Overflows` says that a
run gets to an instruction whose sum is no word. -/

/-- The sum that the machine's next instruction forms. -/
def Adds (code : Array Instr) (m : Machine) (a b : Int) : Prop :=
  ∃ op r s t, m.current code = some (.rm op r a s t) ∧ (m.advanced.reg s).toInt = b

/-- An instruction whose sum is no word stops the machine, whatever its operation is. -/
theorem step_of_not_isWord {a b : Int} (hadds : m.Adds code a b) (h : ¬Core.IsWord (a + b)) :
    step code device m io = ⟨some .addressOverflow, m.advanced, io⟩ := by
  obtain ⟨op, r, s, t, hi, rfl⟩ := hadds
  rw [step_rm_eq hi]
  exact if_neg h

/-- Nothing else overflows. -/
theorem stopped_ne_of_isWord (h : ∀ a b, m.Adds code a b → Core.IsWord (a + b)) :
    (step code device m io).stopped ≠ some .addressOverflow := by
  cases hi : m.current code with
  | none =>
    rw [step_of_current_none hi]
    nofun
  | some i =>
    cases i with
    | ro op r s q t =>
      rw [step_ro_eq hi]
      unfold stepRo
      split
      case h_2 | h_3 | h_7 => split <;> nofun
      all_goals nofun
    | rm op r d s t =>
      have hword : minWord ≤ d + (m.advanced.reg s).toInt ∧ d + (m.advanced.reg s).toInt ≤
          maxWord :=
        h d _ ⟨op, r, s, t, hi, rfl⟩
      rw [step_rm_eq hi]
      unfold stepRm
      dsimp only
      rw [if_pos hword]
      split
      case h_1 | h_4 | h_5 => split <;> nofun
      all_goals nofun

end Step

/-! ### Runs

A run is cut at any of its steps. What goes before is a shorter run, and what follows is a run of
the rest. -/

section Run

variable {σ : Type} {code : Array Instr} {device : Device σ} {m m' : Machine} {io io' : σ}

/-- A run goes on from where its first part has come to, unless the machine has stopped there. -/
theorem runFor_add (n k : Nat) (m : Machine) (io : σ) :
    runFor code device (n + k) m io =
      match (runFor code device n m io).stopped with
      | none =>
        runFor code device k (runFor code device n m io).machine (runFor code device n m io).io
      | some _ => runFor code device n m io := by
  induction n generalizing m io with
  | zero => rw [Nat.zero_add]; rfl
  | succ n ih =>
    rw [Nat.succ_add, runFor, runFor]
    cases hstop : (step code device m io).stopped with
    | none => simp only [ih]
    | some o => simp only [hstop]

/-- A machine that has stopped does not care about further steps. -/
theorem runFor_of_le {n steps : Nat} {o : Outcome} (hle : n ≤ steps)
    (h : runFor code device n m io = ⟨some o, m', io'⟩) :
    runFor code device steps m io = ⟨some o, m', io'⟩ := by
  obtain ⟨k, rfl⟩ := Nat.exists_eq_add_of_le hle
  simp only [runFor_add, h]

/-- The last step of a run that stops, and the state before it. -/
theorem exists_last_step {limit : Nat} {o : Outcome}
    (h : (runFor code device limit m io).stopped = some o) :
    ∃ k < limit, ∃ m' io', runFor code device k m io = ⟨none, m', io'⟩ ∧
      (step code device m' io').stopped = some o ∧
      runFor code device limit m io = step code device m' io' := by
  induction limit generalizing m io with
  | zero => cases h
  | succ limit ih =>
    rw [runFor] at h ⊢
    cases hstop : (step code device m io).stopped with
    | some o' =>
      -- the first step is the last
      simp only [hstop] at h ⊢
      exact ⟨0, Nat.succ_pos limit, m, io, rfl, hstop.trans h, rfl⟩
    | none =>
      simp only [hstop] at h ⊢
      obtain ⟨k, hk, m', io', hrun, hstep, hlast⟩ := ih h
      exact ⟨k + 1, by omega, m', io', by simp only [runFor, hstop, hrun], hstep, hlast⟩

/-- A run stops if one of its steps does. -/
theorem runFor_stopped_iff {limit : Nat} {o : Outcome} :
    (runFor code device limit m io).stopped = some o ↔
      ∃ k < limit, ∃ m' io', runFor code device k m io = ⟨none, m', io'⟩ ∧
        (step code device m' io').stopped = some o := by
  constructor
  · intro h
    obtain ⟨k, hk, m', io', hrun, hstep, -⟩ := exists_last_step h
    exact ⟨k, hk, m', io', hrun, hstep⟩
  · rintro ⟨k, hk, m', io', hrun, hstep⟩
    obtain ⟨n, rfl⟩ : ∃ n, limit = k + (n + 1) := ⟨limit - k - 1, by omega⟩
    rw [runFor_add, hrun]
    simp only [runFor, hstep]

/-- Before its limit, a run comes to an instruction that forms this sum, and the sum is no word. -/
def Overflows (code : Array Instr) (device : Device σ) (limit : Nat) (m : Machine) (io : σ)
    (a b : Int) : Prop :=
  ∃ n < limit, ∃ m' io', runFor code device n m io = ⟨none, m', io'⟩ ∧ m'.Adds code a b ∧
    ¬Core.IsWord (a + b)

/-- A run overflows at its first step or later. -/
theorem overflows_succ_iff {n : Nat} {a b : Int} :
    Overflows code device (n + 1) m io a b ↔
      (m.Adds code a b ∧ ¬Core.IsWord (a + b)) ∨
        ((step code device m io).stopped = none ∧
          Overflows code device n (step code device m io).machine
            (step code device m io).io a b) := by
  constructor
  · rintro ⟨k, hk, m', io', hrun, hadds, hword⟩
    cases k with
    | zero =>
      cases hrun
      exact .inl ⟨hadds, hword⟩
    | succ k =>
      rw [runFor] at hrun
      cases hstop : (step code device m io).stopped with
      | none =>
        simp only [hstop] at hrun
        exact .inr ⟨rfl, k, Nat.lt_of_succ_lt_succ hk, m', io', hrun, hadds, hword⟩
      | some o =>
        simp only [hstop] at hrun
        rw [hrun] at hstop
        cases hstop
  · rintro (⟨hadds, hword⟩ | ⟨hstop, k, hk, m', io', hrun, hadds, hword⟩)
    · exact ⟨0, Nat.succ_pos n, m, io, rfl, hadds, hword⟩
    · exact ⟨k + 1, Nat.succ_lt_succ hk, m', io', by simp only [runFor, hstop, hrun], hadds, hword⟩

end Run

end Machine

end MiniC
