import MiniC.Proofs.Safety.Programs
import MiniC.Proofs.Steps

/-!
# Reported faults

Cell 0 holds the address of the last cell when the machine is new. The program clears it when it
starts, and stores a code in it when an index is out of bounds. Cell 0 is an ordinary cell, at the
end where the frames grow to, but nothing else is ever stored in it: the fault that is found there
when a run ends is the one that the run has come upon.

* `Machine.executed`: the addresses of the instructions that a run has executed
* `Recorded`: what cell 0 holds after these instructions
* `Recording.step_cases`, `Safe.reported`: what a step and a run of a safe program do to cell 0
* `fault_recorded`: cell 0 in every run of a compiled program
-/

namespace MiniC

/-! ### What a step does to the memory

Only stores change the memory, and each of them one cell. -/

namespace Machine

section Step

variable {σ : Type} {code : Array Instr} {device : Device σ} {m m' : Machine} {io io' : σ}

/-- The addresses of the instructions that a run has executed after at most `n` steps, in order. An
instruction at which the machine stops is not among them. -/
def executed (code : Array Instr) (device : Device σ) : Nat → Machine → σ → List Int
  | 0, _, _ => []
  | n + 1, m, io =>
    let result := step code device m io
    match result.stopped with
    | some _ => []
    | none => (m.reg .pc).toInt :: executed code device n result.machine result.io

/-- An instruction on registers keeps the memory. -/
theorem memory_stepRo (site : Nat) (op : Opcode) (r s q : Reg) :
    (stepRo device m io site op r s q).machine.memory = m.memory := by
  unfold stepRo
  split
  case h_2 | h_3 => split <;> rfl
  case h_7 => split <;> rfl
  all_goals rfl

/-- An instruction on memory that is no store keeps it too. -/
theorem memory_stepRm {site : Nat} {op : Opcode} (hop : op ≠ .st) (r : Reg) (d : Int) (s : Reg) :
    (stepRm m io site op r d s).machine.memory = m.memory := by
  unfold stepRm
  dsimp only
  split
  · split
    · split <;> rfl
    · rfl
    · rfl
    · exact absurd rfl hop
    · split <;> rfl
  · rfl

/-- A store reaches the cell that it names, or the machine stops with its memory as it was. -/
theorem stepRm_st (site : Nat) (r : Reg) (d : Int) (s : Reg) :
    ((stepRm m io site .st r d s).stopped = none ∧ 0 ≤ d + (m.reg s).toInt ∧
        (stepRm m io site .st r d s).machine = m.setCell (d + (m.reg s).toInt).toNat (m.reg r)) ∨
      ((stepRm m io site .st r d s).stopped ≠ none ∧
        (stepRm m io site .st r d s).machine = m) := by
  unfold stepRm cell
  dsimp only
  split
  · split
    · rename_i a ha
      split at ha
      · cases ha
      · split at ha
        · rename_i hrange
          cases ha
          exact Or.inl ⟨rfl, hrange.1, rfl⟩
        · cases ha
    · exact Or.inr ⟨Option.some_ne_none _, rfl⟩
  · exact Or.inr ⟨Option.some_ne_none _, rfl⟩

/-- Nothing but a store changes the memory. -/
theorem memory_step_of_stored_none (h : m.stored? code = none) :
    (step code device m io).machine.memory = m.memory := by
  cases hcur : m.current code with
  | none => rw [step_of_current_none hcur]
  | some i =>
    cases i with
    | ro op r s q t => rw [step_ro_eq hcur, memory_stepRo, memory_advanced]
    | rm op r d s t =>
      have hop : op ≠ .st := by
        rintro rfl
        simp only [stored?, hcur] at h
        cases h
      rw [step_rm_eq hcur, memory_stepRm hop, memory_advanced]

/-- What a store does when the machine goes on. -/
theorem step_store {r s : Reg} {d : Int} {t : String} (h : m.current code = some (.rm .st r d s t))
    (hs : s ≠ .pc) (hstep : step code device m io = ⟨none, m', io'⟩) :
    0 ≤ d + (m.reg s).toInt ∧
      m' = m.advanced.setCell (d + (m.reg s).toInt).toNat (m.advanced.reg r) := by
  rw [step_rm_eq h] at hstep
  rcases stepRm_st (m.reg .pc).toInt.toNat r d s with ⟨-, hpos, hm⟩ | ⟨hstop, -⟩
  · rw [hstep, reg_advanced hs] at hm
    rw [reg_advanced hs] at hpos
    exact ⟨hpos, hm⟩
  · rw [hstep] at hstop
    exact absurd rfl hstop

/-- A step that does not store to cell 0 keeps it. -/
theorem get_step_of_stored_ne (hbase : ∀ r d s t, m.current code = some (.rm .st r d s t) → s ≠ .pc)
    (h : m.stored? code ≠ some 0) (hstep : step code device m io = ⟨none, m', io'⟩) :
    m'.memory.get 0 = m.memory.get 0 := by
  cases hstored : m.stored? code with
  | none =>
    have hmemory : (step code device m io).machine.memory = m.memory :=
      memory_step_of_stored_none hstored
    rw [hstep] at hmemory
    rw [hmemory]
  | some x =>
    unfold stored? at hstored
    split at hstored
    · rename_i r d s t hcur
      obtain ⟨hpos, hm⟩ := step_store hcur (hbase r d s t hcur) hstep
      have hx : d + (m.reg s).toInt ≠ 0 := by
        intro heq
        simp only [stored?, hcur, heq] at h
        exact h rfl
      rw [hm, memory_setCell, Memory.get_set, if_neg (by omega), memory_advanced]
    · cases hstored

/-! ### Runs

The addresses of the executed instructions are listed beside the run. -/

/-- The instruction of a step is listed first, and then those of the rest of the run. -/
theorem executed_of_step (h : step code device m io = ⟨none, m', io'⟩) (n : Nat) :
    executed code device (n + 1) m io = (m.reg .pc).toInt :: executed code device n m' io' := by
  simp only [executed, h]

/-- An instruction that stops the machine is the last one listed. -/
theorem executed_of_stopped {n : Nat} {o : Outcome} (h : (step code device m io).stopped = some o) :
    executed code device n m io = [] := by
  cases n with
  | zero => rfl
  | succ n => simp only [executed, h]

/-- A run that stops at once keeps the memory. -/
theorem memory_runFor_of_stopped {n : Nat} {o : Outcome}
    (h : (step code device m io).stopped = some o) :
    (runFor code device n m io).machine.memory = m.memory := by
  cases n with
  | zero => rfl
  | succ n =>
    simp only [runFor, h]
    exact memory_step_of_stopped h

end Step

end Machine

/-! ### Cell 0

`Reported` says what cell 0 holds after instructions at these addresses: zero, or the number of the
fault whose stub has stored it. -/

/-- The two faults are recorded at different addresses. -/
theorem recordSite_injective {fault fault' : BoundsFault}
    (h : (recordSite fault : Int) = recordSite fault') : fault = fault' := by
  cases fault <;> cases fault' <;> first | rfl | exact absurd h (by decide)

/-- Where cell 0 is cleared no fault is recorded. -/
theorem recordSite_ne_clearSite (fault : BoundsFault) : (recordSite fault : Int) ≠ clearSite := by
  cases fault <;> decide

/-- No fault is recorded directly behind another. -/
theorem recordSite_ne_succ (fault fault' : BoundsFault) :
    (recordSite fault : Int) ≠ recordSite fault' + 1 := by
  cases fault <;> cases fault' <;> decide

/-- What cell 0 holds after the instructions at the addresses `sites`, if it was zero before. -/
structure Reported (sites : List Int) (w : Word) : Prop where
  none : (∀ fault, (recordSite fault : Int) ∉ sites) → w = 0
  some : ∀ fault, (recordSite fault : Int) ∈ sites → w = Int64.ofInt fault.code

namespace Reported

variable {site : Int} {sites : List Int} {w : Word}

/-- At first it is zero. -/
theorem nil : Reported [] 0 :=
  ⟨fun _ => rfl, fun _ hmem => absurd hmem List.not_mem_nil⟩

/-- Before an instruction that records nothing. -/
theorem cons (h : Reported sites w) (hne : ∀ fault, site ≠ recordSite fault) :
    Reported (site :: sites) w := by
  refine ⟨fun hall => h.none fun fault hmem => hall fault (List.mem_cons_of_mem site hmem), ?_⟩
  intro fault hmem
  rcases List.mem_cons.mp hmem with heq | hmem
  · exact absurd heq.symm (hne fault)
  · exact h.some fault hmem

/-- From where a fault is recorded. Only the report of the fault follows. -/
theorem record {fault : BoundsFault} (hsites : ∀ site ∈ sites, site = recordSite fault + 1) :
    Reported (recordSite fault :: sites) (Int64.ofInt fault.code) := by
  refine ⟨fun hall => absurd List.mem_cons_self (hall fault), ?_⟩
  intro fault' hmem
  rcases List.mem_cons.mp hmem with heq | hmem
  · rw [recordSite_injective heq]
  · exact absurd (hsites _ hmem) (recordSite_ne_succ fault' fault)

end Reported

/-- What cell 0 of a new machine with so much memory holds after the instructions at the addresses
`sites`. -/
structure Recorded (memory : Nat) (sites : List Int) (w : Word) : Prop where
  fresh : (clearSite : Int) ∉ sites → w = Int64.ofInt (max memory 1 - 1 : Nat)
  cleared : (clearSite : Int) ∈ sites → (∀ fault, (recordSite fault : Int) ∉ sites) → w = 0
  recorded : ∀ fault, (recordSite fault : Int) ∈ sites → w = Int64.ofInt fault.code

namespace Recorded

variable {memory : Nat} {sites : List Int} {w : Word}

/-- Before cell 0 is cleared. -/
theorem of_fresh (hsites : ∀ site ∈ sites, site < clearSite) :
    Recorded memory sites (Int64.ofInt (max memory 1 - 1 : Nat)) := by
  have hnone : ∀ n : Nat, clearSite ≤ n → (n : Int) ∉ sites := fun n hn hmem => by
    have := hsites _ hmem
    omega
  refine ⟨fun _ => rfl, fun hmem => absurd hmem (hnone clearSite (Nat.le_refl _)),
    fun fault hmem => absurd hmem (hnone _ ?_)⟩
  cases fault <;> decide

/-- Once cell 0 is cleared. -/
theorem of_reported (hclear : (clearSite : Int) ∈ sites) (h : Reported sites w) :
    Recorded memory sites w :=
  ⟨fun hnot => absurd hclear hnot, fun _ => h.none, h.some⟩

/-- The code of a fault is neither zero nor the address of a cell nor the code of another fault. -/
theorem mem_of_code {fault : BoundsFault} (h : Recorded memory sites (Int64.ofInt fault.code))
    (hmemory : memory < 2 ^ 60) : (recordSite fault : Int) ∈ sites := by
  have hcode : (Int64.ofInt fault.code).toInt = fault.code := by cases fault <;> decide
  have hneg : fault.code < 0 := by cases fault <;> decide
  by_cases hsome : ∃ fault', (recordSite fault' : Int) ∈ sites
  · obtain ⟨fault', hmem⟩ := hsome
    have hcodes := h.recorded fault' hmem
    have heq : fault = fault' := by
      revert hcodes
      cases fault <;> cases fault' <;> decide
    rw [heq]
    exact hmem
  · by_cases hclear : (clearSite : Int) ∈ sites
    · have hzero := h.cleared hclear (not_exists.mp hsome)
      rw [hzero] at hcode
      exact absurd (show (0 : Int) = fault.code from hcode) (by omega)
    · have hlast : max memory 1 - 1 < 2 ^ 60 := by omega
      have hfresh := h.fresh hclear
      generalize max memory 1 - 1 = last at hlast hfresh
      rw [hfresh, Core.toInt_ofInt_of_isWord (Core.isWord_iff.mpr ⟨by omega, by omega⟩)] at hcode
      exact absurd hneg (hcode ▸ Int.not_lt.mpr (Int.natCast_nonneg last))

end Recorded

/-- A fault is reported exactly if cell 0 holds its code. -/
theorem Machine.fault_eq_some_iff {m : Machine} {fault : BoundsFault} :
    m.fault = some fault ↔ m.memory.get 0 = Int64.ofInt fault.code := by
  have hword : (Int64.ofInt fault.code).toInt = fault.code := by
    cases fault <;> decide
  rw [← Int64.toInt_inj, hword]
  unfold Machine.fault
  cases fault <;> simp only <;> grind [BoundsFault.code]

section Recording

variable {σ : Type} {P : Scene σ} {w : Watched σ} {book : Book}

/-- A step that goes on keeps cell 0, clears it, or records a fault there. -/
theorem Recording.step_cases (h : Recording P w) (hP : P.Fits) {t : String}
    (hclear : P.code[clearSite]? = some (.rm .st .ac 0 .ac t)) {m : Machine} {io : σ}
    (hstep : P.step w.machine w.io = ⟨none, m, io⟩) :
    ((∀ fault, (w.machine.reg .pc).toInt ≠ recordSite fault) ∧
        (m.memory.get 0 = w.machine.memory.get 0 ∨ m.memory.get 0 = 0)) ∨
      ∃ fault, (w.machine.reg .pc).toInt = recordSite fault ∧
        m.memory.get 0 = Int64.ofInt fault.code ∧
        m.reg .pc = Int64.ofInt (recordSite fault + 1 : Nat) := by
  by_cases hzero : w.machine.stored? P.code.toArray = some 0
  -- only two instructions store to cell 0, and what they store is known
  · rcases h.stores hzero (congrArg Machine.StepResult.stopped hstep) with
      ⟨hpc, hac⟩ | ⟨fault, hpc, hac⟩
    · have hcur := current_of_pc hpc hclear
      obtain ⟨-, rfl⟩ := Machine.step_store hcur (h.base _ _ _ _ hcur) hstep
      have hne : ∀ fault, (w.machine.reg .pc).toInt ≠ recordSite fault :=
        fun fault hsite => recordSite_ne_clearSite fault (hsite.symm.trans hpc)
      refine Or.inl ⟨hne, Or.inr ?_⟩
      rw [Machine.memory_setCell, Memory.get_set, Machine.reg_advanced (by decide), hac]
      rfl
    · have hcur := current_of_pc hpc (hP.record_instr fault)
      obtain ⟨-, rfl⟩ := Machine.step_store hcur (h.base _ _ _ _ hcur) hstep
      have hx : 0 + (w.machine.reg .ac1).toInt = 0 := by
        simpa only [Machine.stored?, hcur, Option.some.injEq] using hzero
      refine Or.inr ⟨fault, hpc, ?_, ?_⟩
      · rw [Machine.memory_setCell, Memory.get_set, hx, Machine.reg_advanced (by decide), hac]
        rfl
      · show w.machine.advanced.reg .pc = _
        rw [Machine.reg_advanced_pc, hpc]
        rfl
  · exact Or.inl ⟨fun fault hpc => hzero (h.records fault hpc),
      Or.inl (Machine.get_step_of_stored_ne h.base hzero hstep)⟩

/-- Behind the store the stub writes the fault and halts. -/
theorem Scene.Fits.report_instr (hP : P.Fits) (fault : BoundsFault) :
    P.code[recordSite fault + 1]? = some (.ro .write .ac .unused .unused "report fault code") ∧
      P.code[recordSite fault + 2]? = some (.ro .halt .unused .unused .unused "") := by
  cases fault
  · exact ⟨hP.routines 10 (by decide), hP.routines 11 (by decide)⟩
  · exact ⟨hP.routines 15 (by decide), hP.routines 16 (by decide)⟩

/-- The addresses of a stub are small, so a register holds them as they are. -/
theorem toInt_recordSite (fault : BoundsFault) (k : Nat) (hk : k ≤ 2) :
    (Int64.ofInt (recordSite fault + k : Nat)).toInt = (recordSite fault + k : Nat) := by
  have hsite : recordSite fault ≤ 18 := by cases fault <;> decide
  exact Core.toInt_pc (by omega)

/-- Once a fault is recorded it is written, and the machine halts. -/
theorem runFor_recorded (hP : P.Fits) {m : Machine} {fault : BoundsFault}
    (hpc : m.reg .pc = Int64.ofInt (recordSite fault + 1 : Nat)) (io : σ) (n : Nat) :
    (Machine.runFor P.code.toArray P.device n m io).machine.memory = m.memory ∧
      ∀ site ∈ Machine.executed P.code.toArray P.device n m io, site = recordSite fault + 1 := by
  obtain ⟨hwrite, hhalt⟩ := hP.report_instr fault
  have hsite : (m.reg .pc).toInt = (recordSite fault + 1 : Nat) := by
    rw [hpc]
    exact toInt_recordSite fault 1 (by decide)
  rcases hstep : P.step m io with ⟨_ | o, m', io'⟩
  · cases n with
    | zero => exact ⟨rfl, fun site hmem => absurd hmem List.not_mem_nil⟩
    | succ n =>
      -- the device may refuse the code, but it cannot change the machine
      have hm : m' = m.advanced := by
        unfold Scene.step at hstep
        rw [Machine.step_ro_eq (current_of_pc hsite hwrite)] at hstep
        unfold Machine.stepRo at hstep
        dsimp only at hstep
        split at hstep <;> cases hstep
        rfl
      have hsite' : (m'.reg .pc).toInt = (recordSite fault + 2 : Nat) := by
        rw [hm, Machine.reg_advanced_pc, hsite]
        exact toInt_recordSite fault 2 (by decide)
      have hhalted : (P.step m' io').stopped = some .halted := by
        unfold Scene.step
        rw [Machine.step_ro_eq (current_of_pc hsite' hhalt)]
        rfl
      rw [Machine.runFor_of_step hstep, Machine.executed_of_step hstep,
        Machine.executed_of_stopped hhalted, Machine.memory_runFor_of_stopped hhalted, hsite, hm]
      exact ⟨rfl, fun site hmem => List.mem_singleton.mp hmem⟩
  · have hstop : (P.step m io).stopped = some o := congrArg Machine.StepResult.stopped hstep
    rw [Machine.executed_of_stopped hstop]
    exact ⟨Machine.memory_runFor_of_stopped hstop, fun site hmem => absurd hmem List.not_mem_nil⟩

/-- A safe run goes on to a safe state. -/
theorem Safe.next (hsafe : ∀ n, Safe P n w book) {m : Machine} {io : σ}
    (hstep : P.step w.machine w.io = ⟨none, m, io⟩) : ∀ n, Safe P n
      ⟨m, io, w.shadow.step P.code.toArray P.marks w.machine⟩ (P.note w.machine book) := by
  intro n
  apply (hsafe (n + 1)).2
  unfold Scene.step at hstep
  simp only [Watched.next, hstep]

/-- Cell 0 of a safe run that starts with this cell cleared. -/
theorem Safe.reported (hsafe : ∀ n, Safe P n w book) (hP : P.Fits) {t : String}
    (hclear : P.code[clearSite]? = some (.rm .st .ac 0 .ac t))
    (hzero : w.machine.memory.get 0 = 0) (n : Nat) :
    Reported (Machine.executed P.code.toArray P.device n w.machine w.io)
      ((Machine.runFor P.code.toArray P.device n w.machine w.io).machine.memory.get 0) := by
  induction n generalizing w book with
  | zero =>
    rw [Machine.runFor, hzero]
    exact .nil
  | succ n ih =>
    rcases hstep : P.step w.machine w.io with ⟨_ | o, m, io⟩
    · rw [Machine.runFor_of_step hstep, Machine.executed_of_step hstep]
      rcases (hsafe 1).1.recording.step_cases hP hclear hstep with
        ⟨hne, hkept⟩ | ⟨fault, hpc, hcell, hnext⟩
      · have hzero' : m.memory.get 0 = 0 := by
          rcases hkept with hkept | hkept
          · rw [hkept, hzero]
          · exact hkept
        exact (ih (Safe.next hsafe hstep) hzero').cons hne
      · -- only the report of the fault is left
        obtain ⟨hmemory, hsites⟩ := runFor_recorded hP hnext io n
        rw [hmemory, hcell, hpc]
        exact .record hsites
    · have hstop : (P.step w.machine w.io).stopped = some o :=
        congrArg Machine.StepResult.stopped hstep
      rw [Machine.executed_of_stopped hstop, Machine.memory_runFor_of_stopped hstop, hzero]
      exact .nil

end Recording

/-! ### All runs

A compiled program is safe, so the step lemmas apply to every state of every run of it. -/

section Runs

variable {σ : Type}

/-- Cell 0 after any number of steps of a compiled program. The first three are always the same. -/
theorem Compiles.recorded {source : String} {tree : Program} {code : List Instr}
    (h : Compiles source tree code) (device : Device σ) {memory : Nat}
    (hmemory : memory < Memory.sizeLimit) (io : σ) (n : Nat) :
    Recorded memory (Machine.executed code.toArray device n (Machine.init memory) io)
      ((Machine.runFor code.toArray device n (Machine.init memory) io).machine.memory.get 0) := by
  obtain ⟨G, is, main, globals, hprogram, hsafe₀⟩ := h.safe device hmemory io
  unfold Memory.sizeLimit at hmemory
  have hP := hprogram.fits device (memory - 1) (by omega)
  have hstartup := hprogram.image.startup
  rw [Watched.start, Machine.init_eq] at hsafe₀
  rw [Machine.init_eq]
  have hsize : code.toArray.size < 2 ^ 31 := hprogram.image.size
  have hstep₀ : Machine.step code.toArray device
      (Core.mk 0 0 0 0 0 (Memory.fresh (memory - 1))).machine io = _ :=
    Core.step_startup_gp hsize (code_at (hstartup 0 (by decide)))
  have hstep₁ : Machine.step code.toArray device
      (Core.mk 1 0 0 0 (memory - 1 : Nat) (Memory.fresh (memory - 1))).machine io = _ :=
    Core.step_startup_fp hsize (by omega) (code_at (hstartup 1 (by decide)))
  have hstep₂ : Machine.step code.toArray device
      (Core.mk 2 0 0 (memory - 1 : Nat) (memory - 1 : Nat) (Memory.fresh (memory - 1))).machine io
        = _ :=
    Core.step_startup_clear hsize rfl (code_at (hstartup 2 (by decide)))
  have hfresh : (Memory.fresh (memory - 1)).get 0 = Int64.ofInt (max memory 1 - 1 : Nat) := by
    rw [Memory.fresh, Memory.get_set, if_pos rfl, show max memory 1 - 1 = memory - 1 by omega]
  -- cell 0 is cleared by the third step, and the run from there is that of a safe program
  rcases n with _ | _ | _ | n
  · show Recorded memory [] ((Memory.fresh (memory - 1)).get 0)
    rw [hfresh]
    exact .of_fresh (fun site hmem => absurd hmem List.not_mem_nil)
  · rw [Machine.executed_of_step hstep₀, Machine.runFor_of_step hstep₀]
    show Recorded memory [0] ((Memory.fresh (memory - 1)).get 0)
    rw [hfresh]
    exact .of_fresh (by decide)
  · rw [Machine.executed_of_step hstep₀, Machine.executed_of_step hstep₁,
      Machine.runFor_of_step hstep₀, Machine.runFor_of_step hstep₁]
    show Recorded memory [0, 1] ((Memory.fresh (memory - 1)).get 0)
    rw [hfresh]
    exact .of_fresh (by decide)
  · have hsafe₃ := Safe.next (Safe.next (Safe.next hsafe₀ hstep₀) hstep₁) hstep₂
    have hreported := Safe.reported hsafe₃ hP (hstartup 2 (by decide))
      (Memory.read_fresh_clear _ 0) n
    rw [Machine.executed_of_step hstep₀, Machine.executed_of_step hstep₁,
      Machine.executed_of_step hstep₂, Machine.runFor_of_step hstep₀, Machine.runFor_of_step hstep₁,
      Machine.runFor_of_step hstep₂]
    have hne : ∀ k : Nat, k ≤ 2 → ∀ fault, (k : Int) ≠ recordSite fault := by
      intro k hk fault
      have hlow : 2 < recordSite fault := by cases fault <;> decide
      omega
    exact .of_reported (List.mem_cons_of_mem _ (List.mem_cons_of_mem _ List.mem_cons_self))
      (((hreported.cons (hne 2 (by decide))).cons (hne 1 (by decide))).cons (hne 0 (by decide)))

/-- In every run of a compiled program cell 0 holds the address of the last cell until it is
cleared, zero until a fault is recorded, and from then on the code of the fault. So a run reports a
fault exactly if the instruction that records it was executed. -/
theorem fault_recorded {source : String} {tree : Program} {code : List Instr}
    (h : Compiles source tree code) (device : Device σ) {memory : Nat}
    (hmemory : memory < Memory.sizeLimit) (io : σ) :
    code[clearSite]? = some (.rm .st .ac 0 .ac "clear location 0") ∧
    (∀ fault, code[recordSite fault]? = some (.rm .st .ac 0 .ac1 "record fault in location 0")) ∧
    (∀ n, Recorded memory (Machine.executed code.toArray device n (Machine.init memory) io)
      ((Machine.runFor code.toArray device n (Machine.init memory) io).machine.memory.get 0)) ∧
    ∀ limit fault,
      (Machine.run code.toArray device limit (Machine.init memory) io).machine.fault = some fault ↔
        (recordSite fault : Int) ∈ Machine.executed code.toArray device limit
          (Machine.init memory) io
    := by
  obtain ⟨G, is, main, globals, hprogram, -⟩ := h.safe device hmemory io
  have hrecorded := h.recorded device hmemory io
  unfold Memory.sizeLimit at hmemory
  have hP := hprogram.fits device (memory - 1) (by omega)
  refine ⟨hprogram.image.startup 2 (by decide), hP.record_instr, hrecorded, fun limit fault => ?_⟩
  rw [Machine.fault_eq_some_iff]
  refine ⟨fun hcell => ?_, (hrecorded limit).recorded fault⟩
  have hat := hrecorded limit
  rw [show (Machine.runFor code.toArray device limit (Machine.init memory) io).machine.memory.get 0
    = Int64.ofInt fault.code from hcell] at hat
  exact hat.mem_of_code hmemory

end Runs

/-- A program that stores beyond the last element of an array. -/
def strayingSource : String :=
  "void main(void) { int a[2]; output(-1000000); a[2] = 1; }"

/-- Whether the straying program records a fault within a hundred steps. -/
def strayingRecords (fault : BoundsFault) : Option Bool :=
  (compile? strayingSource).map fun (_, code) => decide ((recordSite fault : Int) ∈
    Machine.executed code.toArray Tape.device 100 (Machine.init 64) (Tape.ofList [] none))

/-- A program that reads an element below its array records the fault. -/
theorem exists_strayingRecords : ∃ tree code, Compiles strayingSource tree code ∧
    (recordSite .upper : Int) ∈
      Machine.executed code.toArray Tape.device 100 (Machine.init 64) (Tape.ofList [] none) := by
  have hascii : Ascii strayingSource _ := ⟨rfl, rfl⟩
  have hrecords : strayingRecords .upper = some true := by
    rw [strayingRecords, compile?, parse, hascii.scan_eq]
    decide +kernel
  have hshort : strayingSource.utf8ByteSize < 2 ^ 27 := by
    rw [hascii.utf8ByteSize_eq]
    decide +kernel
  obtain ⟨⟨tree, code⟩, hcompile, hmem⟩ := Option.map_eq_some_iff.mp hrecords
  exact ⟨tree, code, compiles_of_compile? hshort hcompile, of_decide_eq_true hmem⟩

/-- The theorem at work on that program. -/
theorem fault_recorded_straying : ∃ tree code, Compiles strayingSource tree code ∧
    (Machine.run code.toArray Tape.device 100 (Machine.init 64) (Tape.ofList [] none)).machine.fault
      = some .upper := by
  obtain ⟨tree, code, h, hmem⟩ := exists_strayingRecords
  have hmemory : 64 < Memory.sizeLimit := by decide
  obtain ⟨-, -, -, hfault⟩ := fault_recorded h Tape.device hmemory (Tape.ofList [] none)
  exact ⟨tree, code, h, (hfault 100 .upper).mpr hmem⟩

end MiniC
