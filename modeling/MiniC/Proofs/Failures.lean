import MiniC.Proofs.Careful
import MiniC.Proofs.Limits

/-!
# Failing instructions

An instruction that fails has moved the program counter on, and nothing else: the registers, the
memory and the words that were written are those of the instructions before it. A machine whose
program counter points to no instruction has not even done that.

* `Machine.outputs`: the words that the device has taken in a run
* `Machine.exists_stopping_step`: the step at which a run stops, and what was written before
* `Machine.Lost`, `Machine.StoppedAt`: the two ways in which a run ends before its limit
* `run_failures`: every run of any code
-/

namespace MiniC

/-! ### The words that a device has taken

The recorded exchanges of a run list every call of the device with its answer. A word counts as
written if the answer was not an error, so the last call of a run that fails there adds none. -/

/-- The word of a call that writes, if the device has taken it. -/
def Exchange.output? : Exchange → Option Word
  | .write w (.ok _) => some w
  | _ => none

namespace Machine

section Outputs

variable {σ : Type} {code : Array Instr} {device : Device σ} {m m' : Machine} {io io' : σ}

/-- The words that the device has taken in a run, in order. -/
def outputs (code : Array Instr) (device : Device σ) (limit : Nat) (m : Machine) (io : σ) :
    List Word :=
  (exchanges code device limit m io).filterMap Exchange.output?

theorem outputs_stepRo_of_stopped {site : Nat} {op : Opcode} {r s q : Reg} {o : Outcome}
    {log : List Exchange} {x : σ × List Exchange}
    (h : stepRo device.recorded m (io, log) site op r s q = ⟨some o, m', x⟩) :
    x.2.filterMap Exchange.output? = log.filterMap Exchange.output? := by
  cases op with
  | read =>
    simp only [stepRo, Device.recorded] at h
    generalize device.read io = y at h
    obtain ⟨a, io'⟩ := y
    cases a with
    | ok w => cases h
    | error e =>
      cases h
      simp [Exchange.output?]
  | write =>
    simp only [stepRo, Device.recorded] at h
    generalize device.write (m.reg r) io = y at h
    obtain ⟨a, io'⟩ := y
    cases a with
    | ok w => cases h
    | error e =>
      cases h
      simp [Exchange.output?]
  | div =>
    simp only [stepRo] at h
    split at h <;> cases h
    rfl
  | _ => cases h <;> rfl

theorem io_stepRm (site : Nat) (op : Opcode) (r : Reg) (d : Int) (s : Reg) :
    (stepRm m io site op r d s).io = io :=
  (stepRm_matches (R := fun x _ => x = io) (t := io) rfl m site op r d s).io

/-- A call that fails writes nothing. -/
theorem outputs_step_of_stopped {o : Outcome} {log : List Exchange} {x : σ × List Exchange}
    (h : step code device.recorded m (io, log) = ⟨some o, m', x⟩) :
    x.2.filterMap Exchange.output? = log.filterMap Exchange.output? := by
  cases hi : m.current code with
  | none =>
    rw [step_of_current_none hi] at h
    cases h
    rfl
  | some i =>
    cases i with
    | ro op r s q t =>
      rw [step_ro_eq hi] at h
      exact outputs_stepRo_of_stopped h
    | rm op r d s t =>
      rw [step_rm_eq hi] at h
      have hio : (stepRm m.advanced (io, log) (m.reg .pc).toInt.toNat op r d s).io = (io, log) :=
        io_stepRm ..
      rw [h] at hio
      rw [show x = (io, log) from hio]

/-- The last step of a run that its limit has not stopped. What the device has taken by then, it has
taken from the steps before. -/
theorem exists_stopping_step {limit : Nat} (h : ¬Exhausts code device limit m io) :
    ∃ n < limit, ∃ m' io' o m'' io'', runFor code device n m io = ⟨none, m', io'⟩ ∧
      step code device m' io' = ⟨some o, m'', io''⟩ ∧
      runFor code device limit m io = ⟨some o, m'', io''⟩ ∧
      outputs code device limit m io = outputs code device n m io := by
  obtain ⟨o, ho⟩ := Option.ne_none_iff_exists'.mp h
  -- the recorded run stops at the same step, and its record shows what was written before
  have hwhole := runFor_recording code device limit m io []
  have hstopped : (runFor code device.recorded limit m (io, [])).stopped = some o := by
    rw [hwhole, ho]
  obtain ⟨n, hn, m', ⟨io', log⟩, hrun, hstop, hlast⟩ := exists_last_step hstopped
  rw [hwhole, ho] at hlast
  rw [runFor_recording] at hrun
  simp only [StepResult.mk.injEq, Prod.mk.injEq, List.nil_append] at hrun
  obtain ⟨hnone, hm, hio, hlog⟩ := hrun
  have houtputs := outputs_step_of_stopped hlast.symm
  have hstep := (step_matches code device.recorded_matches (s := (io', log)) rfl m').eq
  rw [← hlast] at hstep
  refine ⟨n, hn, m', io', o, (runFor code device limit m io).machine,
    (runFor code device limit m io).io, ?_, hstep, ?_, ?_⟩
  · rw [← hnone, ← hm, ← hio]
  · rw [← ho]
  · unfold outputs
    rw [hlog]
    exact houtputs

end Outputs

/-! ### How a run ends

A run that ends before its limit ends at one step. Either no instruction could be fetched there, or
there was one and it stopped the machine. -/

section Ends

variable {σ : Type} {code : Array Instr} {device : Device σ} {m m' : Machine} {io io' : σ}

/-- A run completes `n` instructions, and the device takes nothing but what it takes from these. -/
structure Completes (code : Array Instr) (device : Device σ) (limit : Nat) (m : Machine) (io : σ)
    (n : Nat) (m' : Machine) (io' : σ) : Prop where
  lt : n < limit
  run : runFor code device n m io = ⟨none, m', io'⟩
  outputs : outputs code device limit m io = outputs code device n m io

/-- The machine stopped because there is no instruction where the program counter points to, and has
done nothing. -/
structure Lost (code : Array Instr) (m : Machine) (io : σ) (result : RunResult σ) : Prop where
  outside : ¬(0 ≤ (m.reg .pc).toInt ∧ (m.reg .pc).toInt < code.size)
  unchanged : result = ⟨.failed (.instructionAddress (m.reg .pc).toInt), m, io⟩

/-- The machine stopped at instruction `k`, and has moved the program counter on and done nothing
else. -/
structure StoppedAt (code : Array Instr) (device : Device σ) (m : Machine) (io : σ)
    (result : RunResult σ) (k : Nat) : Prop where
  inside : k < code.size
  site : (m.reg .pc).toInt = k
  cause : (∃ e, result.outcome = .failed e ∧ device.Refuses io e) ∨ result.outcome.IsAt k
  memory : result.machine.memory = m.memory
  registers : ∀ r ≠ .pc, result.machine.reg r = m.reg r
  counter : (result.machine.reg .pc).toInt = k + 1

theorem lost_of_step {o : Outcome} (hi : m.current code = none)
    (h : step code device m io = ⟨some o, m', io'⟩) : Lost code m io ⟨o, m', io'⟩ := by
  rw [step_of_current_none hi] at h
  cases h
  exact ⟨current_eq_none_iff.mp hi, rfl⟩

theorem stoppedAt_of_step (hsize : code.size < 2 ^ 63) {i : Instr} {o : Outcome}
    (hi : m.current code = some i) (h : step code device m io = ⟨some o, m', io'⟩) :
    StoppedAt code device m io ⟨o, m', io'⟩ (m.reg .pc).toInt.toNat := by
  obtain ⟨hpos, hget⟩ := current_eq_some_iff.mp hi
  have hcause := stopped_cases hi h
  obtain rfl := eq_advanced_of_stopped hi h
  exact
    { inside := (Array.getElem?_eq_some_iff.mp hget).1
      site := (Int.toNat_of_nonneg hpos).symm
      cause := hcause
      memory := memory_advanced
      registers := fun r hr => reg_advanced hr
      counter := by
        rw [reg_advanced_pc, Core.toInt_ofInt_of_isWord (isWord_next hsize hi),
          Int.toNat_of_nonneg hpos] }

/-- A run that its limit does not stop ends in one of two ways. -/
theorem exists_completes (hsize : code.size < 2 ^ 63) {limit : Nat}
    (h : ¬Exhausts code device limit m io) :
    ∃ n m' io', Completes code device limit m io n m' io' ∧
      (Lost code m' io' (run code device limit m io) ∨
        ∃ k, StoppedAt code device m' io' (run code device limit m io) k) := by
  obtain ⟨n, hn, m', io', o, m'', io'', hrun, hstep, hlast, houtputs⟩ := exists_stopping_step h
  have hresult : run code device limit m io = ⟨o, m'', io''⟩ := by
    simp only [run, hlast, Option.getD_some]
  refine ⟨n, m', io', ⟨hn, hrun, houtputs⟩, ?_⟩
  rw [hresult]
  cases hi : m'.current code with
  | none => exact .inl (lost_of_step hi hstep)
  | some i => exact .inr ⟨_, stoppedAt_of_step hsize hi hstep⟩

/-- The machine reports an instruction address because it is lost there, if its device reports
none. -/
theorem exists_lost (hsize : code.size < 2 ^ 63) {limit : Nat} {v : Int}
    (hdevice : ∀ io, ¬device.Refuses io (.instructionAddress v))
    (h : (run code device limit m io).outcome = .failed (.instructionAddress v)) :
    ∃ n m' io', Completes code device limit m io n m' io' ∧ (m'.reg .pc).toInt = v ∧
      Lost code m' io' (run code device limit m io) := by
  have hlimit : ¬Exhausts code device limit m io := by
    intro hexhausts
    rw [hexhausts.run_eq] at h
    cases h
  obtain ⟨n, m', io', hcompletes, hlost | ⟨k, hstopped⟩⟩ := exists_completes hsize hlimit
  · have hcounter := h
    rw [hlost.unchanged] at hcounter
    cases hcounter
    exact ⟨n, m', io', hcompletes, rfl, hlost⟩
  · rcases hstopped.cause with ⟨e, he, hrefuses⟩ | hat
    · rw [h] at he
      cases he
      exact absurd hrefuses (hdevice io')
    · rw [h] at hat
      exact hat.elim

end Ends

end Machine

/-- A run that its limit does not stop has completed some instructions. Either the program counter
then points to no instruction, and nothing has changed; or the machine has stopped at the next one,
and only the program counter has moved on. The machine overflows exactly where the sum that gives an
instruction its address is no word, and every other operation of every run has a result. The address
behind the last instruction is a word, since no array is longer than that. -/
theorem run_failures {σ : Type} (code : Array Instr) (hsize : code.size < 2 ^ 63)
    (device : Device σ) (limit : Nat) (m : Machine) (io : σ) :
    let result := Machine.run code device limit m io
    (¬Machine.Exhausts code device limit m io →
      ∃ n m' io', Machine.Completes code device limit m io n m' io' ∧
        (Machine.Lost code m' io' result ∨ ∃ k, Machine.StoppedAt code device m' io' result k)) ∧
    (∀ v, result.outcome = .failed (.instructionAddress v) →
      (∀ io, ¬device.Refuses io (.instructionAddress v)) →
      ∃ n m' io', Machine.Completes code device limit m io n m' io' ∧ (m'.reg .pc).toInt = v ∧
        Machine.Lost code m' io' result) ∧
    (result.outcome = .addressOverflow ↔
      ∃ a b, Machine.Overflows code device limit m io a b) ∧
    (∀ a b, Machine.Overflows code device limit m io a b →
      Careful.run code device limit (m, io) = (.error (.sum a b), result.machine, result.io)) ∧
    ((∀ a b, ¬Machine.Overflows code device limit m io a b) →
      Careful.run code device limit (m, io) = (.ok result.outcome, result.machine, result.io)) := by
  refine ⟨?_, ?_, Careful.overflows_iff hsize, ?_, ?_⟩
  · exact Machine.exists_completes hsize
  · intro v houtcome hdevice
    exact Machine.exists_lost hsize hdevice houtcome
  · intro a b h
    exact (Careful.run_of_overflows hsize h).1
  · intro h
    exact (Careful.run_of_not_overflows hsize h).1

/-- Writes a word, and then has an operation in the wrong form. -/
def brokenCode : Array Instr :=
  #[.ro .write .ac .unused .unused "", .rm .halt .ac 1 .ac1 ""]

/-- A machine with this program counter and this second accumulator. -/
def brokenStart (counter base : Word) : Machine :=
  ((Machine.init 1).setReg .pc counter).setReg .ac1 base

/-- The second instruction overflows if the second accumulator holds the largest word, and is
malformed otherwise. A machine that starts behind it is lost. -/
theorem run_failures_broken :
    let run counter base :=
      Machine.run brokenCode Tape.device 9 (brokenStart counter base) (.ofList [] none)
    let careful counter base :=
      (Careful.run brokenCode Tape.device 9 (brokenStart counter base, .ofList [] none)).1
    let largest := Int64.ofInt Machine.maxWord
    brokenCode.size < 2 ^ 63 ∧ (run 0 largest).outcome = .addressOverflow ∧
      (∃ a b, Machine.Overflows brokenCode Tape.device 9 (brokenStart 0 largest) (.ofList [] none)
        a b ∧ careful 0 largest = .error (.sum a b)) ∧
      (run 0 0).outcome = .failed (.malformed 1) ∧
      careful 0 0 = .ok (.failed (.malformed 1)) ∧
      (∃ n m' io' k, Machine.Completes brokenCode Tape.device 9 (brokenStart 0 0) (.ofList [] none)
        n m' io' ∧ Machine.StoppedAt brokenCode Tape.device m' io' (run 0 0) k) ∧
      (∃ n m' io', Machine.Completes brokenCode Tape.device 9 (brokenStart 2 0) (.ofList [] none)
        n m' io' ∧ (m'.reg .pc).toInt = 2 ∧ Machine.Lost brokenCode m' io' (run 2 0)) := by
  have hsize : brokenCode.size < 2 ^ 63 := by decide
  have hoverflow : (Machine.run brokenCode Tape.device 9
      (brokenStart 0 (Int64.ofInt Machine.maxWord)) (.ofList [] none)).outcome
        = .addressOverflow := by
    decide +kernel
  have hmalformed : (Machine.run brokenCode Tape.device 9 (brokenStart 0 0)
      (.ofList [] none)).outcome = .failed (.malformed 1) := by
    decide +kernel
  have hlost : (Machine.run brokenCode Tape.device 9 (brokenStart 2 0)
      (.ofList [] none)).outcome = .failed (.instructionAddress 2) := by
    decide +kernel
  obtain ⟨-, -, hsum, hcareful, -⟩ := run_failures brokenCode hsize Tape.device 9
    (brokenStart 0 (Int64.ofInt Machine.maxWord)) (.ofList [] none)
  obtain ⟨a, b, hab⟩ := hsum.mp hoverflow
  obtain ⟨hends, -, hnone, -, hresults⟩ := run_failures brokenCode hsize Tape.device 9
    (brokenStart 0 0) (.ofList [] none)
  have hno : ∀ a b, ¬Machine.Overflows brokenCode Tape.device 9 (brokenStart 0 0) (.ofList [] none)
      a b := by
    intro a b h
    rw [hnone.mpr ⟨a, b, h⟩] at hmalformed
    cases hmalformed
  -- the run with a malformed instruction is over before its limit, at an instruction that is there
  have hlimit : ¬Machine.Exhausts brokenCode Tape.device 9 (brokenStart 0 0) (.ofList [] none) := by
    decide +kernel
  obtain ⟨-, haddress, -, -, -⟩ := run_failures brokenCode hsize Tape.device 9 (brokenStart 2 0)
    (.ofList [] none)
  have hdevice : ∀ t, ¬Tape.device.Refuses t (.instructionAddress 2) := by
    intro t h
    rcases Tape.eq_of_refuses h with h | h <;> cases h
  obtain ⟨n, m', io', hcompletes, hlostAt | ⟨k, hstopped⟩⟩ := hends hlimit
  · have hcounter := hmalformed
    rw [hlostAt.unchanged] at hcounter
    cases hcounter
  · refine ⟨hsize, hoverflow, ⟨a, b, hab, ?_⟩, hmalformed, ?_,
      ⟨n, m', io', k, hcompletes, hstopped⟩, haddress 2 hlost hdevice⟩
    · exact congrArg Prod.fst (hcareful a b hab)
    · exact (congrArg Prod.fst (hresults hno)).trans (congrArg Except.ok hmalformed)

end MiniC
