import Mathlib.Logic.Function.Iterate
import MiniC.Machine.Tape
import MiniC.Proofs.Steps

/-!
# Runs with a limit

All that a machine knows is in its registers and its memory, and all that it sees of its device is
what the calls of the device answer. So a run that its limit has stopped can be continued by another
run, and a run that has stopped for another reason is the same with every larger limit.

* `Device.Matches`, `Machine.runFor_matches`: devices that give the same answers
* `Machine.exchanges`: the calls of the device in a run, with their answers
* `Machine.Exhausts`: the limit has stopped the run
* `Machine.exchanges_add`, `Machine.run_mul`: two runs, and any number of runs
* `run_continues`: all that a run with a larger limit does
-/

namespace MiniC

/-! ### What a machine sees of its device

Two devices that give the same answers make the same run. One of them may keep more to itself, such
as a record of what it was asked. -/

/-- A call of a device, with its answer. -/
inductive Exchange where
  | read (answer : Except MachineError Word)
  | write (w : Word) (answer : Except MachineError Unit)

namespace Device

variable {σ τ : Type}

/-- The device, with a record of the calls made of it. -/
def recorded (device : Device σ) : Device (σ × List Exchange) where
  read s := ((device.read s.1).1, (device.read s.1).2, s.2 ++ [.read (device.read s.1).1])
  write w s :=
    ((device.write w s.1).1, (device.write w s.1).2, s.2 ++ [.write w (device.write w s.1).1])

/-- Devices that give the same answers in related states, and whose states are related again
afterwards. -/
structure Matches (R : σ → τ → Prop) (d : Device σ) (e : Device τ) : Prop where
  read : ∀ {s t}, R s t → (d.read s).1 = (e.read t).1 ∧ R (d.read s).2 (e.read t).2
  write : ∀ w {s t}, R s t → (d.write w s).1 = (e.write w t).1 ∧ R (d.write w s).2 (e.write w t).2

/-- Keeping a record changes no answer, whatever is in the record already. -/
theorem matches_recorded (device : Device σ) (log : List Exchange) :
    Matches (fun s t => s.1 = t.1 ∧ s.2 = log ++ t.2) device.recorded device.recorded where
  read := by
    rintro ⟨s, _⟩ ⟨t, log'⟩ ⟨hs, hlog⟩
    obtain rfl : s = t := hs
    obtain rfl : _ = log ++ log' := hlog
    exact ⟨rfl, rfl, List.append_assoc ..⟩
  write w := by
    rintro ⟨s, _⟩ ⟨t, log'⟩ ⟨hs, hlog⟩
    obtain rfl : s = t := hs
    obtain rfl : _ = log ++ log' := hlog
    exact ⟨rfl, rfl, List.append_assoc ..⟩

/-- Recording makes no difference to the answers. -/
theorem recorded_matches (device : Device σ) :
    Matches (fun s t => s.1 = t) device.recorded device where
  read := by
    rintro s _ rfl
    exact ⟨rfl, rfl⟩
  write w := by
    rintro s _ rfl
    exact ⟨rfl, rfl⟩

/-- The device leaves it to the machine to report that a limit is reached. -/
def LeavesLimits (device : Device σ) : Prop :=
  ∀ io n, ¬device.Refuses io (.stepLimit n)

end Device

namespace Machine

/-- The same registers and memory, for the same reason, and related devices. -/
structure StepResult.Matches {σ τ : Type} (R : σ → τ → Prop) (p : StepResult σ)
    (q : StepResult τ) : Prop where
  stopped : p.stopped = q.stopped
  machine : p.machine = q.machine
  io : R p.io q.io

section Matching

variable {σ τ : Type} {code : Array Instr} {R : σ → τ → Prop} {d : Device σ} {e : Device τ}

/-- An instruction on registers does the same with both devices. -/
theorem stepRo_matches (h : d.Matches R e) {s : σ} {t : τ} (hst : R s t) (m : Machine) (site : Nat)
    (op : Opcode) (r p q : Reg) :
    (stepRo d m s site op r p q).Matches R (stepRo e m t site op r p q) := by
  cases op with
  | read =>
    obtain ⟨hanswer, hstate⟩ := h.read hst
    simp only [stepRo]
    generalize d.read s = x at hanswer hstate ⊢
    generalize e.read t = y at hanswer hstate ⊢
    obtain ⟨a, s'⟩ := x
    obtain ⟨b, t'⟩ := y
    obtain rfl : a = b := hanswer
    cases a <;> exact ⟨rfl, rfl, hstate⟩
  | write =>
    obtain ⟨hanswer, hstate⟩ := h.write (m.reg r) hst
    simp only [stepRo]
    generalize d.write (m.reg r) s = x at hanswer hstate ⊢
    generalize e.write (m.reg r) t = y at hanswer hstate ⊢
    obtain ⟨a, s'⟩ := x
    obtain ⟨b, t'⟩ := y
    obtain rfl : a = b := hanswer
    cases a <;> exact ⟨rfl, rfl, hstate⟩
  | div =>
    simp only [stepRo]
    split <;> exact ⟨rfl, rfl, hst⟩
  | _ => exact ⟨rfl, rfl, hst⟩

/-- An instruction on memory does not use the device. -/
theorem stepRm_matches {s : σ} {t : τ} (hst : R s t) (m : Machine) (site : Nat) (op : Opcode)
    (r : Reg) (n : Int) (b : Reg) :
    (stepRm m s site op r n b).Matches R (stepRm m t site op r n b) := by
  unfold stepRm
  dsimp only
  split
  · split
    case h_1 | h_4 | h_5 => split <;> exact ⟨rfl, rfl, hst⟩
    all_goals exact ⟨rfl, rfl, hst⟩
  · exact ⟨rfl, rfl, hst⟩

/-- A step does the same with both devices. -/
theorem step_matches (code : Array Instr) (h : d.Matches R e) {s : σ} {t : τ} (hst : R s t)
    (m : Machine) :
    (step code d m s).Matches R (step code e m t) := by
  cases hi : m.current code with
  | none =>
    rw [step_of_current_none hi, step_of_current_none hi]
    exact ⟨rfl, rfl, hst⟩
  | some i =>
    cases i with
    | ro op r p q c =>
      rw [step_ro_eq hi, step_ro_eq hi]
      exact stepRo_matches h hst _ _ _ _ _ _
    | rm op r n b c =>
      rw [step_rm_eq hi, step_rm_eq hi]
      exact stepRm_matches hst _ _ _ _ _ _

/-- A machine does the same with devices that give the same answers. -/
theorem runFor_matches (code : Array Instr) (h : d.Matches R e) {s : σ} {t : τ} (hst : R s t)
    (n : Nat) (m : Machine) :
    (runFor code d n m s).Matches R (runFor code e n m t) := by
  induction n generalizing m s t with
  | zero => exact ⟨rfl, rfl, hst⟩
  | succ n ih =>
    have hstep := step_matches code h hst m
    simp only [runFor]
    rw [← hstep.stopped, ← hstep.machine]
    split
    · exact hstep
    · exact ih hstep.io _

/-- What every call of the device preserves, a run preserves. The device is compared with itself, in
equal states of which the property holds. -/
theorem io_runFor {P : σ → Prop} (hread : ∀ s, P s → P (d.read s).2)
    (hwrite : ∀ w s, P s → P (d.write w s).2) (code : Array Instr) {s : σ} (hs : P s) (n : Nat)
    (m : Machine) : P (runFor code d n m s).io := by
  have hmatches : d.Matches (fun s t => s = t ∧ P s) d := by
    constructor
    · rintro s _ ⟨rfl, h⟩
      exact ⟨rfl, rfl, hread s h⟩
    · rintro w s _ ⟨rfl, h⟩
      exact ⟨rfl, rfl, hwrite w s h⟩
  exact (runFor_matches code hmatches ⟨rfl, hs⟩ n m).io.2

end Matching

/-- A result without the record of a device is that of the device. -/
theorem StepResult.Matches.eq {σ : Type} {p : StepResult (σ × List Exchange)} {q : StepResult σ}
    (h : p.Matches (fun s t => s.1 = t) q) : q = ⟨p.stopped, p.machine, p.io.1⟩ := by
  obtain ⟨stopped, machine, io⟩ := q
  obtain ⟨hstopped, hmachine, hio⟩ := h
  rw [hstopped, hmachine, hio]

section Limits

variable {σ : Type} {code : Array Instr} {device : Device σ} {m : Machine} {io : σ}

/-! ### The calls in a run

The record of a run starts empty, and is taken off the device that keeps it. -/

/-- The calls of the device in a run, in order. -/
def exchanges (code : Array Instr) (device : Device σ) (limit : Nat) (m : Machine) (io : σ) :
    List Exchange :=
  (run code device.recorded limit m (io, [])).io.2

/-- A run that is recorded is the same run, and the calls are added to the record. -/
theorem runFor_recording (code : Array Instr) (device : Device σ) (n : Nat) (m : Machine) (io : σ)
    (log : List Exchange) :
    runFor code device.recorded n m (io, log) =
      ⟨(runFor code device n m io).stopped, (runFor code device n m io).machine,
        (runFor code device n m io).io, log ++ exchanges code device n m io⟩ := by
  have hplain := runFor_matches code device.recorded_matches (s := (io, log)) rfl n m
  have hlog := runFor_matches code (device.matches_recorded log) (s := (io, log))
    (t := (io, [])) ⟨rfl, (List.append_nil log).symm⟩ n m
  generalize runFor code device.recorded n m (io, log) = x at hplain hlog ⊢
  obtain ⟨stopped, machine, io', log'⟩ := x
  obtain ⟨rfl, rfl, rfl⟩ := hplain
  rw [show log' = log ++ exchanges code device n m io from hlog.io.2]

/-! ### Limits that are reached

A run that is stopped by its limit can go on; every other run cannot. The machine reports which it
is by its outcome, unless a device gives that outcome as an error of its own. -/

/-- The run has executed all the instructions that its limit allows, and is stopped by it. -/
def Exhausts (code : Array Instr) (device : Device σ) (limit : Nat) (m : Machine) (io : σ) : Prop :=
  (runFor code device limit m io).stopped = none

instance (code : Array Instr) (device : Device σ) (limit : Nat) (m : Machine) (io : σ) :
    Decidable (Exhausts code device limit m io) :=
  inferInstanceAs (Decidable (_ = none))

/-- A run that reaches its limit says so. -/
theorem Exhausts.run_eq {limit : Nat} (h : Exhausts code device limit m io) :
    run code device limit m io = ⟨.failed (.stepLimit limit),
      (runFor code device limit m io).machine, (runFor code device limit m io).io⟩ := by
  unfold Exhausts at h
  simp only [run, h, Option.getD_none]

/-- The machine reports a limit that is reached, and nothing else does. -/
theorem exhausts_iff (hdevice : device.LeavesLimits) {limit : Nat} :
    Exhausts code device limit m io ↔
      ∃ n, (run code device limit m io).outcome = .failed (.stepLimit n) := by
  constructor
  · intro h
    exact ⟨limit, by rw [h.run_eq]⟩
  · rintro ⟨n, hn⟩
    by_contra hne
    -- then some step has this outcome, but neither an instruction nor the device names a limit
    obtain ⟨o, ho⟩ := Option.ne_none_iff_exists'.mp hne
    simp only [run, ho, Option.getD_some] at hn
    subst hn
    obtain ⟨k, -, m', io', -, hstep, -⟩ := exists_last_step ho
    rcases hlast : step code device m' io' with ⟨_, m'', io''⟩
    rw [hlast] at hstep
    cases hstep
    cases hi : m'.current code with
    | none =>
      rw [step_of_current_none hi] at hlast
      cases hlast
    | some i =>
      rcases stopped_cases hi hlast with ⟨e, heq, hrefuses⟩ | hat
      · cases heq
        exact hdevice _ _ hrefuses
      · exact hat

/-! ### Runs that follow each other

The state that a run leaves is where the next one starts. By induction on the number of runs. -/

/-- Such a run goes on where it was stopped. -/
theorem Exhausts.runFor_add {n : Nat} (h : Exhausts code device n m io) (k : Nat) :
    runFor code device (n + k) m io = runFor code device k (run code device n m io).machine
      (run code device n m io).io := by
  unfold Exhausts at h
  rw [Machine.runFor_add]
  simp only [h]
  rfl

/-- Any other run is not changed by a larger limit. -/
theorem runFor_of_not_exhausts {n : Nat} (h : ¬Exhausts code device n m io) (k : Nat) :
    runFor code device (n + k) m io = runFor code device n m io := by
  obtain ⟨o, ho⟩ := Option.ne_none_iff_exists'.mp h
  rw [Machine.runFor_add]
  simp only [ho]

/-- Nor is what it reports. -/
theorem run_of_not_exhausts {n : Nat} (h : ¬Exhausts code device n m io) (k : Nat) :
    run code device (n + k) m io = run code device n m io := by
  obtain ⟨o, ho⟩ := Option.ne_none_iff_exists'.mp h
  simp only [run, runFor_of_not_exhausts h, ho, Option.getD_some]

/-- A run and its continuation reach their limit if the continuation does. -/
theorem Exhausts.add_iff {n : Nat} (h : Exhausts code device n m io) (k : Nat) :
    Exhausts code device (n + k) m io ↔ Exhausts code device k (run code device n m io).machine
      (run code device n m io).io := by
  unfold Exhausts
  rw [Exhausts.runFor_add h]

/-- A continued run makes the calls of its second part after those of the first. -/
theorem Exhausts.exchanges_add {n : Nat} (h : Exhausts code device n m io) (k : Nat) :
    exchanges code device (n + k) m io = exchanges code device n m io ++
      exchanges code device k (run code device n m io).machine (run code device n m io).io := by
  -- the device that keeps a record takes the same steps, so its run is cut at the same place
  have hfirst := runFor_recording code device n m io []
  have hrecorded : Exhausts code device.recorded n m (io, []) := by
    unfold Exhausts at h ⊢
    rw [hfirst, h]
  have hrest := runFor_recording code device k
    (run code device n m io).machine (run code device n m io).io (exchanges code device n m io)
  have hwhole := hrecorded.runFor_add k
  simp only [run, hfirst, List.nil_append] at hwhole hrest
  rw [hrest] at hwhole
  exact congrArg (fun r => r.io.2) hwhole

/-- A run that has ended makes no more calls. -/
theorem exchanges_of_not_exhausts {n : Nat} (h : ¬Exhausts code device n m io) (k : Nat) :
    exchanges code device (n + k) m io = exchanges code device n m io := by
  have hrecorded : ¬Exhausts code device.recorded n m (io, []) := by
    unfold Exhausts at h ⊢
    rw [runFor_recording]
    exact h
  exact congrArg (fun r => r.io.2) (runFor_of_not_exhausts hrecorded k)

/-- A machine and its device after a run. -/
def after (code : Array Instr) (device : Device σ) (limit : Nat) (s : Machine × σ) : Machine × σ :=
  ((run code device limit s.1 s.2).machine, (run code device limit s.1 s.2).io)

/-- Runs that reach their limits one after the other are one run. -/
theorem run_mul {limit k : Nat} {s : Machine × σ}
    (h : ∀ i < k, Exhausts code device limit ((after code device limit)^[i] s).1
      ((after code device limit)^[i] s).2) :
    Exhausts code device (k * limit) s.1 s.2 ∧
      after code device (k * limit) s = (after code device limit)^[k] s := by
  induction k with
  | zero =>
    rw [Nat.zero_mul]
    exact ⟨rfl, rfl⟩
  | succ k ih =>
    -- the first `k` runs are one run that reaches its limit, and the last goes on from there
    obtain ⟨hexhausts, hafter⟩ := ih fun i hi => h i (Nat.lt_succ_of_lt hi)
    have hlast := h k (Nat.lt_succ_self k)
    rw [← hafter] at hlast
    rw [Nat.succ_mul, Function.iterate_succ_apply', ← hafter]
    have hrun := hexhausts.runFor_add limit
    exact ⟨(hexhausts.add_iff limit).mpr hlast,
      Prod.ext (congrArg StepResult.machine hrun) (congrArg StepResult.io hrun)⟩

end Limits

end Machine

/-- The outcome, whatever limit it names. -/
def Outcome.uncounted : Outcome → Outcome
  | .failed (.stepLimit _) => .failed (.stepLimit 0)
  | o => o

namespace Machine

section Continued

variable {σ : Type} {code : Array Instr} {device : Device σ} {m : Machine} {io : σ}

/-- A continued run ends as a single one does, but for the count of its steps. -/
theorem Exhausts.uncounted_run {n : Nat} (h : Exhausts code device n m io) (k : Nat) :
    (run code device (n + k) m io).outcome.uncounted =
      (run code device k (run code device n m io).machine
        (run code device n m io).io).outcome.uncounted := by
  have hrun := h.runFor_add k
  simp only [run] at hrun ⊢
  rw [hrun]
  cases (runFor code device k _ _).stopped <;> rfl

end Continued

end Machine

/-- Runs compose. If its limit stops a run, a second run from where the first one has come to makes
the same calls of the device as one run with both limits makes after those of the first, and ends
with the same registers and memory and, apart from the limit that is named, with the same outcome.
Any number of runs with one limit that are all stopped by it are one run. If a run ends for another
reason, it is the same with every larger limit. A run is stopped by its limit exactly if it says so,
unless the device itself reports a limit. -/
theorem run_continues {σ : Type} (code : Array Instr) (device : Device σ) (m : Machine) (io : σ)
    (a : Nat) :
    (Machine.Exhausts code device a m io → ∀ b,
      let first := Machine.run code device a m io
      let second := Machine.run code device b first.machine first.io
      let whole := Machine.run code device (a + b) m io
      whole.machine = second.machine ∧ whole.io = second.io ∧
        whole.outcome.uncounted = second.outcome.uncounted ∧
        Machine.exchanges code device (a + b) m io = Machine.exchanges code device a m io ++
          Machine.exchanges code device b first.machine first.io) ∧
    (¬Machine.Exhausts code device a m io → ∀ b,
      Machine.run code device (a + b) m io = Machine.run code device a m io ∧
        Machine.exchanges code device (a + b) m io = Machine.exchanges code device a m io) ∧
    (∀ k, (∀ i < k, Machine.Exhausts code device a ((Machine.after code device a)^[i] (m, io)).1
        ((Machine.after code device a)^[i] (m, io)).2) →
      Machine.run code device (k * a) m io = ⟨.failed (.stepLimit (k * a)),
        ((Machine.after code device a)^[k] (m, io)).1,
        ((Machine.after code device a)^[k] (m, io)).2⟩) ∧
    (device.LeavesLimits → (Machine.Exhausts code device a m io ↔
      ∃ n, (Machine.run code device a m io).outcome = .failed (.stepLimit n))) := by
  refine ⟨fun h b => ?_, fun h b => ?_, fun k h => ?_, fun h => Machine.exhausts_iff h⟩
  · have hrun := h.runFor_add b
    exact ⟨congrArg Machine.StepResult.machine hrun, congrArg Machine.StepResult.io hrun,
      h.uncounted_run b, h.exchanges_add b⟩
  · exact ⟨Machine.run_of_not_exhausts h b, Machine.exchanges_of_not_exhausts h b⟩
  · obtain ⟨hexhausts, hafter⟩ := Machine.run_mul (s := (m, io)) h
    rw [← hafter]
    exact hexhausts.run_eq

/-- Reads words and writes them, for ever. -/
def echoCode : Array Instr :=
  #[.ro .read .ac .unused .unused "", .ro .write .ac .unused .unused "", .rm .lda .pc (-3) .pc ""]

/-- Two words to read. -/
def echoTape : Tape :=
  .ofList [5, -1] none

/-- A tape fails only because there is nothing to read, or no room to write. -/
theorem Tape.eq_of_refuses {t : Tape} {e : MachineError} (h : Tape.device.Refuses t e) :
    e = .input "input exhausted" ∨ e = .output "closed" := by
  rcases h with hread | ⟨w, hwrite⟩
  · simp only [Tape.device, Tape.read] at hread
    split at hread <;> cases hread
    exact .inl rfl
  · simp only [Tape.device, Tape.write] at hwrite
    split at hwrite <;> cases hwrite
    exact .inr rfl

/-- A tape reports its own errors only. -/
theorem leavesLimits_tape : Tape.device.LeavesLimits := by
  intro t n h
  rcases Tape.eq_of_refuses h with h | h <;> cases h

/-- A run that is stopped while it copies the second word, and goes on until there is no third. -/
theorem run_continues_echo :
    let first := Machine.run echoCode Tape.device 4 (Machine.init 16) echoTape
    let second := Machine.run echoCode Tape.device 10 first.machine first.io
    let whole := Machine.run echoCode Tape.device 14 (Machine.init 16) echoTape
    Machine.Exhausts echoCode Tape.device 4 (Machine.init 16) echoTape ∧
      first.outcome = .failed (.stepLimit 4) ∧ second.io.output = #[5, -1] ∧
      second.outcome = .failed (.input "input exhausted") ∧
      whole.machine = second.machine ∧ whole.io = second.io ∧
      whole.outcome.uncounted = second.outcome.uncounted ∧
      ¬Machine.Exhausts echoCode Tape.device 14 (Machine.init 16) echoTape ∧
      Machine.run echoCode Tape.device (14 + 6) (Machine.init 16) echoTape = whole ∧
      (Machine.run echoCode Tape.device (2 * 3) (Machine.init 16) echoTape).outcome
        = .failed (.stepLimit 6) ∧
      Tape.device.LeavesLimits := by
  obtain ⟨hfirst, -, -, hiff⟩ :=
    run_continues echoCode Tape.device (Machine.init 16) echoTape 4
  have hreached : Machine.Exhausts echoCode Tape.device 4 (Machine.init 16) echoTape :=
    (hiff leavesLimits_tape).mpr ⟨4, by decide +kernel⟩
  have hended : ¬Machine.Exhausts echoCode Tape.device 14 (Machine.init 16) echoTape := by
    decide +kernel
  have hrounds : ∀ i < 2, Machine.Exhausts echoCode Tape.device 3
      ((Machine.after echoCode Tape.device 3)^[i] (Machine.init 16, echoTape)).1
      ((Machine.after echoCode Tape.device 3)^[i] (Machine.init 16, echoTape)).2 := by
    decide +kernel
  obtain ⟨-, hwhole, -, -⟩ := run_continues echoCode Tape.device (Machine.init 16) echoTape 14
  obtain ⟨-, -, hmul, -⟩ := run_continues echoCode Tape.device (Machine.init 16) echoTape 3
  obtain ⟨hmachine, hio, houtcome, -⟩ := hfirst hreached 10
  exact ⟨hreached, by decide +kernel, by decide +kernel, by decide +kernel, hmachine, hio,
    houtcome, hended, (hwhole hended 6).1, congrArg Machine.RunResult.outcome (hmul 2 hrounds),
    leavesLimits_tape⟩

end MiniC
