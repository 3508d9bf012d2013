import MiniC.Machine.Tape
import MiniC.Proofs.Functions
import MiniC.Proofs.Meaning.Evaluation

/-!
# Runs that agree with a computation

A machine is compared with a computation that stands for the rest of the program. The two agree if
the machine stops as the computation ends, and has written the same words by then. A machine may
also run out of memory first, but only if it has no more cells than the program may need.

* `Agrees`: how a machine stops when an evaluation has come to its end
* `Runs`: the machine agrees with a computation from here on
* `Runs.step`: an instruction that the computation knows nothing about
-/

namespace MiniC

/-! ### Agreement

How a machine may stop for each way in which an evaluation may end. If the memory may be too small
for the program, the machine may also stop for want of it, with a part of the outputs. -/

/-- How a machine stops when an evaluation has come to its end: the words that it has written, and
the fault that is recorded. The code of a fault is also written. -/
inductive Agrees {α : Type} (r : Result α) : Outcome → Option BoundsFault → List Word → Prop where
  | halted {a : α} {w : World} (h : r.ending = .done a w) : Agrees r .halted none r.outputs
  | bounds {fault : BoundsFault} (h : r.ending = .stopped (.bounds fault)) :
      Agrees r .halted (some fault) (r.outputs ++ [Int64.ofInt fault.code])
  | zeroDivide (site : Nat) (h : r.ending = .stopped .zeroDivide) :
      Agrees r (.failed (.zeroDivide site)) none r.outputs
  | noInput (h : r.ending = .stopped .noInput) :
      Agrees r (.failed (.input "input exhausted")) none r.outputs

/-- One more word is written by both. -/
theorem Agrees.cons {α : Type} {outputs : List Word} {ending : Ending α} {o : Outcome}
    {fault : Option BoundsFault} {out : List Word} (h : Agrees ⟨outputs, ending⟩ o fault out)
    (a : Word) : Agrees ⟨a :: outputs, ending⟩ o fault (a :: out) := by
  cases h with
  | halted h => exact .halted h
  | bounds h => exact .bounds h
  | zeroDivide site h => exact .zeroDivide site h
  | noInput h => exact .noInput h

/-- How a machine stops that has run out of memory. -/
def Overflows {α : Type} (r : Result α) (o : Outcome) (outputs : List Word) : Prop :=
  (∃ site, o = .failed (.stackOverflow site)) ∧ outputs <+: r.outputs

/-- A compiled program and a machine for it. -/
structure Stage where
  tree : Program
  code : List Instr
  /-- The global scope, and the global names with their objects. -/
  scope : ScopeTable
  names : Env
  /-- The most rounds of a loop. -/
  limit : Nat
  /-- The last cell of the memory. -/
  top : Int
  /-- A memory whose last cell lies above this one has room for the program. -/
  cap : Int

namespace Stage

/-- The meaning of calls that are nested at most `depth` deep. -/
def call (P : Stage) (depth : Nat) : Callees :=
  P.tree.call P.names P.limit depth

/-- The code and the memory are not too large, and the fixed code is there. -/
structure Fits (P : Stage) : Prop where
  routines : Holds P.code inputEntry routines
  code_lt : P.code.length < 2 ^ 31
  pool_lt : ∀ x ∈ P.tree.pool, x.2 < P.code.length
  top_nonneg : 0 ≤ P.top
  top_lt : P.top < 2 ^ 60
  output : P.scope.Signature "output" .void [.int]

theorem Fits.size_lt {P : Stage} (h : P.Fits) : P.code.toArray.size < 2 ^ 31 :=
  h.code_lt

/-- Executes an instruction. -/
def step (P : Stage) (m : Machine) (t : Tape) : Machine.StepResult Tape :=
  Machine.step P.code.toArray Tape.device m t

/-- The machine stops as the evaluation ends, after it has written the same words, or it has run
out of memory. -/
def Ends {α : Type} (P : Stage) (r : Result α) (m : Machine) (t : Tape) : Prop :=
  ∃ n o m' t' outputs, Machine.runFor P.code.toArray Tape.device n m t = ⟨some o, m', t'⟩ ∧
    t'.output.toList = t.output.toList ++ outputs ∧
    (Agrees r o m'.fault outputs ∨ P.top ≤ P.cap ∧ Overflows r o outputs)

section Ends

variable {P : Stage} {α : Type} {r : Result α} {m m' : Machine} {t t' : Tape}

/-- A machine that stops at once. -/
theorem Ends.stop {o : Outcome} {outputs : List Word} (hstep : P.step m t = ⟨some o, m', t'⟩)
    (hout : t'.output.toList = t.output.toList ++ outputs)
    (h : Agrees r o m'.fault outputs ∨ P.top ≤ P.cap ∧ Overflows r o outputs) : P.Ends r m t := by
  refine ⟨1, o, m', t', outputs, ?_, hout, h⟩
  unfold step at hstep
  simp only [Machine.runFor, hstep]

/-- A machine that executes an instruction and then stops as it should. -/
theorem Ends.go (hstep : P.step m t = ⟨none, m', t'⟩) (hout : t'.output = t.output)
    (h : P.Ends r m' t') : P.Ends r m t := by
  obtain ⟨n, o, m₁, t₁, outputs, hrun, hout₁, hends⟩ := h
  refine ⟨n + 1, o, m₁, t₁, outputs, ?_, by rw [hout₁, hout], hends⟩
  unfold step at hstep
  simp only [Machine.runFor, hstep]
  exact hrun

/-- A machine that writes the next word of the evaluation. -/
theorem Ends.write {a : Word} {outputs : List Word} {ending : Ending α}
    (hstep : P.step m t = ⟨none, m', t'⟩) (hout : t'.output = t.output.push a)
    (h : P.Ends ⟨outputs, ending⟩ m' t') : P.Ends ⟨a :: outputs, ending⟩ m t := by
  obtain ⟨n, o, m₁, t₁, more, hrun, hout₁, hends⟩ := h
  refine ⟨n + 1, o, m₁, t₁, a :: more, ?_, ?_, ?_⟩
  · unfold step at hstep
    simp only [Machine.runFor, hstep]
    exact hrun
  · rw [hout₁, hout, Array.toList_push, List.append_assoc]
    rfl
  · rcases hends with hagrees | ⟨hcap, hsite, hprefix⟩
    · exact Or.inl (hagrees.cons a)
    · exact Or.inr ⟨hcap, hsite, List.cons_prefix_cons.mpr ⟨rfl, hprefix⟩⟩

end Ends

end Stage

/-! ### Runs

`Runs` relates a state of the machine to the computation that is left. A step of the machine keeps
the computation, or takes one step of it. -/

/-- From here on, the machine agrees with a computation in a world, if that comes to an end. -/
def Runs {α : Type} (P : Stage) (c : Core) (w : World) (x : Eval α) : Prop :=
  ∀ written, (x w).settled = true → P.Ends (x w) c.machine ⟨w.input, written, none⟩

namespace Eval

variable {α β : Type}

/-- A computation that writes nothing before the rest. -/
theorem bind_quiet {x : Eval α} {w w' : World} {a : α} (h : x w = ⟨[], .done a w'⟩)
    (f : α → Eval β) : (x >>= f) w = f a w' := by
  rw [bind_done h]
  rfl

theorem stop_bind (why : Stop) (f : α → Eval β) : stop why >>= f = stop why := by
  funext w
  exact bind_stopped rfl f

end Eval

section Runs

variable {P : Stage} {α β : Type} {c c' : Core} {w w' : World} {x y : Eval α}

/-- The computation may take steps of its own. -/
theorem Runs.of_eq (h : Runs P c w' y) (hinput : w'.input = w.input) (heq : x w = y w') :
    Runs P c w x := by
  intro written hsettled
  rw [heq] at hsettled ⊢
  rw [← hinput]
  exact h written hsettled

/-- The computation does nothing that the machine could see before the rest. -/
theorem Runs.quiet {y : Eval β} {b : β} {f : β → Eval α} (hy : y w = ⟨[], .done b w'⟩)
    (hinput : w'.input = w.input) (h : Runs P c w' (f b)) : Runs P c w (y >>= f) :=
  h.of_eq hinput (Eval.bind_quiet hy f)

/-- Nothing is said about a computation that does not come to an end. -/
theorem Runs.unsettled (h : (x w).settled = false) : Runs P c w x := by
  intro written hsettled
  rw [h] at hsettled
  cases hsettled

theorem Runs.undefined {f : β → Eval α} : Runs P c w (Eval.stop .undefined >>= f) := by
  rw [Eval.stop_bind]
  exact .unsettled rfl

/-- The machine executes an instruction. -/
theorem Runs.step (hstep : ∀ t, P.step c.machine t = ⟨none, c'.machine, t⟩) (h : Runs P c' w x) :
    Runs P c w x := by
  intro written hsettled
  exact .go (hstep _) rfl (h written hsettled)

/-- The machine has run out of memory. -/
theorem Runs.overflow (hcap : P.top ≤ P.cap)
    (hstep : ∀ t, P.step c.machine t = ⟨some (.failed (.stackOverflow c.pc)), c'.machine, t⟩) :
    Runs P c w x := by
  intro written _
  have hnone : (Tape.mk w.input written none).output.toList
      = (Tape.mk w.input written none).output.toList ++ [] := by
    rw [List.append_nil]
  exact .stop (hstep _) hnone (Or.inr ⟨hcap, ⟨c.pc, rfl⟩, List.nil_prefix⟩)

/-- The machine stops where the computation does. -/
theorem Runs.stops {o : Outcome} (hstep : ∀ t, P.step c.machine t = ⟨some o, c'.machine, t⟩)
    (h : Agrees (x w) o c'.machine.fault []) : Runs P c w x := by
  intro written _
  have hnone : (Tape.mk w.input written none).output.toList
      = (Tape.mk w.input written none).output.toList ++ [] := by
    rw [List.append_nil]
  exact .stop (hstep _) hnone (Or.inl h)

end Runs

end MiniC
