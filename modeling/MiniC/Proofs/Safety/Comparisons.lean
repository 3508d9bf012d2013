import MiniC.Proofs.Safety.Passages

/-!
# Comparisons

A comparison subtracts the right operand from the left one and looks at the sign of the difference.
The machine's difference wraps around, so its sign is the wrong one when the difference is no word:
an operator that asks for the order of its operands then gets the opposite answer. Equality does
not depend on the sign.

The answer one is a constant, and the machine has the difference in the accumulator when it loads
the constant. So it stops if the difference is the largest word.

* `BinaryOp.comparison?`, `BinaryOp.answer`: what is asked, and what is answered
* `BinaryOp.jumps?_difference`: the jump on the sign of the difference
* `comparison_answered`: every comparison in a run of a compiled program
* `not_comparisons_exact`: a program that asks whether the largest word is less than minus one
-/

namespace MiniC

/-! ### Questions and answers

A comparison is decided by the sign of a difference of words, which may wrap around. The answer is
that of the numbers unless it does. -/

namespace BinaryOp

/-- What an operator asks of two numbers if it compares them. -/
def comparison? : BinaryOp → Option (Int → Int → Bool)
  | .less => some fun u v => u < v
  | .lessEqual => some fun u v => u ≤ v
  | .greater => some fun u v => v < u
  | .greaterEqual => some fun u v => v ≤ u
  | .equal => some fun u v => u = v
  | .notEqual => some fun u v => u ≠ v
  | _ => none

/-- Whether the operator asks for the order of its operands. -/
def ordered : BinaryOp → Bool
  | .less | .lessEqual | .greater | .greaterEqual => true
  | _ => false

/-- What generated code answers to a question about two words. -/
def answer (op : BinaryOp) (holds : Int → Int → Bool) (u v : Word) : Bool :=
  if op.ordered = true ∧ ¬Core.IsWord (u.toInt - v.toInt) then !holds u.toInt v.toInt
  else holds u.toInt v.toInt

/-- An ordering is affirmed exactly if it holds and the difference is a word, or neither. -/
theorem answer_of_ordered {op : BinaryOp} (h : op.ordered = true) (holds : Int → Int → Bool)
    (u v : Word) :
    op.answer holds u v
      = decide (holds u.toInt v.toInt = true ↔ Core.IsWord (u.toInt - v.toInt)) := by
  unfold answer
  by_cases hword : Core.IsWord (u.toInt - v.toInt)
  · simp [hword]
  · simp [hword, h]

/-- The jump is taken on the difference of two words exactly if the answer is yes. -/
theorem jumps?_difference {op : BinaryOp} {holds : Int → Int → Bool}
    (h : op.comparison? = some holds) (u v : Word) :
    ∃ jump, op.combination = .comparison jump ∧
      Machine.jumps? jump (u - v) = some (op.answer holds u v) := by
  have hu := u.toInt_lt
  have hu' := u.le_toInt
  have hv := v.toInt_lt
  have hv' := v.le_toInt
  have hzero : (0 : Word).toInt = 0 := rfl
  have hdiff := Core.toInt_sub_cases u v
  rw [Core.isWord_iff] at hdiff
  -- a difference that wraps around is off by `2 ^ 64`, and has the opposite sign
  cases op <;> cases h
  case less =>
    refine ⟨.jlt, rfl, congrArg some ?_⟩
    rw [answer_of_ordered rfl, decide_eq_decide, decide_eq_true_iff, Int64.lt_iff_toInt_lt, hzero,
      Core.isWord_iff]
    omega
  case lessEqual =>
    refine ⟨.jle, rfl, congrArg some ?_⟩
    rw [answer_of_ordered rfl, decide_eq_decide, decide_eq_true_iff, Int64.le_iff_toInt_le, hzero,
      Core.isWord_iff]
    omega
  case greater =>
    refine ⟨.jgt, rfl, congrArg some ?_⟩
    rw [answer_of_ordered rfl, decide_eq_decide, decide_eq_true_iff, Int64.lt_iff_toInt_lt, hzero,
      Core.isWord_iff]
    omega
  case greaterEqual =>
    refine ⟨.jge, rfl, congrArg some ?_⟩
    rw [answer_of_ordered rfl, decide_eq_decide, decide_eq_true_iff, Int64.le_iff_toInt_le, hzero,
      Core.isWord_iff]
    omega
  case equal =>
    refine ⟨.jeq, rfl, congrArg some ?_⟩
    show _ = decide (u.toInt = v.toInt)
    rw [decide_eq_decide, ← Int64.toInt_inj, hzero]
    omega
  case notEqual =>
    refine ⟨.jne, rfl, congrArg some ?_⟩
    show _ = decide (u.toInt ≠ v.toInt)
    rw [decide_eq_decide, ne_eq, ← Int64.toInt_inj, hzero]
    omega

end BinaryOp

/-! ### Running the code

The jump of the truth value is taken or not, and each way is followed to its end. -/

section TruthValues

variable {σ : Type} {code : List Instr} {device : Device σ} {io : σ} {c : Core} {jump : Opcode}
  {what : String}

/-- A jump that is not taken makes the accumulator zero. -/
theorem Core.run_truthValue_false (hsize : code.length < 2 ^ 31)
    (hcode : Holds code c.pc (truthValue jump what))
    (hop : Machine.jumps? jump c.ac = some false) :
    Machine.runFor code.toArray device 3 c.machine io
      = ⟨none, { c with pc := c.pc + 4, ac := 0 }.machine, io⟩ := by
  have hbound : c.pc + 4 ≤ code.length := hcode.bound (List.cons_ne_nil _ _)
  simp only [truthValue, holds_cons] at hcode
  obtain ⟨h₀, h₁, h₂, -⟩ := hcode
  have hlt := c.ac.toInt_lt
  have hle := c.ac.le_toInt
  have hword : IsWord (0 + c.next.ac.toInt) := by
    rw [isWord_iff]
    simp only [Core.next]
    omega
  have hjump : Machine.step code.toArray device c.machine io = ⟨none, c.next.machine, io⟩ :=
    Core.step_branch (n := c.pc + 3) hsize (Or.inl rfl) hop (by omega) (by omega) (code_at h₀)
  have hzero : Machine.step code.toArray device c.next.machine io
      = ⟨none, (c.next.next.put .ac (Int64.ofInt 0)).machine, io⟩ := by
    rw [Core.step_ldc hsize (Or.inl rfl) (code_at h₁), if_pos hword]
  -- the load of one is jumped across
  have hskip : Machine.step code.toArray device (c.next.next.put .ac (Int64.ofInt 0)).machine io
      = ⟨none, { c with pc := c.pc + 4, ac := 0 }.machine, io⟩ :=
    Core.step_jump (c := c.next.next.put .ac (Int64.ofInt 0)) hsize (by simp [Core.next]; omega)
      (by omega) (code_at h₂)
  rw [Machine.runFor_of_step hjump, Machine.runFor_of_step hzero, Machine.runFor_of_step hskip,
    Machine.runFor]

/-- A jump that is taken makes it one, unless the constant cannot be loaded. -/
theorem Core.run_truthValue_true (hsize : code.length < 2 ^ 31)
    (hcode : Holds code c.pc (truthValue jump what))
    (hop : Machine.jumps? jump c.ac = some true) :
    Machine.runFor code.toArray device 2 c.machine io
      = if c.ac.toInt = Machine.maxWord then
          ⟨some .addressOverflow, { c with pc := c.pc + 4 }.machine, io⟩
        else ⟨none, { c with pc := c.pc + 4, ac := 1 }.machine, io⟩ := by
  have hbound : c.pc + 4 ≤ code.length := hcode.bound (List.cons_ne_nil _ _)
  simp only [truthValue, holds_cons] at hcode
  obtain ⟨h₀, -, -, h₃, -⟩ := hcode
  have hlt := c.ac.toInt_lt
  have hle := c.ac.le_toInt
  have hjump : Machine.step code.toArray device c.machine io
      = ⟨none, ({ c with pc := c.pc + 3 } : Core).machine, io⟩ :=
    Core.step_branch (n := c.pc + 3) hsize (Or.inl rfl) hop (by omega) (by omega) (code_at h₀)
  -- the address of the constant is computed, though it is not used
  have hone : Machine.step code.toArray device ({ c with pc := c.pc + 3 } : Core).machine io
      = if IsWord (1 + c.ac.toInt) then ⟨none, { c with pc := c.pc + 4, ac := 1 }.machine, io⟩
        else ⟨some .addressOverflow, { c with pc := c.pc + 4 }.machine, io⟩ :=
    Core.step_ldc (c := { c with pc := c.pc + 3 }) hsize (Or.inl rfl) (code_at h₃)
  rw [Machine.runFor_of_step hjump]
  by_cases hmax : c.ac.toInt = Machine.maxWord
  · rw [if_neg (by rw [hmax]; decide)] at hone
    rw [if_pos hmax, Machine.runFor_of_stop hone]
  · have hne : c.ac.toInt ≠ 9223372036854775807 := hmax
    rw [if_pos (isWord_iff.mpr ⟨by omega, by omega⟩)] at hone
    rw [if_neg hmax, Machine.runFor_of_step hone, Machine.runFor]

end TruthValues

/-- Where the parts of the code of a comparison are. -/
theorem Part.Lies.comparison {k : Linker} {code : List Instr} {marks : List Mark} {start : Nat}
    {p : Pos} {t : Option Ty} {op : BinaryOp} {l r : Exp} {jump : Opcode}
    (h : (⟨start, .binary p t op l r⟩ : Part).Lies k code marks)
    (hop : op.combination = .comparison jump) :
    ∃ offset, Spans code offset (start + l.size) (start + l.size + 1 + r.size) ∧
      marks[start + l.size]? = some .body ∧
      Holds code (start + l.size + 1 + r.size + 1)
        (.ro .sub .ac .ac1 .ac s!"op {op.symbol}" :: truthValue jump op.symbol) := by
  obtain ⟨⟨offset, is, hcode, hholds⟩, hmarks⟩ := h
  simp only [Exp.marks, hop, holds_append, holds_cons, l.length_marks] at hmarks
  cases Exp.coded hcode with
  | shortCircuit hop' => cases hop.symm.trans hop'
  | operation hop' => cases hop.symm.trans hop'
  | comparison hop' hi hlower hj =>
    cases hop.symm.trans hop'
    have hleni := Exp.length_code hi.code_eq
    have hlenj := Exp.length_code hj.code_eq
    rw [holds_append, holds_cons, holds_append, holds_cons, hleni, hlenj] at hholds
    obtain ⟨-, hpush, hright, hpull, hrest⟩ := hholds
    rw [hleni] at hj
    exact ⟨offset, ⟨hpush, hpull, k, r, _, hj.code_eq, hright, by rw [hlenj]⟩, hmarks.2.1, hrest⟩

/-! ### Runs

During the evaluation of the right operand the left one is kept, by the invariant of `Book.Keeps`.
So the difference is that of the two words. -/

section Runs

variable {σ : Type}

/-- In every run of a compiled program the code of a comparison, once it has evaluated its operands
to the words `u` and `v`, leaves its answer in the accumulator. Only if the answer is yes and the
difference is the largest word does the machine stop. -/
theorem comparison_answered {source : String} {tree : Program} {code : List Instr}
    (h : Compiles source tree code) (device : Device σ) {memory : Nat}
    (hmemory : memory < Memory.sizeLimit) (io : σ) {start : Nat} {p : Pos} {t : Option Ty}
    {op : BinaryOp} {l r : Exp} {holds : Int → Int → Bool}
    (hpart : ⟨start, .binary p t op l r⟩ ∈ (analyze tree false).program.parts)
    (hop : op.comparison? = some holds) {k n : Nat} {w w' : Watched σ}
    (hafter : (Watched.start memory io).after code.toArray (analyze tree false).program.marks device
      k = some w)
    (hpass : Passage code.toArray (analyze tree false).program.marks device n w w'
      (start + l.size) (start + l.size + 1 + r.size)) :
    if op.answer holds (w.machine.reg .ac) (w'.machine.reg .ac) = true ∧
        (w.machine.reg .ac - w'.machine.reg .ac).toInt = Machine.maxWord then
      (Machine.runFor code.toArray device 4 w'.machine w'.io).stopped = some .addressOverflow
    else ∃ steps ≤ 5, w'.machine.Yields code.toArray device steps w'.io
      (start + (Exp.binary p t op l r).size)
      (if op.answer holds (w.machine.reg .ac) (w'.machine.reg .ac) then 1 else 0) := by
  obtain ⟨jump, hcomb, htaken⟩ :=
    op.jumps?_difference hop (w.machine.reg .ac) (w'.machine.reg .ac)
  obtain ⟨linker, hlies⟩ := h.lies _ hpart
  obtain ⟨offset, hspans, hmark, hholds⟩ := hlies.comparison hcomb
  obtain ⟨c, hmachine, hpc, hsane, hlow, hhigh, hroom, hread⟩ :=
    h.restores device hmemory io hafter hpass hspans hmark
  have hsize : code.length < 2 ^ 31 := by
    obtain ⟨G, is, main, globals, hprogram, -⟩ := h.safe device hmemory io
    exact hprogram.image.size
  obtain ⟨m', io', shadow'⟩ := w'
  subst hmachine
  rw [Core.reg_ac] at htaken ⊢
  rw [holds_cons, ← hpc] at hholds
  -- the left operand is loaded, and the right one subtracted from it
  have hload : Machine.step code.toArray device c.machine io'
      = ⟨none, (c.next.put .ac1 (w.machine.reg .ac)).machine, io'⟩ := by
    have hstep : Machine.step code.toArray device c.machine io' = _ :=
      Core.step_ld_base (g := false) hsize hsane (Or.inr rfl) hlow hhigh
        (code_at (hpc ▸ hspans.pull))
    rwa [show c.origin false = c.fp from rfl, if_pos hroom, hread] at hstep
  have hsub : Machine.step code.toArray device (c.next.put .ac1 (w.machine.reg .ac)).machine io'
      = ⟨none, { c with pc := c.pc + 2, ac1 := w.machine.reg .ac,
                        ac := w.machine.reg .ac - c.ac }.machine, io'⟩ :=
    Core.step_operation (c := c.next.put .ac1 (w.machine.reg .ac)) hsize (Or.inl rfl) (Or.inr rfl)
      (Or.inl rfl) rfl (code_at hholds.1)
  have htarget : start + (Exp.binary p t op l r).size = c.pc + 2 + 4 := by
    simp only [Exp.size, hcomb]
    omega
  have hbound := hholds.2.bound (List.cons_ne_nil _ _)
  simp only [truthValue, List.length_cons] at hbound
  have hrun : ∀ n, Machine.runFor code.toArray device (n + 2) c.machine io' = _ := fun n => by
    rw [Machine.runFor_of_step hload, Machine.runFor_of_step hsub]
  rw [htarget]
  cases hanswer : op.answer holds (w.machine.reg .ac) c.ac with
  | false =>
    rw [hanswer] at htaken
    have hzero := (hrun 3).trans (Core.run_truthValue_false hsize hholds.2 htaken)
    rw [if_neg (fun hc => Bool.noConfusion hc.1)]
    exact ⟨5, Nat.le_refl 5, Core.yields hzero rfl (by omega) rfl rfl rfl rfl⟩
  | true =>
    rw [hanswer] at htaken
    have hone := (hrun 2).trans (Core.run_truthValue_true hsize hholds.2 htaken)
    by_cases hmax : (w.machine.reg .ac - c.ac).toInt = Machine.maxWord
    · rw [if_pos hmax] at hone
      rw [if_pos ⟨rfl, hmax⟩, hone]
    · rw [if_neg hmax] at hone
      rw [if_neg (fun hc => hmax hc.2)]
      exact ⟨4, by decide, Core.yields hone rfl (by omega) rfl rfl rfl rfl⟩

end Runs

/-- The operator, the operands and the place of a comparison. -/
def Part.comparison? : Part → Option (BinaryOp × Exp × Exp × Nat × Nat)
  | ⟨start, .binary p t op l r⟩ =>
    if op.comparison?.isSome then some (op, l, r, start, (Exp.binary p t op l r).size) else none
  | _ => none

theorem Part.comparison?_eq_some {part : Part} {op : BinaryOp} {l r : Exp} {start size : Nat}
    (h : part.comparison? = some (op, l, r, start, size)) :
    ∃ p t, part = ⟨start, .binary p t op l r⟩ ∧ size = (Exp.binary p t op l r).size := by
  unfold comparison? at h
  split at h
  · split at h
    · cases h
      exact ⟨_, _, rfl, rfl⟩
    · cases h
  · cases h

/-- What the first comparison of a source compares and what it leaves, in the run on an input that
has evaluated the left operand after `k` steps, the right one after `n` more, and the comparison
after another `n'`. -/
def comparedAt (source : String) (input : List Word) (k n n' : Nat) :
    Option (BinaryOp × Word × Word × Word) :=
  (compile? source).bind fun (tree, code) =>
  let marks := (analyze tree false).program.marks
  ((analyze tree false).program.parts.findSome? Part.comparison?).bind
    fun (op, l, r, start, size) =>
  ((Watched.start 1024 (Tape.ofList input none)).after code.toArray marks Tape.device k).bind
    fun w =>
  (w.after code.toArray marks Tape.device n).bind fun w' =>
  (w'.after code.toArray marks Tape.device n').bind fun w'' =>
  if Leads code.toArray marks Tape.device n w w' (start + l.size) (start + l.size + 1 + r.size) ∧
      Leads code.toArray marks Tape.device n' w' w'' (start + l.size + 1 + r.size)
        (start + size) then
    some (op, w.machine.reg .ac, w'.machine.reg .ac, w''.machine.reg .ac)
  else none

theorem exists_comparedAt {source : String} {input : List Word} {k n n' : Nat} {op : BinaryOp}
    {u v x : Word} (hshort : source.utf8ByteSize < 2 ^ 27)
    (hcompared : comparedAt source input k n n' = some (op, u, v, x)) :
    ∃ tree code start p t l r w w' w'', Compiles source tree code ∧
      ⟨start, .binary p t op l r⟩ ∈ (analyze tree false).program.parts ∧
      (Watched.start 1024 (Tape.ofList input none)).after code.toArray
        (analyze tree false).program.marks Tape.device k = some w ∧
      Passage code.toArray (analyze tree false).program.marks Tape.device n w w' (start + l.size)
        (start + l.size + 1 + r.size) ∧
      Passage code.toArray (analyze tree false).program.marks Tape.device n' w' w''
        (start + l.size + 1 + r.size) (start + (Exp.binary p t op l r).size) ∧
      w.machine.reg .ac = u ∧ w'.machine.reg .ac = v ∧ w''.machine.reg .ac = x := by
  simp only [comparedAt, Option.bind_eq_some_iff] at hcompared
  obtain ⟨⟨tree, code⟩, hcompile, ⟨op', l, r, start, size⟩, hfind, w, hw, w', hw', w'', hw'',
    hleads⟩ := hcompared
  split at hleads
  · rename_i hpassages
    cases hleads
    obtain ⟨part, hmem, hpart⟩ := List.exists_of_findSome?_eq_some hfind
    obtain ⟨p, t, rfl, rfl⟩ := Part.comparison?_eq_some hpart
    exact ⟨tree, code, start, p, t, l, r, w, w', w'', compiles_of_compile? hshort hcompile, hmem,
      hw, ⟨hpassages.1, hw'⟩, ⟨hpassages.2, hw''⟩, rfl, rfl, rfl⟩
  · cases hleads

/-- A program that compares two numbers that it reads. -/
def askingSource : String :=
  "void main(void) { if (input() < input()) output(1); else output(0); }"

theorem comparison_answered_asking : ∃ tree code start p t l r w w',
    Compiles askingSource tree code ∧
    ⟨start, .binary p t .less l r⟩ ∈ (analyze tree false).program.parts ∧
    (Watched.start 1024 (Tape.ofList [3, 4] none)).after code.toArray
      (analyze tree false).program.marks Tape.device 18 = some w ∧
    Passage code.toArray (analyze tree false).program.marks Tape.device 9 w w' (start + l.size)
      (start + l.size + 1 + r.size) ∧
    w.machine.reg .ac = 3 ∧ w'.machine.reg .ac = 4 ∧
    ∃ steps ≤ 5, w'.machine.Yields code.toArray Tape.device steps w'.io
      (start + (Exp.binary p t .less l r).size) 1 := by
  have hascii : Ascii askingSource _ := ⟨rfl, rfl⟩
  have hcompared : comparedAt askingSource [3, 4] 18 9 4 = some (.less, 3, 4, 1) := by
    rw [comparedAt, compile?, parse, hascii.scan_eq]
    decide +kernel
  have hshort : askingSource.utf8ByteSize < 2 ^ 27 := by
    rw [hascii.utf8ByteSize_eq]
    decide +kernel
  obtain ⟨tree, code, start, p, t, l, r, w, w', -, h, hpart, hafter, hpass, -, hu, hv, -⟩ :=
    exists_comparedAt hshort hcompared
  have hmemory : 1024 < Memory.sizeLimit := by decide
  have hanswered := comparison_answered h Tape.device hmemory _ hpart rfl hafter hpass
  rw [hu, hv, if_neg (by decide)] at hanswered
  exact ⟨tree, code, start, p, t, l, r, w, w', h, hpart, hafter, hpass, hu, hv, hanswered⟩

/-- There is a compiled program in which the largest word is less than minus one. -/
theorem not_comparisons_exact : ¬∀ (source : String) (tree : Program) (code : List Instr),
    Compiles source tree code → ∀ start p t op l r (holds : Int → Int → Bool),
      ⟨start, .binary p t op l r⟩ ∈ (analyze tree false).program.parts →
      op.comparison? = some holds → ∀ (input : List Word) k n n' (w w' w'' : Watched Tape),
        (Watched.start 1024 (Tape.ofList input none)).after code.toArray
          (analyze tree false).program.marks Tape.device k = some w →
        Passage code.toArray (analyze tree false).program.marks Tape.device n w w'
          (start + l.size) (start + l.size + 1 + r.size) →
        Passage code.toArray (analyze tree false).program.marks Tape.device n' w' w''
          (start + l.size + 1 + r.size) (start + (Exp.binary p t op l r).size) →
        w''.machine.reg .ac
          = if holds (w.machine.reg .ac).toInt (w'.machine.reg .ac).toInt then 1 else 0 := by
  intro hall
  -- the difference is `2 ^ 63`, which wraps around to a negative word
  have hascii : Ascii askingSource _ := ⟨rfl, rfl⟩
  have hcompared : comparedAt askingSource [9223372036854775807, -1] 18 9 4
      = some (.less, 9223372036854775807, -1, 1) := by
    rw [comparedAt, compile?, parse, hascii.scan_eq]
    decide +kernel
  have hshort : askingSource.utf8ByteSize < 2 ^ 27 := by
    rw [hascii.utf8ByteSize_eq]
    decide +kernel
  obtain ⟨tree, code, start, p, t, l, r, w, w', w'', h, hpart, hafter, hpass, hpass', hu, hv, hx⟩ :=
    exists_comparedAt hshort hcompared
  have hone := hall _ tree code h start p t .less l r _ hpart rfl _ 18 9 4 w w' w'' hafter hpass
    hpass'
  rw [hu, hv, hx] at hone
  exact absurd hone (by decide)

end MiniC
