import MiniC.Proofs.Meaning.Calls

/-!
# Expressions in runs

The code of an accepted expression computes what the expression means, and leaves the value in the
accumulator. One statement for each form of expression; calls do what they mean by assumption.

* `ExpRuns`: the code of an expression agrees with its meaning, whatever follows
* `exp_runs`: every accepted expression does
-/

namespace MiniC

/-- Code can be executed whose calls are linked to functions of the program, and whose global
variables have the homes `globals`. -/
structure Executable (P : Stage) (globals : List Home) (depth : Nat) (homes : List Home)
    (k : Linker) :
    Prop where
  fits : P.Fits
  calls : ∀ d, depth = d + 1 → CallsRun P globals d
  globals : ∀ s ∈ globals, s ∈ homes
  strict : k.strict = true
  linked : ∀ x ∈ k.entries, x ∈ P.tree.pool

/-- Wherever the code of the expression lies, and whatever follows, the machine agrees with a
computation that starts with the meaning of the expression. -/
def ExpRuns (P : Stage) (depth : Nat) (homes : List Home) (k : Linker) (S : ScopeTable) (env : Env)
    (e : Exp) : Prop :=
  ∀ {offset start ty is}, e.Emits S k offset start ty is → Holds P.code start is → -2 ^ 31 ≤
    offset →
    ∀ {c w}, c.pc = start → Prepared P depth homes offset S env c w →
      ∀ {α : Type} (K : Value → Eval α),
        (∀ v c' w', c'.pc = start + is.length → After P depth homes offset S env c c' w' →
          v.Held homes c'.ac → v.OfTy ty → Runs P c' w' (K v)) →
        Runs P c w (e.eval (P.call depth) env >>= K)

/-! ### Words

Numbers that count cells or characters are far from the ends of the range of words, so no operation
on them wraps around. -/

/-- Numbers that are not negative and below this bound are far from the ends of the range. -/
theorem inRange_ofInt {n : Int} (h : 0 ≤ n) (hlt : n < 2 ^ 61) : InRange (Int64.ofInt n) := by
  unfold InRange
  rw [toInt_ofInt_of_lt h (by omega)]
  omega

/-- Truth values are zero and one. -/
theorem inRange_truth (b : Bool) : InRange (if b then 1 else 0) := by
  cases b <;> decide

/-- A conditional jump decides a short circuit. -/
theorem BinaryOp.jumps?_shortCircuit {op : BinaryOp} {jump : Opcode} {comment : String}
    (hop : op.combination = .shortCircuit jump comment) (a b : Word) :
    Machine.jumps? jump a = some (op.decides a) ∧ op.apply a b = pure (.word b) := by
  cases op <;> cases hop
  · exact ⟨rfl, rfl⟩
  · exact ⟨by simp [Machine.jumps?, BinaryOp.decides], rfl⟩

/-- The sign of a difference decides a comparison. -/
theorem BinaryOp.jumps?_comparison {op : BinaryOp} {jump : Opcode}
    (hop : op.combination = .comparison jump) {a b : Word} (ha : InRange a) (hb : InRange b) :
    ∃ taken, Machine.jumps? jump (a - b) = some taken ∧ op.apply a b = pure (truth taken) := by
  unfold InRange at ha hb
  have hsub : (a - b).toInt = a.toInt - b.toInt := toInt_sub_of_range (by omega) (by omega)
  -- a difference has the sign that it would have without bounds
  have hlt : a - b < 0 ↔ a < b := by
    rw [Int64.lt_iff_toInt_lt, Int64.lt_iff_toInt_lt, hsub, Int64.toInt_zero]
    omega
  have hgt : 0 < a - b ↔ b < a := by
    rw [Int64.lt_iff_toInt_lt, Int64.lt_iff_toInt_lt, hsub, Int64.toInt_zero]
    omega
  have hle : a - b ≤ 0 ↔ a ≤ b := by
    rw [Int64.le_iff_toInt_le, Int64.le_iff_toInt_le, hsub, Int64.toInt_zero]
    omega
  have hge : 0 ≤ a - b ↔ b ≤ a := by
    rw [Int64.le_iff_toInt_le, Int64.le_iff_toInt_le, hsub, Int64.toInt_zero]
    omega
  have heq : a - b = 0 ↔ a = b := by
    rw [← Int64.toInt_inj, ← Int64.toInt_inj, hsub, Int64.toInt_zero]
    omega
  cases op <;> cases hop
  all_goals refine ⟨_, rfl, ?_⟩
  case less => simp only [BinaryOp.apply, hlt]
  case lessEqual => simp only [BinaryOp.apply, hle]
  case greater => simp only [BinaryOp.apply, hgt]
  case greaterEqual => simp only [BinaryOp.apply, hge]
  case equal => simp only [BinaryOp.apply, heq]
  case notEqual => simp only [BinaryOp.apply, heq, ne_eq]

section Expressions

variable {P : Stage} {globals : List Home} {depth : Nat} {homes : List Home} {k : Linker}
  {S : ScopeTable} {env : Env} {α : Type}

/-- A number that was computed is in range, or the computation stops. -/
theorem Runs.checked {c : Core} {w : World} {a : Word} {K : Value → Eval α}
    (h : InRange a → Runs P c w (K (.word a))) : Runs P c w (checked a >>= K) := by
  unfold MiniC.checked
  split
  · rename_i hrange
    rw [pure_bind]
    exact h hrange
  · rw [Eval.stop_bind]
    exact .unsettled rfl

/-! ### Constants, unary operators and variables

What has no parts but one at most. The code ends with the value in the accumulator, and memory and
world are as they were. -/

/-- A number is loaded. -/
theorem ExpRuns.int (hX : Executable P globals depth homes k) (p : Pos) (value : Nat) :
    ExpRuns P depth homes k S env (.int p value) := by
  intro offset start ty is h hcode hlow c w hpc hprep α K hnext
  obtain ⟨rfl, rfl⟩ := Exp.emits_int h
  rw [holds_cons] at hcode
  subst hpc
  simp only [Exp.eval]
  split
  · rename_i hlt
    rw [pure_bind]
    have hrange : InRange (Int64.ofInt value) := inRange_ofInt (by omega) (by omega)
    apply Runs.constant hX.fits hprep.faithful.mild hcode.1 (Or.inl rfl) (by omega) (by omega)
    exact hnext _ _ w rfl (hprep.of_eq rfl rfl rfl hrange.mild) ⟨rfl, hrange⟩ rfl
  · rw [Eval.stop_bind]
    exact .unsettled rfl

/-- A truth value is loaded. -/
theorem ExpRuns.bool (hX : Executable P globals depth homes k) (p : Pos) (value : Bool) :
    ExpRuns P depth homes k S env (.bool p value) := by
  intro offset start ty is h hcode hlow c w hpc hprep α K hnext
  obtain ⟨rfl, rfl⟩ := Exp.emits_bool h
  rw [holds_cons] at hcode
  subst hpc
  simp only [Exp.eval, pure_bind]
  have hrange := inRange_truth value
  apply Runs.constant hX.fits hprep.faithful.mild hcode.1 (Or.inl rfl)
  · cases value <;> decide
  · cases value <;> decide
  · refine hnext _ _ w rfl (hprep.of_eq rfl rfl rfl ?_) ⟨?_, hrange⟩ rfl
    · cases value <;> exact mild_of_nonneg (by decide) (by decide)
    · cases value <;> rfl

/-- The empty expression has no code and no value. -/
theorem ExpRuns.nil (p : Pos) : ExpRuns P depth homes k S env (.nil p) := by
  intro offset start ty is h _ _ c w hpc hprep α K hnext
  obtain ⟨rfl, rfl⟩ := Exp.emits_nil h
  simp only [Exp.eval, pure_bind]
  exact hnext .nothing c w hpc hprep.refl trivial rfl

/-- An operand, and then the operation on the accumulator. -/
theorem ExpRuns.unary (hX : Executable P globals depth homes k) {p : Pos} {t : Option Ty}
    {op : UnaryOp}
    {e : Exp} (he : ExpRuns P depth homes k S env e) :
    ExpRuns P depth homes k S env (.unary p t op e) := by
  intro offset start ty is h hcode hlow c w hpc hprep α K hnext
  obtain ⟨rfl, i, hi, rfl⟩ := Exp.emits_unary h
  rw [holds_append] at hcode
  have hscalar : op.ty.isArray = false := by
    cases op <;> rfl
  cases op with
  | neg =>
    simp only [Exp.unaryTail, holds_cons] at hcode
    simp only [Exp.eval, bind_assoc]
    refine he hi hcode.1 hlow hpc hprep _ fun v c₁ w₁ hpc₁ hafter₁ hheld₁ hty₁ => ?_
    rw [← hpc₁] at hcode
    -- negation is checked by the meaning, so the difference from zero is what it says
    refine Runs.asWord hheld₁ hty₁ hscalar fun _ => Runs.checked fun hrange => ?_
    apply Runs.constant hX.fits hafter₁.prepared.faithful.mild hcode.2.1 (Or.inr rfl) (by decide)
      (by decide)
    apply Runs.arithmetic (c := c₁.next.put .ac1 (Int64.ofInt 0)) hX.fits hcode.2.2.1 (Or.inl rfl)
      (Or.inr rfl) (Or.inl rfl) (a := -c₁.ac) (congrArg some (Int64.zero_sub c₁.ac))
    refine hnext (.word (-c₁.ac)) _ w₁ ?_ (hafter₁.of_eq rfl rfl rfl hrange.mild)
      ⟨rfl, hrange⟩ rfl
    rw [List.length_append, ← Nat.add_assoc, ← hpc₁]
    rfl
  | not =>
    simp only [Exp.unaryTail] at hcode
    simp only [Exp.eval, bind_assoc]
    refine he hi hcode.1 hlow hpc hprep _ fun v c₁ w₁ hpc₁ hafter₁ hheld₁ hty₁ => ?_
    refine Runs.asWord hheld₁ hty₁ hscalar fun _ => ?_
    rw [pure_bind]
    have hjump : Machine.jumps? .jeq c₁.ac = some (decide (c₁.ac = 0)) := rfl
    apply Runs.truthValue hX.fits hafter₁.prepared.faithful.mild hpc₁ hcode.2 hjump
    have hrange := inRange_truth (c₁.ac = 0)
    refine hnext (truth (c₁.ac = 0)) _ w₁ ?_
      (hafter₁.of_eq rfl rfl rfl hrange.mild) ⟨rfl, hrange⟩ rfl
    rw [List.length_append, ← Nat.add_assoc]
    rfl

/-- A variable is loaded from its home. -/
theorem ExpRuns.var (hX : Executable P globals depth homes k) (t : Option Ty) (v : VarUse) :
    ExpRuns P depth homes k S env (.var t v) := by
  intro offset start ty is h hcode hlow c w hpc hprep α K hnext
  obtain ⟨y, l, text, hl, rfl⟩ := Exp.emits_var h
  rw [holds_cons] at hcode
  subst hpc
  simp only [Exp.eval, bind_assoc]
  exact Runs.loadVariable hX.fits hprep hl hcode.1 fun v c' hpc' hafter => hnext v c' w hpc' hafter

/-! ### Binary operators

The left value waits in the frame while the right operand is evaluated, which may change the world.
The cell where it waits is below those that the right operand leaves alone. -/

/-- The left operand decides whether the right one is evaluated, and so does the jump. -/
theorem ExpRuns.shortCircuit (hX : Executable P globals depth homes k) {p : Pos} {t : Option Ty}
    {op : BinaryOp} {l r : Exp} {jump : Opcode} {comment : String}
    (hop : op.combination = .shortCircuit jump comment) (hl : ExpRuns P depth homes k S env l)
    (hr : ExpRuns P depth homes k S env r) :
    ExpRuns P depth homes k S env (.binary p t op l r) := by
  intro offset start ty is h hcode hlow c w hpc hprep α K hnext
  obtain ⟨rfl, i, j, skip, hi, hj, hskip, rfl⟩ := Exp.emits_shortCircuit hop h
  have hlen := hX.fits.code_lt
  have hbound := hcode.bound (by simp)
  rw [List.length_append, List.length_cons] at hbound
  rw [holds_append, holds_cons] at hcode
  simp only [Exp.eval, bind_assoc]
  refine hl hi hcode.1 hlow hpc hprep _ fun v c₁ w₁ hpc₁ hafter₁ hheld₁ hty₁ => ?_
  refine Runs.asWord hheld₁ hty₁ rfl fun hrange₁ => ?_
  apply Runs.branch_relative hX.fits hskip hpc₁ hcode.2.1 (Or.inl rfl)
    (op.jumps?_shortCircuit hop c₁.ac 0).1 (by omega)
  · intro htaken
    -- the left operand decides, and is the result
    rw [if_pos htaken, pure_bind]
    refine hnext (.word c₁.ac) _ w₁ ?_ (hafter₁.goto _) ⟨rfl, hrange₁⟩ rfl
    simp only [List.length_append, List.length_cons]
    omega
  · intro htaken
    rw [if_neg (by rw [htaken]; decide)]
    have hafter₂ := hafter₁.goto (c₁.pc + 1)
    simp only [bind_assoc]
    refine hr hj hcode.2.2 hlow (congrArg (· + 1) hpc₁) hafter₂.prepared _
      fun u c₃ w₃ hpc₃ hafter₃ hheld₃ hty₃ => ?_
    refine Runs.asWord hheld₃ hty₃ rfl fun hrange₃ => ?_
    rw [(op.jumps?_shortCircuit hop c₁.ac c₃.ac).2, pure_bind]
    refine hnext (.word c₃.ac) _ w₃ ?_ (hafter₂.trans hafter₃) ⟨rfl, hrange₃⟩ rfl
    rw [hpc₃]
    simp only [List.length_append, List.length_cons]
    omega

/-- The accumulator is put aside while an expression is evaluated, and is then loaded into the other
accumulator. -/
theorem Runs.aside (hX : Executable P globals depth homes k) {e : Exp}
    (he : ExpRuns P depth homes k S env e) {offset : Int} {start : Nat} {ty : Ty} {j : List Instr}
    (hj : e.Emits S k (offset - 1) (start + 1) ty j) (hscalar : ty.isArray = false) {t t' : String}
    (hcode : Holds P.code start (.rm .st .ac offset .fp t :: (j ++ [.rm .ld .ac1 offset .fp t'])))
    (hlow : -2 ^ 31 ≤ offset - 1) {c : Core} {w : World} (hpc : c.pc = start)
    (hprep : Prepared P depth homes offset S env c w) {K : Word → Eval α}
    (hnext : ∀ c' w', c'.pc = start + j.length + 2 → After P depth homes offset S env c c' w' →
      c'.ac1 = c.ac → InRange c'.ac → Runs P c' w' (K c'.ac)) :
    Runs P c w (e.eval (P.call depth) env >>= fun v => v.asWord >>= K) := by
  simp only [holds_append, holds_cons] at hcode
  obtain ⟨hpush, hcodej, hpull, -⟩ := hcode
  have hoff := hprep.offset_le
  rw [← hpc] at hpush
  apply Runs.store (g := false) hX.fits hprep.faithful hpush (by omega) hoff
  show 0 < offset + c.fp → Runs P { c.next with mem := c.mem.write (offset + c.fp) c.ac } w _
  intro hpos
  have hafter₁ := hprep.push hpos (by omega) c.ac
  refine he hj hcodej hlow (congrArg (· + 1) hpc) (hafter₁.prepared.lower (by omega)) _
    fun v c₂ w₂ hpc₂ hafter₂ hheld₂ hty₂ => ?_
  refine Runs.asWord hheld₂ hty₂ hscalar fun hrange₂ => ?_
  have hraised := hafter₂.raise hafter₁.prepared (by omega)
  have hfp₂ : c₂.fp = c.fp := hafter₂.fp_eq
  -- the cell lies above those that the expression uses
  have hkept : c₂.mem.read (offset + c.fp) = c.ac := by
    rw [hafter₂.spared (offset + c.fp) hpos (by show c.fp + (offset - 1) < _; omega)
      (hafter₁.prepared.free (by show _ ≤ c.fp + offset; omega)), Memory.read_write_self]
  rw [← hpc₂] at hpull
  apply Runs.load (g := false) hX.fits hafter₂.prepared.faithful hpull (Or.inr rfl) (by omega) hoff
  show 0 < offset + c₂.fp → Runs P { c₂.next with ac1 := c₂.mem.read (offset + c₂.fp) } w₂ _
  intro _
  rw [hfp₂, hkept]
  refine hnext { c₂.next with ac1 := c.ac } w₂ ?_ ?_ rfl hrange₂
  · show c₂.pc + 1 = _
    omega
  · exact (hafter₁.trans hraised).of_eq rfl rfl rfl hrange₂.mild

/-- Both operands are evaluated, the left one first. -/
theorem Runs.operands (hX : Executable P globals depth homes k) {l r : Exp}
    (hl : ExpRuns P depth homes k S env l) (hr : ExpRuns P depth homes k S env r) {offset : Int}
    {start : Nat} {tyl tyr : Ty} {i j : List Instr} (hi : l.Emits S k offset start tyl i)
    (hj : r.Emits S k (offset - 1) (start + i.length + 1) tyr j) (hleft : tyl.isArray = false)
    (hright : tyr.isArray = false) {t t' : String}
    (hcode : Holds P.code start (i ++ (.rm .st .ac offset .fp t :: (j ++
      [.rm .ld .ac1 offset .fp t'])))) (hlow : -2 ^ 31 ≤ offset - 1) {c : Core} {w : World}
    (hpc : c.pc = start) (hprep : Prepared P depth homes offset S env c w)
    {K : Word → Word → Eval α}
    (hnext : ∀ c' w', c'.pc = start + i.length + j.length + 2 →
      After P depth homes offset S env c c' w' → InRange c'.ac1 → InRange c'.ac →
      Runs P c' w' (K c'.ac1 c'.ac)) :
    Runs P c w (l.eval (P.call depth) env >>= fun v => v.asWord >>= fun a =>
      r.eval (P.call depth) env >>= fun u => u.asWord >>= fun b => K a b) := by
  rw [holds_append] at hcode
  refine hl hi hcode.1 (by omega) hpc hprep _ fun v c₁ w₁ hpc₁ hafter₁ hheld₁ hty₁ => ?_
  refine Runs.asWord hheld₁ hty₁ hleft fun hrange₁ => ?_
  apply Runs.aside hX hr hj hright hcode.2 hlow hpc₁ hafter₁.prepared
  intro c₂ w₂ hpc₂ hafter₂ hac1₂ hrange₂
  rw [← hac1₂] at hrange₁ ⊢
  exact hnext c₂ w₂ hpc₂ (hafter₁.trans hafter₂) hrange₁ hrange₂

/-- Two operands, and then the operation. Dividing by zero stops the program on both sides. -/
theorem ExpRuns.operation (hX : Executable P globals depth homes k) {p : Pos} {t : Option Ty}
    {op : BinaryOp} {l r : Exp} {operation : Opcode} (hop : op.combination = .operation operation)
    (hl : ExpRuns P depth homes k S env l) (hr : ExpRuns P depth homes k S env r) :
    ExpRuns P depth homes k S env (.binary p t op l r) := by
  intro offset start ty is h hcode hlow c w hpc hprep α K hnext
  obtain ⟨rfl, i, j, hi, hlow', hj, rfl⟩ := Exp.emits_operation hop h
  have hcode' : Holds P.code start (i ++ (.rm .st .ac offset .fp "op: push left" :: (j ++
      [.rm .ld .ac1 offset .fp "op: load left"])) ++
      [.ro operation .ac .ac1 .ac s!"op {op.symbol}"]) := by
    simpa using hcode
  rw [holds_append, holds_cons] at hcode'
  have hlast := hcode'.2.1
  simp only [List.length_append, List.length_cons, List.length_nil] at hlast
  have hundecided : ∀ a, op.decides a = false := by
    intro a
    cases op <;> cases hop <;> rfl
  rw [Exp.eval_binary hundecided]
  simp only [bind_assoc]
  apply Runs.operands hX hl hr hi hj rfl rfl hcode'.1 hlow' hpc hprep
  intro c₁ w₁ hpc₁ hafter₁ hrange hrange'
  rw [show start + (i.length + (j.length + (0 + 1) + 1)) = c₁.pc by omega] at hlast
  -- the operators differ only in the result of the last instruction
  have hdone : ∀ a, InRange a → Runs P { c₁.next with ac := a } w₁ (K (.word a)) := by
    intro a ha
    refine hnext (.word a) _ w₁ ?_ (hafter₁.of_eq rfl rfl rfl ha.mild)
      ⟨rfl, ha⟩ rfl
    show c₁.pc + 1 = _
    simp only [List.length_append, List.length_cons, List.length_nil]
    omega
  cases op <;> cases hop
  case add =>
    exact Runs.checked fun ha => Runs.arithmetic hX.fits hlast (Or.inl rfl) (Or.inr rfl)
      (Or.inl rfl)
      rfl (hdone _ ha)
  case sub =>
    exact Runs.checked fun ha => Runs.arithmetic hX.fits hlast (Or.inl rfl) (Or.inr rfl)
      (Or.inl rfl)
      rfl (hdone _ ha)
  case mul =>
    exact Runs.checked fun ha => Runs.arithmetic hX.fits hlast (Or.inl rfl) (Or.inr rfl)
      (Or.inl rfl)
      rfl (hdone _ ha)
  case div =>
    apply Runs.divide hX.fits hafter₁.prepared.faithful.clear hlast
    · intro hzero
      simp only [BinaryOp.apply, if_pos hzero, Eval.stop_bind]
      rfl
    · intro hzero
      simp only [BinaryOp.apply, if_neg hzero]
      exact Runs.checked (hdone _)

/-- Two operands, and then the truth value of their difference. -/
theorem ExpRuns.comparison (hX : Executable P globals depth homes k) {p : Pos} {t : Option Ty}
    {op : BinaryOp} {l r : Exp} {jump : Opcode} (hop : op.combination = .comparison jump)
    (hl : ExpRuns P depth homes k S env l) (hr : ExpRuns P depth homes k S env r) :
    ExpRuns P depth homes k S env (.binary p t op l r) := by
  intro offset start ty is h hcode hlow c w hpc hprep α K hnext
  obtain ⟨rfl, i, j, base, -, hi, hlow', hj, rfl⟩ := Exp.emits_comparison hop h
  have hcode' : Holds P.code start (i ++ (.rm .st .ac offset .fp "op: push left" :: (j ++
      [.rm .ld .ac1 offset .fp "op: load left"])) ++
      (.ro .sub .ac .ac1 .ac s!"op {op.symbol}" :: truthValue jump op.symbol)) := by
    simpa using hcode
  rw [holds_append, holds_cons] at hcode'
  obtain ⟨hcode₁, hsub, hvalue⟩ := hcode'
  simp only [List.length_append, List.length_cons, List.length_nil] at hsub hvalue
  have hundecided : ∀ a, op.decides a = false := by
    intro a
    cases op <;> cases hop <;> rfl
  rw [Exp.eval_binary hundecided]
  simp only [bind_assoc]
  apply Runs.operands hX hl hr hi hj rfl rfl hcode₁ hlow' hpc hprep
  intro c₁ w₁ hpc₁ hafter₁ hrange hrange'
  rw [show start + (i.length + (j.length + (0 + 1) + 1)) = c₁.pc by omega] at hsub hvalue
  obtain ⟨taken, htaken, happly⟩ := op.jumps?_comparison hop hrange hrange'
  rw [happly, pure_bind]
  apply Runs.arithmetic hX.fits hsub (Or.inl rfl) (Or.inr rfl) (Or.inl rfl) rfl
  -- operands that are in range have a difference that does not wrap around
  have hmild : Mild (c₁.ac1 - c₁.ac) := by
    unfold InRange at hrange hrange'
    unfold Mild
    rw [toInt_sub_of_range (by omega) (by omega)]
    omega
  apply Runs.truthValue (c := c₁.next.put .ac (c₁.ac1 - c₁.ac)) hX.fits hmild rfl hvalue htaken
  have hbool := inRange_truth taken
  refine hnext (truth taken) _ w₁ ?_ (hafter₁.of_eq rfl rfl rfl hbool.mild)
    ⟨rfl, hbool⟩ rfl
  simp only [List.length_append, List.length_cons, truthValue, List.length_nil]
  show c₁.pc + 1 + 4 = _
  omega

/-- Every binary operator is of one of these three kinds. -/
theorem ExpRuns.binary (hX : Executable P globals depth homes k) {p : Pos} {t : Option Ty}
    {op : BinaryOp} {l r : Exp} (hl : ExpRuns P depth homes k S env l)
    (hr : ExpRuns P depth homes k S env r) :
    ExpRuns P depth homes k S env (.binary p t op l r) := by
  cases hop : op.combination with
  | operation operation => exact ExpRuns.operation hX hop hl hr
  | comparison jump => exact ExpRuns.comparison hX hop hl hr
  | shortCircuit jump comment => exact ExpRuns.shortCircuit hX hop hl hr

/-! ### Elements and assignments

The code of an element leaves its address. An index that is out of range ends the program on both
sides, with the same message. -/

/-- The address of an element, and then what is there. -/
theorem ExpRuns.element (hX : Executable P globals depth homes k) {t : Option Ty} {v : VarUse}
    {index : Exp} (hindex : ExpRuns P depth homes k S env index) :
    ExpRuns P depth homes k S env (.element t v index) := by
  intro offset start ty is h hcode hlow c w hpc hprep α K hnext
  obtain ⟨y, aty, l, i, es, text, hl, harray, rfl, hi, hes, rfl⟩ := Exp.emits_element h
  simp only [holds_append, hes.length_eq, holds_cons] at hcode
  obtain ⟨hcodei, hcodes, haccess, -⟩ := hcode
  simp only [Exp.eval, bind_assoc]
  refine hindex hi hcodei hlow hpc hprep _ fun u c₁ w₁ hpc₁ hafter₁ hheld₁ hty₁ => ?_
  refine Runs.asWord hheld₁ hty₁ rfl fun hrange₁ => ?_
  apply Runs.elementAddress hX.fits hafter₁.prepared hl harray hes hpc₁ hcodes hrange₁
  intro s hs size place cells c₂ hsize hplace ho hpc₂ hac₂ hmem₂ hafter₂
  have hrep := hafter₂.prepared.faithful.represents
  obtain ⟨cells', ho', hlen, hpos, -, hcells⟩ := hrep.array hs hsize
  rw [ho] at ho'
  cases ho'
  -- an element without a value is not read
  cases hcell : cells[place]? with
  | none =>
    simp only [Object.element, hcell]
    exact Runs.undefined
  | some content =>
    cases content with
    | none =>
      simp only [Object.element, hcell]
      exact Runs.undefined
    | some a =>
      obtain ⟨hrange, hread⟩ := hcells place a hcell
      simp only [Object.element, hcell, pure_bind]
      have htop := hrep.below s hs
      have hspan := Home.top_of_size hsize
      have hgp := hafter₂.prepared.faithful.gp_eq
      rw [← hpc₂] at haccess
      refine Runs.step (fun _ => Core.step_ld_ac hX.fits.size_lt hafter₂.prepared.faithful.sane hac₂
        (by omega) (by omega) (code_at haccess)) ?_
      rw [hread]
      refine hnext (.word a) _ w₁ ?_
        ((hafter₁.trans hafter₂).of_eq rfl rfl rfl hrange.mild) ⟨rfl, hrange⟩ rfl
      show c₂.pc + 1 = _
      simp only [List.length_append, List.length_cons, List.length_nil, hes.length_eq]
      omega

/-- A value is stored in the home of the variable. -/
theorem ExpRuns.assign (hX : Executable P globals depth homes k) {p : Pos} {t : Option Ty}
    {v : VarUse}
    {value : Exp} (hvalue : ExpRuns P depth homes k S env value) :
    ExpRuns P depth homes k S env (.assign p t v value) := by
  intro offset start ty is h hcode hlow c w hpc hprep α K hnext
  obtain ⟨y, l, i, text, hl, hscalar, -, hi, rfl⟩ := Exp.emits_assign h
  rw [holds_append, holds_cons] at hcode
  simp only [Exp.eval, bind_assoc]
  refine hvalue hi hcode.1 hlow hpc hprep _ fun u c₁ w₁ hpc₁ hafter₁ hheld₁ hty₁ => ?_
  refine Runs.asWord hheld₁ hty₁ hscalar fun hrange₁ => ?_
  rw [← hpc₁] at hcode
  apply Runs.assign hX.fits hafter₁.prepared hl hscalar hcode.2.1 hrange₁
  intro c₂ w₂ hpc₂ hac₂ hafter₂
  rw [pure_bind]
  refine hnext (.word c₁.ac) c₂ w₂ ?_ (hafter₁.trans hafter₂) ⟨hac₂, hrange₁⟩ hscalar
  rw [List.length_append, List.length_cons, List.length_nil]
  omega

/-- The address waits in the frame while the value is evaluated. -/
theorem ExpRuns.assignElement (hX : Executable P globals depth homes k) {p : Pos} {t : Option Ty}
    {v : VarUse} {index value : Exp} (hindex : ExpRuns P depth homes k S env index)
    (hvalue : ExpRuns P depth homes k S env value) :
    ExpRuns P depth homes k S env (.assignElement p t v index value) := by
  intro offset start ty is h hcode hlow c w hpc hprep α K hnext
  obtain ⟨y, aty, l, i, es, j, text, hl, harray, -, rfl, hi, hes, hlow', hj, rfl⟩ :=
    Exp.emits_assignElement h
  have hcode' : Holds P.code start (i ++ (es ++ (.rm .st .ac offset .fp "assign: push address" ::
      (j ++ [.rm .ld .ac1 offset .fp "assign: load address"]) ++ [.rm .st .ac 0 .ac1 text]))) := by
    simpa using hcode
  rw [hes.length_eq] at hj
  rw [holds_append, holds_append, hes.length_eq, holds_append] at hcode'
  obtain ⟨hcodei, hcodes, haside, hstore⟩ := hcode'
  simp only [Exp.eval, bind_assoc]
  refine hindex hi hcodei hlow hpc hprep _ fun u c₁ w₁ hpc₁ hafter₁ hheld₁ hty₁ => ?_
  refine Runs.asWord hheld₁ hty₁ rfl fun hrange₁ => ?_
  apply Runs.elementAddress hX.fits hafter₁.prepared hl harray hes hpc₁ hcodes hrange₁
  intro s hs size place _ c₂ hsize hplace _ hpc₂ hac₂ _ hafter₂
  apply Runs.aside hX hvalue hj rfl haside hlow' hpc₂ hafter₂.prepared
  intro c₃ w₃ hpc₃ hafter₃ hac1₃ hrange₃
  have hprep₃ := hafter₃.prepared
  -- the array may have been changed meanwhile, but it has the same elements
  obtain ⟨cells, ho, -, hpos, -⟩ := hprep₃.faithful.represents.array hs hsize
  have htop := hprep₃.faithful.represents.below s hs
  have hspan := Home.top_of_size hsize
  have hgp := hprep₃.faithful.gp_eq
  simp only [List.length_append, List.length_cons, List.length_nil] at hstore
  rw [holds_cons, show start + i.length + 8 + (j.length + (0 + 1) + 1) = c₃.pc by omega] at hstore
  refine Runs.step (fun _ => Core.step_st_ac1 hX.fits.size_lt hprep₃.faithful.sane
    (hac1₃.trans hac₂) (by omega) (by omega) (code_at hstore.1)) ?_
  refine Runs.find ho (Runs.quiet (b := ()) rfl rfl ?_)
  rw [pure_bind]
  have hplaced : 0 < s.base + 1 + place := by omega
  have hafter₄ : After P depth homes offset S env c₃
      { c₃.next with mem := c₃.mem.write (s.base + 1 + place) c₃.ac }
      { w₃ with objects := w₃.objects.set s.id ((Object.array cells).assign place c₃.ac) } := by
    apply hprep₃.after
    · exact hprep₃.faithful.next.write hplaced
        (hprep₃.faithful.represents.assignElement hs hsize hplace ho hrange₃)
    · rfl
    · exact Spared.write hplaced (Or.inr ⟨s, hs, Home.covers_element hsize hplace⟩) _ _
  refine hnext (.word c₃.ac) _ _ ?_ (((hafter₁.trans hafter₂).trans hafter₃).trans hafter₄)
    ⟨rfl, hrange₃⟩ rfl
  show c₃.pc + 1 = _
  simp only [List.length_append, List.length_cons, List.length_nil, hes.length_eq]
  omega

/-! ### Calls

The arguments are put below the frame one by one, and copied to where the callee expects its
parameters. What the callee does is a hypothesis of the stage, about one level of depth less. -/

/-- A value that is passed on is there, or the computation stops. -/
theorem Runs.present {c : Core} {w : World} {v : Value} {K : Value → Eval α}
    (h : v ≠ .nothing → Runs P c w (K v)) : Runs P c w (v.present >>= K) := by
  cases v with
  | word a => exact h Value.noConfusion
  | array id => exact h Value.noConfusion
  | nothing => exact Runs.undefined

/-- Arguments are evaluated from left to right, and stored from `offset` downwards. -/
theorem Runs.arguments (hX : Executable P globals depth homes k) {args : List Exp}
    (hargs : ∀ e ∈ args, ExpRuns P depth homes k S env e) {offset : Int} {start : Nat}
    {tys : List Ty}
    {is : List Instr} (h : Exp.ArgumentsEmit S k offset start args tys is)
    (hcode : Holds P.code start is) (hlow : -2 ^ 31 ≤ offset) {c : Core} {w : World}
    (hpc : c.pc = start) (hprep : Prepared P depth homes offset S env c w) {K : List Value → Eval α}
    (hnext : ∀ values c' w', c'.pc = start + is.length → After P depth homes offset S env c c' w' →
      values.length = args.length → Passed homes c'.mem (c.fp + offset) tys values →
      Runs P c' w' (K values)) :
    Runs P c w (Exp.evalAll (P.call depth) env args >>= K) := by
  induction args generalizing offset start tys is c w K with
  | nil =>
    obtain ⟨rfl, rfl⟩ := Exp.argumentsEmit_nil h
    simp only [Exp.evalAll, pure_bind]
    exact hnext [] c w hpc hprep.refl rfl trivial
  | cons e rest ih =>
    obtain ⟨ety, etys, i, j, rfl, hlow', hi, hj, rfl⟩ := Exp.argumentsEmit_cons h
    rw [holds_append, holds_cons] at hcode
    obtain ⟨hcodei, hpush, hcodej⟩ := hcode
    have hoff := hprep.offset_le
    simp only [Exp.evalAll, bind_assoc]
    refine hargs e List.mem_cons_self hi hcodei hlow' hpc (hprep.lower (by omega)) _
      fun v c₁ w₁ hpc₁ hafter₁ hheld₁ hty₁ => ?_
    refine Runs.present fun hpresent => ?_
    have hraised₁ := hafter₁.raise hprep (by omega)
    rw [← hpc₁] at hpush
    apply Runs.store (g := false) hX.fits hafter₁.prepared.faithful hpush hlow hoff
    show 0 < offset + c₁.fp → Runs P { c₁.next with mem := c₁.mem.write (offset + c₁.fp) c₁.ac } w₁
      _
    intro hpos
    have hafter₂ := hraised₁.prepared.push hpos (by omega) c₁.ac
    refine ih (fun e' he' => hargs e' (List.mem_cons_of_mem e he')) hj hcodej hlow'
      (congrArg (· + 1) hpc₁) (hafter₂.prepared.lower (by omega)) ?_
    intro values c₃ w₃ hpc₃ hafter₃ hlength hpassed
    have hraised₃ := hafter₃.raise hafter₂.prepared (by omega)
    rw [pure_bind]
    refine hnext (v :: values) c₃ w₃ ?_ ((hraised₁.trans hafter₂).trans hraised₃)
      (congrArg (· + 1) hlength) ?_
    · rw [hpc₃]
      simp only [List.length_append, List.length_cons]
      omega
    · have hfp₁ := hafter₁.fp_eq
      -- the cell of the first argument lies above those that the others use
      have hkept : c₃.mem.read (offset + c₁.fp) = c₁.ac := by
        rw [hafter₃.spared (offset + c₁.fp) hpos (by show c₁.fp + (offset - 1) < _; omega)
          (hafter₂.prepared.free (by show _ ≤ c₁.fp + offset; omega)), Memory.read_write_self]
      rw [← hfp₁, Int.add_comm]
      refine ⟨hpos, ?_, ?_⟩
      · rw [hkept]
        exact ⟨hpresent, hheld₁, hty₁⟩
      · rw [show offset + c₁.fp - 1 = c₁.fp + (offset - 1) by omega]
        exact hpassed

/-- The arguments, their copies, and the call. -/
theorem ExpRuns.call (hX : Executable P globals depth homes k) {p : Pos} {t : Option Ty}
    {callee : String} {args : List Exp} (hargs : ∀ e ∈ args, ExpRuns P depth homes k S env e) :
    ExpRuns P depth homes k S env (.call p t callee args) := by
  intro offset start ty is h hcode hlow c w hpc hprep α K hnext
  obtain ⟨name, result, params, d, tys, as, entry, jump, hl, rfl, harity, htys, has, hlow',
    hentry, hjump, rfl⟩ := Exp.emits_call h
  obtain ⟨rfl, hfound⟩ := hprep.names.functions _ _ _ _ _ hl
  have hsig := hfound.of_arguments hX.fits.output harity htys
  have hpool := hX.linked _ (Linker.mem_of_entry hX.strict hentry)
  have hoff := hprep.offset_le
  have hlen := hX.fits.code_lt
  have hbound := hcode.bound (by simp [callSequence])
  simp only [List.length_append, length_copyArguments, callSequence, List.length_cons] at hbound
  have htarget := hX.fits.pool_lt _ hpool
  obtain rfl := Instr.relative_eq_ok hjump (by omega) (by omega)
  simp only [holds_append, length_copyArguments] at hcode
  obtain ⟨hcodea, hcodec, hcodes⟩ := hcode
  simp only [Exp.eval, bind_assoc]
  apply Runs.arguments hX hargs has hcodea hlow hpc hprep
  intro values c₁ w₁ hpc₁ hafter₁ hlength hpassed₁
  cases depth with
  | zero =>
    -- calls are nested too deep for the evaluation to come to an end
    show Runs P c₁ w₁ (Eval.stop .exhausted >>= K)
    rw [Eval.stop_bind]
    exact .unsettled rfl
  | succ depth =>
    have hfp₁ := hafter₁.fp_eq
    rw [← hfp₁] at hpassed₁
    apply Runs.copyArguments hX.fits hcodec hlow' (Nat.zero_le _) hpc₁
      (hafter₁.prepared.lower (by omega)) hoff
    · intro j hj
      exact hpassed₁.mild hX.fits hafter₁.prepared.faithful (by omega)
    · intro j hj
      exact absurd hj (Nat.not_lt_zero j)
    intro c₂ hpc₂ hafter₂ hcopied
    have hfp₂ := hafter₂.fp_eq
    -- the copies lie where the new frame has its parameters
    have hpassed₂ : Passed homes c₂.mem (c₂.fp + (offset - args.length) - 2) tys values := by
      refine hpassed₁.move fun i hi => ?_
      rw [show c₂.fp + (offset - args.length) - 2 - i =
        c₁.fp + offset - args.length - 2 - i by omega]
      exact hcopied i (by omega)
    apply Runs.callSequence hX.fits (hX.calls depth rfl) hpool hsig hX.globals hpc₂ _
      hafter₂.prepared.faithful hafter₂.prepared.above hafter₂.prepared.offset_le
        (by omega) hpassed₂
    · intro v c₃ w₃ hpc₃ hfp₃ hF₃ hspared₃ hheld₃ hty₃
      have hafter₃ := (hafter₂.raise hafter₁.prepared (by omega)).trans
        ((hafter₂.raise hafter₁.prepared (by omega)).prepared.after hF₃ hfp₃
          (hspared₃.raise (by omega)))
      refine hnext v c₃ w₃ ?_ (hafter₁.trans hafter₃) hheld₃ hty₃
      rw [hpc₃]
      simp only [List.length_append, length_copyArguments, callSequence, List.length_cons,
        List.length_nil]
      omega
    · exact s!"jump to {name}"
    · rw [show (entry : Int) - (start + as.length + 2 * args.length + 4 : Nat)
        = entry - ((start + as.length + 2 * args.length + 3 : Nat) + 1) by omega]
      exact hcodes

/-- Every accepted expression does what it means. -/
theorem exp_runs (hX : Executable P globals depth homes k) (e : Exp) :
    ExpRuns P depth homes k S env e := by
  induction e using Exp.induction with
  | int p n => exact ExpRuns.int hX p n
  | bool p b => exact ExpRuns.bool hX p b
  | nil p => exact ExpRuns.nil p
  | unary p t op e ih => exact ExpRuns.unary hX ih
  | binary p t op l r ihl ihr => exact ExpRuns.binary hX ihl ihr
  | var t v => exact ExpRuns.var hX t v
  | element t v i ih => exact ExpRuns.element hX ih
  | assign p t v e ih => exact ExpRuns.assign hX ih
  | assignElement p t v i e ihi ihe => exact ExpRuns.assignElement hX ihi ihe
  | call p t callee args ih => exact ExpRuns.call hX ih

end Expressions

end MiniC
