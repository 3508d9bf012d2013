import MiniC.Proofs.Meaning.Declarations
import MiniC.Proofs.Meaning.Expressions

/-!
# Statements in runs

The code of an accepted statement does what the statement means: it leads to the code behind it, or
to the instruction that returns from the function.

* `StmtRuns`: the code of a statement agrees with its meaning, whatever follows
* `stmt_runs`: every accepted statement does
-/

namespace MiniC

/-- Wherever the code of the statement lies, the machine agrees with a computation that starts with
the meaning of the statement. The statement takes its variables from the cells below `next`, and
temporary words are kept below `frameEnd`. -/
def StmtRuns (P : Stage) (globals : List Home) (depth : Nat) (k : Linker) (f : Enclosing)
    (frameEnd : Int) (s : Stmt) : Prop :=
  ∀ {S next start next' is}, s.Emits f S next k frameEnd start next' is → Holds P.code start is →
    frameEnd ≤ next' → -2 ^ 31 ≤ frameEnd →
    ∀ {homes env c w}, Executable P globals depth homes k → c.pc = start →
      Prepared P depth homes next S env c w →
      ∀ {α : Type} (K : Flow → Eval α),
        (∀ c' w', c'.pc = start + is.length → After P depth homes next S env c c' w' →
          Runs P c' w' (K .next)) →
        (∀ v c' w', P.code[c'.pc]? = some returnInstr → After P depth homes next S env c c' w' →
          v.Held homes c'.ac → v.OfTy (.scalar f.result) → Runs P c' w' (K (.returned v))) →
        Runs P c w (s.exec (P.call depth) P.limit env >>= K)

section Statements

variable {P : Stage} {globals : List Home} {depth : Nat} {homes : List Home} {k : Linker}
  {f : Enclosing} {frameEnd : Int} {S : ScopeTable} {env : Env} {next : Int} {α : Type}

/-! ### Expressions in statements

An expression ends with its value in the accumulator, where a test or a return finds it. -/

/-- An expression in a statement is evaluated. -/
theorem Runs.evaluate (hX : Executable P globals depth homes k) {e : Exp} {start : Nat} {ty : Ty}
    {is : List Instr} (h : e.Emits S k frameEnd start ty is) (hcode : Holds P.code start is)
    (hlow : -2 ^ 31 ≤ frameEnd) (hle : frameEnd ≤ next) {c : Core} {w : World} (hpc : c.pc = start)
    (hprep : Prepared P depth homes next S env c w) {K : Value → Eval α}
    (hnext : ∀ v c' w', c'.pc = start + is.length → After P depth homes next S env c c' w' →
      v.Held homes c'.ac → v.OfTy ty → Runs P c' w' (K v)) :
    Runs P c w (e.eval (P.call depth) env >>= K) := by
  refine exp_runs hX e h hcode hlow hpc (hprep.lower hle) K fun v c' w' hpc' hafter => ?_
  exact hnext v c' w' hpc' (hafter.raise hprep hle)

/-- A test jumps if it fails. -/
theorem Runs.test (hX : Executable P globals depth homes k) {e : Exp} {start target : Nat} {ty : Ty}
    {is : List Instr} (h : e.Emits S k frameEnd start ty is) (hcode : Holds P.code start is)
    (hscalar : ty.isArray = false) {t : String} {i : Instr}
    (hrel : Instr.relative .jeq .ac (start + is.length) target t = .ok i)
    (hi : P.code[start + is.length]? = some i) (htarget : target < 2 ^ 31)
    (hlow : -2 ^ 31 ≤ frameEnd) (hle : frameEnd ≤ next) {c : Core} {w : World} (hpc : c.pc = start)
    (hprep : Prepared P depth homes next S env c w) {K : Bool → Eval α}
    (htrue : ∀ c' w', c'.pc = start + is.length + 1 → After P depth homes next S env c c' w' →
      Runs P c' w' (K true))
    (hfalse : ∀ c' w', c'.pc = target → After P depth homes next S env c c' w' →
      Runs P c' w' (K false)) :
    Runs P c w (e.test (P.call depth) env >>= K) := by
  unfold Exp.test
  simp only [bind_assoc, pure_bind]
  apply Runs.evaluate hX h hcode hlow hle hpc hprep
  intro v c₁ w₁ hpc₁ hafter₁ hheld₁ hty₁
  refine Runs.asWord hheld₁ hty₁ hscalar fun _ => ?_
  have hjump : Machine.jumps? .jeq c₁.ac = some (decide (c₁.ac = 0)) := rfl
  apply Runs.branch_relative hX.fits hrel hpc₁ hi (Or.inl rfl) hjump htarget
  · intro htaken
    rw [decide_eq_false (fun hne => hne (of_decide_eq_true htaken))]
    exact hfalse _ w₁ rfl (hafter₁.goto _)
  · intro htaken
    rw [decide_eq_true (of_decide_eq_false htaken)]
    exact htrue _ w₁ (congrArg (· + 1) hpc₁) (hafter₁.goto _)

theorem StmtRuns.exp {p : Pos} {e : Exp} : StmtRuns P globals depth k f frameEnd (.exp p e) := by
  intro S next start next' is h hcode hend hlow homes env c w hX hpc hprep α K hnext _
  obtain ⟨rfl, ty, he⟩ := Stmt.emits_exp h
  simp only [Stmt.exec, bind_assoc, pure_bind]
  apply Runs.evaluate hX he hcode hlow hend hpc hprep
  intro v c' w' hpc' hafter _ _
  exact hnext c' w' hpc' hafter

theorem StmtRuns.ret {p : Pos} {value : Option Exp} :
    StmtRuns P globals depth k f frameEnd (.ret p value) := by
  intro S next start next' is h hcode hend hlow homes env c w hX hpc hprep α K _ hret
  cases value with
  | none =>
    obtain ⟨rfl, rfl⟩ := Stmt.emits_ret_none h
    rw [holds_cons, ← hpc] at hcode
    simp only [Stmt.exec, pure_bind]
    exact hret .nothing c w hcode.1 hprep.refl trivial rfl
  | some e =>
    obtain ⟨rfl, ty, i, hscalar, he, rfl⟩ := Stmt.emits_ret_some h
    rw [holds_append, holds_cons] at hcode
    simp only [Stmt.exec, bind_assoc, pure_bind]
    apply Runs.evaluate hX he hcode.1 hlow hend hpc hprep
    intro v c₁ w₁ hpc₁ hafter₁ hheld₁ hty₁
    rw [← hpc₁] at hcode
    refine Runs.asWord hheld₁ hty₁ hscalar fun hrange => ?_
    exact hret (.word c₁.ac) c₁ w₁ hcode.2.1 hafter₁ ⟨rfl, hrange⟩ rfl

/-! ### Branches and loops

What a branch leads to is the code behind it, or the return. A loop is followed by induction on the
rounds that its limit allows. -/

theorem StmtRuns.ifThen {p : Pos} {test : Exp} {s : Stmt}
    (hs : StmtRuns P globals depth k f frameEnd s) :
    StmtRuns P globals depth k f frameEnd (.ifThen p test s) := by
  intro S next start next' is h hcode hend hlow homes env c w hX hpc hprep α K hnext hret
  obtain ⟨ty, i, j, skip, hscalar, hi, hj, hskip, rfl⟩ := Stmt.emits_ifThen h
  have hlen := hX.fits.code_lt
  have hle := hj.tiled.le
  have hbound := hcode.bound (by simp)
  rw [List.length_append, List.length_cons] at hbound hnext
  rw [holds_append, holds_cons] at hcode
  simp only [Stmt.exec, bind_assoc]
  apply Runs.test hX hi hcode.1 hscalar hskip hcode.2.1 (by omega) hlow (by omega) hpc hprep
  · intro c₁ w₁ hpc₁ hafter₁
    rw [if_pos rfl]
    refine hs hj hcode.2.2 hend hlow hX hpc₁ hafter₁.prepared K ?_ ?_
    · intro c₂ w₂ hpc₂ hafter₂
      exact hnext c₂ w₂ (by omega) (hafter₁.trans hafter₂)
    · intro v c₂ w₂ hcode₂ hafter₂
      exact hret v c₂ w₂ hcode₂ (hafter₁.trans hafter₂)
  · intro c₁ w₁ hpc₁ hafter₁
    simp only [Bool.false_eq_true, if_false, pure_bind]
    exact hnext c₁ w₁ (by omega) hafter₁

theorem StmtRuns.ifElse {p : Pos} {test : Exp} {s s' : Stmt}
    (hs : StmtRuns P globals depth k f frameEnd s)
    (hs' : StmtRuns P globals depth k f frameEnd s') :
    StmtRuns P globals depth k f frameEnd (.ifElse p test s s') := by
  intro S next start next' is h hcode hend hlow homes env c w hX hpc hprep α K hnext hret
  obtain ⟨ty, next₁, i, j, l, toElse, toEnd, hscalar, hi, hj, hl, hElse, hEnd, rfl⟩ :=
    Stmt.emits_ifElse h
  have hlen := hX.fits.code_lt
  have hle := hj.tiled.le
  have hle' := hl.tiled.le
  have hbound := hcode.bound (by simp)
  simp only [List.length_append, List.length_cons] at hbound hnext
  simp only [holds_append, holds_cons] at hcode
  obtain ⟨hcodei, hbranch, hcodej, hjump, hcodel⟩ := hcode
  simp only [Stmt.exec, bind_assoc]
  apply Runs.test hX hi hcodei hscalar hElse hbranch (by omega) hlow (by omega) hpc hprep
  · intro c₁ w₁ hpc₁ hafter₁
    rw [if_pos rfl]
    refine hs hj hcodej (by omega) hlow hX hpc₁ hafter₁.prepared K ?_ ?_
    · intro c₂ w₂ hpc₂ hafter₂
      apply Runs.jump hX.fits hEnd hpc₂ hjump (by omega)
      refine hnext _ w₂ ?_ ((hafter₁.trans hafter₂).goto _)
      simp only
      omega
    · intro v c₂ w₂ hcode₂ hafter₂
      exact hret v c₂ w₂ hcode₂ (hafter₁.trans hafter₂)
  · intro c₁ w₁ hpc₁ hafter₁
    simp only [Bool.false_eq_true, if_false]
    -- the variables of the first branch keep their cells
    refine hs' hl hcodel hend hlow hX hpc₁ (hafter₁.prepared.lower hle) K ?_ ?_
    · intro c₂ w₂ hpc₂ hafter₂
      exact hnext c₂ w₂ (by omega) (hafter₁.trans (hafter₂.raise hafter₁.prepared hle))
    · intro v c₂ w₂ hcode₂ hafter₂
      exact hret v c₂ w₂ hcode₂ (hafter₁.trans (hafter₂.raise hafter₁.prepared hle))

theorem StmtRuns.whileDo {p : Pos} {test : Exp} {b : Stmt}
    (hb : StmtRuns P globals depth k f frameEnd b) :
    StmtRuns P globals depth k f frameEnd (.whileDo p test b) := by
  intro S next start next' is h hcode hend hlow homes env c w hX hpc hprep α K hnext hret
  obtain ⟨ty, i, j, skip, back, hscalar, hi, hj, hback, hskip, rfl⟩ := Stmt.emits_whileDo h
  have hlen := hX.fits.code_lt
  have hle := hj.tiled.le
  have hbound := hcode.bound (by simp)
  simp only [List.length_append, List.length_cons, List.length_nil] at hbound hnext
  simp only [holds_append, holds_cons] at hcode
  obtain ⟨hcodei, hbranch, hcodej, hjump, -⟩ := hcode
  simp only [Stmt.exec]
  generalize hbody : b.exec (P.call depth) P.limit env = body
  -- each time round, one round less is left
  induction P.limit generalizing c w with
  | zero =>
    simp only [repeatWhile, Eval.stop_bind]
    exact .unsettled rfl
  | succ n ih =>
    simp only [repeatWhile, bind_assoc]
    apply Runs.test hX hi hcodei hscalar hskip hbranch (by omega) hlow (by omega) hpc hprep
    · intro c₁ w₁ hpc₁ hafter₁
      simp only [if_true, bind_assoc]
      rw [← hbody]
      refine hb hj hcodej hend hlow hX hpc₁ hafter₁.prepared _ ?_ ?_
      · intro c₂ w₂ hpc₂ hafter₂
        have hafter₃ := (hafter₁.trans hafter₂).goto start
        apply Runs.jump hX.fits hback hpc₂ hjump (by omega)
        rw [hbody]
        refine ih rfl hafter₃.prepared ?_ ?_
        · intro v c₄ w₄ hcode₄ hafter₄
          exact hret v c₄ w₄ hcode₄ (hafter₃.trans hafter₄)
        · intro c₄ w₄ hpc₄ hafter₄
          exact hnext c₄ w₄ hpc₄ (hafter₃.trans hafter₄)
      · intro v c₂ w₂ hcode₂ hafter₂ hheld₂ hty₂
        rw [pure_bind]
        exact hret v c₂ w₂ hcode₂ (hafter₁.trans hafter₂) hheld₂ hty₂
    · intro c₁ w₁ hpc₁ hafter₁
      simp only [Bool.false_eq_true, if_false, pure_bind]
      exact hnext c₁ w₁ (by omega) hafter₁

/-! ### Blocks

The homes of a block are forgotten at its end, and values that name them cannot be used any more. -/

/-- Statements in order do what they mean if each of them does. -/
theorem Runs.stmtsAll {body : List Stmt}
    (hbody : ∀ s ∈ body, StmtRuns P globals depth k f frameEnd s)
    {start : Nat} {next' : Int} {is : List Instr}
    (h : Stmt.EmitsAll f S next k frameEnd start body next' is) (hcode : Holds P.code start is)
    (hend : frameEnd ≤ next') (hlow : -2 ^ 31 ≤ frameEnd) (hX : Executable P globals depth homes k)
    {c : Core} {w : World} (hpc : c.pc = start) (hprep : Prepared P depth homes next S env c w)
    {K : Flow → Eval α}
    (hnext : ∀ c' w', c'.pc = start + is.length → After P depth homes next S env c c' w' →
      Runs P c' w' (K .next))
    (hret : ∀ v c' w', P.code[c'.pc]? = some returnInstr → After P depth homes next S env c c' w' →
      v.Held homes c'.ac → v.OfTy (.scalar f.result) → Runs P c' w' (K (.returned v))) :
    Runs P c w (Stmt.execAll (P.call depth) P.limit env body >>= K) := by
  induction body generalizing next start is c w with
  | nil =>
    obtain ⟨rfl, rfl⟩ := Stmt.emitsAll_nil h
    simp only [Stmt.execAll, pure_bind]
    exact hnext c w hpc hprep.refl
  | cons s rest ih =>
    obtain ⟨next₁, i, j, hi, hj, rfl⟩ := Stmt.emitsAll_cons h
    rw [holds_append] at hcode
    rw [List.length_append] at hnext
    have hle := hi.tiled.le
    -- a statement keeps the cells of its declarations, so the others start below them
    have hle' : next' ≤ next₁ := (hj.tiled fun s _ => Stmt.Emits.tiled).le
    simp only [Stmt.execAll, bind_assoc]
    refine hbody s List.mem_cons_self hi hcode.1 (by omega) hlow hX hpc hprep _ ?_ ?_
    · intro c₁ w₁ hpc₁ hafter₁
      refine ih (fun s' hs' => hbody s' (List.mem_cons_of_mem s hs')) hj hcode.2 hpc₁
        (hafter₁.prepared.lower hle) ?_ ?_
      · intro c₂ w₂ hpc₂ hafter₂
        exact hnext c₂ w₂ (by omega) (hafter₁.trans (hafter₂.raise hafter₁.prepared hle))
      · intro v c₂ w₂ hcode₂ hafter₂
        exact hret v c₂ w₂ hcode₂ (hafter₁.trans (hafter₂.raise hafter₁.prepared hle))
    · intro v c₁ w₁ hcode₁ hafter₁ hheld₁ hty₁
      rw [pure_bind]
      exact hret v c₁ w₁ hcode₁ hafter₁ hheld₁ hty₁

/-- A word that a function returns does not depend on its objects. -/
theorem Value.Held.forget {homes' : List Home} {v : Value} {a : Word} (h : v.Held homes' a)
    {ty : Ty}
    (hty : v.OfTy ty) (hscalar : ty.isArray = false) : v.Held homes a := by
  cases v with
  | word b => exact h
  | array id =>
    unfold Value.OfTy at hty
    rw [hscalar] at hty
    cases hty
  | nothing => trivial

theorem StmtRuns.block {p : Pos} {decls : List VarDecl} {body : List Stmt}
    (hbody : ∀ s ∈ body, StmtRuns P globals depth k f frameEnd s) :
    StmtRuns P globals depth k f frameEnd (.block p decls body) := by
  intro S next start next' is h hcode hend hlow homes env c w hX hpc hprep α K hnext hret
  obtain ⟨S₁, next₁, placed, j, -, hd, hj, rfl⟩ := Stmt.emits_block h
  rw [holds_append] at hcode
  rw [List.length_append] at hnext
  have hle := hd.tiled.le
  have henter : Prepared P depth homes next S.enter env c w :=
    ⟨hprep.faithful, hprep.names.enter, hprep.above, hprep.offset_le⟩
  simp only [Stmt.exec, bind_assoc]
  apply Runs.declareAll hX.fits hd hpc hcode.1 henter
  intro homes₁ env₁ c₁ w₁ hpc₁ hfp₁ hprep₁ hextends₁ hspared₁
  -- when the block is left, only the older objects are kept
  have hleave : ∀ {c₂ w₂}, After P depth homes₁ next₁ S₁ env₁ c₁ c₂ w₂ →
      After P depth homes next S env c c₂ w₂ := by
    intro c₂ w₂ hafter₂
    have hspared₂ := hafter₂.spared
    rw [hfp₁] at hspared₂
    exact hprep.after (hafter₂.prepared.faithful.sub hextends₁.old) (hafter₂.fp_eq.trans hfp₁)
      (hspared₁.trans (hextends₁.spared hspared₂ (by omega)))
  refine Runs.stmtsAll hbody hj hcode.2 hend hlow
    { hX with globals := fun s hs => hextends₁.old s (hX.globals s hs) } hpc₁ hprep₁ ?_ ?_
  · intro c₂ w₂ hpc₂ hafter₂
    exact hnext c₂ w₂ (by omega) (hleave hafter₂)
  · intro v c₂ w₂ hcode₂ hafter₂ hheld₂ hty₂
    exact hret v c₂ w₂ hcode₂ (hleave hafter₂) (hheld₂.forget hty₂ rfl) hty₂

/-- Every accepted statement does what it means. -/
theorem stmt_runs (s : Stmt) : StmtRuns P globals depth k f frameEnd s := by
  induction s using Stmt.induction with
  | exp p e => exact StmtRuns.exp
  | block p decls body ih => exact StmtRuns.block ih
  | ifThen p test s ih => exact StmtRuns.ifThen ih
  | ifElse p test s s' ih ih' => exact StmtRuns.ifElse ih ih'
  | whileDo p test b ih => exact StmtRuns.whileDo ih
  | ret p value => exact StmtRuns.ret

end Statements

end MiniC
