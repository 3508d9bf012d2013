import Mathlib.Data.List.Basic
import MiniC.Proofs.Sizes
import MiniC.Proofs.Typing.Checking

/-!
# Diagnostics of expressions

What is wrong with an expression is wrong with a use of a name, and never with a declaration. The
diagnostics about declarations are those of the declarations themselves.

* `Diagnostic.ofDeclaration`: diagnostics about declarations
* `Exp.filter_check`, `filter_test`, `filter_returnErrors`: expressions, tests and returned values
-/

namespace MiniC

theorem filter_demand (q : Diagnostic → Bool) (holds : Bool) (pos : Pos) (fault : SemanticFault) :
    (demand holds pos fault).filter q = bif q ⟨pos, fault⟩ then demand holds pos fault else [] := by
  cases holds with
  | true => cases q ⟨pos, fault⟩ <;> rfl
  | false => exact List.filter_singleton

namespace Diagnostic

/-- The diagnostic is about the declaration of a variable, or the name of a function. -/
def ofDeclaration (d : Diagnostic) : Bool :=
  match d.fault with
  | .redeclared _ _ | .voidDeclared _ _ | .zeroSize | .tooLarge _ => true
  | _ => false

/-- Where no diagnostic is about a declaration, there is none of any such kind. -/
theorem filter_eq_nil {q : Diagnostic → Bool} (hq : ∀ d, q d = true → d.ofDeclaration = true)
    {errors : List Diagnostic} (h : errors.filter ofDeclaration = []) : errors.filter q = [] := by
  rw [List.filter_eq_nil_iff] at h ⊢
  exact fun d hd hqd => h d hd (hq d hqd)

end Diagnostic

theorem VarUse.filter_check (S : ScopeTable) (v : VarUse) :
    (v.check S).errors.filter Diagnostic.ofDeclaration = [] := by
  unfold VarUse.check
  split <;> rfl

theorem VarUse.filter_checkIndexed (S : ScopeTable) (v : VarUse) (index : Ty) :
    (v.checkIndexed S index).errors.filter Diagnostic.ofDeclaration = [] := by
  unfold VarUse.checkIndexed
  split
  · split
    · exact filter_demand ..
    · rfl
  · rfl
  · rfl

theorem filter_assignmentErrors (p : Pos) (target value : Ty) :
    (assignmentErrors p target value).filter Diagnostic.ofDeclaration = [] := by
  unfold assignmentErrors
  split
  · rfl
  · exact filter_demand ..

theorem filter_argumentErrors (p : Pos) (f : String) (n : Nat) (params : List Param)
    (tys : List Ty) :
    (argumentErrors p f n params tys).filter Diagnostic.ofDeclaration = [] := by
  induction params generalizing n tys with
  | nil => rfl
  | cons q params ih =>
    cases tys with
    | nil => rfl
    | cons t tys =>
      rw [argumentErrors, List.filter_append, ih, List.append_nil]
      exact filter_demand ..

theorem filter_checkCall (S : ScopeTable) (p : Pos) (f : String) (tys : List Ty) :
    (checkCall S p f tys).2.filter Diagnostic.ofDeclaration = [] := by
  unfold checkCall
  split
  · split
    · rfl
    · split
      · rw [List.filter_flatMap]
        simp [filter_demand, Diagnostic.ofDeclaration]
      · exact filter_argumentErrors p f 1 _ tys
  · rfl
  · rfl

/-- No diagnostic of an expression is about a declaration. -/
theorem Exp.filter_check (S : ScopeTable) (e : Exp) :
    (e.check S).errors.filter Diagnostic.ofDeclaration = [] := by
  induction e using Exp.induction with
  | int p n => rfl
  | bool p b => rfl
  | nil p => rfl
  | unary p t op e ih =>
    simp only [Exp.check, List.filter_append, ih, filter_demand, Diagnostic.ofDeclaration,
      cond_false, List.append_nil]
  | binary p t op l r ihl ihr =>
    simp only [Exp.check, List.filter_append, ihl, ihr, filter_demand, Diagnostic.ofDeclaration,
      cond_false, List.append_nil]
  | var t v => exact v.filter_check S
  | element t v i ih =>
    simp only [Exp.check, List.filter_append, ih, VarUse.filter_checkIndexed, List.append_nil]
  | assign p t v e ih =>
    simp only [Exp.check, List.filter_append, ih, VarUse.filter_check, filter_assignmentErrors,
      List.append_nil]
  | assignElement p t v i e ihi ihe =>
    simp only [Exp.check, List.filter_append, ihi, ihe, VarUse.filter_checkIndexed,
      filter_assignmentErrors, List.append_nil]
  | call p t f args ih =>
    have hargs :
        ((Exp.checkAll S args).flatMap TypedExp.errors).filter Diagnostic.ofDeclaration = [] := by
      induction args with
      | nil => rfl
      | cons e rest hrest =>
        rw [Exp.checkAll, List.flatMap_cons, List.filter_append, ih e List.mem_cons_self,
          hrest fun a ha => ih a (List.mem_cons_of_mem e ha), List.append_nil]
    simp only [Exp.check, List.filter_append, hargs, filter_checkCall, List.append_nil]

theorem filter_returnErrors (f : Enclosing) (p : Pos) (ty : Ty) :
    (returnErrors f p ty).filter Diagnostic.ofDeclaration = [] := by
  unfold returnErrors
  split
  · rfl
  · exact filter_demand ..

/-- The diagnostics of a test. -/
theorem filter_test (S : ScopeTable) (c : Construct) (t : Exp) :
    ((t.check S).errors ++ testErrors c (t.check S)).filter Diagnostic.ofDeclaration = [] := by
  rw [List.filter_append, Exp.filter_check, List.nil_append]
  exact filter_demand ..

end MiniC
