import MiniC.Proofs.Coding
import MiniC.Proofs.Scopes
import MiniC.Typing.Analysis

/-!
# The analysis, phrase by phrase

The scopes that a statement is analysed in are those that it leaves behind: each block closes the
one scope that it has opened, and its declarations have changed no other. So a statement can be
analysed knowing the scopes around it alone, and what it comes to does not depend on how its
siblings were analysed but for the free offset. Proofs follow this form of the analysis, in which
every phrase is given its scopes.

* `Stmt.check`, `FunDecl.check`, `Decl.checkAll`: the analysis of a phrase in its scopes
* `VarDecl.leave_checkAll`: closing a scope undoes its declarations
* `Stmt.visit_eq`, `FunDecl.visit_eq`: what the analysis computes, and the scopes that it leaves
* `analyze_eq`: whole programs
-/

namespace MiniC

/-! ### Phrases in their scopes

The same analysis without a table that is handed on. Each phrase is checked in the scopes that are
open there, and what it opens itself does not leave it. -/

mutual

/-- Analyses a statement in the given scopes, with `next` the free offset before it. -/
def Stmt.check (enclosing : Enclosing) (scopes : ScopeTable) (next : Int) : Stmt → Checked Stmt
  | .exp p e =>
    let e := e.check scopes
    ⟨.exp p e.exp, next, false, e.errors, []⟩
  | .block p decls body =>
    let d := VarDecl.checkAll .var frameLevel scopes.enter next decls
    let b := Stmt.checkAll enclosing d.scopes d.next body
    ⟨.block p d.value b.value, b.next, b.returns, d.errors ++ b.errors,
      b.dump ++ d.scopes.dump "Block scope:"⟩
  | .ifThen p test thenBranch =>
    let t := test.check scopes
    let a := thenBranch.check enclosing scopes next
    ⟨.ifThen p t.exp a.value, a.next, a.returns,
      t.errors ++ testErrors .conditional t ++ a.errors, a.dump⟩
  | .ifElse p test thenBranch elseBranch =>
    let t := test.check scopes
    let a := thenBranch.check enclosing scopes next
    let b := elseBranch.check enclosing scopes a.next
    ⟨.ifElse p t.exp a.value b.value, b.next, a.returns || b.returns,
      t.errors ++ testErrors .conditional t ++ a.errors ++ b.errors, a.dump ++ b.dump⟩
  | .whileDo p test body =>
    let t := test.check scopes
    let b := body.check enclosing scopes next
    ⟨.whileDo p t.exp b.value, b.next, b.returns,
      t.errors ++ testErrors .loop t ++ b.errors, b.dump⟩
  | .ret p none =>
    ⟨.ret p none, next, false,
      demand (enclosing.result = .void) p (.bareReturn enclosing.name), []⟩
  | .ret p (some value) =>
    let v := value.check scopes
    ⟨.ret p (some v.exp), next, true, v.errors ++ returnErrors enclosing p v.ty, []⟩

/-- Analyses statements in order. -/
def Stmt.checkAll (enclosing : Enclosing) (scopes : ScopeTable) (next : Int) :
    List Stmt → Checked (List Stmt)
  | [] => ⟨[], next, false, [], []⟩
  | s :: rest =>
    let first := s.check enclosing scopes next
    let others := Stmt.checkAll enclosing scopes first.next rest
    ⟨first.value :: others.value, others.next, first.returns || others.returns,
      first.errors ++ others.errors, first.dump ++ others.dump⟩

end

/-- Analyses a function body, a block whose scope is inside that of the parameters. -/
def Block.check (enclosing : Enclosing) (scopes : ScopeTable) (next : Int) (b : Block) :
    Checked Block :=
  let d := VarDecl.checkAll .var frameLevel scopes.enter next b.decls
  let s := Stmt.checkAll enclosing d.scopes d.next b.stmts
  ⟨⟨b.pos, d.value, s.value⟩, s.next, s.returns, d.errors ++ s.errors,
    s.dump ++ d.scopes.dump "Block scope:"⟩

/-- Analyses a function, which leaves the scopes that it was announced in. A prototype's parameters
are checked, but their scope is not dumped. -/
def FunDecl.check (scopes : ScopeTable) (next : Int) (f : FunDecl) : Announced FunDecl :=
  let announced := f.announce? scopes
  let outer := announced.getD scopes
  let refused := demand announced.isSome f.pos (.redeclared .function f.name)
  let params := VarDecl.checkAll .param frameLevel outer.enter firstFrameOffset f.params
  match f.body with
  | none =>
    ⟨{ f with params := params.value, frameEnd := params.next }, outer, next,
      refused ++ params.errors, []⟩
  | some body =>
    let b := body.check ⟨f.name, f.result⟩ params.scopes params.next
    ⟨{ f with params := params.value, body := some b.value, frameEnd := b.next }, outer, next,
      refused ++ params.errors ++ b.errors ++
        demand (f.result = .void || b.returns) f.pos (.noReturn f.name),
      b.dump ++ params.scopes.dump s!"Function scope of '{f.name}':"⟩

/-- Analyses a declaration, with `next` the free global offset before it. -/
def Decl.check (scopes : ScopeTable) (next : Int) : Decl → Announced Decl
  | .var d =>
    let d := d.check .var globalLevel scopes next
    ⟨.var d.value, d.scopes, d.next, d.errors, []⟩
  | .function f =>
    let f := f.check scopes next
    ⟨.function f.value, f.scopes, f.next, f.errors, f.dump⟩

/-- Analyses declarations in order. -/
def Decl.checkAll (scopes : ScopeTable) (next : Int) : List Decl → Announced (List Decl)
  | [] => ⟨[], scopes, next, [], []⟩
  | d :: rest =>
    let first := d.check scopes next
    let others := Decl.checkAll first.scopes first.next rest
    ⟨first.value :: others.value, others.scopes, others.next, first.errors ++ others.errors,
      first.dump ++ others.dump⟩


/-! ### Closing a scope

A declaration changes the innermost frame of the table or none, so the frames behind it are those in
front of which it was put. -/

theorem ScopeTable.leave_cons (f : Frame) (outer : List Frame) :
    ScopeTable.leave ⟨f :: outer⟩ = ⟨outer⟩ := rfl

/-- Declarations change the innermost frame alone. -/
theorem VarDecl.frames_checkAll (role : Role) (level : Nat) (next : Int) {S : ScopeTable}
    {f : Frame} {outer : List Frame} (h : S.frames = f :: outer) (ds : List VarDecl) :
    ∃ g, (VarDecl.checkAll role level S next ds).scopes.frames = g :: outer := by
  induction ds generalizing S f next with
  | nil => exact ⟨f, h⟩
  | cons d rest ih =>
    obtain ⟨g, hg⟩ : ∃ g, (d.check role level S next).scopes.frames = g :: outer := by
      cases hdeclared : S.declare? d.name (.var d.name d.ty (d.place level next).layout) with
      | none =>
        simp only [VarDecl.check, hdeclared, Option.getD_none]
        exact ⟨f, h⟩
      | some T =>
        obtain ⟨f', outer', g, hframes, -, rfl⟩ := ScopeTable.updateInner?_eq hdeclared
        simp only [VarDecl.check, hdeclared, Option.getD_some]
        rw [h] at hframes
        cases hframes
        exact ⟨g, rfl⟩
    exact ih _ hg

/-- Closing the scope that was opened for declarations gives back the scopes from before. -/
theorem VarDecl.leave_checkAll (role : Role) (level : Nat) (S : ScopeTable) (next : Int)
    (ds : List VarDecl) : (VarDecl.checkAll role level S.enter next ds).scopes.leave = S := by
  obtain ⟨g, hg⟩ := VarDecl.frames_checkAll role level next (S := S.enter) rfl ds
  generalize (VarDecl.checkAll role level S.enter next ds).scopes = T at hg
  obtain ⟨frames⟩ := T
  obtain rfl : frames = g :: S.frames := hg
  exact ScopeTable.leave_cons g S.frames

/-! ### The analysis with its table of scopes

Both forms are compared phrase by phrase. A phrase hands the scopes that it was given on to the next
one, so that both forms analyse the next one in the same scopes. -/

variable {enclosing : Enclosing} {S : ScopeTable} {next : Int}

theorem Stmt.visitAll_eq {body : List Stmt}
    (ih : ∀ s ∈ body, ∀ {next}, s.visit enclosing S next = ⟨s.check enclosing S next, S⟩) :
    Stmt.visitAll enclosing S next body = ⟨Stmt.checkAll enclosing S next body, S⟩ := by
  induction body generalizing next with
  | nil => rfl
  | cons s rest hrest =>
    simp only [visitAll, checkAll, ih s List.mem_cons_self]
    rw [hrest fun a ha => ih a (List.mem_cons_of_mem s ha)]

/-- A statement is analysed in the scopes around it, and leaves them as they are. By induction on
the statement; a block closes the scope that it has opened. -/
theorem Stmt.visit_eq (s : Stmt) :
    s.visit enclosing S next = ⟨s.check enclosing S next, S⟩ := by
  induction s using Stmt.induction generalizing S next with
  | exp p e => rfl
  | block p ds body ih =>
    simp only [visit, check]
    rw [visitAll_eq fun s hs => ih s hs, VarDecl.leave_checkAll]
  | ifThen p t a ih => simp only [visit, check, ih]
  | ifElse p t a b iha ihb => simp only [visit, check, iha, ihb]
  | whileDo p t b ih => simp only [visit, check, ih]
  | ret p v => cases v <;> rfl

theorem Block.visit_eq (b : Block) :
    b.visit enclosing S next = ⟨b.check enclosing S next, S⟩ := by
  simp only [visit, check]
  rw [Stmt.visitAll_eq fun s _ => s.visit_eq, VarDecl.leave_checkAll]

/-- A function leaves the scopes that it was announced in. -/
theorem FunDecl.visit_eq (f : FunDecl) : f.visit S next = f.check S next := by
  unfold visit check
  cases f.body with
  | none => simp only [VarDecl.leave_checkAll]
  | some body => simp only [Block.visit_eq, VarDecl.leave_checkAll]

theorem Decl.visit_eq (d : Decl) : d.visit S next = d.check S next := by
  cases d with
  | var d => rfl
  | function f => simp only [visit, check, FunDecl.visit_eq]

theorem Decl.visitAll_eq (ds : List Decl) : Decl.visitAll S next ds = Decl.checkAll S next ds := by
  induction ds generalizing S next with
  | nil => rfl
  | cons d rest ih => simp only [visitAll, checkAll, Decl.visit_eq, ih]

/-- The analysis of a program: its declarations in order, from the routines on. -/
theorem analyze_eq (program : Program) (trace : Bool) :
    analyze program trace =
      ⟨⟨(Decl.checkAll .initial 0 program.decls).value,
        (Decl.checkAll .initial 0 program.decls).next⟩,
          (Decl.checkAll .initial 0 program.decls).errors,
        if trace then (Decl.checkAll .initial 0 program.decls).dump ++
          (Decl.checkAll .initial 0 program.decls).scopes.dump "Global scope:" else []⟩ := by
  rw [analyze, Decl.visitAll_eq]

variable (program : Program) (trace : Bool)

theorem errors_analyze : (analyze program trace).errors =
    (Decl.checkAll .initial 0 program.decls).errors := by
  rw [analyze_eq]

theorem decls_analyze : (analyze program trace).program.decls =
    (Decl.checkAll .initial 0 program.decls).value := by
  rw [analyze_eq]

theorem globalsEnd_analyze : (analyze program trace).program.globalsEnd =
    (Decl.checkAll .initial 0 program.decls).next := by
  rw [analyze_eq]

end MiniC
