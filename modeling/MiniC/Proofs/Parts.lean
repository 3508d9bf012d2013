import MiniC.Proofs.Functions

/-!
# The expressions of a program

Where the code of each expression in a program lies, by the sizes of what stands in front of it.

* `Exp.parts`, `Stmt.parts`, `Program.parts`: the expressions in a phrase, with their addresses
* `Part.Lies`: the code of an expression is at its address
* `Compiles.lies`: in a compiled program that of every expression is
-/

namespace MiniC

/-- An expression, and the address at which its code starts. -/
structure Part where
  start : Nat
  exp : Exp

mutual

/-- The expressions in an expression whose code starts at an address, itself included. They are
listed in the order in which their code ends, so operands come before what is done with them. -/
def Exp.parts (start : Nat) : Exp → List Part
  | .int p n => [⟨start, .int p n⟩]
  | .bool p b => [⟨start, .bool p b⟩]
  | .nil p => [⟨start, .nil p⟩]
  | .var t v => [⟨start, .var t v⟩]
  | .unary p t op e => e.parts start ++ [⟨start, .unary p t op e⟩]
  -- one instruction keeps, or tests, the left operand
  | .binary p t op l r =>
    l.parts start ++ (r.parts (start + l.size + 1) ++ [⟨start, .binary p t op l r⟩])
  | .element t v i => i.parts start ++ [⟨start, .element t v i⟩]
  | .assign p t v e => e.parts start ++ [⟨start, .assign p t v e⟩]
  -- eight instructions check the index, and one keeps the address
  | .assignElement p t v i e =>
    i.parts start ++ (e.parts (start + i.size + 9) ++ [⟨start, .assignElement p t v i e⟩])
  | .call p t f args => Exp.argumentParts start args ++ [⟨start, .call p t f args⟩]

/-- The expressions in arguments. -/
def Exp.argumentParts (start : Nat) : List Exp → List Part
  | [] => []
  | e :: rest => e.parts start ++ Exp.argumentParts (start + e.size + 1) rest

end

mutual

/-- The expressions in a statement whose code starts at an address. -/
def Stmt.parts (start : Nat) : Stmt → List Part
  | .exp _ e => e.parts start
  | .block _ ds body => Stmt.partsAll (start + VarDecl.sizes ds) body
  | .ifThen _ t a => t.parts start ++ a.parts (start + t.size + 1)
  | .ifElse _ t a b =>
    t.parts start ++ a.parts (start + t.size + 1) ++ b.parts (start + t.size + 1 + a.size + 1)
  | .whileDo _ t b => t.parts start ++ b.parts (start + t.size + 1)
  | .ret _ none => []
  | .ret _ (some e) => e.parts start

/-- The expressions in statements. -/
def Stmt.partsAll (start : Nat) : List Stmt → List Part
  | [] => []
  | s :: rest => s.parts start ++ Stmt.partsAll (start + s.size) rest

end

/-- The expressions in a declaration. A jump around the body and the store of the return address
stand in front of the body of a function. -/
def Decl.parts (start : Nat) : Decl → List Part
  | .var _ => []
  | .function f =>
    match f.body with
    | none => []
    | some body => (Stmt.block body.pos body.decls body.stmts).parts (start + 2)

/-- The expressions in declarations. -/
def Decl.partsAll (start : Nat) : List Decl → List Part
  | [] => []
  | d :: rest => d.parts start ++ Decl.partsAll (start + d.size) rest

/-- The expressions in an analysed program. -/
def Program.parts (p : Program) : List Part :=
  Decl.partsAll bodyStart p.decls

/-- The code of the expression, with calls linked by `k`, is at its address, and its marks are
beside it. -/
structure Part.Lies (k : Linker) (code : List Instr) (marks : List Mark) (part : Part) : Prop where
  code : ∃ offset is, part.exp.code k offset part.start = .ok is ∧ Holds code part.start is
  marks : Holds marks part.start part.exp.marks

section Places

variable {k : Linker} {code : List Instr} {marks : List Mark}

theorem Exp.lies_arguments {args : List Exp}
    (ih : ∀ a ∈ args, ∀ {offset start is}, a.code k offset start = .ok is → Holds code start is →
      Holds marks start a.marks → ∀ part ∈ a.parts start, part.Lies k code marks)
    {offset : Int} {start : Nat} {is : List Instr}
    (h : Exp.argumentCode k offset start args = .ok is) (hcode : Holds code start is)
    (hmarks : Holds marks start (Exp.argumentMarks args)) :
    ∀ part ∈ Exp.argumentParts start args, part.Lies k code marks := by
  induction args generalizing offset start is with
  | nil =>
    intro part hpart
    cases hpart
  | cons e rest hrest =>
    obtain ⟨i, j, -, hi, hj, rfl⟩ := Exp.argumentCode_cons h
    have hlen := Exp.length_code hi
    rw [holds_append, holds_cons, hlen] at hcode
    rw [Exp.argumentMarks, holds_append, holds_cons, e.length_marks] at hmarks
    rw [hlen] at hj
    simp only [Exp.argumentParts, List.forall_mem_append]
    exact ⟨ih e List.mem_cons_self hi hcode.1 hmarks.1,
      hrest (fun a ha => ih a (List.mem_cons_of_mem e ha)) hj hcode.2.2 hmarks.2.2⟩

/-- An expression lies where its own code is. -/
theorem Exp.lies_self {e : Exp} {offset : Int} {start : Nat} {is : List Instr}
    (h : e.Coded k offset start is) (hcode : Holds code start is)
    (hmarks : Holds marks start e.marks) : ∀ part ∈ [(⟨start, e⟩ : Part)], part.Lies k code marks :=
  List.forall_mem_singleton.mpr ⟨⟨offset, is, h.code_eq, hcode⟩, hmarks⟩

/-- In the code of an expression that of every part is at its address. Induction on how the code is
made: the code of an operand is a segment of the code, and its marks are a segment of the marks. -/
theorem Exp.lies {e : Exp} {offset : Int} {start : Nat} {is : List Instr}
    (h : e.code k offset start = .ok is) (hcode : Holds code start is)
    (hmarks : Holds marks start e.marks) : ∀ part ∈ e.parts start, part.Lies k code marks := by
  replace h := Exp.coded h
  induction h with
  | @int offset _ p n => exact Exp.lies_self (@Exp.Coded.int k offset _ p n) hcode hmarks
  | @bool offset _ p b => exact Exp.lies_self (@Exp.Coded.bool k offset _ p b) hcode hmarks
  | @nil offset _ p => exact Exp.lies_self (@Exp.Coded.nil k offset _ p) hcode hmarks
  | @var offset _ _ _ _ hload =>
    exact Exp.lies_self (@Exp.Coded.var k offset _ _ _ _ hload) hcode hmarks
  | @unary _ _ p t op _ _ he ih =>
    have hself := Exp.lies_self (@Exp.Coded.unary _ _ _ p t op _ _ he) hcode hmarks
    rw [holds_append] at hcode
    refine List.forall_mem_append.mpr ⟨?_, hself⟩
    cases op with
    | neg =>
      rw [Exp.marks, holds_append] at hmarks
      exact ih hcode.1 hmarks.1
    | not =>
      rw [Exp.marks, holds_append] at hmarks
      exact ih hcode.1 hmarks.1
  -- whatever combines the operands, the right one starts one instruction behind the left one
  | @shortCircuit _ _ _ _ _ l _ _ _ _ _ _ hop hl hr hskip ihl ihr =>
    have hself := Exp.lies_self (.shortCircuit hop hl hr hskip) hcode hmarks
    have hlen := Exp.length_code hl.code_eq
    rw [holds_append, holds_cons] at hcode
    simp only [Exp.marks, hop, holds_append, holds_cons, l.length_marks, ← hlen] at hmarks
    simp only [Exp.parts, List.forall_mem_append, ← hlen]
    exact ⟨ihl hcode.1 hmarks.1, ihr hcode.2.2 hmarks.2.2, hself⟩
  | @operation _ _ _ _ _ l _ _ _ _ hop hl hlower hr ihl ihr =>
    have hself := Exp.lies_self (.operation hop hl hlower hr) hcode hmarks
    have hlen := Exp.length_code hl.code_eq
    rw [holds_append, holds_cons, holds_append] at hcode
    simp only [Exp.marks, hop, holds_append, holds_cons, l.length_marks, ← hlen] at hmarks
    simp only [Exp.parts, List.forall_mem_append, ← hlen]
    exact ⟨ihl hcode.1 hmarks.1, ihr hcode.2.2.1 hmarks.2.2.1, hself⟩
  | @comparison _ _ _ _ _ l _ _ _ _ hop hl hlower hr ihl ihr =>
    have hself := Exp.lies_self (.comparison hop hl hlower hr) hcode hmarks
    have hlen := Exp.length_code hl.code_eq
    rw [holds_append, holds_cons, holds_append] at hcode
    simp only [Exp.marks, hop, holds_append, holds_cons, l.length_marks, ← hlen] at hmarks
    simp only [Exp.parts, List.forall_mem_append, ← hlen]
    exact ⟨ihl hcode.1 hmarks.1, ihr hcode.2.2.1 hmarks.2.2.1, hself⟩
  | element hi ha ih =>
    have hself := Exp.lies_self (.element hi ha) hcode hmarks
    rw [holds_append] at hcode
    rw [Exp.marks, holds_append] at hmarks
    exact List.forall_mem_append.mpr ⟨ih hcode.1 hmarks.1, hself⟩
  | assign he hstore ih =>
    have hself := Exp.lies_self (.assign he hstore) hcode hmarks
    rw [holds_append] at hcode
    rw [Exp.marks, holds_append] at hmarks
    exact List.forall_mem_append.mpr ⟨ih hcode.1 hmarks.1, hself⟩
  | @assignElement _ start _ _ _ index _ i a _ hi ha hlower he ihi ihe =>
    have hself := Exp.lies_self (.assignElement hi ha hlower he) hcode hmarks
    have hlen := Exp.length_code hi.code_eq
    have hplace : start + i.length + a.length + 1 = start + i.length + 9 := by
      rw [VarUse.length_elementAddress ha]
    rw [holds_append, holds_append, holds_cons, holds_append, hplace] at hcode
    rw [Exp.marks, holds_append, holds_append, holds_cons, holds_append, index.length_marks,
      List.length_replicate, ← hlen] at hmarks
    rw [hplace] at ihe
    simp only [Exp.parts, List.forall_mem_append, ← hlen]
    exact ⟨ihi hcode.1 hmarks.1, ihe hcode.2.2.2.1 hmarks.2.2.2.1, hself⟩
  | call hargs hparts hlower htarget hjump ih =>
    have hself := Exp.lies_self (.call hargs hparts hlower htarget hjump) hcode hmarks
    rw [holds_append] at hcode
    rw [Exp.marks, holds_append] at hmarks
    exact List.forall_mem_append.mpr ⟨Exp.lies_arguments ih hargs hcode.1 hmarks.1, hself⟩

theorem Stmt.lies_all {f : Enclosing} {S : ScopeTable} {next next' : Int} {offset : Int}
    {start : Nat} {body : List Stmt} {is : List Instr}
    (ih : ∀ s ∈ body, ∀ {S next next' start is}, s.Emits f S next k offset start next' is →
      Holds code start is → Holds marks start (s.check f S next).value.marks →
      ∀ part ∈ (s.check f S next).value.parts start, part.Lies k code marks)
    (h : Stmt.EmitsAll f S next k offset start body next' is) (hcode : Holds code start is)
    (hmarks : Holds marks start (Stmt.marksAll (Stmt.checkAll f S next body).value)) :
    ∀ part ∈ Stmt.partsAll start (Stmt.checkAll f S next body).value, part.Lies k code marks := by
  induction body generalizing next start is with
  | nil =>
    intro part hpart
    cases hpart
  | cons s rest hrest =>
    obtain ⟨next₁, i, j, hi, hj, rfl⟩ := Stmt.emitsAll_cons h
    rw [holds_append] at hcode
    simp only [Stmt.checkAll, Stmt.marksAll, holds_append, hi.length_marks] at hmarks
    simp only [Stmt.checkAll, Stmt.partsAll, List.forall_mem_append]
    refine ⟨ih s List.mem_cons_self hi hcode.1 hmarks.1, ?_⟩
    rw [hi.next_eq] at hmarks ⊢
    rw [Stmt.size_check, ← hi.length_eq]
    exact hrest (fun a ha => ih a (List.mem_cons_of_mem s ha)) hj hcode.2 hmarks.2

/-- In the code of an accepted statement that of every expression is at its address. -/
theorem Stmt.lies {f : Enclosing} {S : ScopeTable} {next next' : Int} {offset : Int} {start : Nat}
    {s : Stmt} {is : List Instr} (h : s.Emits f S next k offset start next' is)
    (hcode : Holds code start is) (hmarks : Holds marks start (s.check f S next).value.marks) :
    ∀ part ∈ (s.check f S next).value.parts start, part.Lies k code marks := by
  induction s using Stmt.induction generalizing S next start next' is with
  | exp p e =>
    obtain ⟨-, ty, he⟩ := Stmt.emits_exp h
    exact Exp.lies he.code_eq hcode hmarks
  | block p ds body ih =>
    obtain ⟨S₁, next₁, placed, j, hcheck, hdecls, hbody, rfl⟩ := Stmt.emits_block h
    -- the lengths of the arrays come first, with a mark for each instruction
    rw [holds_append, hdecls.length_eq] at hcode
    rw [hdecls.length_eq] at hbody
    have hsizes := VarDecl.sizes_checkAll .var frameLevel S.enter next ds
    rw [hcheck] at hsizes
    simp only [Stmt.check, hcheck, Stmt.marks, holds_append, hdecls.length_marks .fp,
      hdecls.length_eq] at hmarks
    simp only [Stmt.check, hcheck, Stmt.parts]
    rw [hsizes]
    exact Stmt.lies_all ih hbody hcode.2 hmarks.2
  | ifThen p t a ih =>
    obtain ⟨ty, i, j, skip, -, hi, hj, -, rfl⟩ := Stmt.emits_ifThen h
    rw [holds_append, holds_cons] at hcode
    simp only [Stmt.check, Stmt.marks, holds_append, holds_cons, hi.length_marks] at hmarks
    simp only [Stmt.check, Stmt.parts, List.forall_mem_append, Exp.size_check]
    rw [← hi.length_eq]
    exact ⟨Exp.lies hi.code_eq hcode.1 hmarks.1, ih hj hcode.2.2 hmarks.2.2⟩
  | ifElse p t a b iha ihb =>
    obtain ⟨ty, next₁, i, j, l, toElse, toEnd, -, hi, hj, hl, -, -, rfl⟩ := Stmt.emits_ifElse h
    rw [holds_append, holds_cons, holds_append, holds_cons] at hcode
    simp only [Stmt.check, Stmt.marks, holds_append, holds_cons, hi.length_marks,
      hj.length_marks, hj.next_eq] at hmarks
    simp only [Stmt.check, Stmt.parts, List.forall_mem_append, Exp.size_check, Stmt.size_check]
    rw [← hi.length_eq, ← hj.length_eq, hj.next_eq]
    exact ⟨⟨Exp.lies hi.code_eq hcode.1 hmarks.1, iha hj hcode.2.2.1 hmarks.2.2.1⟩,
      ihb hl hcode.2.2.2.2 hmarks.2.2.2.2⟩
  | whileDo p t b ih =>
    obtain ⟨ty, i, j, skip, back, -, hi, hj, -, -, rfl⟩ := Stmt.emits_whileDo h
    rw [holds_append, holds_cons, holds_append] at hcode
    simp only [Stmt.check, Stmt.marks, holds_append, holds_cons, hi.length_marks] at hmarks
    simp only [Stmt.check, Stmt.parts, List.forall_mem_append, Exp.size_check]
    rw [← hi.length_eq]
    exact ⟨Exp.lies hi.code_eq hcode.1 hmarks.1, ih hj hcode.2.2.1 hmarks.2.2.1⟩
  | ret p v =>
    cases v with
    | none =>
      intro part hpart
      cases hpart
    | some e =>
      obtain ⟨-, ty, i, -, hi, rfl⟩ := Stmt.emits_ret_some h
      rw [holds_append] at hcode
      simp only [Stmt.check, Stmt.marks, holds_append] at hmarks
      exact Exp.lies hi.code_eq hcode.1 hmarks.1

end Places

/-- Analysis does not change the size of a function. -/
theorem FunDecl.Defined.size_check {linked : Bool} {pool : Entries} {S S₁ : ScopeTable} {next : Int}
    {f : FunDecl} {body : Block} {entry : Nat} {is : List Instr}
    (h : f.Defined linked pool S next body entry S₁ is) :
    (Decl.function (f.check S next).value).size = (Decl.function f).size := by
  obtain ⟨Sp, np, ps, frameEnd, k, checked, -, -, -, -, hchecked, hvalue⟩ := h.emitted
  have hsize := Stmt.size_check ⟨f.name, f.result⟩ Sp np (.block body.pos body.decls body.stmts)
  rw [hvalue] at hsize
  simp only [Stmt.size] at hsize
  simp only [Decl.size, hchecked, h.body_eq, hsize]

/-- In the code of laid out declarations that of every expression is at its address. -/
theorem Laid.lies {pool : Entries} {S G : ScopeTable} {next next' : Int} {start : Nat}
    {ds : List Decl} {is : List Instr} (h : Laid true pool S next start ds G next' is)
    {code : List Instr} (hcode : Holds code start is) {marks : List Mark}
    (hmarks : Holds marks start ((Decl.checkAll S next ds).value.flatMap Decl.marks)) :
    ∀ part ∈ Decl.partsAll start (Decl.checkAll S next ds).value, ∃ k, part.Lies k code marks := by
  induction h with
  | nil S next start =>
    intro part hpart
    cases hpart
  | var hd hcheck hrest ih =>
    simp only [Decl.checkAll, hcheck, List.flatMap_cons, Decl.marks, holds_append] at hmarks
    rw [holds_append, VarDecl.length_lengthCode hd] at hcode
    rw [VarDecl.length_marks hd .gp, VarDecl.length_lengthCode hd] at hmarks
    simp only [Decl.checkAll, hcheck, Decl.partsAll, Decl.parts, List.nil_append]
    exact ih hcode.2 hmarks.2
  | prototype hbody hann hscopes hnext hvalue hrest ih =>
    simp only [Decl.checkAll, Decl.check, hscopes, hnext, List.flatMap_cons, Decl.marks, hvalue,
      List.nil_append] at hmarks
    simp only [Decl.checkAll, Decl.check, hscopes, hnext, Decl.partsAll, Decl.parts, Decl.size,
      hvalue, List.nil_append]
    exact ih hcode hmarks
  | @definition S S₁ G next next' start f body is js jump rest hdef hjump hrest ih =>
    obtain ⟨Sp, np, ps, frameEnd, k, checked, -, -, -, hemits, hchecked, hvalue⟩ := hdef.emitted
    simp only [Decl.checkAll, Decl.check, hdef.scopes_eq, hdef.next_eq, List.flatMap_cons,
      Decl.marks, hchecked, ← hvalue, List.cons_append, holds_cons, holds_append,
        hemits.length_marks] at hmarks
    simp only [FunDecl.framed, List.cons_append, holds_cons, holds_append] at hcode
    obtain ⟨-, -, ⟨hbody, -⟩, hothers⟩ := hmarks
    obtain ⟨-, -, ⟨hcode, -⟩, hnext⟩ := hcode
    simp only [Decl.checkAll, Decl.check, hdef.scopes_eq, hdef.next_eq, Decl.partsAll, Decl.parts,
      hchecked, List.forall_mem_append]
    rw [← hvalue, hdef.size_check, ← hdef.length_framed]
    refine ⟨fun part hpart => ⟨k, Stmt.lies hemits hcode hbody part hpart⟩, ?_⟩
    have hlen : (f.framed is).length = is.length + 2 := by
      simp only [FunDecl.framed, List.length_cons, List.length_append, List.length_nil]
    -- the code of a function ends with the default return, behind its body
    have hdistance : start + 1 + 1 + (is.length + (0 + 1)) = start + 1 + (f.framed is).length := by
      omega
    simp only [List.length_append, List.length_cons, List.length_nil, hemits.length_marks,
      hdistance] at hothers hnext
    rw [Nat.add_comm _ 1, ← Nat.add_assoc]
    exact ih hnext hothers

/-- In a compiled program the code of every expression is at its address. -/
theorem Compiles.lies {source : String} {tree : Program} {code : List Instr}
    (h : Compiles source tree code) : ∀ part ∈ (analyze tree false).program.parts,
      ∃ k, part.Lies k code (analyze tree false).program.marks := by
  obtain ⟨G, next, is, main, globals, hP, -⟩ := h.program
  rw [Program.parts, decls_analyze]
  exact hP.image.laid.lies hP.image.declarations hP.declMarks

end MiniC
