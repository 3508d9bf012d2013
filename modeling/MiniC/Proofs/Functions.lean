import MiniC.Proofs.Storage
import MiniC.Proofs.Watch

/-!
# The functions of a program

Everything that is known about a function with a body once a program is compiled: the scopes in
which it was accepted, the storage of its variables, and the place of its code. The target of every
call is such a function, or one of the two routines that every program has.

* `CompiledFunction`, `CompiledFunction.Valid`: a function and what is known about it
* `Laid.function`: every address that a call can be linked to belongs to a function
* `Compiles.program`: the same for a compiled source
-/

namespace MiniC

/-! ### The length of marks

Marks stand beside the code, one for each instruction. So they take the sizes that the code takes,
and what lies behind them is found at the same distance. -/

theorem Exp.length_argumentMarks {args : List Exp} (h : ∀ a ∈ args, a.marks.length = a.size) :
    (Exp.argumentMarks args).length = Exp.argumentSize args := by
  induction args with
  | nil => rfl
  | cons e rest ih =>
    have hfirst := h e List.mem_cons_self
    have hrest := ih fun a ha => h a (List.mem_cons_of_mem e ha)
    simp only [Exp.argumentMarks, Exp.argumentSize, List.length_append, List.length_cons]
    omega

/-- Every instruction has a mark. -/
theorem Exp.length_marks (e : Exp) : e.marks.length = e.size := by
  induction e using Exp.induction with
  | int p n => rfl
  | bool p b => rfl
  | nil p => rfl
  | unary p t op e ih => cases op <;> simp [Exp.marks, Exp.size, ih]
  | binary p t op l r ihl ihr =>
    cases hop : op.combination <;> simp [Exp.marks, Exp.size, hop, ihl, ihr] <;> omega
  | var t v => rfl
  | element t v i ih => simp [Exp.marks, Exp.size, ih]
  | assign p t v e ih => simp [Exp.marks, Exp.size, ih]
  | assignElement p t v i e ihi ihe =>
    simp [Exp.marks, Exp.size, ihi, ihe]
    omega
  | call p t f args ih =>
    simp [Exp.marks, Exp.size, Exp.length_argumentMarks ih, callMarks]
    omega

theorem Exp.Emits.length_marks {S : ScopeTable} {k : Linker} {offset : Int} {start : Nat}
    {e : Exp} {ty : Ty} {is : List Instr} (h : e.Emits S k offset start ty is) :
    (e.check S).exp.marks.length = is.length := by
  rw [Exp.length_marks, Exp.size_check, h.length_eq]

/-- An array is declared by the store of its length. -/
theorem VarDecl.Accepted.code_array {level : Nat} {S S' : ScopeTable} {next : Int} {d : VarDecl}
    {l : Layout} (h : d.Accepted level S next S' l) {size : Nat} (hshape : d.shape = .array size)
    (base : Reg) (constant : Mark) (store : Nat → Mark) :
    ({ d with layout := some l }.lengthCode base
      = [.rm .ldc .ac size .unused s!"length of array {d.name}",
        .rm .st .ac l.offset base "store array length"]) ∧
      { d with layout := some l }.marks constant store = [constant, store size] := by
  have hl : l = ⟨level, l.offset, .array⟩ := by
    rw [h.layout_eq, hshape]
    rfl
  unfold VarDecl.lengthCode VarDecl.marks
  rw [hl, hshape]
  exact ⟨rfl, rfl⟩

/-- Other declarations have no code. -/
theorem VarDecl.Accepted.code_other {level : Nat} {S S' : ScopeTable} {next : Int} {d : VarDecl}
    {l : Layout} (h : d.Accepted level S next S' l) (hshape : ∀ size, d.shape ≠ .array size)
    (base : Reg) (constant : Mark) (store : Nat → Mark) :
    { d with layout := some l }.lengthCode base = [] ∧
      { d with layout := some l }.marks constant store = [] := by
  have hl : l = ⟨level, l.offset, d.shape.storage⟩ := by
    rw [h.layout_eq]
  unfold VarDecl.lengthCode VarDecl.marks
  rw [hl]
  cases hd : d.shape with
  | scalar => exact ⟨rfl, rfl⟩
  | reference => exact ⟨rfl, rfl⟩
  | array size => exact absurd hd (hshape size)

theorem VarDecl.length_marks {level : Nat} {S S' : ScopeTable} {next : Int} {d : VarDecl}
    {l : Layout} (h : d.Accepted level S next S' l) (base : Reg) (constant : Mark)
    (store : Nat → Mark) :
    ({ d with layout := some l }.marks constant store).length
      = ({ d with layout := some l }.lengthCode base).length := by
  rw [VarDecl.length_lengthCode h]
  unfold VarDecl.marks
  rw [h.layout_eq]
  cases d.shape with
  | scalar => rfl
  | array n => rfl
  | reference => rfl

theorem Declares.length_marks {level : Nat} {S S' : ScopeTable} {next next' : Int}
    {ds placed : List VarDecl} (h : Declares level S next ds S' next' placed) (base : Reg)
    (constant : Mark) (store : Nat → Mark) :
    (placed.flatMap (VarDecl.marks · constant store)).length
      = (placed.flatMap (VarDecl.lengthCode · base)).length := by
  induction h with
  | nil S next => rfl
  | cons hd hrest ih =>
    simp only [List.flatMap_cons, List.length_append]
    rw [ih, VarDecl.length_marks hd base]

theorem Stmt.EmitsAll.length_marks {f : Enclosing} {S : ScopeTable} {next : Int} {k : Linker}
    {offset : Int} {start : Nat} {body : List Stmt} {next' : Int} {is : List Instr}
    (ih : ∀ s ∈ body, ∀ {S next start next' is}, s.Emits f S next k offset start next' is →
      (s.check f S next).value.marks.length = is.length)
    (h : Stmt.EmitsAll f S next k offset start body next' is) :
    (Stmt.marksAll (Stmt.checkAll f S next body).value).length = is.length := by
  induction body generalizing next start is with
  | nil =>
    obtain ⟨-, rfl⟩ := Stmt.emitsAll_nil h
    rfl
  | cons s rest hrest =>
    obtain ⟨next₁, i, j, hi, hj, rfl⟩ := Stmt.emitsAll_cons h
    have hfirst := ih s List.mem_cons_self hi
    have hothers := hrest (fun a ha => ih a (List.mem_cons_of_mem s ha)) hj
    simp only [Stmt.checkAll, Stmt.marksAll, hi.next_eq, List.length_append]
    omega

theorem Stmt.Emits.length_marks {f : Enclosing} {S : ScopeTable} {next : Int} {k : Linker}
    {offset : Int} {start : Nat} {s : Stmt} {next' : Int} {is : List Instr}
    (h : s.Emits f S next k offset start next' is) :
    (s.check f S next).value.marks.length = is.length := by
  induction s using Stmt.induction generalizing S next start next' is with
  | exp p e =>
    obtain ⟨-, ty, he⟩ := Stmt.emits_exp h
    exact he.length_marks
  | block p ds body ih =>
    obtain ⟨S₁, next₁, placed, j, hcheck, hi, hj, rfl⟩ := Stmt.emits_block h
    have hbody := hj.length_marks ih
    simp only [Stmt.check, Stmt.marks, hcheck, List.length_append, hi.length_marks .fp, hbody]
  | ifThen p t a ih =>
    obtain ⟨ty, i, j, skip, -, hi, hj, -, rfl⟩ := Stmt.emits_ifThen h
    simp only [Stmt.check, Stmt.marks, List.length_append, List.length_cons, hi.length_marks, ih hj]
  | ifElse p t a b iha ihb =>
    obtain ⟨ty, next₁, i, j, l, toElse, toEnd, -, hi, hj, hl, -, -, rfl⟩ := Stmt.emits_ifElse h
    simp only [Stmt.check, Stmt.marks, List.length_append, List.length_cons, hi.length_marks,
      iha hj, hj.next_eq, ihb hl]
  | whileDo p t b ih =>
    obtain ⟨ty, i, j, skip, back, -, hi, hj, -, -, rfl⟩ := Stmt.emits_whileDo h
    simp only [Stmt.check, Stmt.marks, List.length_append, List.length_cons, List.length_nil,
      hi.length_marks, ih hj]
  | ret p v =>
    cases v with
    | none =>
      obtain ⟨-, rfl⟩ := Stmt.emits_ret_none h
      rfl
    | some e =>
      obtain ⟨-, ty, i, -, hi, rfl⟩ := Stmt.emits_ret_some h
      simp only [Stmt.check, Stmt.marks, List.length_append, List.length_cons, List.length_nil,
        hi.length_marks]

/-! ### Compiled functions

All that was established about a function while it was checked and laid out is put into one record.
By induction on the layout of the declarations there is such a record for every address in the
table. -/

/-- A function with a body, the scopes it was accepted in, and its code. -/
structure CompiledFunction where
  decl : FunDecl
  body : Block
  /-- The address of its code. -/
  entry : Nat
  /-- The global scope in which it was announced. -/
  outer : ScopeTable
  /-- The scope of its parameters. -/
  inner : ScopeTable
  /-- The offset below the parameters. -/
  next : Int
  /-- The placed parameters. -/
  params : List VarDecl
  /-- The offset below all variables. -/
  frameEnd : Int
  linker : Linker
  code : List Instr

namespace CompiledFunction

/-- The function, as it is named in diagnostics. -/
def enclosing (f : CompiledFunction) : Enclosing :=
  ⟨f.decl.name, f.decl.result⟩

/-- The body as a statement. -/
def block (f : CompiledFunction) : Stmt :=
  .block f.body.pos f.body.decls f.body.stmts

/-- The analysed body. -/
def checked (f : CompiledFunction) : Stmt :=
  (f.block.check f.enclosing f.inner f.next).value

/-- The slots of all variables of the function. -/
def slots (f : CompiledFunction) : List Slot :=
  f.params.map VarDecl.slot ++ f.checked.slots

/-- What is known about a function of the program with the declarations `ds`, the final global
scope `G` and the callable functions `pool`. -/
structure Valid (ds : List Decl) (G : ScopeTable) (pool : Entries) (f : CompiledFunction) :
    Prop where
  declared : .function f.decl ∈ ds
  body_eq : f.decl.body = some f.body
  strict : f.linker.strict = true
  linked : ∀ x ∈ f.linker.entries, x ∈ pool
  params : Declares frameLevel f.outer.enter firstFrameOffset f.decl.params f.inner f.next f.params
  emits : f.block.Emits f.enclosing f.inner f.next f.linker f.frameEnd
    (f.entry + 1) f.frameEnd f.code
  outer : Scoped G [] f.outer
  scopes : Scoped G (f.params.map VarDecl.slot) f.inner
  signature : G.Signature f.decl.name f.decl.result (f.decl.params.map VarDecl.ty)

/-- The variables of a function have no cell in common. -/
theorem Valid.tiled {ds : List Decl} {G : ScopeTable} {pool : Entries} {f : CompiledFunction}
    (h : f.Valid ds G pool) : Tiled f.frameEnd firstFrameOffset f.slots :=
  h.params.tiled.append h.emits.tiled

/-- The offsets of a function's variables fit into an instruction. -/
theorem Valid.frameEnd_range {ds : List Decl} {G : ScopeTable} {pool : Entries}
    {f : CompiledFunction}
    (h : f.Valid ds G pool) : -2 ^ 31 ≤ f.frameEnd ∧ f.frameEnd ≤ -2 := by
  have hfits := h.tiled.fits (by decide)
  have hle := h.tiled.le
  unfold minOffset at hfits
  unfold firstFrameOffset at hle
  omega

end CompiledFunction

/-- Every function with a body among laid out declarations is compiled, and its code and its marks
are where they should be. -/
theorem Laid.function {pool : Entries} {S G : ScopeTable} {next next' : Int} {start : Nat}
    {ds : List Decl} {is : List Instr} (h : Laid true pool S next start ds G next' is)
    {globals : List Slot} (hS : S.Global globals) {code : List Instr} (hcode : Holds code start is)
    {marks : List Mark}
    (hmarks : Holds marks start ((Decl.checkAll S next ds).value.flatMap Decl.marks))
    {name : String} {entry : Nat} (hmem : (name, entry) ∈ Decl.table start ds) :
    ∃ f : CompiledFunction, f.Valid ds G pool ∧ f.decl.name = name ∧ f.entry = entry ∧
      Holds code entry (f.decl.framed f.code) ∧
      Holds marks entry (.entry :: (f.checked.marks ++ [.leave])) := by
  induction h generalizing globals with
  | nil S next start => cases hmem
  | var hd hcheck hrest ih =>
    simp only [Decl.checkAll, hcheck, List.flatMap_cons, Decl.marks, holds_append] at hmarks
    rw [holds_append, VarDecl.length_lengthCode hd] at hcode
    rw [VarDecl.length_marks hd .gp, VarDecl.length_lengthCode hd] at hmarks
    obtain ⟨f, hf, hrest⟩ := ih (hS.declare_var hd) hcode.2 hmarks.2 hmem
    exact ⟨f, { hf with declared := List.mem_cons_of_mem _ hf.declared }, hrest⟩
  | prototype hbody hann hscopes hnext hvalue hrest ih =>
    simp only [Decl.table, hbody] at hmem
    simp only [Decl.checkAll, Decl.check, hscopes, hnext, List.flatMap_cons, Decl.marks, hvalue,
      List.nil_append] at hmarks
    obtain ⟨f, hf, hrest⟩ := ih (hS.announce hann).1 hcode hmarks hmem
    exact ⟨f, { hf with declared := List.mem_cons_of_mem _ hf.declared }, hrest⟩
  | @definition S S₁ G next next' start f body is js jump rest hdef hjump hrest ih =>
    obtain ⟨hS₁, -, hsig⟩ := hS.announce hdef.announced
    obtain ⟨Sp, np, ps, frameEnd, k, checked, hparams, hstrict, hlinked, hemits, hchecked,
        hvalue⟩ :=
      hdef.emitted
    have hgrows := (hrest.scopes hS₁).2
    simp only [Decl.checkAll, Decl.check, hdef.scopes_eq, hdef.next_eq, List.flatMap_cons,
      Decl.marks, hchecked, ← hvalue, List.cons_append, holds_cons] at hmarks
    rw [holds_cons, holds_append] at hcode
    simp only [Decl.table, hdef.body_eq, List.mem_cons, Prod.mk.injEq] at hmem
    -- this function, or one that is declared behind it
    rcases hmem with ⟨rfl, rfl⟩ | hmem
    · have hfull : Holds marks (start + 1) (.entry ::
          (((Stmt.block body.pos body.decls body.stmts).check ⟨f.name,
            f.result⟩ Sp np).value.marks ++
            [.leave])) := by
        rw [holds_cons]
        exact ⟨hmarks.2.1, (holds_append.mp hmarks.2.2).1⟩
      refine ⟨⟨f, body, start + 1, S₁, Sp, np, ps, frameEnd, k, is⟩, ?_, rfl, rfl, hcode.2.1, hfull⟩
      refine ⟨List.mem_cons_self, hdef.body_eq, hstrict, hlinked, hparams, hemits,
        hS₁.scopedIn hgrows [], ?_, hgrows.signature hsig⟩
      exact (hS₁.scopedIn hgrows _).enter.declares hparams fun v hv => hv
    · have hmarks' : Holds marks (start + 1 + (f.framed is).length)
          ((Decl.checkAll S₁ next rest).value.flatMap Decl.marks) := by
        have hlen := hemits.length_marks
        have hrest := (holds_append.mp hmarks.2.2).2
        rw [List.length_append, hlen] at hrest
        simp only [FunDecl.framed, List.length_cons, List.length_append, List.length_nil] at hrest ⊢
        rw [show start + 1 + (is.length + (0 + 1) + 1) =
          start + 1 + 1 + (is.length + (0 + 1)) from by
          omega]
        exact hrest
      rw [← hdef.length_framed, Nat.add_comm _ 1, ← Nat.add_assoc] at hmem
      obtain ⟨g, hg, hrest⟩ := ih hS₁ hcode.2.2 hmarks' hmem
      exact ⟨g, { hg with declared := List.mem_cons_of_mem _ hg.declared }, hrest⟩

/-! ### Compiled programs

The same for a whole program: the fixed code, the declarations and the call of `main`, each with its
marks, at the addresses that follow from the sizes. -/

theorem Laid.length_marks {linked : Bool} {pool : Entries} {S S' : ScopeTable} {next next' : Int}
    {start : Nat} {ds : List Decl} {is : List Instr}
    (h : Laid linked pool S next start ds S' next' is) :
    ((Decl.checkAll S next ds).value.flatMap Decl.marks).length = is.length := by
  induction h with
  | nil S next start => rfl
  | var hd hcheck hrest ih =>
    simp only [Decl.checkAll, hcheck, List.flatMap_cons, Decl.marks, List.length_append, ih,
      VarDecl.length_marks hd .gp]
  | prototype hbody hann hscopes hnext hvalue hrest ih =>
    simp only [Decl.checkAll, Decl.check, hscopes, hnext, List.flatMap_cons, Decl.marks, hvalue,
      List.nil_append, ih]
  | definition hdef hjump hrest ih =>
    obtain ⟨Sp, np, ps, frameEnd, k, checked, -, -, -, hemits, hchecked, hvalue⟩ := hdef.emitted
    simp only [Decl.checkAll, Decl.check, hdef.scopes_eq, hdef.next_eq, List.flatMap_cons,
      Decl.marks, hchecked, ← hvalue, List.length_append, List.length_cons, List.length_nil, ih,
      hemits.length_marks, FunDecl.framed]
    omega

/-- What is known about a compiled source: the parts of its code, the marks beside them, and the
global variables, which have the slots `globals`. -/
structure CompiledProgram (tree : Program) (code : List Instr) (marks : List Mark) (G : ScopeTable)
    (next : Int) (is : List Instr) (main : Nat) (globals : List Slot) : Prop where
  image : Image tree code G next is main
  fixedMarks : Holds marks 0 MiniC.fixedMarks
  declMarks : Holds marks bodyStart ((Decl.checkAll .initial 0 tree.decls).value.flatMap Decl.marks)
  finaleMarks : Holds marks (bodyStart + is.length) MiniC.finaleMarks
  globals_eq : globals = Decl.slots (Decl.checkAll .initial 0 tree.decls).value
  scope : G.Global globals
  tiled : Tiled next 0 globals
  initial : ScopeTable.initial.Grows G
  plain : ∀ d ∈ tree.decls, d.Plain

theorem Compiles.program {source : String} {tree : Program} {code : List Instr}
    (h : Compiles source tree code) :
    ∃ G next is main globals, CompiledProgram tree code (analyze tree false).program.marks G next is
      main globals ∧ next = (analyze tree false).program.globalsEnd := by
  obtain ⟨G, next, is, main, himage, hnext⟩ := h.image
  obtain ⟨hglobal, hgrows⟩ := himage.laid.scopes ScopeTable.global_initial
  have hdecls := himage.laid.length_marks
  refine ⟨G, next, is, main, _, ⟨himage, ?_, ?_, ?_, rfl, hglobal, himage.laid.tiled, hgrows,
    (parse_size h.parsed).2⟩, hnext⟩
  · exact holds_segment [] fixedMarks _
  · rw [Program.marks, decls_analyze]
    exact holds_segment fixedMarks _ finaleMarks
  · rw [Program.marks, decls_analyze]
    have hfinale := holds_segment
      (fixedMarks ++ (Decl.checkAll .initial 0 tree.decls).value.flatMap Decl.marks) finaleMarks []
    rw [List.length_append, hdecls, List.append_nil, List.append_assoc] at hfinale
    exact hfinale

namespace CompiledProgram

variable {tree : Program} {code : List Instr} {marks : List Mark} {G : ScopeTable} {next : Int}
  {is : List Instr} {main : Nat} {globals : List Slot}

/-- Every address that a call can be linked to is an address of the code. -/
theorem pool_lt (h : CompiledProgram tree code marks G next is main globals) :
    ∀ x ∈ tree.pool, x.2 < code.length := by
  intro x hx
  have hlt := Program.pool_lt hx
  have hlen := h.image.laid.length_eq
  obtain ⟨t, hfinale⟩ := h.image.finale
  have hbound := hfinale.bound (by simp [callSequence])
  omega

theorem output_signature (h : CompiledProgram tree code marks G next is main globals) :
    G.Signature "output" .void [.int] := by
  apply h.initial.signature
  refine ⟨[⟨"x", .scalar .int⟩], true, ?_, rfl⟩
  decide +kernel

/-- The target of a call is one of the two routines for input and output, or a function of the
program. -/
theorem target (h : CompiledProgram tree code marks G next is main globals) {name : String}
    {entry : Nat}
    (hmem : (name, entry) ∈ tree.pool) :
    (name = "output" ∧ entry = outputEntry) ∨ (name = "input" ∧ entry = inputEntry) ∨
      ∃ f : CompiledFunction, f.Valid tree.decls G tree.pool ∧ f.decl.name = name ∧
        f.entry = entry ∧
        Holds code entry (f.decl.framed f.code) ∧
        Holds marks entry (.entry :: (f.checked.marks ++ [.leave])) := by
  rcases List.mem_append.mp hmem with hmem | hmem
  · exact Or.inr (Or.inr (h.image.laid.function ScopeTable.global_initial h.image.declarations
      h.declMarks hmem))
  · simp only [List.mem_cons, List.not_mem_nil, or_false, Prod.mk.injEq] at hmem
    rcases hmem with hmem | hmem
    · exact Or.inl hmem
    · exact Or.inr (Or.inl hmem)

theorem main_signature (h : CompiledProgram tree code marks G next is main globals) :
    ∃ r tys, G.Signature "main" r tys := by
  rcases h.target h.image.main_mem with ⟨hname, -⟩ | ⟨hname, -⟩ | ⟨f, hf, hname, -⟩
  · exact absurd hname (by decide)
  · exact absurd hname (by decide)
  · exact ⟨_, _, by rw [← hname]; exact hf.signature⟩

end CompiledProgram

end MiniC
