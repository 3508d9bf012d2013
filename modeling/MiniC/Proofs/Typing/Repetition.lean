import MiniC.Proofs.CallSites

/-!
# Analysing an analysed program

The analysis writes types and storage into the tree that it reads, and code generation writes
addresses into it. Neither the names, nor the shapes and types of declarations, nor the positions
change, and these are all that the analysis goes by; and what it writes into a slot depends on them
alone. A variable that is not found keeps the slot it had. So a second analysis finds what the first
one found, and writes what is already there.

* `Exp.check_again`, `Stmt.check_again`, `Decl.checkAll_again`: analysed phrases
* `Decl.checkAll_entered`: analysed declarations with addresses
* `analyze_again`: analysed programs, before and after code generation
-/

namespace MiniC

/-! ### Expressions

The lemmas follow the recursion of the analysis. In each case the parts have been analysed once, and
by hypothesis a second time gives nothing new. -/

/-- A name is looked up again with the same result, and a name that is not found keeps what it had.
-/
theorem VarUse.check_again (S : ScopeTable) (v : VarUse) : (v.check S).var.check S = v.check S := by
  cases hlookup : S.lookup v.name with
  | none => simp only [VarUse.check, hlookup]
  | some symbol => cases symbol <;> simp only [VarUse.check, hlookup]

/-- The same of an indexed name, as in `VarUse.check_again`. -/
theorem VarUse.checkIndexed_again (S : ScopeTable) (v : VarUse) (index : Ty) :
    (v.checkIndexed S index).var.checkIndexed S index = v.checkIndexed S index := by
  cases hlookup : S.lookup v.name with
  | none => simp only [VarUse.checkIndexed, hlookup]
  | some symbol => cases symbol <;> simp only [VarUse.checkIndexed, hlookup]

/-- Analysed arguments, if each of them is analysed like itself. -/
theorem Exp.checkAll_again {S : ScopeTable} {args : List Exp}
    (ih : ∀ a ∈ args, (a.check S).exp.check S = a.check S) :
    Exp.checkAll S ((Exp.checkAll S args).map TypedExp.exp) = Exp.checkAll S args := by
  induction args with
  | nil => rfl
  | cons e rest hrest =>
    simp only [Exp.checkAll, List.map_cons, ih e List.mem_cons_self,
      hrest fun a ha => ih a (List.mem_cons_of_mem e ha)]

/-- An analysed expression is analysed like the expression itself. -/
theorem Exp.check_again (S : ScopeTable) (e : Exp) : (e.check S).exp.check S = e.check S := by
  induction e using Exp.induction with
  | int p n => rfl
  | bool p b => rfl
  | nil p => rfl
  | unary p t op e ih => simp only [Exp.check, ih]
  | binary p t op l r ihl ihr => simp only [Exp.check, ihl, ihr]
  | var t v => simp only [Exp.check, v.check_again]
  | element t v i ih => simp only [Exp.check, ih, v.checkIndexed_again]
  | assign p t v e ih => simp only [Exp.check, ih, v.check_again]
  | assignElement p t v i e ihi ihe => simp only [Exp.check, ihi, ihe, v.checkIndexed_again]
  | call p t f args ih => simp only [Exp.check, Exp.checkAll_again ih]

/-! ### Declarations of variables and statements

Statements are analysed at an offset that the ones before them leave behind, so the hypotheses are
about all offsets. -/

namespace VarDecl

variable (role : Role) (level : Nat) (S : ScopeTable) (next : Int)

/-- A variable is placed by its shape and the offset alone. -/
theorem check_again (d : VarDecl) :
    (d.check role level S next).value.check role level S next = d.check role level S next :=
  rfl

/-- Analysed declarations of variables are placed where they were. -/
theorem checkAll_again (ds : List VarDecl) :
    checkAll role level S next (checkAll role level S next ds).value =
      checkAll role level S next ds := by
  induction ds generalizing S next with
  | nil => rfl
  | cons d rest ih => simp only [checkAll, check_again, ih]

end VarDecl

namespace Stmt

variable (f : Enclosing) (S : ScopeTable) (next : Int)

/-- Analysed statements that follow each other, if each of them is analysed like itself. -/
theorem checkAll_again {body : List Stmt}
    (ih : ∀ s ∈ body, ∀ next, (s.check f S next).value.check f S next = s.check f S next) :
    checkAll f S next (checkAll f S next body).value = checkAll f S next body := by
  induction body generalizing next with
  | nil => rfl
  | cons s rest hrest =>
    simp only [checkAll, ih s List.mem_cons_self,
      hrest _ fun a ha => ih a (List.mem_cons_of_mem s ha)]

/-- An analysed statement is analysed like the statement itself. By induction on the statement, as
in `Exp.check_again`. -/
theorem check_again (s : Stmt) : (s.check f S next).value.check f S next = s.check f S next := by
  induction s using Stmt.induction generalizing S next with
  | exp p e => simp only [Stmt.check, e.check_again]
  | block p ds body ih =>
    simp only [Stmt.check, VarDecl.checkAll_again,
      checkAll_again f _ _ fun s hs next => ih s hs _ next]
  | ifThen p t a ih => simp only [Stmt.check, t.check_again, ih]
  | ifElse p t a b iha ihb => simp only [Stmt.check, t.check_again, iha, ihb]
  | whileDo p t b ih => simp only [Stmt.check, t.check_again, ih]
  | ret p v =>
    cases v with
    | none => rfl
    | some e => simp only [Stmt.check, e.check_again]

end Stmt

/-- The analysed body of a function. -/
theorem Block.check_again (f : Enclosing) (S : ScopeTable) (next : Int) (b : Block) :
    (b.check f S next).value.check f S next = b.check f S next := by
  have hbody := @Stmt.checkAll_again f
    (VarDecl.checkAll .var frameLevel S.enter next b.decls).scopes
    (VarDecl.checkAll .var frameLevel S.enter next b.decls).next b.stmts
    fun s _ next => s.check_again f _ next
  simp only [Block.check, VarDecl.checkAll_again, hbody]

/-! ### Functions and programs

A function is announced by its name, its types and whether it has a body; none of these is ever
written to. -/

namespace FunDecl

variable (S : ScopeTable) (next : Int)

/-- Analysed parameters look the same to callers. -/
theorem map_param_checkAll (role : Role) (level : Nat) (ds : List VarDecl) :
    ((VarDecl.checkAll role level S next ds).value.map fun p => Param.mk p.name p.ty) =
      ds.map fun p => ⟨p.name, p.ty⟩ := by
  induction ds generalizing S next with
  | nil => rfl
  | cons d rest ih =>
    simp only [VarDecl.checkAll, List.map_cons, ih]
    rfl

/-- An analysed function is announced like the function itself. -/
theorem announce?_again (f : FunDecl) :
    (f.check S next).value.announce? S = f.announce? S := by
  -- callers see the types of the parameters, which are not written to
  have hsymbol : (f.check S next).value.symbol = f.symbol := by
    unfold symbol check
    cases f.body <;> simp only [map_param_checkAll, Option.isSome_some, Option.isSome_none]
  have hname : (f.check S next).value.name = f.name := by
    unfold check
    cases f.body <;> rfl
  have hnone : (f.check S next).value.body.isNone = f.body.isNone := by
    unfold check
    cases f.body <;> rfl
  unfold announce?
  rw [hsymbol, hname, hnone]

/-- An analysed function, with a body or without one. -/
theorem check_again (f : FunDecl) : (f.check S next).value.check S next = f.check S next := by
  have hannounce := f.announce?_again S next
  cases hbody : f.body with
  | none =>
    simp only [check, hbody] at hannounce ⊢
    simp only [hannounce, VarDecl.checkAll_again]
  | some b =>
    simp only [check, hbody] at hannounce ⊢
    simp only [hannounce, VarDecl.checkAll_again, Block.check_again]

/-- The analysis does not look at the address of a function, and leaves it. -/
theorem check_entry (f : FunDecl) (entry : Option Nat) :
    FunDecl.check S next { f with entry } =
      { f.check S next with value := { (f.check S next).value with entry } } := by
  obtain ⟨pos, result, name, params, body, frameEnd, _⟩ := f
  cases body <;> rfl

end FunDecl

/-- A result is fixed by its parts. -/
theorem Announced.eq_of_value {α : Type} {a : Announced α} {value : α} (h : a.value = value) :
    a = { a with value } := by
  rw [← h]

namespace Decl

variable (S : ScopeTable) (next : Int)

/-- An analysed declaration. -/
theorem check_again (d : Decl) : (d.check S next).value.check S next = d.check S next := by
  cases d with
  | var d => simp only [Decl.check, d.check_again]
  | function f => simp only [Decl.check, f.check_again]

/-- Analysed declarations, by induction on them. -/
theorem checkAll_again (ds : List Decl) :
    checkAll S next (checkAll S next ds).value = checkAll S next ds := by
  induction ds generalizing S next with
  | nil => rfl
  | cons d rest ih => simp only [checkAll, check_again, ih]

variable {S : ScopeTable} {next : Int}

/-- An address in an analysed function makes no difference to the analysis. -/
theorem check_entered {d d' : Decl} (h : d.Entered d') (hd : (d.check S next).value = d) :
    d'.check S next = { d.check S next with value := d' } := by
  cases h with
  | var d => exact Announced.eq_of_value hd
  | prototype f hbody => exact Announced.eq_of_value hd
  | definition f entry hbody =>
    have hf : (f.check S next).value = f := Decl.function.inj hd
    simp only [Decl.check, FunDecl.check_entry, hf]

/-- Analysed declarations with addresses are analysed like those without. -/
theorem checkAll_entered {ds ds' : List Decl} (h : List.Forall₂ Decl.Entered ds ds')
    (hds : (checkAll S next ds).value = ds) :
    checkAll S next ds' = { checkAll S next ds with value := ds' } := by
  induction h generalizing S next with
  | nil => rfl
  | @cons d d' rest rest' hd hrest ih =>
    simp only [checkAll, List.cons.injEq] at hds
    simp only [checkAll, check_entered hd hds.1, ih hds.2]

end Decl

/-! ### Addresses

The generator writes one thing into the tree, the address at which a function starts. `Decl.Entered`
relates a tree to the one with addresses. -/

namespace Assembly

/-- Code generation of one declaration records at most one address. -/
theorem entered_declaration {a a' : Assembly} {d d' : Decl}
    (h : declaration true a d = .ok (d', a')) : d.Entered d' := by
  cases d with
  | var d =>
    cases h
    exact .var d
  | function f =>
    unfold declaration at h
    cases hbody : f.body with
    | none =>
      simp only [hbody] at h
      cases h
      exact .prototype f hbody
    | some body =>
      simp only [hbody, Except.bind_eq_ok_iff, if_true] at h
      obtain ⟨written, -, buffer, -, h⟩ := h
      cases h
      rw [← hbody]
      exact .definition f _ (by simp [hbody])

/-- Code generation of declarations, by induction on them. -/
theorem entered_declarations {a a' : Assembly} {ds ds' : List Decl}
    (h : declarations true a ds = .ok (ds', a')) : List.Forall₂ Decl.Entered ds ds' := by
  induction ds generalizing a ds' with
  | nil =>
    cases h
    exact .nil
  | cons d rest ih =>
    simp only [declarations, Except.bind_eq_ok_iff, Prod.exists] at h
    obtain ⟨d', b, hd, rest', b', hrest, h⟩ := h
    cases h
    exact .cons (entered_declaration hd) (ih hrest)

end Assembly

/-- Code generation records addresses, and changes nothing else. -/
theorem entered_generate {p q : Program} {code : List Instr} (h : generate p = .ok (q, code)) :
    List.Forall₂ Decl.Entered p.decls q.decls ∧ q.globalsEnd = p.globalsEnd := by
  simp only [generate, Assembly.program, Except.bind_eq_ok_iff, Prod.exists] at h
  obtain ⟨_, first, -, _, second, ⟨a₀, -, ds, a, hds, _, -, hprogram⟩, _, -, hresult⟩ := h
  cases hprogram
  cases hresult
  exact ⟨Assembly.entered_declarations hds, rfl⟩

/-! ### Programs

The analysis looks at the tree without records, and that of an analysed program is the program it
was made from. -/

/-- Analysing an analysed program, whether or not it has errors and whether or not its code has been
generated, finds the same errors, lists the same symbols, and leaves the program as it is. Neither
analysis depends on whether the other one lists symbols. -/
theorem analyze_again (p : Program) (trace trace' : Bool) :
    analyze (analyze p trace).program trace' = analyze p trace' ∧
      ∀ q code, generate (analyze p trace).program = .ok (q, code) →
        analyze q trace' = { analyze p trace' with program := q } := by
  have hagain := Decl.checkAll_again .initial 0 p.decls
  refine ⟨by simp only [analyze_eq, hagain], fun q code hcode => ?_⟩
  obtain ⟨hentered, hend⟩ := entered_generate hcode
  rw [decls_analyze] at hentered
  have hdecls := Decl.checkAll_entered hentered (congrArg Announced.value hagain)
  obtain ⟨decls, globalsEnd⟩ := q
  simp only [analyze_eq] at hend hdecls ⊢
  simp only [hdecls, hagain, hend]

/-- Two mistakes that leave a program with code. -/
def mistakenSource : String :=
  "int a[3]; int f(int x) \x7b \x7b int x; x = true; return a[x]; \x7d \x7d " ++
    "void main(void) \x7b f(2, 3); \x7d"

/-- What is wrong with a source that has code all the same, and the addresses of its functions. -/
def mistakes? (source : String) : Option (List SemanticFault × List (Option Nat)) :=
  (parse source).toOption.bind fun tree =>
    (generate (analyze tree true).program).toOption.map fun generated =>
      ((analyze tree true).errors.map Diagnostic.fault, generated.1.functions.map FunDecl.entry)

/-- The theorem applies to programs with errors too, after their code has been generated. -/
theorem analyze_again_mistaken : ∃ tree q code, parse mistakenSource = .ok tree ∧
    (analyze tree true).errors.map Diagnostic.fault = [.assignedType, .arity "f" 1 2] ∧
    generate (analyze tree true).program = .ok (q, code) ∧
    q.functions.map FunDecl.entry = [some 24, some 40] ∧
    analyze (analyze tree true).program true = analyze tree true ∧
    analyze q true = { analyze tree true with program := q } := by
  have hascii : Ascii mistakenSource _ := .append ⟨rfl, rfl⟩ ⟨rfl, rfl⟩
  have hmistakes : mistakes? mistakenSource =
      some ([.assignedType, .arity "f" 1 2], [some 24, some 40]) := by
    rw [mistakes?, parse, hascii.scan_eq]
    decide +kernel
  obtain ⟨tree, htree, hmistakes⟩ := Option.bind_eq_some_iff.mp hmistakes
  obtain ⟨⟨q, code⟩, hcode, hmistakes⟩ := Option.map_eq_some_iff.mp hmistakes
  have hparse := Except.eq_ok_of_toOption htree
  have hgenerate := Except.eq_ok_of_toOption hcode
  obtain ⟨hfaults, hentries⟩ := Prod.mk.inj hmistakes
  obtain ⟨hsame, hlater⟩ := analyze_again tree true true
  exact ⟨tree, q, code, hparse, hfaults, hgenerate, hentries, hsame, hlater q code hgenerate⟩

end MiniC
