import MiniC.Proofs.Patching
import MiniC.Proofs.Renaming.Analysis
import MiniC.Syntax.Parser

/-!
# Renaming and the code

The code of a program whose identifiers are renamed is the code of the program with other remarks;
or no code is generated for either, and the faults name the same function. Names matter to the code
generator only as keys: of the entries of functions, which keep apart what was apart.

Two computations of the code generator go alike (`Alike`) if both fail, with the same fault up to
names, or both succeed with related results. This is preserved by every step of the generator.

* `SameCode`: code sequences that differ in their remarks at most
* `Exp.code_rename`, `Stmt.code_rename`, `generate_rename`: the code of renamed phrases and programs
* `renamed_alike`: analysis and code of a renamed program
-/

namespace MiniC

/-! ## Code up to remarks

Names end up in the remarks of instructions, so code is compared without them. -/

/-- The instruction without its remark. -/
def Instr.bare : Instr → Instr
  | .ro op r s t _ => .ro op r s t ""
  | .rm op r d s _ => .rm op r d s ""

/-- Instructions that differ in their remarks at most. -/
def SameInstr (i j : Instr) : Prop :=
  i.bare = j.bare

/-- Code sequences that differ in their remarks at most. -/
def SameCode (is js : List Instr) : Prop :=
  is.map Instr.bare = js.map Instr.bare

namespace SameCode

variable {i j : Instr} {is js is' js' : List Instr}

/-- Code is the same as itself. -/
theorem refl (is : List Instr) : SameCode is is :=
  rfl

/-- The same code has the same length. -/
theorem length_eq (h : SameCode is js) : js.length = is.length := by
  simpa using (congrArg List.length h).symm

/-- The same code behind the same instruction. -/
theorem cons (h : SameInstr i j) (hrest : SameCode is js) : SameCode (i :: is) (j :: js) :=
  congrArg₂ List.cons h hrest

/-- Code in two parts. -/
theorem append (h : SameCode is js) (h' : SameCode is' js') :
    SameCode (is ++ is') (js ++ js') := by
  unfold SameCode at h h' ⊢
  rw [List.map_append, List.map_append, h, h']

end SameCode

/-! ## Computations that go alike

The generator fails in the same place for both programs. The fault can have a name in it. -/

/-- The fault with the name in it renamed. -/
def CodeFault.rename (ρ : Renaming) : CodeFault → CodeFault
  | .neverDefined function => .neverDefined (ρ function)
  | .noStorage name => .noStorage (ρ name)
  | fault => fault

/-- Two computations fail with the same fault up to names, or succeed with related results. -/
inductive Alike (ρ : Renaming) {α β : Type} (R : α → β → Prop) :
    Except CodeFault α → Except CodeFault β → Prop where
  | error (fault : CodeFault) : Alike ρ R (.error fault) (.error (fault.rename ρ))
  | ok {a : α} {b : β} (h : R a b) : Alike ρ R (.ok a) (.ok b)

namespace Alike

variable {ρ : Renaming} {α β γ δ : Type} {R : α → β → Prop} {Q : γ → δ → Prop}

/-- Two results that are related. -/
theorem pure {a : α} {b : β} (h : R a b) : Alike ρ R (pure a) (pure b) :=
  .ok h

/-- Computations in sequence, where the second ones are given related results. -/
theorem bind {x : Except CodeFault α} {y : Except CodeFault β} {f : α → Except CodeFault γ}
    {g : β → Except CodeFault δ} (h : Alike ρ R x y)
    (hrest : ∀ a b, R a b → Alike ρ Q (f a) (g b)) : Alike ρ Q (x >>= f) (y >>= g) := by
  cases h with
  | error fault => exact .error fault
  | ok h => exact hrest _ _ h

/-- A computation that goes alike with itself, followed by what depends on its result. -/
theorem bindSame {x : Except CodeFault α} {f : α → Except CodeFault γ}
    {g : α → Except CodeFault δ} (h : Alike ρ Eq x x) (hrest : ∀ a, Alike ρ Q (f a) (g a)) :
    Alike ρ Q (x >>= f) (x >>= g) :=
  h.bind fun a _ hab => hab ▸ hrest a

end Alike

section Numbers

variable {ρ : Renaming}

/-- Whether a number fits has no names in it. -/
theorem alike_fit32 (n : Int) : Alike ρ Eq (fit32 n) (fit32 n) := by
  unfold fit32
  split_ifs
  · exact .ok rfl
  · exact .error .outOfRange

/-- Nor has lowering an offset. -/
theorem alike_lowered (offset : Int) (n : Nat) :
    Alike ρ Eq (lowered offset n) (lowered offset n) :=
  alike_fit32 _

/-- Nor has a displacement. -/
theorem alike_displacement (address target : Nat) :
    Alike ρ Eq (displacement address target) (displacement address target) :=
  (alike_fit32 _).bindSame fun _ => alike_fit32 _

/-- A relative instruction is the same up to its remark. -/
theorem alike_relative (op : Opcode) (r : Reg) (address target : Nat) (comment comment' : String) :
    Alike ρ SameInstr (Instr.relative op r address target comment)
      (Instr.relative op r address target comment') :=
  (alike_displacement address target).bindSame fun _ => .pure rfl

end Numbers

/-! ## Expressions

The generator looks at names to find entries and for nothing else. -/

/-- Entries of the renamed program, next to those of the program. -/
def Entries.Renames (ρ : Renaming) (es fs : Entries) : Prop :=
  ∀ x : String, fs.lookup (ρ x) = es.lookup x

/-- A linker of the renamed program, next to that of the program. -/
structure Linker.Renames (ρ : Renaming) (k l : Linker) : Prop where
  entries : Entries.Renames ρ k.entries l.entries
  strict : l.strict = k.strict

/-- One more entry on both sides. -/
theorem Entries.Renames.cons {ρ : Renaming} {es fs : Entries} (h : Entries.Renames ρ es fs)
    (name : String) (entry : Nat) :
    Entries.Renames ρ ((name, entry) :: es) ((ρ name, entry) :: fs) := by
  intro x
  have hbeq : (ρ x == ρ name) = (x == name) := by
    rw [Bool.eq_iff_iff, beq_iff_eq, beq_iff_eq, ρ.eq_iff]
  rw [List.lookup_cons, List.lookup_cons, hbeq, h x]

section Expressions

variable {ρ : Renaming} {k l : Linker}

/-- A renamed callee has the same entry, or is missing under its new name. -/
theorem Linker.Renames.entry (h : k.Renames ρ l) (callee : String) (address : Nat) :
    Alike ρ Eq (k.entry callee address) (l.entry (ρ callee) address) := by
  unfold Linker.entry
  rw [h.entries callee, h.strict]
  cases k.entries.lookup callee with
  | some entry => exact .ok rfl
  | none =>
    simp only
    split_ifs
    · exact .error (.neverDefined callee)
    · exact .ok rfl

namespace VarUse

/-- A renamed variable has the same storage, or lacks it under its new name. -/
theorem storage_rename (v : VarUse) : Alike ρ Eq v.storage (v.rename ρ).storage := by
  obtain ⟨pos, name, layout⟩ := v
  cases layout with
  | some layout => exact .ok rfl
  | none => exact .error (.noStorage name)

/-- The name of a variable is in the remark of its load. -/
theorem load_rename (v : VarUse) (r : Reg) :
    Alike ρ SameInstr (v.load r) ((v.rename ρ).load r) := by
  refine v.storage_rename.bind ?_
  rintro ⟨⟨level, offset, storage⟩, base⟩ _ rfl
  cases storage <;> exact .pure rfl

/-- The name of a variable is in the remark of its store. -/
theorem store_rename (v : VarUse) : Alike ρ SameInstr v.store (v.rename ρ).store := by
  refine v.storage_rename.bind ?_
  rintro ⟨layout, base⟩ _ rfl
  exact .pure rfl

/-- The address of an element is computed alike. -/
theorem elementAddress_rename (v : VarUse) (start : Nat) :
    Alike ρ SameCode (v.elementAddress start) ((v.rename ρ).elementAddress start) := by
  refine (v.load_rename .ac1).bind fun load load' hload => ?_
  refine (alike_relative ..).bind fun tooLarge tooLarge' htooLarge => ?_
  refine (alike_relative ..).bind fun negative negative' hnegative => ?_
  exact .pure (.cons hload (.cons rfl (.cons rfl (.cons htooLarge (.cons hnegative
    (.cons hload (.refl _)))))))

end VarUse

/-- The code of a call is the same if the jump is. -/
theorem SameCode.callSequence {jump jump' : Instr} (h : SameInstr jump jump') (frame : Int) :
    SameCode (callSequence frame jump) (callSequence frame jump') :=
  .cons rfl (.cons rfl (.cons rfl (.cons h (.refl _))))

/-- The code of renamed arguments, if the code of each is the same. Induction on the list. -/
theorem Exp.argumentCode_rename {args : List Exp}
    (ih : ∀ a ∈ args, ∀ offset start,
      Alike ρ SameCode (a.code k offset start) ((a.rename ρ).code l offset start))
    (offset : Int) (start : Nat) :
    Alike ρ SameCode (Exp.argumentCode k offset start args)
      (Exp.argumentCode l offset start (Exp.renameAll ρ args)) := by
  induction args generalizing offset start with
  | nil => exact .pure (.refl _)
  | cons e rest ihrest =>
    simp only [Exp.renameAll, Exp.argumentCode]
    refine (alike_lowered offset 1).bindSame fun lower => ?_
    refine (ih e List.mem_cons_self lower start).bind fun first first' hfirst => ?_
    rw [hfirst.length_eq]
    refine (ihrest (fun a ha => ih a (List.mem_cons_of_mem e ha)) lower _).bind
      fun others others' hothers => ?_
    exact .pure (hfirst.append (.cons rfl hothers))

/-- The code of a renamed expression differs in its remarks at most. -/
theorem Exp.code_rename (h : k.Renames ρ l) (e : Exp) :
    ∀ offset start,
      Alike ρ SameCode (e.code k offset start) ((e.rename ρ).code l offset start) := by
  induction e using Exp.induction with
  | int p n => exact fun _ _ => .pure (.refl _)
  | bool p b => exact fun _ _ => .pure (.refl _)
  | nil p => exact fun _ _ => .pure (.refl _)
  | unary p ty op e ih =>
    intro offset start
    simp only [Exp.rename, Exp.code]
    refine (ih offset start).bind fun is is' his => ?_
    cases op with
    | neg => exact .pure (his.append (.refl _))
    | not => exact .pure (his.append (.refl _))
  | binary p ty op lhs rhs ihl ihr =>
    intro offset start
    simp only [Exp.rename, Exp.code]
    refine (ihl offset start).bind fun is is' his => ?_
    -- code of the same length leads to the same addresses behind it
    rw [his.length_eq]
    cases op.combination with
    | shortCircuit jump comment =>
      refine (ihr offset _).bind fun js js' hjs => ?_
      rw [hjs.length_eq]
      refine (alike_relative ..).bind fun skip skip' hskip => ?_
      exact .pure (his.append (.cons hskip hjs))
    | operation operation =>
      refine (alike_lowered offset 1).bindSame fun lower => ?_
      refine (ihr lower _).bind fun js js' hjs => ?_
      exact .pure ((his.append (.cons rfl hjs)).append (.refl _))
    | comparison jump =>
      refine (alike_lowered offset 1).bindSame fun lower => ?_
      refine (ihr lower _).bind fun js js' hjs => ?_
      exact .pure (((his.append (.cons rfl hjs)).append (.refl _)).append (.refl _))
  | var ty v =>
    intro offset start
    simp only [Exp.rename, Exp.code]
    exact (v.load_rename .ac).bind fun load load' hload => .pure (.cons hload (.refl _))
  | element ty v i ih =>
    intro offset start
    simp only [Exp.rename, Exp.code]
    refine (ih offset start).bind fun is is' his => ?_
    rw [his.length_eq]
    refine (v.elementAddress_rename _).bind fun as as' has => ?_
    exact .pure ((his.append has).append (.cons rfl (.refl _)))
  | assign p ty v e ih =>
    intro offset start
    simp only [Exp.rename, Exp.code]
    refine (ih offset start).bind fun is is' his => ?_
    exact v.store_rename.bind fun store store' hstore => .pure (his.append (.cons hstore (.refl _)))
  | assignElement p ty v i e ihi ihe =>
    intro offset start
    simp only [Exp.rename, Exp.code]
    refine (ihi offset start).bind fun is is' his => ?_
    rw [his.length_eq]
    refine (v.elementAddress_rename _).bind fun as as' has => ?_
    rw [has.length_eq]
    refine (alike_lowered offset 1).bindSame fun lower => ?_
    refine (ihe lower _).bind fun js js' hjs => ?_
    exact .pure (((his.append has).append (.cons rfl hjs)).append (.cons rfl (.cons rfl (.refl _))))
  | call p ty callee args ih =>
    intro offset start
    have hlength : (Exp.renameAll ρ args).length = args.length := by
      rw [Exp.renameAll_eq_map, List.length_map]
    simp only [Exp.rename, Exp.code, hlength]
    refine (Exp.argumentCode_rename ih offset start).bind fun is is' his => ?_
    rw [his.length_eq]
    refine (alike_lowered offset _).bindSame fun _ => ?_
    refine (h.entry callee _).bind ?_
    rintro entry _ rfl
    refine (alike_relative ..).bind fun jump jump' hjump => ?_
    exact .pure ((his.append (.refl _)).append (.callSequence hjump _))

end Expressions

/-! ## Statements

Statements have no names of their own, but the declarations in them do. -/

section Statements

variable {ρ : Renaming} {k l : Linker}

/-- The name of an array is in the remarks for its length. -/
theorem VarDecl.lengthCode_rename (d : VarDecl) (base : Reg) :
    SameCode (d.lengthCode base) ((d.rename ρ).lengthCode base) := by
  obtain ⟨pos, ty, name, shape, layout⟩ := d
  unfold VarDecl.lengthCode
  simp only [VarDecl.rename]
  split
  · exact .cons rfl (.refl _)
  · exact .refl _

/-- The lengths of arrays, one after the other. Induction on the list. -/
theorem lengthCodes_rename (ds : List VarDecl) :
    SameCode (ds.flatMap (VarDecl.lengthCode · .fp))
      ((ds.map (VarDecl.rename ρ)).flatMap (VarDecl.lengthCode · .fp)) := by
  induction ds with
  | nil => exact .refl _
  | cons d rest ih =>
    rw [List.map_cons, List.flatMap_cons, List.flatMap_cons]
    exact (d.lengthCode_rename .fp).append ih

/-- The code of renamed statements, if the code of each is the same. Induction on the list. -/
theorem Stmt.codeAll_rename {body : List Stmt}
    (ih : ∀ s ∈ body, ∀ offset start,
      Alike ρ SameCode (s.code k offset start) ((s.rename ρ).code l offset start))
    (offset : Int) (start : Nat) :
    Alike ρ SameCode (Stmt.codeAll k offset start body)
      (Stmt.codeAll l offset start (Stmt.renameAll ρ body)) := by
  induction body generalizing start with
  | nil => exact .pure (.refl _)
  | cons s rest ihrest =>
    simp only [Stmt.renameAll, Stmt.codeAll]
    refine (ih s List.mem_cons_self offset start).bind fun first first' hfirst => ?_
    rw [hfirst.length_eq]
    refine (ihrest (fun s hs => ih s (List.mem_cons_of_mem _ hs)) _).bind
      fun others others' hothers => ?_
    exact .pure (hfirst.append hothers)

/-- The code of a renamed statement differs in its remarks at most. -/
theorem Stmt.code_rename (h : k.Renames ρ l) (s : Stmt) :
    ∀ offset start,
      Alike ρ SameCode (s.code k offset start) ((s.rename ρ).code l offset start) := by
  induction s using Stmt.induction with
  | exp p e =>
    intro offset start
    simp only [Stmt.rename, Stmt.code]
    exact e.code_rename h offset start
  | block p decls body ih =>
    intro offset start
    have hlengths := lengthCodes_rename (ρ := ρ) decls
    simp only [Stmt.rename, Stmt.code]
    rw [hlengths.length_eq]
    refine (Stmt.codeAll_rename ih offset _).bind fun is is' his => ?_
    exact .pure (hlengths.append his)
  | ifThen p t a ih =>
    intro offset start
    simp only [Stmt.rename, Stmt.code]
    refine (t.code_rename h offset start).bind fun ts ts' hts => ?_
    rw [hts.length_eq]
    refine (ih offset _).bind fun as as' has => ?_
    rw [has.length_eq]
    refine (alike_relative ..).bind fun skip skip' hskip => ?_
    exact .pure (hts.append (.cons hskip has))
  | ifElse p t a b iha ihb =>
    intro offset start
    simp only [Stmt.rename, Stmt.code]
    refine (t.code_rename h offset start).bind fun ts ts' hts => ?_
    -- code that differs in remarks has the same length, so the jumps are the same
    rw [hts.length_eq]
    refine (iha offset _).bind fun as as' has => ?_
    rw [has.length_eq]
    refine (alike_relative ..).bind fun toElse toElse' htoElse => ?_
    refine (ihb offset _).bind fun bs bs' hbs => ?_
    rw [hbs.length_eq]
    refine (alike_relative ..).bind fun toEnd toEnd' htoEnd => ?_
    exact .pure ((hts.append (.cons htoElse has)).append (.cons htoEnd hbs))
  | whileDo p t b ih =>
    intro offset start
    simp only [Stmt.rename, Stmt.code]
    refine (t.code_rename h offset start).bind fun ts ts' hts => ?_
    rw [hts.length_eq]
    refine (ih offset _).bind fun bs bs' hbs => ?_
    rw [hbs.length_eq]
    refine (alike_relative ..).bind fun back back' hback => ?_
    refine (alike_relative ..).bind fun skip skip' hskip => ?_
    exact .pure ((hts.append (.cons hskip hbs)).append (.cons hback (.refl _)))
  | ret p value =>
    intro offset start
    cases value with
    | none => exact .pure (.refl _)
    | some value =>
      simp only [Stmt.rename, Option.map_some, Stmt.code]
      refine (value.code_rename h offset start).bind fun is is' his => ?_
      exact .pure (his.append (.refl _))

/-- The code of a renamed function. -/
theorem FunDecl.code_rename (h : k.Renames ρ l) (f : FunDecl) (start : Nat) (body : Block) :
    Alike ρ SameCode (f.code k start body) ((f.rename ρ).code l start (body.rename ρ)) := by
  refine ((Stmt.block body.pos body.decls body.stmts).code_rename h f.frameEnd (start + 1)).bind
    fun is is' his => ?_
  exact .pure (.append (.cons rfl his) (.refl _))

end Statements

/-! ## Buffers

What is written to one buffer is written to the other, up to the remark. -/

/-- Buffers whose slots differ in the remarks at most. -/
structure CodeBuffer.Same (b c : CodeBuffer) : Prop where
  slots : c.slots.map (Option.map Instr.bare) = b.slots.map (Option.map Instr.bare)
  cursor : c.cursor = b.cursor

namespace CodeBuffer

variable {ρ : Renaming} {b c : CodeBuffer} {i j : Instr} {is js : List Instr}

/-- Such buffers have the same number of slots. -/
theorem Same.size (h : b.Same c) : c.slots.size = b.slots.size := by
  simpa using congrArg Array.size h.slots

/-- The same instruction is written to both. -/
theorem Same.emit (h : b.Same c) (hi : SameInstr i j) : (b.emit i).Same (c.emit j) := by
  unfold CodeBuffer.emit
  unfold SameInstr at hi
  rw [h.cursor, h.size]
  split_ifs
  · exact ⟨by simp only [Array.map_setIfInBounds, h.slots, Option.map_some, hi], rfl⟩
  · exact ⟨by simp only [Array.map_push, h.slots, Option.map_some, hi], rfl⟩

/-- The same code is written to both. Induction on it. -/
theorem Same.emitAll (h : b.Same c) (his : SameCode is js) :
    (b.emitAll is).Same (c.emitAll js) := by
  unfold CodeBuffer.emitAll
  induction is generalizing js b c with
  | nil =>
    obtain rfl : js = [] := List.map_eq_nil_iff.mp his.symm
    exact h
  | cons i is ih =>
    obtain ⟨j, js, rfl, hj, hjs⟩ := List.map_eq_cons_iff.mp his.symm
    rw [List.foldl_cons, List.foldl_cons]
    exact ih (h.emit hj.symm) hjs.symm

/-- Both cursors are at the end, or neither. -/
theorem Same.atEnd (h : b.Same c) (hb : b.AtEnd) : c.AtEnd := by
  rw [AtEnd, h.cursor, h.size]
  exact hb

/-- Both have the same first empty slot, or the same code. Induction on the slots. -/
theorem alike_filled {slots slots' : List (Option Instr)}
    (h : slots'.map (Option.map Instr.bare) = slots.map (Option.map Instr.bare)) (address : Nat) :
    Alike ρ SameCode (filled address slots) (filled address slots') := by
  induction slots generalizing slots' address with
  | nil =>
    obtain rfl : slots' = [] := List.map_eq_nil_iff.mp h
    exact .ok (.refl _)
  | cons slot slots ih =>
    obtain ⟨slot', slots', rfl, hslot, hslots⟩ := List.map_eq_cons_iff.mp h
    cases slot with
    | none =>
      obtain rfl : slot' = none := Option.map_eq_none_iff.mp hslot
      exact .error _
    | some i =>
      obtain ⟨j, rfl, hj⟩ := Option.map_eq_some_iff.mp hslot
      exact (ih hslots (address + 1)).bind fun is js his => .pure (.cons hj.symm his)

/-- Such buffers are finished alike. -/
theorem Same.finish (h : b.Same c) : Alike ρ SameCode b.finish c.finish := by
  refine alike_filled ?_ 0
  simpa using congrArg Array.toList h.slots

end CodeBuffer

/-! ## Programs

The first layout gives related entries, with which the second one starts. -/

/-- Code of the renamed program laid out so far, next to that of the program. -/
structure Assembly.Renames (ρ : Renaming) (a b : Assembly) : Prop where
  atEnd : a.buffer.AtEnd
  buffer : a.buffer.Same b.buffer
  entries : Entries.Renames ρ a.entries b.entries

namespace Assembly

variable {ρ : Renaming} {a b : Assembly}

/-- The fixed code has no names in it, and the routines keep theirs. -/
theorem start_rename {known known' : Entries} (h : Entries.Renames ρ known known') :
    Alike ρ (Assembly.Renames ρ) (start known) (start known') := by
  have hentries := (h.cons "input" inputEntry).cons "output" outputEntry
  rw [ρ.input, ρ.output] at hentries
  have hempty : CodeBuffer.empty.Same CodeBuffer.empty := ⟨rfl, rfl⟩
  rw [start_eq, start_eq]
  generalize startupCode = startup, MiniC.routines = fixed
  refine (alike_relative ..).bind fun jump jump' hjump => ?_
  have hcode := (SameCode.refl startup).append (.cons hjump (.refl fixed))
  exact .pure ⟨(CodeBuffer.full_empty.emitAll _).atEnd, hempty.emitAll hcode, hentries⟩

/-- A renamed declaration is laid out alike, at the same address. -/
theorem declaration_rename (linked : Bool) (h : a.Renames ρ b) (d : Decl) :
    Alike ρ (fun x y => y.1 = x.1.rename ρ ∧ x.2.Renames ρ y.2) (declaration linked a d)
      (declaration linked b (d.rename ρ)) := by
  cases d with
  | var d =>
    exact .pure ⟨rfl, h.atEnd.emitAll _, h.buffer.emitAll (d.lengthCode_rename .gp), h.entries⟩
  | function f =>
    obtain ⟨pos, result, name, params, body, frameEnd, entry⟩ := f
    cases body with
    | none => exact .pure ⟨rfl, h⟩
    | some body =>
      have hentries := h.entries.cons name (a.buffer.cursor + 1)
      have hcode := FunDecl.code_rename ⟨hentries, rfl⟩
        ⟨pos, result, name, params, some body, frameEnd, entry⟩ (a.buffer.cursor + 1) body
        (k := ⟨_, linked⟩) (l := ⟨_, linked⟩)
      simp only [Decl.rename, FunDecl.rename, Option.map_some] at hcode ⊢
      rw [declaration_eq h.atEnd rfl, declaration_eq (h.buffer.atEnd h.atEnd) rfl, h.buffer.cursor]
      refine hcode.bind fun is is' his => ?_
      rw [his.length_eq]
      refine (alike_relative ..).bind fun jump jump' hjump => ?_
      refine .pure ⟨?_, h.atEnd.emitAll _, h.buffer.emitAll (.cons hjump his), hentries⟩
      split_ifs <;> rfl

/-- Renamed declarations are laid out alike. Induction on the list. -/
theorem declarations_rename (linked : Bool) (ds : List Decl) :
    ∀ {a b : Assembly} (_ : a.Renames ρ b),
      Alike ρ (fun x y => y.1 = x.1.map (Decl.rename ρ) ∧ x.2.Renames ρ y.2)
        (declarations linked a ds) (declarations linked b (ds.map (Decl.rename ρ))) := by
  induction ds with
  | nil => exact fun h => .pure ⟨rfl, h⟩
  | cons d rest ih =>
    intro a b h
    refine (declaration_rename linked h d).bind ?_
    rintro ⟨d', a'⟩ ⟨_, b'⟩ ⟨rfl, h'⟩
    refine (ih h').bind ?_
    rintro ⟨rest', a''⟩ ⟨_, b''⟩ ⟨rfl, h''⟩
    exact .pure ⟨rfl, h''⟩

/-- The call of `main`, which keeps its name. -/
theorem finale_rename (h : a.Renames ρ b) (globalsEnd : Int) :
    Alike ρ (Assembly.Renames ρ) (a.finale globalsEnd) (b.finale globalsEnd) := by
  have hmain := h.entries "main"
  rw [ρ.main] at hmain
  unfold finale
  rw [hmain, h.buffer.cursor]
  cases a.entries.lookup "main" with
  | none => exact .error .noMain
  | some main =>
    refine (alike_lowered globalsEnd 1).bindSame fun _ => ?_
    refine (alike_relative ..).bind fun jump jump' hjump => ?_
    have hcode := (SameCode.callSequence hjump globalsEnd).append
      (.refl [.ro .halt .unused .unused .unused ""])
    refine .pure ⟨?_, ?_, h.entries⟩
    · simpa only using h.atEnd.emitAll _
    · simpa only using h.buffer.emitAll hcode

/-- A layout of a renamed program, with entries that are related. -/
theorem program_rename (linked : Bool) {known known' : Entries}
    (h : Entries.Renames ρ known known') (p : Program) :
    Alike ρ (fun x y => y.1 = x.1.rename ρ ∧ x.2.Renames ρ y.2) (program linked known p)
      (program linked known' (p.rename ρ)) := by
  refine (start_rename h).bind fun a b hstart => ?_
  refine (declarations_rename linked p.decls hstart).bind ?_
  rintro ⟨decls, a⟩ ⟨_, b⟩ ⟨rfl, h⟩
  refine (finale_rename h p.globalsEnd).bind fun a b h => ?_
  exact .pure ⟨rfl, h⟩

end Assembly

/-- The code of a renamed program differs in its remarks at most, and its functions have the same
addresses. -/
theorem generate_rename (ρ : Renaming) (p : Program) :
    Alike ρ (fun x y => y.1 = x.1.rename ρ ∧ SameCode x.2 y.2) (generate p)
      (generate (p.rename ρ)) := by
  -- the first pass finds the entries that the second one links with
  refine (Assembly.program_rename false (fun _ => rfl) p).bind ?_
  rintro ⟨_, a⟩ ⟨_, b⟩ ⟨-, hlayout⟩
  refine (Assembly.program_rename true hlayout.entries p).bind ?_
  rintro ⟨p', a'⟩ ⟨_, b'⟩ ⟨rfl, hlinked⟩
  exact hlinked.buffer.finish.bind fun is js his => .pure ⟨rfl, his⟩

/-- What the analysis and the code of a program and of the renamed program have in common. -/
structure RenamedAlike (ρ : Renaming) (a b : Analysis) : Prop where
  /-- The same types and storage are recorded in the tree. -/
  program : b.program = a.program.rename ρ
  /-- The same faults are found in the same order, with the names in them renamed. -/
  errors : b.errors = a.errors.map (Diagnostic.rename ρ)
  kinds : b.errors.map (fun d => (d.fault.kind, d.pos)) =
    a.errors.map (fun d => (d.fault.kind, d.pos))
  /-- The code is the same up to remarks, or the generator fails in the same way. -/
  code : Alike ρ (fun x y => y.1 = x.1.rename ρ ∧ SameCode x.2 y.2) (generate a.program)
    (generate b.program)

/-- Names carry no meaning beyond their identity. The analysis goes along with a renaming
(`analyze_rename`), and so do both passes of the generator (`generate_rename`), which compare names
and never look into them. -/
theorem renamed_alike (ρ : Renaming) (p : Program) (trace : Bool) :
    RenamedAlike ρ (analyze p trace) (analyze (p.rename ρ) trace) := by
  obtain ⟨hprogram, herrors⟩ := analyze_rename ρ p trace
  refine ⟨hprogram, herrors, ?_, ?_⟩
  · rw [herrors, List.map_map]
    exact List.map_congr_left fun d _ => Prod.ext d.fault.kind_rename rfl
  · rw [hprogram]
    exact generate_rename ρ _

/-- A function that is called with a number. -/
def twiceSource : String :=
  "int twice(int n) { return n + n; } void main(void) { output(twice(input())); }"

/-- The function and its parameter exchange their names. -/
def exchange : Renaming :=
  .swap "twice" "n" (by decide) (by decide)

/-- The renamed program is another one: its first function has the name of the parameter. It is
accepted as the program is, and its code is the same up to remarks. -/
theorem renamed_alike_exchange : ∃ tree, parse twiceSource = .ok tree ∧
    (tree.rename exchange).functions.map FunDecl.name = ["n", "main"] ∧
    (analyze (tree.rename exchange) false).errors = [] ∧
    RenamedAlike exchange (analyze tree false) (analyze (tree.rename exchange) false) := by
  have hrun : (parse twiceSource).toOption.map (fun tree =>
      ((tree.rename exchange).functions.map FunDecl.name,
        (analyze (tree.rename exchange) false).errors)) = some (["n", "main"], []) := by
    decide +kernel
  obtain ⟨tree, htree, hboth⟩ := Option.map_eq_some_iff.mp hrun
  obtain ⟨hnames, herrors⟩ := Prod.mk.inj hboth
  exact ⟨tree, Except.eq_ok_of_toOption htree, hnames, herrors, renamed_alike exchange tree false⟩

end MiniC
