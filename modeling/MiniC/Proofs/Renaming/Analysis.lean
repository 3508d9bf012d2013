import Mathlib.Data.List.Forall2
import Mathlib.Logic.Equiv.Basic
import MiniC.Proofs.Sizes

/-!
# Renaming and the analysis

A program whose identifiers are renamed, different ones to different ones, is analysed like the
program itself: the same types and storage are recorded, and the same faults are found at the same
places, with the names in them renamed. Only the names that the language gives a meaning to have to
stay.

The scopes of the two analyses are related frame by frame (`ScopeTable.Renames`). The parameters of
a function keep their types, but their names are not compared: the one of the routine that writes a
number is not an identifier of the program.

* `Exp.check_rename`, `Stmt.check_rename`, `FunDecl.check_rename`: the analysis of renamed phrases
* `analyze_rename`: the analysis of a renamed program
-/

namespace MiniC

/-- A renaming of identifiers. Different names stay different, and the names that the language gives
a meaning to stay as they are. -/
structure Renaming where
  map : String → String
  injective : Function.Injective map
  input : map "input" = "input"
  output : map "output" = "output"
  main : map "main" = "main"

namespace Renaming

instance : CoeFun Renaming fun _ => String → String :=
  ⟨Renaming.map⟩

variable (ρ : Renaming) {x y : String}

/-- Different names stay different. -/
@[simp]
theorem eq_iff : ρ x = ρ y ↔ x = y :=
  ρ.injective.eq_iff

/-- No other name becomes that of the routine for output. -/
@[simp]
theorem eq_output_iff : ρ x = "output" ↔ x = "output" :=
  ⟨fun h => ρ.injective (h.trans ρ.output.symm), fun h => h ▸ ρ.output⟩

/-- Two identifiers exchanged. -/
def swap (x y : String) (hx : x ∉ ["input", "output", "main"])
    (hy : y ∉ ["input", "output", "main"]) : Renaming where
  map := Equiv.swap x y
  injective := (Equiv.swap x y).injective
  input := Equiv.swap_apply_of_ne_of_ne (fun h => hx (by simp [← h])) (fun h => hy (by simp [← h]))
  output := Equiv.swap_apply_of_ne_of_ne (fun h => hx (by simp [← h])) (fun h => hy (by simp [← h]))
  main := Equiv.swap_apply_of_ne_of_ne (fun h => hx (by simp [← h])) (fun h => hy (by simp [← h]))

end Renaming

/-! ## Renamed phrases

Names are replaced everywhere, in declarations, uses, calls and messages. Positions, types and
storage stay. -/

section Rename

variable (ρ : Renaming)

def VarUse.rename (v : VarUse) : VarUse :=
  { v with name := ρ v.name }

def VarDecl.rename (d : VarDecl) : VarDecl :=
  { d with name := ρ d.name }

mutual

/-- The expression with its identifiers renamed. -/
def Exp.rename : Exp → Exp
  | .int p n => .int p n
  | .bool p b => .bool p b
  | .nil p => .nil p
  | .unary p ty op e => .unary p ty op e.rename
  | .binary p ty op l r => .binary p ty op l.rename r.rename
  | .var ty v => .var ty (v.rename ρ)
  | .element ty v i => .element ty (v.rename ρ) i.rename
  | .assign p ty v e => .assign p ty (v.rename ρ) e.rename
  | .assignElement p ty v i e => .assignElement p ty (v.rename ρ) i.rename e.rename
  | .call p ty callee args => .call p ty (ρ callee) (Exp.renameAll args)

def Exp.renameAll : List Exp → List Exp
  | [] => []
  | e :: rest => e.rename :: Exp.renameAll rest

end

mutual

/-- The statement with its identifiers renamed. -/
def Stmt.rename : Stmt → Stmt
  | .exp p e => .exp p (e.rename ρ)
  | .block p decls body => .block p (decls.map (VarDecl.rename ρ)) (Stmt.renameAll body)
  | .ifThen p t a => .ifThen p (t.rename ρ) a.rename
  | .ifElse p t a b => .ifElse p (t.rename ρ) a.rename b.rename
  | .whileDo p t a => .whileDo p (t.rename ρ) a.rename
  | .ret p e => .ret p (e.map (Exp.rename ρ))

def Stmt.renameAll : List Stmt → List Stmt
  | [] => []
  | s :: rest => s.rename :: Stmt.renameAll rest

end

def Block.rename (b : Block) : Block :=
  ⟨b.pos, b.decls.map (VarDecl.rename ρ), Stmt.renameAll ρ b.stmts⟩

def FunDecl.rename (d : FunDecl) : FunDecl :=
  { d with
    name := ρ d.name
    params := d.params.map (VarDecl.rename ρ)
    body := d.body.map (Block.rename ρ) }

def Decl.rename : Decl → Decl
  | .var d => .var (d.rename ρ)
  | .function d => .function (d.rename ρ)

/-- The program with its identifiers renamed. -/
def Program.rename (p : Program) : Program :=
  { p with decls := p.decls.map (Decl.rename ρ) }

/-- The cause with the names in it renamed. -/
def SemanticFault.rename : SemanticFault → SemanticFault
  | .redeclared role name => .redeclared role (ρ name)
  | .voidDeclared role name => .voidDeclared role (ρ name)
  | .tooLarge name => .tooLarge (ρ name)
  | .noReturn function => .noReturn (ρ function)
  | .bareReturn function => .bareReturn (ρ function)
  | .valueFromVoid function => .valueFromVoid (ρ function)
  | .returnType function expected found => .returnType (ρ function) expected found
  | .undefinedFunction name => .undefinedFunction (ρ name)
  | .notFunction name => .notFunction (ρ name)
  | .arity function expected found => .arity (ρ function) expected found
  | .argumentType number function expected found =>
    .argumentType number (ρ function) expected found
  | .undefinedVariable name => .undefinedVariable (ρ name)
  | .undefinedArray name => .undefinedArray (ρ name)
  | .notVariable name => .notVariable (ρ name)
  | .notArray name => .notArray (ρ name)
  | fault => fault

def Diagnostic.rename (d : Diagnostic) : Diagnostic :=
  { d with fault := d.fault.rename ρ }

def TypedExp.rename (t : TypedExp) : TypedExp :=
  ⟨t.exp.rename ρ, t.ty, t.errors.map (Diagnostic.rename ρ)⟩

def TypedUse.rename (t : TypedUse) : TypedUse :=
  ⟨t.var.rename ρ, t.ty, t.errors.map (Diagnostic.rename ρ)⟩

def Enclosing.rename (e : Enclosing) : Enclosing :=
  { e with name := ρ e.name }

end Rename

section

variable {ρ : Renaming}

/-- A renamed fault is of the same kind. -/
@[simp]
theorem SemanticFault.kind_rename (fault : SemanticFault) : (fault.rename ρ).kind = fault.kind := by
  cases fault <;> rfl

/-- Arguments are renamed one by one. -/
theorem Exp.renameAll_eq_map (args : List Exp) :
    Exp.renameAll ρ args = args.map (Exp.rename ρ) := by
  induction args with
  | nil => rfl
  | cons e rest ih => rw [Exp.renameAll, ih, List.map_cons]

/-- Statements are renamed one by one. -/
theorem Stmt.renameAll_eq_map (body : List Stmt) :
    Stmt.renameAll ρ body = body.map (Stmt.rename ρ) := by
  induction body with
  | nil => rfl
  | cons s rest ih => rw [Stmt.renameAll, ih, List.map_cons]

/-- Renaming keeps positions. -/
@[simp]
theorem Exp.pos_rename (e : Exp) : (e.rename ρ).pos = e.pos := by
  cases e <;> rfl

/-- A demand is met in both programs or in neither. -/
@[simp]
theorem map_rename_demand (b : Bool) (pos : Pos) (fault : SemanticFault) :
    (demand b pos fault).map (Diagnostic.rename ρ) = demand b pos (fault.rename ρ) := by
  cases b <;> rfl

end

/-! ## Related scopes

The tables of the two analyses have the same shape, and their symbols differ in names. That the
renaming is injective is used here alone: a name is new in one frame if the other name is new in the
other. -/

/-- Related options are both empty, or both are not. -/
theorem none_or_some_of_rel {α β : Type} {R : α → β → Prop} {a : Option α} {b : Option β}
    (h : Option.Rel R a b) :
    (a = none ∧ b = none) ∨ ∃ x y, a = some x ∧ b = some y ∧ R x y := by
  cases h with
  | none => exact .inl ⟨rfl, rfl⟩
  | some h => exact .inr ⟨_, _, rfl, rfl, h⟩

/-- A symbol of the renamed program, next to that of the program. Names of parameters need not
agree. -/
inductive Symbol.Renames (ρ : Renaming) : Symbol → Symbol → Prop where
  | var (name : String) (ty : Ty) (layout : Layout) :
      Renames ρ (.var name ty layout) (.var (ρ name) ty layout)
  | function (name : String) (result : BaseType) (params params' : List Param) (defined : Bool)
      (hparams : params'.map Param.ty = params.map Param.ty) :
      Renames ρ (.function name result params defined) (.function (ρ name) result params' defined)

/-- A frame of the renamed program, next to that of the program. -/
structure Frame.Renames (ρ : Renaming) (f g : Frame) : Prop where
  index : ∀ x : String, g.index[ρ x]? = f.index[x]?
  size : g.symbols.size = f.symbols.size
  symbols : ∀ i : Nat, Option.Rel (Symbol.Renames ρ) f.symbols[i]? g.symbols[i]?

/-- Scopes of the renamed program, next to those of the program. -/
def ScopeTable.Renames (ρ : Renaming) (S T : ScopeTable) : Prop :=
  List.Forall₂ (Frame.Renames ρ) S.frames T.frames

namespace Frame

variable {ρ : Renaming} {f g : Frame} {x : String} {s t : Symbol}

/-- New frames are related. -/
theorem Renames.empty : Frame.Renames ρ Frame.empty Frame.empty :=
  ⟨fun _ => by simp [Frame.empty], rfl, fun _ => by simp [Frame.empty]⟩

/-- Related frames find related symbols under related names. -/
theorem Renames.get? (h : Frame.Renames ρ f g) (x : String) :
    Option.Rel (Symbol.Renames ρ) (f.get? x) (g.get? (ρ x)) := by
  unfold Frame.get?
  rw [h.index x]
  cases f.index[x]? with
  | none => exact .none
  | some i => exact h.symbols i

/-- Related frames take related names, or refuse both. -/
theorem Renames.declare? (h : Frame.Renames ρ f g) (x : String) (hs : s.Renames ρ t) :
    Option.Rel (Frame.Renames ρ) (f.declare? x s) (g.declare? (ρ x) t) := by
  unfold Frame.declare?
  have hcontains : g.index.contains (ρ x) = f.index.contains x := by
    rw [← Std.TreeMap.isSome_getElem?_eq_contains, ← Std.TreeMap.isSome_getElem?_eq_contains,
      h.index]
  rw [hcontains]
  split_ifs
  · exact .none
  -- the frames have the same size, so the new symbols have the same index
  · refine .some ⟨fun y => ?_, by simp [h.size], fun i => ?_⟩
    · simp only [Std.TreeMap.getElem?_insert, Std.compare_eq_iff_eq, ρ.eq_iff, h.index, h.size]
    · rw [Array.getElem?_push, Array.getElem?_push, h.size]
      split_ifs
      · exact .some hs
      · exact h.symbols i

/-- Related frames replace related symbols, or have neither. -/
theorem Renames.redefine? (h : Frame.Renames ρ f g) (x : String) (hs : s.Renames ρ t) :
    Option.Rel (Frame.Renames ρ) (f.redefine? x s) (g.redefine? (ρ x) t) := by
  unfold Frame.redefine?
  rw [h.index x]
  cases f.index[x]? with
  | none => exact .none
  | some i =>
    refine .some ⟨h.index, by simp [h.size], fun j => ?_⟩
    rw [Array.getElem?_setIfInBounds, Array.getElem?_setIfInBounds, h.size]
    split_ifs
    · exact .some hs
    · exact .none
    · exact h.symbols j

end Frame

namespace ScopeTable

variable {ρ : Renaming} {S T : ScopeTable} {s t : Symbol}

/-- Opening scopes on both sides. -/
theorem Renames.enter (h : S.Renames ρ T) : S.enter.Renames ρ T.enter :=
  .cons .empty h

/-- A name is unknown to both programs, or stands for related symbols. -/
theorem Renames.lookup (h : S.Renames ρ T) (x : String) :
    Option.Rel (Symbol.Renames ρ) (S.lookup x) (T.lookup (ρ x)) := by
  obtain ⟨frames⟩ := S
  obtain ⟨frames'⟩ := T
  simp only [ScopeTable.Renames] at h
  simp only [ScopeTable.lookup]
  induction h with
  | nil => exact .none
  | cons hframe _ ih =>
    rw [List.findSome?_cons, List.findSome?_cons]
    rcases none_or_some_of_rel (hframe.get? x) with ⟨hf, hg⟩ | ⟨s, t, hf, hg, hst⟩
    · rw [hf, hg]
      exact ih
    · rw [hf, hg]
      exact .some hst

/-- The same in the innermost frames. -/
theorem Renames.lookupInner (h : S.Renames ρ T) (x : String) :
    Option.Rel (Symbol.Renames ρ) (S.lookupInner x) (T.lookupInner (ρ x)) := by
  obtain ⟨frames⟩ := S
  obtain ⟨frames'⟩ := T
  cases h with
  | nil => exact .none
  | cons hframe _ => exact hframe.get? x

/-- Related changes of the innermost frames. -/
theorem Renames.updateInner? (h : S.Renames ρ T) {change change' : Frame → Option Frame}
    (hchange : ∀ f g, Frame.Renames ρ f g → Option.Rel (Frame.Renames ρ) (change f) (change' g)) :
    Option.Rel (ScopeTable.Renames ρ) (S.updateInner? change) (T.updateInner? change') := by
  obtain ⟨frames⟩ := S
  obtain ⟨frames'⟩ := T
  cases h with
  | nil => exact .none
  | @cons f g outer outer' hframe houter =>
    simp only [ScopeTable.updateInner?]
    rcases none_or_some_of_rel (hchange f g hframe) with ⟨hf, hg⟩ | ⟨f', g', hf, hg, hchanged⟩
    · rw [hf, hg]
      exact .none
    · rw [hf, hg]
      exact .some (.cons hchanged houter)

/-- Related tables take related names, or refuse both. -/
theorem Renames.declare? (h : S.Renames ρ T) (x : String) (hs : s.Renames ρ t) :
    Option.Rel (ScopeTable.Renames ρ) (S.declare? x s) (T.declare? (ρ x) t) :=
  h.updateInner? fun _ _ hframe => hframe.declare? x hs

/-- Related tables complete related functions. -/
theorem Renames.redefine? (h : S.Renames ρ T) (x : String) (hs : s.Renames ρ t) :
    Option.Rel (ScopeTable.Renames ρ) (S.redefine? x s) (T.redefine? (ρ x) t) :=
  h.updateInner? fun _ _ hframe => hframe.redefine? x hs

/-- The scopes after a change, or the old ones if it is refused. -/
theorem Renames.getD {new new' : Option ScopeTable} (h : S.Renames ρ T)
    (hnew : Option.Rel (ScopeTable.Renames ρ) new new') :
    (new.getD S).Renames ρ (new'.getD T) ∧ new'.isSome = new.isSome := by
  cases hnew with
  | none => exact ⟨h, rfl⟩
  | some hnew => exact ⟨hnew, rfl⟩

/-- The routines have names that stay, so the first table is related to itself. -/
theorem Renames.initial : ScopeTable.initial.Renames ρ ScopeTable.initial := by
  have hbare : ScopeTable.bare.Renames ρ ScopeTable.bare := .cons .empty .nil
  have hinput := Symbol.Renames.function (ρ := ρ) "input" .int [] [] true rfl
  -- `x` is no identifier of the program, and may be that of a renamed one
  have houtput := Symbol.Renames.function (ρ := ρ) "output" .void [⟨"x", .scalar .int⟩]
    [⟨"x", .scalar .int⟩] true rfl
  have hfirst := (hbare.getD (hbare.declare? "input" hinput)).1
  have hsecond := (hfirst.getD (hfirst.declare? "output" houtput)).1
  rw [ρ.input, ρ.output] at hsecond
  exact hsecond

end ScopeTable

/-! ## Expressions

Looking up related names gives related symbols, which have the same types and storage. -/

section Expressions

variable {ρ : Renaming} {S T : ScopeTable}

/-- A renamed variable gets the same type and storage. -/
theorem VarUse.check_rename (h : S.Renames ρ T) (v : VarUse) :
    (v.rename ρ).check T = (v.check S).rename ρ := by
  have hlookup : Option.Rel _ _ (T.lookup (v.rename ρ).name) := h.lookup v.name
  unfold VarUse.check
  rcases none_or_some_of_rel hlookup with ⟨hs, ht⟩ | ⟨s, t, hs, ht, hst⟩
  · rw [hs, ht]
    rfl
  · rw [hs, ht]
    cases hst with
    | var name ty layout => rfl
    | function name result params params' defined hparams => rfl

/-- So does a renamed array with its index. -/
theorem VarUse.checkIndexed_rename (h : S.Renames ρ T) (v : VarUse) (index : Ty) :
    (v.rename ρ).checkIndexed T index = (v.checkIndexed S index).rename ρ := by
  have hlookup : Option.Rel _ _ (T.lookup (v.rename ρ).name) := h.lookup v.name
  unfold VarUse.checkIndexed
  rcases none_or_some_of_rel hlookup with ⟨hs, ht⟩ | ⟨s, t, hs, ht, hst⟩
  · rw [hs, ht]
    rfl
  · rw [hs, ht]
    cases hst with
    | var name ty layout =>
      simp only [TypedUse.rename]
      split_ifs
      · rw [map_rename_demand]
        rfl
      · rfl
    | function name result params params' defined hparams => rfl

/-- Faults of assignments have no names in them. -/
theorem map_rename_assignmentErrors (pos : Pos) (target value : Ty) :
    (assignmentErrors pos target value).map (Diagnostic.rename ρ) =
      assignmentErrors pos target value := by
  unfold assignmentErrors
  split_ifs
  · rfl
  · rw [map_rename_demand]
    rfl

/-- Arguments are compared by their types. Induction on the parameters. -/
theorem argumentErrors_rename {params params' : List Param}
    (hparams : params'.map Param.ty = params.map Param.ty) (pos : Pos) (function : String) (n : Nat)
    (args : List Ty) :
    argumentErrors pos (ρ function) n params' args =
      (argumentErrors pos function n params args).map (Diagnostic.rename ρ) := by
  induction params generalizing params' n args with
  | nil =>
    obtain rfl : params' = [] := List.map_eq_nil_iff.mp hparams
    rfl
  | cons p params ih =>
    obtain ⟨p', params', rfl, hp, hrest⟩ := List.map_eq_cons_iff.mp hparams
    cases args with
    | nil => rfl
    | cons t args =>
      rw [argumentErrors, argumentErrors, List.map_append, map_rename_demand, hp,
        ih hrest (n + 1) args]
      rfl

/-- A renamed call has the same result and the same faults, up to names. The routine for output is
told by its name, which stays. -/
theorem checkCall_rename (h : S.Renames ρ T) (pos : Pos) (callee : String) (args : List Ty) :
    checkCall T pos (ρ callee) args =
      ((checkCall S pos callee args).1,
        (checkCall S pos callee args).2.map (Diagnostic.rename ρ)) := by
  unfold checkCall
  rcases none_or_some_of_rel (h.lookup callee) with ⟨hs, ht⟩ | ⟨s, t, hs, ht, hst⟩
  · rw [hs, ht]
    rfl
  · rw [hs, ht]
    cases hst with
    | var name ty layout => rfl
    | function name result params params' defined hparams =>
      have hlength : params'.length = params.length := by simpa using congrArg List.length hparams
      -- the arguments of `output` are checked in another way, and `output` keeps its name
      simp only [hlength, ρ.eq_output_iff]
      split_ifs
      · rfl
      · simp only [List.map_flatMap, map_rename_demand]
        rfl
      · rw [argumentErrors_rename hparams]

/-- Renamed arguments, if each of them is analysed alike. Induction on the list. -/
theorem Exp.checkAll_renameAll {args : List Exp}
    (h : ∀ a ∈ args, (a.rename ρ).check T = (a.check S).rename ρ) :
    Exp.checkAll T (Exp.renameAll ρ args) = (Exp.checkAll S args).map (TypedExp.rename ρ) := by
  induction args with
  | nil => rfl
  | cons e rest ih =>
    rw [Exp.renameAll, Exp.checkAll, Exp.checkAll, List.map_cons, h e List.mem_cons_self,
      ih fun a ha => h a (List.mem_cons_of_mem e ha)]

/-- A renamed expression is given the same types and storage, and has the same faults with the names
in them renamed. -/
theorem Exp.check_rename (h : S.Renames ρ T) (e : Exp) :
    (e.rename ρ).check T = (e.check S).rename ρ := by
  induction e using Exp.induction with
  | int p n => rfl
  | bool p b => rfl
  | nil p => rfl
  | unary p ty op e ih => simp [Exp.rename, Exp.check, TypedExp.rename, ih, SemanticFault.rename]
  | binary p ty op l r ihl ihr =>
    simp [Exp.rename, Exp.check, TypedExp.rename, ihl, ihr, SemanticFault.rename]
  | var ty v =>
    simp [Exp.rename, Exp.check, TypedExp.rename, VarUse.check_rename h, TypedUse.rename]
  | element ty v i ih =>
    simp [Exp.rename, Exp.check, TypedExp.rename, VarUse.checkIndexed_rename h, TypedUse.rename, ih]
  | assign p ty v e ih =>
    simp [Exp.rename, Exp.check, TypedExp.rename, VarUse.check_rename h, TypedUse.rename, ih,
      map_rename_assignmentErrors]
  | assignElement p ty v i e ihi ihe =>
    simp [Exp.rename, Exp.check, TypedExp.rename, VarUse.checkIndexed_rename h, TypedUse.rename,
      ihi, ihe, map_rename_assignmentErrors]
  | call p ty callee args ih =>
    -- the check of a call looks at the types and errors of all its arguments at once
    have htypes : ((Exp.checkAll S args).map (TypedExp.rename ρ)).map TypedExp.ty =
        (Exp.checkAll S args).map TypedExp.ty := List.map_map
    have hexps : ((Exp.checkAll S args).map (TypedExp.rename ρ)).map TypedExp.exp =
        Exp.renameAll ρ ((Exp.checkAll S args).map TypedExp.exp) := by
      rw [Exp.renameAll_eq_map, List.map_map, List.map_map]
      rfl
    have herrors : ((Exp.checkAll S args).map (TypedExp.rename ρ)).flatMap TypedExp.errors =
        ((Exp.checkAll S args).flatMap TypedExp.errors).map (Diagnostic.rename ρ) := by
      rw [List.flatMap_map, List.map_flatMap]
      rfl
    simp only [Exp.rename, Exp.check, TypedExp.rename, Exp.checkAll_renameAll ih, htypes,
      checkCall_rename h, hexps, herrors, List.map_append]

end Expressions

/-! ## Declarations and statements

The results of the two analyses are compared field by field, with the scopes left by declarations.
-/

section Statements

variable {ρ : Renaming} {S T : ScopeTable}

/-- Declarations of the renamed program, analysed next to those of the program. -/
structure Declared.Renames {α : Type} (ρ : Renaming) (rename : α → α) (a b : Declared α) : Prop
    where
  value : b.value = rename a.value
  scopes : a.scopes.Renames ρ b.scopes
  next : b.next = a.next
  errors : b.errors = a.errors.map (Diagnostic.rename ρ)

/-- Statements of the renamed program, analysed next to those of the program. -/
structure Checked.Renames {α : Type} (ρ : Renaming) (rename : α → α) (a b : Checked α) : Prop where
  value : b.value = rename a.value
  next : b.next = a.next
  returns : b.returns = a.returns
  errors : b.errors = a.errors.map (Diagnostic.rename ρ)

/-- A renamed declaration is placed alike, and refused alike. -/
theorem VarDecl.check_rename (h : S.Renames ρ T) (role : Role) (level : Nat) (next : Int)
    (d : VarDecl) :
    (d.check role level S next).Renames ρ (VarDecl.rename ρ)
      ((d.rename ρ).check role level T next) := by
  have hadded := h.declare? d.name (.var d.name d.ty (d.place level next).layout)
  obtain ⟨hscopes, hsome⟩ := h.getD hadded
  refine ⟨rfl, hscopes, rfl, ?_⟩
  simp only [VarDecl.check, List.map_append, map_rename_demand]
  rw [← hsome]
  rfl

/-- Renamed declarations are analysed alike. Induction on the list, for all related tables. -/
theorem VarDecl.checkAll_rename (role : Role) (level : Nat) (ds : List VarDecl) :
    ∀ {S T : ScopeTable} (_ : S.Renames ρ T) (next : Int),
      (VarDecl.checkAll role level S next ds).Renames ρ (List.map (VarDecl.rename ρ))
        (VarDecl.checkAll role level T next (ds.map (VarDecl.rename ρ))) := by
  induction ds with
  | nil => exact fun h _ => ⟨rfl, h, rfl, rfl⟩
  | cons d rest ih =>
    intro S T h next
    have hfirst := VarDecl.check_rename h role level next d
    have hothers := ih hfirst.scopes (d.check role level S next).next
    simp only [List.map_cons, VarDecl.checkAll]
    rw [hfirst.next]
    exact ⟨by rw [hfirst.value, hothers.value, List.map_cons], hothers.scopes, hothers.next,
      by rw [hfirst.errors, hothers.errors, List.map_append]⟩

/-- A condition is refused for its type. -/
theorem map_rename_testErrors (construct : Construct) (t : TypedExp) :
    testErrors construct (t.rename ρ) =
      (testErrors construct t).map (Diagnostic.rename ρ) := by
  unfold testErrors
  rw [map_rename_demand]
  simp only [TypedExp.rename, Exp.pos_rename]
  rfl

/-- A returned value is refused for its type, with the name of the function in the message. -/
theorem map_rename_returnErrors (enclosing : Enclosing) (pos : Pos) (value : Ty) :
    returnErrors (enclosing.rename ρ) pos value =
      (returnErrors enclosing pos value).map (Diagnostic.rename ρ) := by
  unfold returnErrors Enclosing.rename
  simp only
  split_ifs
  · rfl
  · rw [map_rename_demand]
    rfl

/-- The analysis of statements in order, if each of them is analysed alike. -/
theorem Stmt.checkAll_rename {enclosing : Enclosing} {body : List Stmt}
    (ih : ∀ s ∈ body, ∀ {S T : ScopeTable} (_ : S.Renames ρ T) (next : Int),
      (s.check enclosing S next).Renames ρ (Stmt.rename ρ)
        ((s.rename ρ).check (enclosing.rename ρ) T next))
    (h : S.Renames ρ T) (next : Int) :
    (Stmt.checkAll enclosing S next body).Renames ρ (Stmt.renameAll ρ)
      (Stmt.checkAll (enclosing.rename ρ) T next (Stmt.renameAll ρ body)) := by
  induction body generalizing next with
  | nil => exact ⟨rfl, rfl, rfl, rfl⟩
  | cons s rest ihrest =>
    have hfirst := ih s List.mem_cons_self h next
    have hothers := ihrest (fun s hs => ih s (List.mem_cons_of_mem _ hs))
      (s.check enclosing S next).next
    simp only [Stmt.renameAll, Stmt.checkAll]
    rw [hfirst.next]
    exact ⟨by rw [hfirst.value, hothers.value, Stmt.renameAll], hothers.next,
      by rw [hfirst.returns, hothers.returns],
      by rw [hfirst.errors, hothers.errors, List.map_append]⟩

/-- A renamed statement is given the same types and storage, and has the same faults with the names
in them renamed. -/
theorem Stmt.check_rename (enclosing : Enclosing) (s : Stmt) :
    ∀ {S T : ScopeTable} (_ : S.Renames ρ T) (next : Int),
      (s.check enclosing S next).Renames ρ (Stmt.rename ρ)
        ((s.rename ρ).check (enclosing.rename ρ) T next) := by
  induction s using Stmt.induction with
  | exp p e =>
    intro S T h next
    simp only [Stmt.rename, Stmt.check, Exp.check_rename h]
    exact ⟨rfl, rfl, rfl, rfl⟩
  | block p decls body ih =>
    intro S T h next
    have hdecls := VarDecl.checkAll_rename .var frameLevel decls h.enter next
    have hbody := Stmt.checkAll_rename ih hdecls.scopes
      (VarDecl.checkAll .var frameLevel S.enter next decls).next
    simp only [Stmt.rename, Stmt.check]
    rw [hdecls.next]
    exact ⟨by rw [hdecls.value, hbody.value, Stmt.rename], hbody.next, hbody.returns,
      by rw [hdecls.errors, hbody.errors, List.map_append]⟩
  | ifThen p t a ih =>
    intro S T h next
    have ha := ih h next
    simp only [Stmt.rename, Stmt.check, Exp.check_rename h, map_rename_testErrors]
    exact ⟨by rw [ha.value, Stmt.rename]; rfl, ha.next, ha.returns,
      by rw [ha.errors, List.map_append, List.map_append]; rfl⟩
  -- the second statement is placed below the first one, in both programs alike
  | ifElse p t a b iha ihb =>
    intro S T h next
    have ha := iha h next
    have hb := ihb h (a.check enclosing S next).next
    simp only [Stmt.rename, Stmt.check, Exp.check_rename h, map_rename_testErrors]
    rw [ha.next]
    exact ⟨by rw [ha.value, hb.value, Stmt.rename]; rfl, hb.next, by rw [ha.returns, hb.returns],
      by rw [ha.errors, hb.errors]; simp only [List.map_append]; rfl⟩
  | whileDo p t b ih =>
    intro S T h next
    have hb := ih h next
    simp only [Stmt.rename, Stmt.check, Exp.check_rename h, map_rename_testErrors]
    exact ⟨by rw [hb.value, Stmt.rename]; rfl, hb.next, hb.returns,
      by rw [hb.errors, List.map_append, List.map_append]; rfl⟩
  | ret p value =>
    intro S T h next
    cases value with
    | none =>
      refine ⟨rfl, rfl, rfl, ?_⟩
      simp only [Stmt.rename, Option.map_none, Stmt.check, map_rename_demand]
      rfl
    | some value =>
      simp only [Stmt.rename, Option.map_some, Stmt.check, Exp.check_rename h,
        map_rename_returnErrors]
      exact ⟨rfl, rfl, rfl, by rw [List.map_append]; rfl⟩

/-- A renamed body is analysed alike. -/
theorem Block.check_rename (h : S.Renames ρ T) (enclosing : Enclosing) (next : Int) (b : Block) :
    (b.check enclosing S next).Renames ρ (Block.rename ρ)
      ((b.rename ρ).check (enclosing.rename ρ) T next) := by
  have hdecls := VarDecl.checkAll_rename .var frameLevel b.decls h.enter next
  have hbody := Stmt.checkAll_rename (fun s (_ : s ∈ b.stmts) => Stmt.check_rename enclosing s)
    hdecls.scopes (VarDecl.checkAll .var frameLevel S.enter next b.decls).next
  simp only [Block.rename, Block.check]
  rw [hdecls.next]
  exact ⟨by rw [hdecls.value, hbody.value, Block.rename], hbody.next, hbody.returns,
    by rw [hdecls.errors, hbody.errors, List.map_append]⟩

end Statements

/-! ## Functions and programs

A function is announced in both programs or in neither, since its signature has no names that count.
-/

section Programs

variable {ρ : Renaming} {S T : ScopeTable}

/-- Declarations of the outermost level of the renamed program, analysed next to those of the
program. -/
structure Announced.Renames {α : Type} (ρ : Renaming) (rename : α → α) (a b : Announced α) : Prop
    where
  value : b.value = rename a.value
  scopes : a.scopes.Renames ρ b.scopes
  next : b.next = a.next
  errors : b.errors = a.errors.map (Diagnostic.rename ρ)

/-- Signatures have no names that are compared. -/
theorem Symbol.Renames.sameSignature {s t a b : Symbol} (hs : s.Renames ρ t) (ha : a.Renames ρ b) :
    t.sameSignature b = s.sameSignature a := by
  cases hs with
  | var name ty layout =>
    cases ha with
    | var => rfl
    | function _ _ _ _ _ hparams => simp only [Symbol.sameSignature, Symbol.params, hparams]; rfl
  | function _ _ _ _ _ hparams =>
    cases ha with
    | var => simp only [Symbol.sameSignature, Symbol.params, hparams]; rfl
    | function _ _ _ _ _ hparams' =>
      simp only [Symbol.sameSignature, Symbol.params, hparams, hparams']
      rfl

/-- The symbol of a renamed function. -/
theorem FunDecl.symbol_rename (f : FunDecl) : f.symbol.Renames ρ (f.rename ρ).symbol := by
  unfold FunDecl.symbol
  have hbody : (f.rename ρ).body.isSome = f.body.isSome := by
    simp only [FunDecl.rename, Option.isSome_map]
  rw [hbody]
  refine .function f.name f.result _ _ f.body.isSome ?_
  simp only [FunDecl.rename, List.map_map]
  rfl

/-- A renamed function is announced alike, or refused alike. -/
theorem FunDecl.announce?_rename (h : S.Renames ρ T) (f : FunDecl) :
    Option.Rel (ScopeTable.Renames ρ) (f.announce? S) ((f.rename ρ).announce? T) := by
  have hlookup : Option.Rel _ _ (T.lookupInner (f.rename ρ).name) := h.lookupInner f.name
  have hbody : (f.rename ρ).body.isNone = f.body.isNone := by
    simp only [FunDecl.rename, Option.isNone_map]
  have hsymbol : f.symbol.Renames ρ (f.rename ρ).symbol := f.symbol_rename
  unfold FunDecl.announce?
  rcases none_or_some_of_rel hlookup with ⟨hs, ht⟩ | ⟨s, t, hs, ht, hst⟩
  · rw [hs, ht]
    exact h.declare? f.name hsymbol
  · have hfunction : t.isFunction = s.isFunction := by cases hst <;> rfl
    have hdefined : t.isDefined = s.isDefined := by cases hst <;> rfl
    rw [hs, ht]
    simp only [hfunction, hdefined, hst.sameSignature hsymbol, hbody]
    split_ifs
    · exact .some h
    · exact .none
    · exact h.redefine? f.name hsymbol
    · exact .none

/-- A renamed function is analysed alike, with its parameters and its body. -/
theorem FunDecl.check_rename (h : S.Renames ρ T) (next : Int) (f : FunDecl) :
    (f.check S next).Renames ρ (FunDecl.rename ρ) ((f.rename ρ).check T next) := by
  obtain ⟨hscopes, hsome⟩ := h.getD (f.announce?_rename h)
  have hparams := VarDecl.checkAll_rename .param frameLevel f.params hscopes.enter firstFrameOffset
  obtain ⟨pos, result, name, params, body, frameEnd, entry⟩ := f
  cases body with
  | none =>
    simp only [FunDecl.rename, Option.map_none] at hscopes hsome hparams ⊢
    simp only [FunDecl.check]
    refine ⟨?_, hscopes, rfl, ?_⟩
    · rw [hparams.value, hparams.next]
      rfl
    · rw [hsome, hparams.errors, List.map_append, map_rename_demand]
      rfl
  | some body =>
    simp only [FunDecl.rename, Option.map_some] at hscopes hsome hparams ⊢
    -- for any place of the first variable, until that behind the parameters is known to be the same
    have hbody (n : Int) := Block.check_rename hparams.scopes ⟨name, result⟩ n body
    simp only [FunDecl.check]
    rw [hparams.next]
    refine ⟨?_, hscopes, rfl, ?_⟩
    · rw [hparams.value]
      simp only [FunDecl.rename, Option.map_some]
      exact congrArg₂ (fun b next => FunDecl.mk pos result (ρ name) _ (some b) next entry)
        (hbody _).value (hbody _).next
    · have herrors (n : Int) := (hbody n).errors
      have hreturns (n : Int) := (hbody n).returns
      simp only [Enclosing.rename] at herrors hreturns
      rw [hsome, hparams.errors, herrors, hreturns]
      simp only [List.map_append, map_rename_demand]
      rfl

/-- A renamed declaration is analysed alike. -/
theorem Decl.check_rename (h : S.Renames ρ T) (next : Int) (d : Decl) :
    (d.check S next).Renames ρ (Decl.rename ρ) ((d.rename ρ).check T next) := by
  cases d with
  | var d =>
    have hd := VarDecl.check_rename h .var globalLevel next d
    exact ⟨congrArg Decl.var hd.value, hd.scopes, hd.next, hd.errors⟩
  | function f =>
    have hf := FunDecl.check_rename h next f
    exact ⟨congrArg Decl.function hf.value, hf.scopes, hf.next, hf.errors⟩

/-- Renamed declarations are analysed alike. Induction on the list, for all related tables. -/
theorem Decl.checkAll_rename (ds : List Decl) :
    ∀ {S T : ScopeTable} (_ : S.Renames ρ T) (next : Int),
      (Decl.checkAll S next ds).Renames ρ (List.map (Decl.rename ρ))
        (Decl.checkAll T next (ds.map (Decl.rename ρ))) := by
  induction ds with
  | nil => exact fun h _ => ⟨rfl, h, rfl, rfl⟩
  | cons d rest ih =>
    intro S T h next
    have hfirst := Decl.check_rename h next d
    have hothers := ih hfirst.scopes (d.check S next).next
    simp only [List.map_cons, Decl.checkAll]
    rw [hfirst.next]
    exact ⟨by rw [hfirst.value, hothers.value, List.map_cons], hothers.scopes, hothers.next,
      by rw [hfirst.errors, hothers.errors, List.map_append]⟩

/-- A renamed program is given the same types and storage, and has the same faults in the same order
with the names in them renamed. -/
theorem analyze_rename (ρ : Renaming) (p : Program) (trace : Bool) :
    (analyze (p.rename ρ) trace).program = (analyze p trace).program.rename ρ ∧
      (analyze (p.rename ρ) trace).errors =
        (analyze p trace).errors.map (Diagnostic.rename ρ) := by
  have hdecls := Decl.checkAll_rename (ρ := ρ) p.decls ScopeTable.Renames.initial 0
  simp only [analyze_eq, Program.rename]
  exact ⟨by rw [hdecls.value, hdecls.next], hdecls.errors⟩

end Programs

end MiniC
