import MiniC.Proofs.Layout

/-!
# What names stand for

A name stands for what the innermost frame around it that has the name says first. This is said of
the analysed tree alone: each block and each list of parameters is a frame, and the outermost frame
grows with the declarations of the program. The scope tables of the analysis follow the same
nesting, also when a declaration in it is refused, since what is refused would never be found. So a
variable has the storage of the declaration that its name stands for, in a faulty program too.

* `Program.scoped`: every expression of a program, with the frames around it
* `VarUse.Resolved`: a variable has the storage of its declaration, or is reported
* `ScopeTable.Means`: a table holds the frames around a phrase
* `analyze_resolves`: whole programs
-/

namespace MiniC

/-! ### Frames around an expression

The specification. It looks at the tree alone, after the analysis: each block and each list of
parameters is a frame with its declarations in order, and an expression has the frames around it. -/

/-- What a name stands for: the declaration of a variable, or a function. -/
inductive Meaning where
  | var (decl : VarDecl)
  | function
deriving DecidableEq, Repr

/-- The declared names of the frames around a phrase, the innermost frame first, and the names of a
frame in the order of their declarations. -/
abbrev Scope := List (List (String × Meaning))

/-- The first declaration of a name in the innermost frame that has one. -/
def Scope.find (Γ : Scope) (x : String) : Option Meaning :=
  Γ.findSome? (List.lookup x)

/-- The name that a declaration adds to its frame. -/
def VarDecl.meaning (d : VarDecl) : String × Meaning :=
  (d.name, .var d)

/-- The name that a declaration adds to the outermost frame. -/
def Decl.meaning : Decl → String × Meaning
  | .var d => d.meaning
  | .function f => (f.name, .function)

/-- The expressions in declarations of the outermost level. The outermost frame has the given names,
those of the declarations before and that of the declaration itself. -/
def Decl.scopedAll (names : List (String × Meaning)) : List Decl → List (Scope × Exp)
  | [] => []
  | d :: rest =>
    d.nodes VarDecl.meaning [names ++ [d.meaning]] ++ Decl.scopedAll (names ++ [d.meaning]) rest

/-- The expressions in a program, with the frames around them. The routines are declared before the
program. -/
def Program.scoped (p : Program) : List (Scope × Exp) :=
  Decl.scopedAll [("input", .function), ("output", .function)] p.decls

/-! ### Resolved expressions

What a variable in an expression should have, given the frames around it. -/

/-- The variable at the root of an expression that names one. -/
def Exp.use? : Exp → Option VarUse
  | .var _ v | .element _ v _ | .assign _ _ v _ | .assignElement _ _ v _ _ => some v
  | _ => none

/-- A variable has the storage of the declaration that its name stands for, if it stands for one;
otherwise it has no storage and there is a diagnostic at its position. -/
structure VarUse.Resolved (errors : List Diagnostic) (Γ : Scope) (v : VarUse) : Prop where
  layout_iff : ∀ l, v.layout = some l ↔ ∃ d, Γ.find v.name = some (.var d) ∧ d.layout = some l
  undefined : Γ.find v.name = none →
    ∃ fault, ⟨v.pos, fault⟩ ∈ errors ∧ fault.kind = .undefinedSymbol
  function : Γ.find v.name = some .function →
    ∃ fault, ⟨v.pos, fault⟩ ∈ errors ∧ fault.kind = .typeMismatch

/-- An expression has a type, and its variable is resolved. -/
structure Exp.Settled (errors : List Diagnostic) (Γ : Scope) (e : Exp) : Prop where
  typed : e.ty.isSome = true
  resolved : ∀ v, e.use? = some v → v.Resolved errors Γ

section

variable {errors errors' : List Diagnostic} {Γ : Scope}

/-- More diagnostics do no harm. -/
theorem VarUse.Resolved.mono {v : VarUse} (h : v.Resolved errors Γ) (hsub : errors ⊆ errors') :
    v.Resolved errors' Γ := by
  refine ⟨h.layout_iff, ?_, ?_⟩
  · intro hnone
    obtain ⟨fault, hmem, hkind⟩ := h.undefined hnone
    exact ⟨fault, hsub hmem, hkind⟩
  · intro hfun
    obtain ⟨fault, hmem, hkind⟩ := h.function hfun
    exact ⟨fault, hsub hmem, hkind⟩

/-- More diagnostics do no harm. -/
theorem Exp.Settled.mono {e : Exp} (h : e.Settled errors Γ) (hsub : errors ⊆ errors') :
    e.Settled errors' Γ :=
  ⟨h.typed, fun v hv => (h.resolved v hv).mono hsub⟩

/-- An expression that names no variable needs a type only. -/
theorem Exp.settled_of_not_variable {e : Exp} (htyped : e.ty.isSome = true)
    (hnone : e.use? = none) : e.Settled errors Γ := by
  refine ⟨htyped, fun v hv => ?_⟩
  rw [hnone] at hv
  cases hv

/-- An expression that names a variable needs a type, and its variable to be resolved. -/
theorem Exp.settled_of_variable {e : Exp} {v : VarUse} (htyped : e.ty.isSome = true)
    (hv : e.use? = some v) (h : v.Resolved errors Γ) : e.Settled errors Γ := by
  refine ⟨htyped, fun w hw => ?_⟩
  rw [hv] at hw
  cases hw
  exact h

end

/-! ### Tables and frames

A table holds one symbol for each name of a frame, that of its first declaration. `Means` relates
the two; a declaration that is refused changes neither what the table finds nor what the frame says.
-/

/-- A symbol is of the kind that a name stands for, and has the storage of the declaration. -/
inductive Symbol.Means : Symbol → Meaning → Prop
  | var {n ty l d} (h : d.layout = some l) : Symbol.Means (.var n ty l) (.var d)
  | function {n r ps d} : Symbol.Means (.function n r ps d) .function

/-- A frame of a table finds what the first declaration of each name says. -/
structure Frame.Means (f : Frame) (names : List (String × Meaning)) : Prop where
  valid : f.Valid
  get : ∀ x, Option.Rel Symbol.Means (f.get? x) (names.lookup x)

/-- A scope table holds the frames around a phrase. -/
def ScopeTable.Means (S : ScopeTable) (Γ : Scope) : Prop :=
  List.Forall₂ Frame.Means S.frames Γ

/-- A new frame has no names. -/
theorem Frame.means_empty : Frame.empty.Means [] := by
  refine ⟨Frame.valid_empty, fun x => ?_⟩
  simp [Frame.get?, Frame.empty]

/-- A name that is declared again does not change what it stands for. -/
theorem lookup_snoc_meaning (names : List (String × Meaning)) (y : String) (m : Meaning)
    (x : String) :
    (names ++ [(y, m)]).lookup x = (names.lookup x).or (if y = x then some m else none) := by
  rw [List.lookup_append, List.lookup_cons]
  by_cases h : y = x
  · simp [h]
  · simp [h, beq_eq_false_iff_ne.mpr (Ne.symm h)]

namespace Frame.Means

variable {f g : Frame} {names : List (String × Meaning)} {x : String} {s : Symbol} {m : Meaning}

/-- A frame of a table has the names of the frame. -/
theorem get_eq_none_iff (h : f.Means names) : f.get? x = none ↔ names.lookup x = none := by
  have hrel := h.get x
  cases hf : f.get? x <;> cases hn : names.lookup x <;> rw [hf, hn] at hrel
  · simp
  · cases hrel
  · cases hrel
  · simp

/-- A declaration that is taken is found under its name. -/
theorem declare (h : f.Means names) (hs : s.Means m) (hg : f.declare? x s = some g) :
    g.Means (names ++ [(x, m)]) := by
  have hnone := h.get_eq_none_iff.mp (Frame.get?_eq_none_of_declare? hg)
  refine ⟨h.valid.declare hg, fun y => ?_⟩
  rw [Frame.get?_declare h.valid hg, lookup_snoc_meaning]
  split
  · rename_i hxy
    rw [← hxy, hnone]
    exact .some hs
  · rw [Option.or_none]
    exact h.get y

/-- A declaration that is refused is not found. -/
theorem refuse (h : f.Means names) (hx : f.get? x ≠ none) : f.Means (names ++ [(x, m)]) := by
  refine ⟨h.valid, fun y => ?_⟩
  rw [lookup_snoc_meaning]
  split
  · rename_i hxy
    subst hxy
    obtain ⟨n, hn⟩ := Option.ne_none_iff_exists'.mp (mt h.get_eq_none_iff.mpr hx)
    rw [hn, Option.some_or, ← hn]
    exact h.get x
  · rw [Option.or_none]
    exact h.get y

/-- A function that is completed stays a function. -/
theorem redefine (h : f.Means names) {known : Symbol} (hknown : f.get? x = some known)
    (hfun : known.isFunction = true) (hs : s.Means .function) (hg : f.redefine? x s = some g) :
    g.Means (names ++ [(x, Meaning.function)]) := by
  refine ⟨h.valid.redefine hg, fun y => ?_⟩
  rw [Frame.get?_redefine h.valid hg, lookup_snoc_meaning]
  split
  · rename_i hxy
    subst hxy
    have hrel := h.get x
    rw [hknown] at hrel
    cases hn : names.lookup x with
    | none => exact .some hs
    | some m =>
      rw [hn] at hrel
      cases hrel with
      | some hmeans =>
        cases hmeans with
        | var hd => cases hfun
        | function => exact .some hs
  · rw [Option.or_none]
    exact h.get y

end Frame.Means

namespace ScopeTable.Means

variable {S T : ScopeTable} {Γ : Scope} {names : List (String × Meaning)} {x : String}

/-- A table finds what the frames around a phrase say of a name. -/
theorem lookup (h : S.Means Γ) (x : String) : Option.Rel Symbol.Means (S.lookup x) (Γ.find x) := by
  obtain ⟨frames⟩ := S
  have hframes : List.Forall₂ Frame.Means frames Γ := h
  clear h
  induction hframes with
  | nil => exact .none
  | @cons f names frames Γ hf hrest ih =>
    rw [ScopeTable.lookup_eq rfl, Scope.find, List.findSome?_cons]
    have hrel := hf.get x
    cases hfx : f.get? x <;> cases hn : names.lookup x <;> rw [hfx, hn] at hrel
    · exact ih
    · cases hrel
    · cases hrel
    · exact hrel

/-- Opening a scope adds an empty frame. -/
theorem enter (h : S.Means Γ) : S.enter.Means ([] :: Γ) :=
  .cons Frame.means_empty h

/-- The innermost frames. -/
theorem frames_eq (h : S.Means (names :: Γ)) :
    ∃ f outer, S.frames = f :: outer ∧ f.Means names ∧ List.Forall₂ Frame.Means outer Γ := by
  obtain ⟨f, outer, hf, houter, hframes⟩ := List.forall₂_cons_right_iff.mp h
  exact ⟨f, outer, hframes, hf, houter⟩

end ScopeTable.Means

/-! ### Expressions

Each use of a variable is looked up in the table, which finds what the frames say. -/

section Expressions

variable {S : ScopeTable} {Γ : Scope} {errors : List Diagnostic}

namespace VarUse

variable {v : VarUse}

/-- A name that stands for a variable is resolved by its storage. -/
theorem resolved_of_var {d : VarDecl} {l : Layout} (hfind : Γ.find v.name = some (.var d))
    (hd : d.layout = some l) (hv : v.layout = some l) : v.Resolved errors Γ := by
  refine ⟨?_, ?_, ?_⟩
  · simp [hfind, hd, hv]
  · simp [hfind]
  · simp [hfind]

/-- A name that stands for a function is reported as of the wrong type. -/
theorem resolved_of_function {fault : SemanticFault} (hfind : Γ.find v.name = some .function)
    (hv : v.layout = none) (hmem : ⟨v.pos, fault⟩ ∈ errors) (hkind : fault.kind = .typeMismatch) :
    v.Resolved errors Γ := by
  refine ⟨?_, ?_, fun _ => ⟨fault, hmem, hkind⟩⟩
  · simp [hfind, hv]
  · simp [hfind]

/-- A name that stands for nothing is reported as not defined. -/
theorem resolved_of_none {fault : SemanticFault} (hfind : Γ.find v.name = none)
    (hv : v.layout = none) (hmem : ⟨v.pos, fault⟩ ∈ errors)
    (hkind : fault.kind = .undefinedSymbol) : v.Resolved errors Γ := by
  refine ⟨?_, fun _ => ⟨fault, hmem, hkind⟩, ?_⟩
  · simp [hfind, hv]
  · simp [hfind]

/-- A variable that was looked up is resolved. -/
theorem resolved_check (h : S.Means Γ) (v : VarUse) :
    (v.bare.check S).var.Resolved (v.bare.check S).errors Γ := by
  have hrel := h.lookup v.bare.name
  unfold VarUse.check
  generalize S.lookup v.bare.name = o at hrel
  generalize hm : Γ.find v.bare.name = m at hrel
  cases hrel with
  | none => exact resolved_of_none hm rfl List.mem_cons_self rfl
  | some hs =>
    cases hs with
    | var hd => exact resolved_of_var hm hd rfl
    | function => exact resolved_of_function hm rfl List.mem_cons_self rfl

/-- An array that was looked up is resolved. -/
theorem resolved_checkIndexed (h : S.Means Γ) (v : VarUse) (index : Ty) :
    (v.bare.checkIndexed S index).var.Resolved (v.bare.checkIndexed S index).errors Γ := by
  have hrel := h.lookup v.bare.name
  unfold VarUse.checkIndexed
  generalize S.lookup v.bare.name = o at hrel
  generalize hm : Γ.find v.bare.name = m at hrel
  cases hrel with
  | none => exact resolved_of_none hm rfl List.mem_cons_self rfl
  | some hs =>
    cases hs with
    | var hd => exact resolved_of_var hm hd rfl
    | function => exact resolved_of_function hm rfl List.mem_cons_self rfl

end VarUse

/-- The expressions in analysed arguments, if those in each of them are settled. Induction on the
list. -/
theorem Exp.settled_nodesAll {args : List Exp}
    (ih : ∀ a ∈ args, ∀ e ∈ (a.bare.check S).exp.nodes, e.Settled (a.bare.check S).errors Γ) :
    ∀ e ∈ Exp.nodesAll ((Exp.checkAll S (Exp.bareAll args)).map TypedExp.exp),
      e.Settled ((Exp.checkAll S (Exp.bareAll args)).flatMap TypedExp.errors) Γ := by
  induction args with
  | nil =>
    intro e he
    cases he
  | cons a rest hrest =>
    simp only [Exp.bareAll, Exp.checkAll, List.map_cons, Exp.nodesAll, List.flatMap_cons,
      List.forall_mem_append]
    exact ⟨fun e he => (ih a List.mem_cons_self e he).mono (List.subset_append_left _ _),
      fun e he => (hrest (fun b hb => ih b (List.mem_cons_of_mem a hb)) e he).mono
        (List.subset_append_right _ _)⟩

/-- The expressions in an analysed expression. -/
theorem Exp.settled_nodes (h : S.Means Γ) (e : Exp) :
    ∀ a ∈ (e.bare.check S).exp.nodes, a.Settled (e.bare.check S).errors Γ := by
  induction e using Exp.induction with
  | int p n => exact List.forall_mem_singleton.mpr (settled_of_not_variable rfl rfl)
  | bool p b => exact List.forall_mem_singleton.mpr (settled_of_not_variable rfl rfl)
  | nil p => exact List.forall_mem_singleton.mpr (settled_of_not_variable rfl rfl)
  | unary p t op e ih =>
    simp only [Exp.bare, Exp.check, Exp.nodes, List.forall_mem_cons]
    exact ⟨settled_of_not_variable rfl rfl,
      fun a ha => (ih a ha).mono (List.subset_append_left _ _)⟩
  -- what is settled in an operand stays so with the errors of the others behind
  | binary p t op l r ihl ihr =>
    simp only [Exp.bare, Exp.check, Exp.nodes, List.forall_mem_cons, List.forall_mem_append]
    refine ⟨settled_of_not_variable rfl rfl, fun a ha => (ihl a ha).mono ?_,
      fun a ha => (ihr a ha).mono ?_⟩
    · simp
    · simp
  | var t v =>
    exact List.forall_mem_singleton.mpr (settled_of_variable rfl rfl (v.resolved_check h))
  | element t v i ih =>
    simp only [Exp.bare, Exp.check, Exp.nodes, List.forall_mem_cons]
    refine ⟨settled_of_variable rfl rfl ((v.resolved_checkIndexed h _).mono ?_),
      fun a ha => (ih a ha).mono ?_⟩
    · simp
    · simp
  | assign p t v e ih =>
    simp only [Exp.bare, Exp.check, Exp.nodes, List.forall_mem_cons]
    refine ⟨settled_of_variable rfl rfl ((v.resolved_check h).mono ?_),
      fun a ha => (ih a ha).mono ?_⟩
    · simp
    · simp
  | assignElement p t v i e ihi ihe =>
    simp only [Exp.bare, Exp.check, Exp.nodes, List.forall_mem_cons, List.forall_mem_append]
    refine ⟨settled_of_variable rfl rfl ((v.resolved_checkIndexed h _).mono ?_),
      fun a ha => (ihi a ha).mono ?_, fun a ha => (ihe a ha).mono ?_⟩
    · simp
    · simp
    · exact fun x hx => by simp [hx]
  | call p t f args ih =>
    simp only [Exp.bare, Exp.check, Exp.nodes, List.forall_mem_cons]
    exact ⟨settled_of_not_variable rfl rfl,
      fun a ha => (settled_nodesAll ih a ha).mono (List.subset_append_left _ _)⟩

end Expressions

/-! ### Statements

The lists of expressions follow the tree, and so do the diagnostics, so they are settled part by
part. -/

/-- Expressions with the frames around them are settled. -/
def Settles (errors : List Diagnostic) (xs : List (Scope × Exp)) : Prop :=
  ∀ x ∈ xs, x.2.Settled errors x.1

section

variable {errors errors' : List Diagnostic} {xs ys : List (Scope × Exp)}

/-- No expressions are settled. -/
theorem Settles.nil : Settles errors [] :=
  List.forall_mem_nil _

/-- More diagnostics do no harm. -/
theorem Settles.mono (h : Settles errors xs) (hsub : errors ⊆ errors') : Settles errors' xs :=
  fun x hx => (h x hx).mono hsub

/-- The parts of a phrase with the diagnostics of each. -/
theorem Settles.append (h : Settles errors xs) (h' : Settles errors' ys) :
    Settles (errors ++ errors') (xs ++ ys) :=
  List.forall_mem_append.mpr ⟨h.mono (List.subset_append_left _ _),
    h'.mono (List.subset_append_right _ _)⟩

/-- The diagnostics of a phrase come first. -/
theorem Settles.ahead (h : Settles errors xs) : Settles (errors ++ errors') xs :=
  h.mono (List.subset_append_left _ _)

/-- The diagnostics of a phrase come last. -/
theorem Settles.behind (h : Settles errors' xs) : Settles (errors ++ errors') xs :=
  h.mono (List.subset_append_right _ _)

end

section Statements

variable {S : ScopeTable} {Γ : Scope} {names : List (String × Meaning)} {next : Int}

/-- The expressions in an analysed expression, with the frames around them. -/
theorem Exp.settles_nodesIn (h : S.Means Γ) (e : Exp) :
    Settles (e.bare.check S).errors ((e.bare.check S).exp.nodesIn Γ) :=
  List.forall_mem_map.mpr (Exp.settled_nodes h e)

/-- A change of the innermost frame. -/
theorem ScopeTable.Means.update (h : S.Means (names :: Γ)) {names' : List (String × Meaning)}
    {change : Frame → Option Frame} {T : ScopeTable} (hT : S.updateInner? change = some T)
    (hchange : ∀ f g, S.frames.head? = some f → f.Means names → change f = some g →
      g.Means names') :
    T.Means (names' :: Γ) := by
  obtain ⟨f, outer, hframes, hf, houter⟩ := h.frames_eq
  obtain ⟨f', outer', g, hframes', hg, rfl⟩ := ScopeTable.updateInner?_eq hT
  rw [hframes] at hframes'
  cases hframes'
  exact .cons (hchange f g (by rw [hframes]; rfl) hf hg) houter

/-- A table that takes a name. -/
theorem ScopeTable.Means.declare (h : S.Means (names :: Γ)) {x : String} {s : Symbol} {m : Meaning}
    (hs : s.Means m) {T : ScopeTable} (hT : S.declare? x s = some T) :
    T.Means ((names ++ [(x, m)]) :: Γ) :=
  h.update hT fun _ _ _ hf hg => hf.declare hs hg

/-- A table that completes a function. -/
theorem ScopeTable.Means.redefine (h : S.Means (names :: Γ)) {x : String} {known s : Symbol}
    (hknown : S.lookupInner x = some known) (hfun : known.isFunction = true)
    (hs : s.Means .function) {T : ScopeTable} (hT : S.redefine? x s = some T) :
    T.Means ((names ++ [(x, Meaning.function)]) :: Γ) := by
  refine h.update hT fun f g hhead hf hg => hf.redefine ?_ hfun hs hg
  rw [ScopeTable.lookupInner, hhead] at hknown
  exact hknown

/-- A table that has a name already. -/
theorem ScopeTable.Means.refuse (h : S.Means (names :: Γ)) {x : String} {m : Meaning}
    (hx : S.lookupInner x ≠ none) : S.Means ((names ++ [(x, m)]) :: Γ) := by
  obtain ⟨f, outer, hframes, hf, houter⟩ := h.frames_eq
  have hget : f.get? x ≠ none := by simpa [ScopeTable.lookupInner, hframes] using hx
  unfold ScopeTable.Means
  rw [hframes]
  exact .cons (hf.refuse hget) houter

/-- A table refuses a name only if it has it. -/
theorem ScopeTable.Means.lookupInner_ne_none (h : S.Means (names :: Γ)) {x : String} {s : Symbol}
    (hnone : S.declare? x s = none) : S.lookupInner x ≠ none := by
  obtain ⟨f, outer, hframes, hf, -⟩ := h.frames_eq
  have hinner : S.lookupInner x = f.get? x := by simp [ScopeTable.lookupInner, hframes]
  rw [hinner, ne_eq, ← Frame.declare?_isSome_iff hf.valid (s := s)]
  simpa [ScopeTable.declare?, ScopeTable.updateInner?, hframes] using hnone

/-- A declared variable adds its name, whether the table takes it or not. -/
theorem VarDecl.means_check (role : Role) (level : Nat) (next : Int) (h : S.Means (names :: Γ))
    (d : VarDecl) :
    (d.check role level S next).scopes.Means
      ((names ++ [(d.check role level S next).value.meaning]) :: Γ) := by
  cases hT : S.declare? d.name (.var d.name d.ty (d.place level next).layout) with
  | none =>
    simp only [VarDecl.check, hT, Option.getD_none]
    exact h.refuse (h.lookupInner_ne_none hT)
  | some T =>
    simp only [VarDecl.check, hT, Option.getD_some]
    exact h.declare (.var rfl) hT

/-- Declared variables add their names. Induction on the list. -/
theorem VarDecl.means_checkAll (role : Role) (level : Nat) (next : Int) (h : S.Means (names :: Γ))
    (ds : List VarDecl) :
    (VarDecl.checkAll role level S next ds).scopes.Means
      ((names ++ (VarDecl.checkAll role level S next ds).value.map VarDecl.meaning) :: Γ) := by
  induction ds generalizing S next names with
  | nil => simpa [VarDecl.checkAll] using h
  | cons d rest ih =>
    have hrest := ih (d.check role level S next).next (VarDecl.means_check role level next h d)
    rwa [List.append_assoc] at hrest

/-- The expressions in analysed statements, if those in each of them are settled. Induction on the
list. -/
theorem Stmt.settles_nodesAll {f : Enclosing} {body : List Stmt}
    (ih : ∀ s ∈ body, ∀ {next}, Settles (s.bare.check f S next).errors
      ((s.bare.check f S next).value.nodes VarDecl.meaning Γ)) :
    Settles (Stmt.checkAll f S next (Stmt.bareAll body)).errors
      (Stmt.nodesAll VarDecl.meaning Γ (Stmt.checkAll f S next (Stmt.bareAll body)).value) := by
  induction body generalizing next with
  | nil => exact .nil
  | cons s rest hrest =>
    exact (ih s List.mem_cons_self).append (hrest fun a ha => ih a (List.mem_cons_of_mem s ha))

/-- The expressions in an analysed statement. -/
theorem Stmt.settles_nodes {f : Enclosing} (h : S.Means Γ) (s : Stmt) :
    Settles (s.bare.check f S next).errors
      ((s.bare.check f S next).value.nodes VarDecl.meaning Γ) := by
  induction s using Stmt.induction generalizing S Γ next with
  | exp p e => exact e.settles_nodesIn h
  | block p ds body ih =>
    have hframe := VarDecl.means_checkAll .var frameLevel next h.enter (ds.map VarDecl.bare)
    exact .behind (Stmt.settles_nodesAll fun s hs => ih s hs hframe)
  | ifThen p t a ih => exact ((t.settles_nodesIn h).ahead).append (ih h)
  | ifElse p t a b iha ihb => exact (((t.settles_nodesIn h).ahead).append (iha h)).append (ihb h)
  | whileDo p t b ih => exact ((t.settles_nodesIn h).ahead).append (ih h)
  | ret p v =>
    cases v with
    | none => exact .nil
    | some e => exact (e.settles_nodesIn h).ahead

end Statements

/-! ### Functions and programs

The outermost frame grows from declaration to declaration. A function is in its own scope, and those
of its parameters and its body are inside. -/

section Programs

variable {S : ScopeTable} {names : List (String × Meaning)} {next : Int}

/-- A declared function adds its name, whether the table takes it, knows it or refuses it. -/
theorem FunDecl.means_announce (h : S.Means [names]) (f : FunDecl) :
    ((f.announce? S).getD S).Means [names ++ [(f.name, .function)]] := by
  unfold FunDecl.announce?
  cases hknown : S.lookupInner f.name with
  | none =>
    cases hT : S.declare? f.name f.symbol with
    | none => exact absurd hknown (h.lookupInner_ne_none hT)
    | some T => exact h.declare .function hT
  | some known =>
    have hrefuse : S.Means [names ++ [(f.name, .function)]] := h.refuse (by simp [hknown])
    simp only
    split
    · rename_i hsame
      split
      · exact hrefuse
      · split
        · exact hrefuse
        · cases hT : S.redefine? f.name f.symbol with
          | none => exact hrefuse
          | some T => exact h.redefine hknown (Bool.and_eq_true_iff.mp hsame).1 .function hT
    · exact hrefuse

/-- The expressions in an analysed function. -/
theorem FunDecl.settles_nodes (next : Int) (h : S.Means [names]) {f : FunDecl} {b : Block}
    (hbody : f.body = some b.bare) :
    Settles (f.check S next).errors
      ((Decl.function (f.check S next).value).nodes VarDecl.meaning
        [names ++ [(f.name, .function)]]) := by
  have hparams := VarDecl.means_checkAll .param frameLevel firstFrameOffset
    (FunDecl.means_announce h f).enter f.params
  simp only [FunDecl.check, hbody]
  exact (Settles.behind (Stmt.settles_nodes hparams b.toStmt)).ahead

/-- The analysis keeps the name of a function. -/
theorem FunDecl.name_check {next : Int} {f : FunDecl} : (f.check S next).value.name = f.name := by
  unfold FunDecl.check
  cases f.body with
  | none => rfl
  | some b => rfl

/-- The outermost frame after a declaration, and the name that the declaration adds. -/
theorem Decl.means_check (next : Int) (h : S.Means [names]) (d : Decl) :
    (d.check S next).scopes.Means [names ++ [(d.check S next).value.meaning]] := by
  cases d with
  | var d => exact VarDecl.means_check .var globalLevel next h d
  | function f =>
    simp only [Decl.check, Decl.meaning, FunDecl.name_check, FunDecl.scopes_check.1]
    exact FunDecl.means_announce h f

/-- The expressions in analysed declarations. -/
theorem Decl.settles_nodesAll (next : Int) (h : S.Means [names]) (ds : List Decl) :
    Settles (Decl.checkAll S next (ds.map Decl.bare)).errors
      (Decl.scopedAll names (Decl.checkAll S next (ds.map Decl.bare)).value) := by
  induction ds generalizing S names next with
  | nil => exact .nil
  | cons d rest ih =>
    refine Settles.append ?_ (ih _ (Decl.means_check next h d.bare))
    cases d with
    | var d => exact .nil
    | function f =>
      simp only [Decl.bare, Decl.check, Decl.meaning, FunDecl.name_check]
      cases hbody : f.body with
      | none =>
        have hnone : (f.bare.check S next).value.body = none := by
          simp only [FunDecl.check, FunDecl.bare, hbody, Option.map_none]
        simp only [Decl.nodes, hnone]
        exact .nil
      | some b =>
        have hbare : f.bare.body = some b.bare := by rw [FunDecl.bare, hbody, Option.map_some]
        exact FunDecl.settles_nodes next h hbare

end Programs

/-- The names that every program starts with. -/
theorem ScopeTable.means_initial :
    ScopeTable.initial.Means [[("input", .function), ("output", .function)]] := by
  have hbare : ScopeTable.bare.Means [[]] := .cons Frame.means_empty .nil
  have hin : ScopeTable.bare.declare? "input" (.function "input" .int [] true) =
      some (ScopeTable.bare.declare "input" (.function "input" .int [] true)) := rfl
  have hout : (ScopeTable.bare.declare "input" (.function "input" .int [] true)).declare? "output"
      (.function "output" .void [⟨"x", .scalar .int⟩] true) = some ScopeTable.initial := rfl
  exact (hbare.declare .function hin).declare .function hout

/-! ### What is left of a scope

The table of scopes goes from phrase to phrase, and what a phrase leaves in it is what the next one
finds. -/

/-- A function leaves the scopes as they are, or adds its name, or completes it. -/
theorem FunDecl.scopes_visit_cases (S : ScopeTable) (next : Int) (f : FunDecl) :
    (f.visit S next).scopes = S ∨
      S.declare? f.name f.symbol = some (f.visit S next).scopes ∨
      S.redefine? f.name f.symbol = some (f.visit S next).scopes := by
  rw [FunDecl.visit_eq, FunDecl.scopes_check.1]
  cases hT : f.announce? S with
  | none => exact Or.inl rfl
  | some T =>
    rw [Option.getD_some]
    unfold FunDecl.announce? at hT
    split at hT
    · exact Or.inr (Or.inl hT)
    · split at hT
      · split at hT
        · exact Or.inl (Option.some.inj hT).symm
        · split at hT
          · cases hT
          · exact Or.inr (Or.inr hT)
      · cases hT

/-- The analysis has resolved the variables of a program. -/
structure Analysis.Resolves (a : Analysis) : Prop where
  /-- Every expression has a type, and its variable has the storage of its declaration. -/
  settled : ∀ x ∈ a.program.scoped, x.2.Settled a.errors x.1
  /-- Every declaration has storage, also that of a parameter of a prototype. -/
  placed : ∀ d ∈ a.program.variables, d.layout.isSome = true

/-- The analysis resolves the names of a parsed program lexically, also when it finds faults. A
statement leaves the table of scopes as it was, in whatever table it is analysed, and so does the
body of a function; a function leaves nothing but its own name behind. -/
theorem analyze_resolves {source : String} {tree : Program} (h : parse source = .ok tree)
    (trace : Bool) :
    (analyze tree trace).program.bare = tree ∧ (analyze tree trace).Resolves ∧
      (∀ f S next (s : Stmt), (s.visit f S next).scopes = S) ∧
      (∀ f S next (b : Block), (b.visit f S next).scopes = S) ∧
      ∀ S next (f : FunDecl), (f.visit S next).scopes = S ∨
        S.declare? f.name f.symbol = some (f.visit S next).scopes ∨
        S.redefine? f.name f.symbol = some (f.visit S next).scopes := by
  have hbare := bare_of_parse h
  refine ⟨(bare_analyze tree trace).trans hbare, ⟨?_, ?_⟩,
    fun f S next s => by rw [s.visit_eq], fun f S next b => by rw [b.visit_eq],
    FunDecl.scopes_visit_cases⟩
  · have hdecls : tree.decls.map Decl.bare = tree.decls := congrArg Program.decls hbare
    have hsettles := Decl.settles_nodesAll 0 ScopeTable.means_initial tree.decls
    rw [hdecls] at hsettles
    rw [analyze_eq]
    exact hsettles
  · obtain ⟨large, hstacked, -⟩ := stacked_analyze tree trace
    exact hstacked.placed

/-- Shadowing at several levels, a name that is declared twice, a function used as a variable, and a
name that is not declared. -/
def shadowedSource : String :=
  "int x; int f(int x) \x7b int x; \x7b bool x; int x[3]; x = true; \x7d return x + f + y; \x7d " ++
    "void main(void) \x7b x = 1; \x7d"

/-- The variables in the expressions of a program, with the offsets that were found for them. -/
def offsetsOf? (source : String) : Option (List (String × Option Int)) :=
  (parse source).toOption.map fun tree =>
    ((analyze tree false).program.scoped.filterMap fun x => x.2.use?).map fun v =>
      (v.name, v.layout.map Layout.offset)

theorem analyze_resolves_shadowed : ∃ tree, parse shadowedSource = .ok tree ∧
    offsetsOf? shadowedSource =
      some [("x", some (-4)), ("x", some (-3)), ("f", none), ("y", none), ("x", some 0)] ∧
    (analyze tree false).program.bare = tree ∧ (analyze tree false).Resolves := by
  have hascii : Ascii shadowedSource _ := .append ⟨rfl, rfl⟩ ⟨rfl, rfl⟩
  have hoffsets : offsetsOf? shadowedSource =
      some [("x", some (-4)), ("x", some (-3)), ("f", none), ("y", none), ("x", some 0)] := by
    rw [offsetsOf?, parse, hascii.scan_eq]
    decide +kernel
  obtain ⟨tree, hparse, -⟩ := Option.map_eq_some_iff.mp hoffsets
  have h := Except.eq_ok_of_toOption hparse
  obtain ⟨hbare, hresolves, -⟩ := analyze_resolves h false
  exact ⟨tree, h, hoffsets, hbare, hresolves⟩

end MiniC
