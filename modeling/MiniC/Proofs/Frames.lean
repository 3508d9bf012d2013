import MiniC.Proofs.Resolution

/-!
# The frames of accepted functions

The parameters and locals of an accepted function lie in the cells of its frame, and the end of the
frame is below all of them. A variable in an expression of the function is one of them, or a global
one; no other cell of a frame is named by a program.

* `FunDecl.expressions`: every expression in a function
* `VarUse.PlacedIn`, `Exp.PlacedIn`: variables that belong to a function, or are global
* `FunDecl.Framed`: where the variables of a function are
* `analyze_framed`: the functions of an accepted program
-/

namespace MiniC

/-! ### Expressions in expressions

The phrases that the generator visits are the expressions of a function and all their parts. Each of
them is listed with the scope that it is in. -/

namespace Exp

/-- An expression is one of its own parts. -/
theorem self_mem_nodes (e : Exp) : e ∈ e.nodes := by
  cases e <;> exact List.mem_cons_self

/-- A part of the arguments is a part of one of them. -/
theorem mem_nodesAll {args : List Exp} {a : Exp} :
    a ∈ Exp.nodesAll args ↔ ∃ e ∈ args, a ∈ e.nodes := by
  induction args with
  | nil => simp [Exp.nodesAll]
  | cons e rest ih => simp [Exp.nodesAll, ih]

/-- What is in a part of an expression is in the expression. -/
theorem nodes_subset {e a : Exp} (h : a ∈ e.nodes) : a.nodes ⊆ e.nodes := by
  induction e using Exp.induction with
  | int p n => rw [List.mem_singleton.mp h]; exact List.Subset.refl _
  | bool p b => rw [List.mem_singleton.mp h]; exact List.Subset.refl _
  | nil p => rw [List.mem_singleton.mp h]; exact List.Subset.refl _
  | var t v => rw [List.mem_singleton.mp h]; exact List.Subset.refl _
  | unary p t op e ih =>
    rcases List.mem_cons.mp h with rfl | h
    · exact List.Subset.refl _
    · exact List.subset_cons_of_subset _ (ih h)
  | element t v i ih =>
    rcases List.mem_cons.mp h with rfl | h
    · exact List.Subset.refl _
    · exact List.subset_cons_of_subset _ (ih h)
  | assign p t v e ih =>
    rcases List.mem_cons.mp h with rfl | h
    · exact List.Subset.refl _
    · exact List.subset_cons_of_subset _ (ih h)
  | binary p t op l r ihl ihr =>
    rcases List.mem_cons.mp h with rfl | h
    · exact List.Subset.refl _
    · rcases List.mem_append.mp h with h | h
      · exact List.subset_cons_of_subset _ (List.subset_append_of_subset_left _ (ihl h))
      · exact List.subset_cons_of_subset _ (List.subset_append_of_subset_right _ (ihr h))
  | assignElement p t v i e ihi ihe =>
    rcases List.mem_cons.mp h with rfl | h
    · exact List.Subset.refl _
    · rcases List.mem_append.mp h with h | h
      · exact List.subset_cons_of_subset _ (List.subset_append_of_subset_left _ (ihi h))
      · exact List.subset_cons_of_subset _ (List.subset_append_of_subset_right _ (ihe h))
  | call p t f args ih =>
    rcases List.mem_cons.mp h with rfl | h
    · exact List.Subset.refl _
    · obtain ⟨e, he, ha⟩ := mem_nodesAll.mp h
      exact fun b hb => List.mem_cons_of_mem _ (mem_nodesAll.mpr ⟨e, he, ih e he ha hb⟩)

end Exp

/-- The expressions in a function. -/
def FunDecl.expressions (f : FunDecl) : List Exp :=
  ((Decl.function f).nodes VarDecl.meaning []).map Prod.snd

/-! ### Variables that are named

A variable that is named belongs to the function around it or is global. This is so for a scope if
it is so for all its names, and scopes are made of declarations. -/

/-- A variable is global, or has the storage of one of these declarations, which has its name. -/
def VarUse.PlacedIn (ds : List VarDecl) (v : VarUse) : Prop :=
  ∃ l, v.layout = some l ∧
    (l.isGlobal = true ∨ ∃ d ∈ ds, d.name = v.name ∧ d.layout = some l)

/-- The same for every variable in an expression. -/
def Exp.PlacedIn (ds : List VarDecl) (e : Exp) : Prop :=
  ∀ a ∈ e.nodes, ∀ v, a.use? = some v → v.PlacedIn ds

/-- The declarations in the frames around a phrase are global, or they are among these ones and are
found under their own names. -/
def Scope.PlacedIn (ds : List VarDecl) (Γ : Scope) : Prop :=
  ∀ names ∈ Γ, ∀ x d l, (x, Meaning.var d) ∈ names → d.layout = some l →
    l.isGlobal = true ∨ d ∈ ds ∧ d.name = x

namespace Scope.PlacedIn

variable {Γ : Scope} {ds : List VarDecl}

/-- A scope of global names alone belongs to every function. -/
theorem mono (h : Γ.PlacedIn []) (ds : List VarDecl) : Γ.PlacedIn ds := by
  intro names hnames x d l hx hl
  rcases h names hnames x d l hx hl with hglobal | ⟨hd, -⟩
  · exact Or.inl hglobal
  · cases hd

/-- One more block of the function. -/
theorem frame (h : Γ.PlacedIn ds) {decls : List VarDecl} (hdecls : decls ⊆ ds) :
    Scope.PlacedIn ds (decls.map VarDecl.meaning :: Γ) := by
  refine List.forall_mem_cons.mpr ⟨?_, h⟩
  intro x d l hx _
  obtain ⟨d', hd, heq⟩ := List.mem_map.mp hx
  obtain ⟨rfl, hvar⟩ := Prod.mk.inj heq
  cases hvar
  exact Or.inr ⟨hdecls hd, rfl⟩

/-- One more global name. -/
theorem snoc {names : List (String × Meaning)} (h : Scope.PlacedIn ds [names]) {x : String}
    {m : Meaning} (hm : ∀ d l, m = .var d → d.layout = some l → l.isGlobal = true) :
    Scope.PlacedIn ds [names ++ [(x, m)]] := by
  refine List.forall_mem_singleton.mpr fun y d l hy hl => ?_
  rcases List.mem_append.mp hy with hy | hy
  · exact h names List.mem_cons_self y d l hy hl
  · obtain ⟨-, hvar⟩ := Prod.mk.inj (List.mem_singleton.mp hy)
    exact Or.inl (hm d l hvar.symm hl)

/-- What a name stands for in such a scope is global or belongs to the function. -/
theorem of_find (h : Γ.PlacedIn ds) {x : String} {d : VarDecl} {l : Layout}
    (hfind : Γ.find x = some (.var d)) (hl : d.layout = some l) :
    l.isGlobal = true ∨ ∃ d ∈ ds, d.name = x ∧ d.layout = some l := by
  obtain ⟨names, hnames, hlookup⟩ := List.exists_of_findSome?_eq_some hfind
  obtain ⟨before, after, hsplit, -⟩ := List.lookup_eq_some_iff.mp hlookup
  have hmem : (x, Meaning.var d) ∈ names := by
    rw [hsplit]
    exact List.mem_append_right _ List.mem_cons_self
  refine (h names hnames x d l hmem hl).imp_right ?_
  rintro ⟨hd, hname⟩
  exact ⟨d, hd, hname, hl⟩

end Scope.PlacedIn

/-! ### Accepted phrases

In an accepted phrase every name is found, and stands for one of the declarations of its scope. -/

section Phrases

variable {S : ScopeTable} {Γ : Scope} {ds : List VarDecl}

/-- A name that is accepted has the layout of its declaration. -/
theorem VarUse.placedIn_check (h : S.Means Γ) (hΓ : Γ.PlacedIn ds) {v : VarUse}
    (hok : (v.check S).errors = []) : (v.check S).var.PlacedIn ds := by
  have hrel := h.lookup v.name
  unfold VarUse.check at hok ⊢
  generalize S.lookup v.name = o at hrel hok ⊢
  generalize hm : Γ.find v.name = m at hrel
  cases hrel with
  | none => cases hok
  | some hs =>
    cases hs with
    | var hd => exact ⟨_, rfl, hΓ.of_find hm hd⟩
    | function => cases hok

/-- The same of an indexed name, as in `VarUse.placedIn_check`. -/
theorem VarUse.placedIn_checkIndexed (h : S.Means Γ) (hΓ : Γ.PlacedIn ds) {v : VarUse} {index : Ty}
    (hok : (v.checkIndexed S index).errors = []) : (v.checkIndexed S index).var.PlacedIn ds := by
  have hrel := h.lookup v.name
  unfold VarUse.checkIndexed at hok ⊢
  generalize S.lookup v.name = o at hrel hok ⊢
  generalize hm : Γ.find v.name = m at hrel
  cases hrel with
  | none => cases hok
  | some hs =>
    cases hs with
    | var hd => exact ⟨_, rfl, hΓ.of_find hm hd⟩
    | function => cases hok

/-- An expression that names no variable itself. -/
theorem Exp.placedIn_of_use?_eq_none {e : Exp} (h : e.use? = none) :
    ∀ v, e.use? = some v → v.PlacedIn ds := by
  intro v hv
  rw [h] at hv
  cases hv

/-- The variables in arguments, if it is so for each of them. -/
theorem Exp.placedIn_nodesAll {args : List Exp}
    (ih : ∀ a ∈ args, (a.check S).errors = [] → (a.check S).exp.PlacedIn ds)
    (hok : (Exp.checkAll S args).flatMap TypedExp.errors = []) :
    ∀ a ∈ Exp.nodesAll ((Exp.checkAll S args).map TypedExp.exp), ∀ v, a.use? = some v →
      v.PlacedIn ds := by
  induction args with
  | nil =>
    intro a ha
    cases ha
  | cons e rest hrest =>
    simp only [Exp.checkAll, List.flatMap_cons, List.append_eq_nil_iff, List.map_cons,
      Exp.nodesAll, List.forall_mem_append] at hok ⊢
    exact ⟨ih e List.mem_cons_self hok.1,
      hrest (fun a ha => ih a (List.mem_cons_of_mem e ha)) hok.2⟩

/-- The variables in an accepted expression. -/
theorem Exp.placedIn_check (h : S.Means Γ) (hΓ : Γ.PlacedIn ds) {e : Exp}
    (hok : (e.check S).errors = []) : (e.check S).exp.PlacedIn ds := by
  unfold Exp.PlacedIn
  induction e using Exp.induction with
  | int p n => exact List.forall_mem_singleton.mpr (placedIn_of_use?_eq_none rfl)
  | bool p b => exact List.forall_mem_singleton.mpr (placedIn_of_use?_eq_none rfl)
  | nil p => exact List.forall_mem_singleton.mpr (placedIn_of_use?_eq_none rfl)
  | unary p t op e ih =>
    simp only [Exp.check, List.append_eq_nil_iff, Exp.nodes, List.forall_mem_cons] at hok ⊢
    exact ⟨placedIn_of_use?_eq_none rfl, ih hok.1⟩
  | binary p t op l r ihl ihr =>
    simp only [Exp.check, List.append_eq_nil_iff, Exp.nodes, List.forall_mem_cons,
      List.forall_mem_append] at hok ⊢
    exact ⟨placedIn_of_use?_eq_none rfl, ihl hok.1.1, ihr hok.1.2⟩
  -- only here a variable is named
  | var t v =>
    refine List.forall_mem_singleton.mpr ?_
    rintro _ ⟨⟩
    exact VarUse.placedIn_check h hΓ hok
  | element t v i ih =>
    simp only [Exp.check, List.append_eq_nil_iff, Exp.nodes, List.forall_mem_cons] at hok ⊢
    refine ⟨?_, ih hok.1⟩
    rintro _ ⟨⟩
    exact VarUse.placedIn_checkIndexed h hΓ hok.2
  | assign p t v e ih =>
    simp only [Exp.check, List.append_eq_nil_iff, Exp.nodes, List.forall_mem_cons] at hok ⊢
    refine ⟨?_, ih hok.1.2⟩
    rintro _ ⟨⟩
    exact VarUse.placedIn_check h hΓ hok.1.1
  | assignElement p t v i e ihi ihe =>
    simp only [Exp.check, List.append_eq_nil_iff, Exp.nodes, List.forall_mem_cons,
      List.forall_mem_append] at hok ⊢
    refine ⟨?_, ihi hok.1.1.1, ihe hok.1.2⟩
    rintro _ ⟨⟩
    exact VarUse.placedIn_checkIndexed h hΓ hok.1.1.2
  | call p t f args ih =>
    simp only [Exp.check, List.append_eq_nil_iff, Exp.nodes, List.forall_mem_cons] at hok ⊢
    exact ⟨placedIn_of_use?_eq_none rfl, Exp.placedIn_nodesAll ih hok.1⟩

/-- The variables of an expression, listed with its scope. -/
theorem Exp.placedIn_nodesIn {e : Exp} (h : e.PlacedIn ds) (Δ : Scope) :
    ∀ x ∈ e.nodesIn Δ, x.2.PlacedIn ds := by
  exact List.forall_mem_map.mpr fun a ha b hb => h b (Exp.nodes_subset ha hb)

/-- The variables in statements that follow each other, if it is so for each of them. -/
theorem Stmt.placedIn_nodesAll {f : Enclosing} {next : Int} {body : List Stmt} {Δ : Scope}
    (ih : ∀ s ∈ body, ∀ {next}, (s.check f S next).errors = [] →
      (s.check f S next).value.variables ⊆ ds →
        ∀ x ∈ (s.check f S next).value.nodes VarDecl.meaning Δ, x.2.PlacedIn ds)
    (hok : (Stmt.checkAll f S next body).errors = [])
    (hds : Stmt.variablesAll (Stmt.checkAll f S next body).value ⊆ ds) :
    ∀ x ∈ Stmt.nodesAll VarDecl.meaning Δ (Stmt.checkAll f S next body).value, x.2.PlacedIn ds := by
  induction body generalizing next with
  | nil => exact List.forall_mem_nil _
  | cons s rest hrest =>
    simp only [Stmt.checkAll, List.append_eq_nil_iff, Stmt.variablesAll, List.append_subset,
      Stmt.nodesAll, List.forall_mem_append] at hok hds ⊢
    exact ⟨ih s List.mem_cons_self hok.1 hds.1,
      hrest (fun a ha => ih a (List.mem_cons_of_mem s ha)) hok.2 hds.2⟩

/-- The variables in the expressions of an accepted statement, which may be its own. -/
theorem Stmt.placedIn_nodes {f : Enclosing} {next : Int} (h : S.Means Γ) (hΓ : Γ.PlacedIn ds)
    {s : Stmt} (hok : (s.check f S next).errors = [])
    (hds : (s.check f S next).value.variables ⊆ ds) (Δ : Scope) :
    ∀ x ∈ (s.check f S next).value.nodes VarDecl.meaning Δ, x.2.PlacedIn ds := by
  induction s using Stmt.induction generalizing S Γ next Δ with
  | exp p e => exact Exp.placedIn_nodesIn (Exp.placedIn_check h hΓ hok) Δ
  | block p decls body ih =>
    simp only [Stmt.check, List.append_eq_nil_iff, Stmt.variables, List.append_subset] at hok hds
    have hframe := VarDecl.means_checkAll .var frameLevel next h.enter decls
    exact Stmt.placedIn_nodesAll
      (fun s hs _ hok' hds' => ih s hs hframe (hΓ.frame hds.1) hok' hds' _) hok.2 hds.2
  | ifThen p t a ih =>
    simp only [Stmt.check, List.append_eq_nil_iff, Stmt.variables, Stmt.nodes,
      List.forall_mem_append] at hok hds ⊢
    exact ⟨Exp.placedIn_nodesIn (Exp.placedIn_check h hΓ hok.1.1) Δ, ih h hΓ hok.2 hds Δ⟩
  | ifElse p t a b iha ihb =>
    simp only [Stmt.check, List.append_eq_nil_iff, Stmt.variables, List.append_subset, Stmt.nodes,
      List.forall_mem_append] at hok hds ⊢
    exact ⟨⟨Exp.placedIn_nodesIn (Exp.placedIn_check h hΓ hok.1.1.1) Δ, iha h hΓ hok.1.2 hds.1 Δ⟩,
      ihb h hΓ hok.2 hds.2 Δ⟩
  | whileDo p t b ih =>
    simp only [Stmt.check, List.append_eq_nil_iff, Stmt.variables, Stmt.nodes,
      List.forall_mem_append] at hok hds ⊢
    exact ⟨Exp.placedIn_nodesIn (Exp.placedIn_check h hΓ hok.1.1) Δ, ih h hΓ hok.2 hds Δ⟩
  | ret p v =>
    cases v with
    | none => exact List.forall_mem_nil _
    | some e =>
      simp only [Stmt.check, List.append_eq_nil_iff] at hok
      exact Exp.placedIn_nodesIn (Exp.placedIn_check h hΓ hok.1) Δ

end Phrases

/-! ### Functions and programs

A function starts with the global scope and its parameters. So there are only its own declarations
and global ones. -/

/-- Where the variables of a function are. -/
structure FunDecl.Framed (f : FunDecl) : Prop where
  /-- The frame ends below the cells of the return address and of the caller's frame base. -/
  below : f.frameEnd ≤ firstFrameOffset
  placed : ∀ d ∈ f.variables, ∃ offset, d.layout = some ⟨frameLevel, offset, d.shape.storage⟩ ∧
    f.frameEnd < offset
  named : ∀ e ∈ f.expressions, e.PlacedIn f.variables

/-- Declarations that all fit lie above the last offset. -/
theorem VarDecl.Stacked.above {level : Nat} {next low : Int} {ds : List VarDecl}
    (h : Stacked level next ds [] low) (hnext : minOffset ≤ next) :
    ∀ d ∈ ds, ∃ offset, d.layout = some ⟨level, offset, d.shape.storage⟩ ∧ low < offset := by
  generalize hlarge : ([] : List VarDecl) = large at h
  induction h with
  | nil next => exact List.forall_mem_nil _
  | @fits next low d ds large hfits hlayout hrest ih =>
    have hle := (hrest.bounds hfits).2
    have hcells : (d.cells : Int) = d.shape.elements + 1 := rfl
    exact List.forall_mem_cons.mpr ⟨⟨_, hlayout, by omega⟩, ih hfits hlarge⟩
  | tooLarge hlarge' hlayout hrest ih => cases hlarge

section Programs

variable {S : ScopeTable} {names : List (String × Meaning)} {next : Int}

/-- The variables of an accepted function lie in its frame. -/
theorem FunDecl.framed_check (h : S.Means [names]) (hnames : Scope.PlacedIn [] [names])
    {f : FunDecl} (hok : (f.check S next).errors = []) : (f.check S next).value.Framed := by
  obtain ⟨large, hstacked, hlarge⟩ := f.stacks_check S next
  rw [hok, List.filter_nil] at hlarge
  obtain rfl := List.map_eq_nil_iff.mp hlarge.symm
  have hmin : minOffset ≤ firstFrameOffset := by decide
  refine ⟨(hstacked.bounds hmin).2, hstacked.above hmin, ?_⟩
  have hown : Scope.PlacedIn (f.check S next).value.variables [names ++ [(f.name, .function)]] :=
    (hnames.mono _).snoc (by rintro _ _ ⟨⟩)
  have hparams := VarDecl.means_checkAll .param frameLevel firstFrameOffset
    (FunDecl.means_announce h f).enter f.params
  refine List.forall_mem_map.mpr ?_
  cases hbody : f.body with
  | none =>
    simp only [FunDecl.check, hbody, Decl.nodes, Option.map_none, Option.getD_none]
    exact List.forall_mem_nil _
  | some b =>
    simp only [FunDecl.check, hbody, List.append_eq_nil_iff] at hok hown ⊢
    simp only [FunDecl.variables, Option.map_some, Option.getD_some] at hown ⊢
    exact Stmt.placedIn_nodes (s := b.toStmt) hparams
      (hown.frame (List.subset_append_left _ _)) hok.1.2 (List.subset_append_right _ _) _

/-- A declared variable of the outermost level is global. -/
theorem VarDecl.isGlobal_check {d d' : VarDecl} {l : Layout}
    (hd : Meaning.var (d.check .var globalLevel S next).value = .var d')
    (hl : d'.layout = some l) : l.isGlobal = true := by
  cases hd
  simp only [VarDecl.check, VarDecl.place, Option.some.injEq] at hl
  split at hl <;> rw [← hl] <;> rfl

/-- The functions among accepted declarations, by induction on the declarations. -/
theorem Decl.framed_checkAll (h : S.Means [names]) (hnames : Scope.PlacedIn [] [names])
    {ds : List Decl} (hok : (Decl.checkAll S next ds).errors = []) :
    ∀ f, .function f ∈ (Decl.checkAll S next ds).value → f.Framed := by
  induction ds generalizing S names next with
  | nil =>
    intro f hf
    cases hf
  | cons d rest ih =>
    simp only [Decl.checkAll, List.append_eq_nil_iff, List.mem_cons] at hok ⊢
    have hmeans := Decl.means_check next h d
    cases d with
    | var d =>
      rintro f (hf | hf)
      · cases hf
      · exact ih hmeans (hnames.snoc fun _ _ => VarDecl.isGlobal_check) hok.2 f hf
    | function g =>
      rintro f (hf | hf)
      · cases hf
        exact FunDecl.framed_check h hnames hok.1
      · exact ih hmeans (hnames.snoc (by rintro _ _ ⟨⟩)) hok.2 f hf

/-- The functions of an accepted program. -/
theorem analyze_framed {tree : Program} {trace : Bool} (hok : (analyze tree trace).errors = []) :
    ∀ f ∈ (analyze tree trace).program.functions, f.Framed := by
  intro f hf
  have hmem := Program.mem_functions.mp hf
  rw [decls_analyze] at hmem
  rw [errors_analyze] at hok
  refine Decl.framed_checkAll ScopeTable.means_initial ?_ hok f hmem
  refine List.forall_mem_singleton.mpr fun x d l hx _ => ?_
  simp at hx

end Programs

end MiniC
