import Mathlib.Data.List.Pairwise
import MiniC.Proofs.Typing.Phrases

/-!
# The analysis decides the type system

Functions may be declared again, so the outermost frame is compared with the list of all
declarations before a point: the table knows one symbol for each name, and whether one of the
declarations had a body. With that every declaration is accepted exactly when the rules allow it,
and what the analysis records in an accepted program are the types that the rules give.

* `ScopeTable.Outermost`: what a table knows of the declarations so far
* `FunDecl.announce?_isSome_iff`: when a function may be declared again
* `Decl.checkAll_eq_nil_iff`: when declarations are accepted
* `analyze_decides`: whole programs, with the types that are recorded in them
-/

namespace MiniC

/-! ### Functions

The typing rules look at the declarations before a function, all of them; the table keeps one symbol
for each name. They say the same as long as the declarations of a name fit together, and this is
what `Outermost` records. -/

/-- The body of a function is analysed like a block. -/
theorem Block.errors_check {f : Enclosing} {S : ScopeTable} {next : Int} {b : Block} :
    (b.check f S next).errors = (b.toStmt.check f S next).errors := by
  simp only [Block.check, Block.toStmt, Stmt.check]

/-- The body of a function returns like a block. -/
theorem Block.returns_check {f : Enclosing} {S : ScopeTable} {next : Int} {b : Block} :
    (b.check f S next).returns = (b.toStmt.check f S next).returns := by
  simp only [Block.check, Block.toStmt, Stmt.check]

/-- The outermost names, with what a table knows of them before functions are entered. -/
structure ScopeTable.Outermost (S : ScopeTable) (H : List Header) : Prop where
  valid : S.Valid
  single : S.IsGlobal
  lookup : ∀ x, (S.lookup x).map Symbol.entity = (H.map Header.binding).lookup x
  named : ∀ x s, S.lookup x = some s → s.name = x
  /-- A function is defined when one of its declarations has a body. -/
  defined : ∀ x n r ps d, S.lookup x = some (.function n r ps d) →
    (d = true ↔ ∃ h ∈ H, h.name = x ∧ h.hasBody = true)
  compatible : H.Pairwise Header.Compatible
  output : (H.map Header.binding).lookup "output" = some (.function .void [.int])

namespace Header

variable {H : List Header} {g : Header}

/-- A name that is found is that of one of the declarations. -/
theorem exists_of_lookup {x : String} {e : Entity} (h : (H.map binding).lookup x = some e) :
    ∃ a ∈ H, a.name = x ∧ a.entity = e := by
  obtain ⟨before, after, hsplit, -⟩ := List.lookup_eq_some_iff.mp h
  obtain ⟨a, ha, heq⟩ := List.mem_map.mp (by rw [hsplit]; simp : (x, e) ∈ H.map binding)
  cases heq
  exact ⟨a, ha, rfl, rfl⟩

/-- A name is new if no declaration has it. -/
theorem lookup_eq_none_iff {x : String} :
    (H.map binding).lookup x = none ↔ ∀ a ∈ H, a.name ≠ x := by
  simp only [List.lookup_eq_none_iff, List.forall_mem_map, binding, bne_iff_ne]
  exact forall₂_congr fun a _ => ne_comm

/-- All declarations of a name say the same. -/
theorem lookup_of_mem (hH : H.Pairwise Compatible) {a : Header} (ha : a ∈ H) :
    (H.map binding).lookup a.name = some a.entity := by
  cases hlookup : (H.map binding).lookup a.name with
  | none => exact absurd rfl (lookup_eq_none_iff.mp hlookup a ha)
  | some e =>
    obtain ⟨b, hb, hname, rfl⟩ := exists_of_lookup hlookup
    have : Std.Symm fun a b : Header => a.name = b.name → a.entity = b.entity :=
      ⟨fun a b h hname => (h hname.symm).symm⟩
    have hsame : H.Pairwise fun a b => a.name = b.name → a.entity = b.entity :=
      hH.imp fun h hname => (h hname).1
    rw [hsame.forall_of_forall (fun a _ _ => rfl) hb ha hname]

/-- One more compatible declaration makes its own name known, and changes no other. -/
theorem lookup_snoc (hg : ∀ a ∈ H, a.Compatible g) (x : String) :
    ((H ++ [g]).map binding).lookup x =
      if g.name = x then some g.entity else (H.map binding).lookup x := by
  rw [List.map_append, List.lookup_append]
  split
  · rename_i hx
    subst hx
    cases hlookup : (H.map binding).lookup g.name with
    | none => simp [binding]
    | some e =>
      obtain ⟨a, ha, hname, rfl⟩ := exists_of_lookup hlookup
      simp [(hg a ha hname).1]
  · rename_i hx
    simp [binding, List.lookup_cons, beq_eq_false_iff_ne.mpr (Ne.symm hx)]

end Header

namespace ScopeTable.Outermost

variable {S T : ScopeTable} {H : List Header}

/-- A table of the outermost names reads as their context. -/
theorem reads (h : S.Outermost H) : S.Reads [H.map Header.binding] := by
  obtain ⟨f, hf⟩ := h.single
  have hget : ∀ x, f.get? x = S.lookup x := by
    intro x
    rw [ScopeTable.lookup_eq hf]
    simp [ScopeTable.lookup]
  refine ⟨?_, ?_⟩
  · rw [hf]
    refine .cons ⟨h.valid f (by simp [hf]), ?_, ?_⟩ .nil
    · intro x
      rw [hget, h.lookup]
    · intro x s hs
      rw [hget] at hs
      exact h.named x s hs
  · intro result params hfind
    rw [TypeContext.find_cons, h.output] at hfind
    cases hfind
    rfl

/-- One more declaration: its name stands for a symbol that says the same. -/
theorem extend (h : S.Outermost H) {g : Header} {s : Symbol} (hg : ∀ a ∈ H, a.Compatible g)
    (hvalid : T.Valid) (hsingle : T.IsGlobal) (hname : s.name = g.name)
    (hentity : s.entity = g.entity)
    (hdefined : ∀ n r ps d, s = .function n r ps d →
      (d = true ↔ (∃ a ∈ H, a.name = g.name ∧ a.hasBody = true) ∨ g.hasBody = true))
    (hlookup : ∀ x, T.lookup x = if g.name = x then some s else S.lookup x) :
    T.Outermost (H ++ [g]) := by
  refine ⟨hvalid, hsingle, ?_, ?_, ?_, ?_, ?_⟩
  · intro x
    rw [hlookup, Header.lookup_snoc hg, ← h.lookup]
    split
    · rw [Option.map_some, hentity]
    · rfl
  · intro x t ht
    rw [hlookup] at ht
    split at ht
    · rename_i hx
      cases ht
      exact hname.trans hx
    · exact h.named x t ht
  · intro x n r ps d hx
    rw [hlookup] at hx
    simp only [List.mem_append, List.mem_singleton, or_and_right, exists_or, exists_eq_left]
    split at hx
    · -- the new name is defined if it was, or if its declaration has a body
      rename_i hgx
      subst hgx
      rw [hdefined n r ps d (Option.some.inj hx)]
      simp
    · rename_i hgx
      rw [h.defined x n r ps d hx]
      simp [hgx]
  · exact List.pairwise_append.mpr ⟨h.compatible, List.pairwise_singleton _ _,
      fun a ha b hb => by rw [List.mem_singleton.mp hb]; exact hg a ha⟩
  · rw [Header.lookup_snoc hg]
    split
    · rename_i hx
      obtain ⟨a, ha, haname, haent⟩ := Header.exists_of_lookup h.output
      rw [← (hg a ha (haname.trans hx.symm)).1, haent]
    · exact h.output

end ScopeTable.Outermost

namespace FunDecl

variable {S : ScopeTable} {H : List Header} {f : FunDecl}

/-- The symbol of a function says what its header does. -/
theorem entity_symbol : f.symbol.entity = (Decl.function f).header.entity := by
  simp [FunDecl.symbol, Symbol.entity, Decl.header, Function.comp_def]

/-- Signatures are compared by the types in them, not by the names of parameters. -/
theorem sameSignature_iff {n : String} {r : BaseType} {ps : List Param} {d : Bool} :
    (Symbol.function n r ps d).sameSignature f.symbol = true ↔
      Entity.function r (ps.map Param.ty) = (Decl.function f).header.entity := by
  have hparams : f.symbol.params.map Param.ty = f.params.map VarDecl.ty := by
    simp [FunDecl.symbol, Symbol.params, Function.comp_def]
  change (decide (r = f.result) && decide (ps.map Param.ty = f.symbol.params.map Param.ty)) = true ↔
    Entity.function r _ = .function f.result (f.params.map VarDecl.ty)
  rw [hparams]
  simp

/-- A function is announced exactly when it is compatible with every declaration before it. -/
theorem announce?_isSome_iff (h : S.Outermost H) :
    (f.announce? S).isSome = true ↔ ∀ a ∈ H, a.Compatible (Decl.function f).header := by
  have hlookup := h.lookup f.name
  unfold FunDecl.announce?
  rw [h.single.lookupInner]
  cases hs : S.lookup f.name with
  | none =>
    rw [hs, Option.map_none, eq_comm] at hlookup
    have hnew := Header.lookup_eq_none_iff.mp hlookup
    simp only [h.reads.declare?_isSome_iff, hlookup, true_iff]
    exact fun a ha hname => absurd hname (hnew a ha)
  | some known =>
    rw [hs, Option.map_some, eq_comm] at hlookup
    obtain ⟨a, ha, hname, hent⟩ := Header.exists_of_lookup hlookup
    cases known with
    | var n ty l =>
      simp only [Symbol.isFunction, Bool.false_and, Bool.false_eq_true, if_false,
        Option.isSome_none, false_iff]
      intro hall
      obtain ⟨-, ⟨r, ps, hfun⟩, -⟩ := hall a ha hname
      rw [hent] at hfun
      cases hfun
    | function n r ps d =>
      have hdefined := h.defined _ _ _ _ _ hs
      simp only [Symbol.isFunction, Bool.true_and, sameSignature_iff, Symbol.isDefined]
      by_cases hsame : Entity.function r (ps.map Param.ty) = (Decl.function f).header.entity
      · rw [if_pos hsame]
        -- the earlier declarations of the name are compatible with each other, so all say the same
        have hall : ∀ b ∈ H, b.name = f.name → b.entity = (Decl.function f).header.entity := by
          intro b hb hbname
          have hb' := Header.lookup_of_mem h.compatible hb
          rw [hbname, hlookup] at hb'
          rw [← hsame]
          exact (Option.some.inj hb').symm
        cases hbody : f.body with
        | none =>
          simp only [Option.isNone_none, if_true, Option.isSome_some, true_iff]
          intro b hb hbname
          refine ⟨hall b hb hbname, ⟨_, _, hall b hb hbname⟩, ?_⟩
          simp [Decl.header, hbody]
        | some body =>
          simp only [Option.isNone_some, Bool.false_eq_true, if_false]
          cases d with
          | true =>
            -- the function has a body already, in this header
            obtain ⟨b, hb, hbname, hbbody⟩ := hdefined.mp rfl
            simp only [if_true, Option.isSome_none, Bool.false_eq_true, false_iff]
            intro hall
            exact (hall b hb hbname).2.2 ⟨hbbody, by simp [Decl.header, hbody]⟩
          | false =>
            simp only [Bool.false_eq_true, if_false]
            have hundefined : ∀ b ∈ H, b.name = f.name → b.hasBody ≠ true := by
              intro b hb hbname hbbody
              exact Bool.false_ne_true (hdefined.mpr ⟨b, hb, hbname, hbbody⟩)
            rw [h.single.redefine?_isSome hs, eq_self, true_iff]
            intro b hb hbname
            exact ⟨hall b hb hbname, ⟨_, _, hall b hb hbname⟩, fun hboth =>
              hundefined b hb hbname hboth.1⟩
      · rw [if_neg hsame]
        simp only [Option.isSome_none, Bool.false_eq_true, false_iff]
        intro hall
        exact hsame (hent.symm.trans (hall a ha hname).1)

/-- Announcing a function keeps the invariant. It is new, or repeated, or completed. -/
theorem outermost_announce? (h : S.Outermost H) {T : ScopeTable} (hT : f.announce? S = some T) :
    T.Outermost (H ++ [(Decl.function f).header]) := by
  have hcompat := (announce?_isSome_iff h).mp (Option.isSome_iff_exists.mpr ⟨T, hT⟩)
  have hlookup := h.lookup f.name
  unfold FunDecl.announce? at hT
  rw [h.single.lookupInner] at hT
  cases hs : S.lookup f.name with
  | none =>
    simp only [hs] at hT
    rw [hs, Option.map_none, eq_comm] at hlookup
    refine h.extend hcompat (h.valid.declare hT) (h.single.declare hT) rfl entity_symbol ?_
      (ScopeTable.lookup_declare h.valid hT)
    rintro n r ps d ⟨⟩
    simp only [Decl.header, iff_or_self]
    rintro ⟨a, ha, hname, -⟩
    exact absurd hname (Header.lookup_eq_none_iff.mp hlookup a ha)
  | some known =>
    simp only [hs] at hT
    split at hT
    · rename_i hsame
      cases known with
      | var n ty l => cases hsame
      | function n r ps d =>
        have hdefined := h.defined _ _ _ _ _ hs
        simp only [Symbol.isFunction, Bool.true_and, sameSignature_iff] at hsame
        split at hT
        · rename_i hbody
          -- a prototype of a known function leaves the table as it is
          cases hT
          refine h.extend hcompat h.valid h.single (h.named _ _ hs) hsame ?_ ?_
          · rintro n r ps d ⟨⟩
            rw [hdefined]
            simp [Decl.header, Option.isNone_iff_eq_none.mp hbody]
          · intro x
            split
            · rename_i hx
              rw [← hx]
              exact hs
            · rfl
        · rename_i hbody
          split at hT
          · cases hT
          · refine h.extend hcompat (h.valid.redefine hT)
              (h.single.redefine hT) rfl entity_symbol ?_
              (ScopeTable.lookup_redefine h.valid hT)
            rintro n r ps d ⟨⟩
            have hsome : f.body.isSome = true := by
              simpa [Option.isSome_iff_ne_none, Option.isNone_iff_eq_none] using hbody
            simp [Decl.header, hsome]
    · cases hT

/-- A function is accepted if it fits the declarations before it and is well typed among them. -/
theorem check_eq_nil_iff (h : S.Outermost H) {next : Int} :
    (f.check S next).errors = [] ↔ (∀ a ∈ H, a.Compatible (Decl.function f).header) ∧
      f.WellTyped [(H ++ [(Decl.function f).header]).map Header.binding] := by
  rw [← announce?_isSome_iff h]
  cases hT : f.announce? S with
  | none =>
    simp only [Option.isSome_none, Bool.false_eq_true, false_and, iff_false]
    unfold FunDecl.check
    cases f.body <;> simp [hT, demand]
  | some T =>
    have hread := (outermost_announce? h hT).reads
    have hparams : (VarDecl.checkAll .param frameLevel T.enter firstFrameOffset f.params).errors =
      [] ↔
        _ := VarDecl.checkAll_eq_nil_iff hread.enter (by decide)
    simp only [Option.isSome_some, true_and]
    cases hbody : f.body with
    | none =>
      simp only [FunDecl.check, hT, hbody, Option.getD_some, Option.isSome_some, demand_eq_nil,
        List.append_eq_nil_iff, true_and, hparams]
      constructor
      · rintro ⟨hframe, -, hfits⟩
        refine ⟨hframe, by simpa [FunDecl.cells, hbody] using hfits, ?_, ?_⟩
        · intro b hb
          rw [hbody] at hb
          cases hb
        · intro b hb
          rw [hbody] at hb
          cases hb
      · intro hwell
        exact ⟨hwell.params, fun d _ => rfl, by simpa [FunDecl.cells, hbody] using hwell.fits⟩
    | some b =>
      have hcells : (f.cells : Int) = VarDecl.cellsAll f.params + b.toStmt.cells := by
        simp [FunDecl.cells, hbody]
      simp only [FunDecl.check, hT, hbody, Option.getD_some, Option.isSome_some, demand_eq_nil,
        List.append_eq_nil_iff, true_and, Block.errors_check, Block.returns_check, Bool.or_eq_true,
        decide_eq_true_eq, Stmt.returns_check]
      constructor
      · rintro ⟨⟨hp, hb⟩, hret⟩
        obtain ⟨hframe, -, hfits⟩ := hparams.mp hp
        obtain ⟨hinner, hnext⟩ := VarDecl.reads_checkAll hread.enter hp
        rw [hnext] at hb
        obtain ⟨hwell, hfits'⟩ := (Stmt.check_eq_nil_iff hinner hfits).mp hb
        refine ⟨hframe, by omega, ?_, ?_⟩
        · intro b' hb'
          rw [hbody] at hb'
          cases hb'
          exact hwell
        · intro b' hb' hvoid
          rw [hbody] at hb'
          cases hb'
          exact hret.resolve_left hvoid
      · intro hwell
        have hfits := hwell.fits
        -- the body lies below the parameters, so together they fit only if the parameters do
        have hp := hparams.mpr ⟨hwell.params, fun d _ => rfl, by omega⟩
        obtain ⟨hinner, hnext⟩ := VarDecl.reads_checkAll hread.enter hp
        refine ⟨⟨hp, ?_⟩, or_iff_not_imp_left.mpr (hwell.returns b hbody)⟩
        rw [hnext]
        exact (Stmt.check_eq_nil_iff hinner (by omega)).mpr ⟨hwell.body b hbody, by omega⟩

/-- The outermost names and the free global offset after a function. -/
theorem scopes_check {next : Int} :
    (f.check S next).scopes = (f.announce? S).getD S ∧ (f.check S next).next = next := by
  unfold FunDecl.check
  cases f.body with
  | none => exact ⟨rfl, rfl⟩
  | some b => exact ⟨rfl, rfl⟩

end FunDecl

/-! ### Programs

Declarations are accepted one after the other, with the invariant `Outermost` between them. -/

namespace Decl

variable {S : ScopeTable} {H : List Header} {next : Int}

/-- A variable is new, since a name that is declared again is that of a function. -/
theorem lookup_eq_none_iff_compatible {d : VarDecl} :
    (H.map Header.binding).lookup d.name = none ↔ ∀ a ∈ H, a.Compatible (Decl.var d).header := by
  rw [Header.lookup_eq_none_iff]
  refine forall₂_congr fun a _ => ⟨fun hne hname => absurd hname hne, fun hcompat hname => ?_⟩
  obtain ⟨hsame, ⟨result, params, hfun⟩, -⟩ := hcompat hname
  rw [hfun] at hsame
  cases hsame

/-- The outermost names after a variable with a new name. -/
theorem outermost_check_var (h : S.Outermost H) {d : VarDecl}
    (hnew : ∀ a ∈ H, a.Compatible (Decl.var d).header) :
    (d.check .var globalLevel S next).scopes.Outermost (H ++ [(Decl.var d).header]) := by
  obtain ⟨T, hT⟩ := Option.isSome_iff_exists.mp ((h.reads.declare?_isSome_iff
    (s := .var d.name d.ty (d.place globalLevel next).layout)).mpr
      (lookup_eq_none_iff_compatible.mpr hnew))
  have hscopes : (d.check .var globalLevel S next).scopes = T := by
    simp only [VarDecl.check, hT, Option.getD_some]
  rw [hscopes]
  refine h.extend hnew (h.valid.declare hT) (h.single.declare hT) rfl rfl ?_
    (ScopeTable.lookup_declare h.valid hT)
  intro n r ps d hfun
  cases hfun

/-- A declaration is accepted if it fits those before it, there is room for it, and it is well
typed. -/
theorem check_eq_nil_iff (h : S.Outermost H) (hnext : minOffset ≤ next) {d : Decl} :
    (d.check S next).errors = [] ↔ (∀ a ∈ H, a.Compatible d.header) ∧
      minOffset ≤ next - d.cells ∧ d.WellTyped [(H ++ [d.header]).map Header.binding] := by
  cases d with
  | var d =>
    simp only [Decl.check, VarDecl.check_eq_nil_iff h.reads, lookup_eq_none_iff_compatible]
    constructor
    · rintro ⟨hd, hnew, hfits⟩
      exact ⟨hnew, hfits, hd⟩
    · rintro ⟨hnew, hfits, hd⟩
      exact ⟨hd, hnew, hfits⟩
  | function f =>
    simp only [Decl.check, FunDecl.check_eq_nil_iff h]
    constructor
    · rintro ⟨hcompat, hf⟩
      exact ⟨hcompat, by simpa [Decl.cells] using hnext, hf⟩
    · rintro ⟨hcompat, -, hf⟩
      exact ⟨hcompat, hf⟩

/-- The outermost names and the free global offset after an accepted declaration. -/
theorem outermost_check (h : S.Outermost H) {d : Decl} (hok : (d.check S next).errors = []) :
    (d.check S next).scopes.Outermost (H ++ [d.header]) ∧
      (d.check S next).next = next - d.cells := by
  cases d with
  | var d =>
    simp only [Decl.check, VarDecl.check_eq_nil_iff h.reads] at hok ⊢
    obtain ⟨-, hnew, hfits⟩ := hok
    exact ⟨outermost_check_var h (lookup_eq_none_iff_compatible.mp hnew),
      VarDecl.next_place hfits⟩
  | function f =>
    obtain ⟨hscopes, hlast⟩ : (f.check S next).scopes = _ ∧ _ := FunDecl.scopes_check
    simp only [Decl.check, Decl.cells, Nat.cast_zero, sub_zero] at hok ⊢
    obtain ⟨T, hT⟩ := Option.isSome_iff_exists.mp
      ((FunDecl.announce?_isSome_iff h).mpr ((FunDecl.check_eq_nil_iff h).mp hok).1)
    refine ⟨?_, hlast⟩
    rw [hscopes, hT, Option.getD_some]
    exact FunDecl.outermost_announce? h hT

/-- Declarations are accepted exactly when their names fit together and to those before, when there
is room for them and when each is well typed. -/
theorem checkAll_eq_nil_iff (h : S.Outermost H) (hnext : minOffset ≤ next) {ds : List Decl} :
    (Decl.checkAll S next ds).errors = [] ↔
      (H ++ ds.map Decl.header).Pairwise Header.Compatible ∧
      minOffset ≤ next - ((ds.map Decl.cells).sum : Int) ∧
      ∀ x ∈ Decl.inContext H ds, x.2.WellTyped x.1 := by
  induction ds generalizing S H next with
  | nil => simpa [Decl.checkAll, Decl.inContext] using ⟨h.compatible, hnext⟩
  | cons d rest ih =>
    -- the others are checked with the header of the first among the names before them
    have hnames : H ++ (d :: rest).map Decl.header =
        (H ++ [d.header]) ++ rest.map Decl.header := by simp
    rw [hnames]
    simp only [Decl.checkAll, List.append_eq_nil_iff, Decl.inContext, List.forall_mem_cons,
      List.map_cons, List.sum_cons, Nat.cast_add]
    constructor
    · rintro ⟨hd, hrest⟩
      obtain ⟨houter, hlast⟩ := outermost_check h hd
      obtain ⟨-, hfits, hwell⟩ := (check_eq_nil_iff h hnext).mp hd
      rw [hlast] at hrest
      obtain ⟨hpairs, hfits', hall⟩ := (ih houter hfits).mp hrest
      exact ⟨hpairs, by omega, hwell, hall⟩
    · rintro ⟨hpairs, hfits, hwell, hall⟩
      have hcompat : ∀ a ∈ H, a.Compatible d.header := by
        intro a ha
        have hfirst := (List.pairwise_append.mp hpairs).1
        exact (List.pairwise_append.mp hfirst).2.2 a ha d.header (List.mem_singleton.mpr rfl)
      have hd := (check_eq_nil_iff h hnext).mpr ⟨hcompat, by omega, hwell⟩
      obtain ⟨houter, hlast⟩ := outermost_check h hd
      refine ⟨hd, ?_⟩
      rw [hlast]
      exact (ih houter (by omega)).mpr ⟨hpairs, by omega, hall⟩

end Decl

/-- Every program starts with the names of the routines. -/
theorem ScopeTable.outermost_initial : ScopeTable.initial.Outermost routineHeaders := by
  obtain ⟨hvalid, hlookup⟩ := ScopeTable.valid_initial
  refine ⟨hvalid, ⟨_, rfl⟩, ?_, ?_, ?_, ?_, rfl⟩
  · intro x
    rw [hlookup]
    by_cases hx : "output" = x
    · subst hx
      rfl
    · by_cases hx' : "input" = x
      · subst hx'
        rfl
      · rw [if_neg hx, if_neg hx', eq_comm, Option.map_none, Header.lookup_eq_none_iff]
        simp [routineHeaders, hx, hx']
  -- each of the two is found under its own name
  · intro x s hs
    rw [hlookup] at hs
    split at hs
    · rename_i hx
      cases hs
      exact hx
    · split at hs
      · rename_i hx
        cases hs
        exact hx
      · cases hs
  -- and each is a routine of the list
  · intro x n r ps d hs
    rw [hlookup] at hs
    split at hs
    · rename_i hx
      cases hs
      simp [routineHeaders, hx]
    · split at hs
      · rename_i hx
        cases hs
        simp [routineHeaders, hx]
      · cases hs
  · simp [routineHeaders, Header.Compatible]

/-! ### What the analysis records

The types in an analysed tree are those that the rules give, at every node. The analysis of an
expression has found them, and the rules do not look at what is recorded. -/

/-- Looking a variable up keeps its name. -/
theorem VarUse.name_check (S : ScopeTable) (v : VarUse) : (v.check S).var.name = v.name := by
  unfold VarUse.check
  split <;> rfl

/-- So does looking an array up. -/
theorem VarUse.name_checkIndexed (S : ScopeTable) (v : VarUse) (index : Ty) :
    (v.checkIndexed S index).var.name = v.name := by
  unfold VarUse.checkIndexed
  split <;> rfl

/-- Looking a variable up changes nothing but what is recorded. -/
theorem VarUse.bare_check (S : ScopeTable) (v : VarUse) : (v.check S).var.bare = v.bare := by
  unfold VarUse.check
  split <;> rfl

/-- So does looking an array up. -/
theorem VarUse.bare_checkIndexed (S : ScopeTable) (v : VarUse) (index : Ty) :
    (v.checkIndexed S index).var.bare = v.bare := by
  unfold VarUse.checkIndexed
  split <;> rfl

namespace Exp

variable {S : ScopeTable} {Γ : TypeContext}

/-- The analysis of arguments changes nothing but what is recorded. Induction on the list. -/
theorem bareAll_checkAll {args : List Exp} (ih : ∀ a ∈ args, (a.check S).exp.bare = a.bare) :
    Exp.bareAll ((Exp.checkAll S args).map TypedExp.exp) = Exp.bareAll args := by
  induction args with
  | nil => rfl
  | cons e rest hrest =>
    simp only [Exp.checkAll, List.map_cons, Exp.bareAll, ih e List.mem_cons_self,
      hrest fun a ha => ih a (List.mem_cons_of_mem e ha)]

/-- The analysis of an expression changes nothing but what is recorded. Induction on its structure.
-/
theorem bare_check (e : Exp) : (e.check S).exp.bare = e.bare := by
  induction e using Exp.induction with
  | int p n => rfl
  | bool p b => rfl
  | nil p => rfl
  | unary p t op e ih => simp only [Exp.check, Exp.bare, ih]
  | binary p t op l r ihl ihr => simp only [Exp.check, Exp.bare, ihl, ihr]
  | var t v => simp only [Exp.check, Exp.bare, VarUse.bare_check]
  | element t v i ih => simp only [Exp.check, Exp.bare, VarUse.bare_checkIndexed, ih]
  | assign p t v e ih => simp only [Exp.check, Exp.bare, VarUse.bare_check, ih]
  | assignElement p t v i e ihi ihe =>
    simp only [Exp.check, Exp.bare, VarUse.bare_checkIndexed, ihi, ihe]
  | call p t f args ih => simp only [Exp.check, Exp.bare, bareAll_checkAll ih]

/-- The type that the analysis finds is the one that it records. -/
theorem ty_check (e : Exp) : (e.check S).exp.ty = some (e.check S).ty := by
  cases e <;> simp only [Exp.check, Exp.ty] <;> rfl

/-- Analysed arguments have the types of the arguments. Induction on the list. -/
theorem forall₂_checkAll {args : List Exp} {tys : List Ty}
    (ih : ∀ a ∈ args, ∀ {ty}, HasType Γ a ty → HasType Γ (a.check S).exp ty)
    (h : List.Forall₂ (HasType Γ) args tys) :
    List.Forall₂ (HasType Γ) ((Exp.checkAll S args).map TypedExp.exp) tys := by
  induction h with
  | nil => exact .nil
  | cons he hrest hih =>
    exact .cons (ih _ List.mem_cons_self he) (hih fun a ha => ih a (List.mem_cons_of_mem _ ha))

/-- The analysed expression has the type of the expression. -/
theorem hasType_exp {e : Exp} {ty : Ty} (h : HasType Γ e ty) : HasType Γ (e.check S).exp ty := by
  induction e using Exp.induction generalizing ty with
  | int p n => exact h
  | bool p b => exact h
  | nil p => exact h
  | unary p t op e ih =>
    simp only [Exp.check]
    cases h with
    | neg he => exact .neg (ih he)
    | not he => exact .not (ih he)
  | binary p t op l r ihl ihr =>
    simp only [Exp.check]
    cases h with
    | arithmetic hop hl hr => exact .arithmetic hop (ihl hl) (ihr hr)
    | logical hop hl hr => exact .logical hop (ihl hl) (ihr hr)
    | comparison hop hbase hl hr => exact .comparison hop hbase (ihl hl) (ihr hr)
  -- the rules look a variable up by its name, which the analysis keeps
  | var t v =>
    simp only [Exp.check]
    cases h with
    | var hv => exact .var (by rwa [VarUse.name_check])
  | element t v i ih =>
    simp only [Exp.check]
    cases h with
    | element hv hi => exact .element (by rwa [VarUse.name_checkIndexed]) (ih hi)
  | assign p t v e ih =>
    simp only [Exp.check]
    cases h with
    | assign hv hbase he => exact .assign (by rwa [VarUse.name_check]) hbase (ih he)
  | assignElement p t v i e ihi ihe =>
    simp only [Exp.check]
    cases h with
    | assignElement hv hi hbase he =>
      exact .assignElement (by rwa [VarUse.name_checkIndexed]) (ihi hi) hbase (ihe he)
  | call p t f args ih =>
    simp only [Exp.check]
    cases h with
    | call hf hargs => exact .call hf (forall₂_checkAll (fun a ha => ih a ha) hargs)

/-- The type recorded at an accepted expression is its only one. -/
theorem recorded_check (h : S.Reads Γ) {e : Exp} (hok : (e.check S).errors = []) :
    (e.check S).exp.Recorded Γ := by
  have hty := hasType_exp (S := S) ((hasType_iff_check h).mpr ⟨hok, rfl⟩)
  exact ⟨_, ty_check e, hty, fun ty' hty' => hty'.unique hty⟩

/-- Types are recorded in accepted arguments, if they are in each of them. Induction on the list. -/
theorem recorded_nodesAll {args : List Exp}
    (ih : ∀ a ∈ args, (a.check S).errors = [] → ∀ n ∈ (a.check S).exp.nodes, n.Recorded Γ)
    (hok : (Exp.checkAll S args).flatMap TypedExp.errors = []) :
    ∀ n ∈ Exp.nodesAll ((Exp.checkAll S args).map TypedExp.exp), n.Recorded Γ := by
  induction args with
  | nil =>
    intro n hn
    cases hn
  | cons e rest hrest =>
    simp only [Exp.checkAll, List.flatMap_cons, List.append_eq_nil_iff] at hok
    simp only [Exp.checkAll, List.map_cons, Exp.nodesAll, List.forall_mem_append]
    exact ⟨ih e List.mem_cons_self hok.1,
      hrest (fun a ha => ih a (List.mem_cons_of_mem e ha)) hok.2⟩

/-- Every expression inside an accepted one has its type recorded. -/
theorem recorded_nodes (h : S.Reads Γ) {e : Exp} (hok : (e.check S).errors = []) :
    ∀ n ∈ (e.check S).exp.nodes, n.Recorded Γ := by
  -- the expression itself is the first of the list, its parts are the rest
  have hself := recorded_check h hok
  induction e using Exp.induction with
  | int p n => simpa [Exp.check, Exp.nodes] using hself
  | bool p b => simpa [Exp.check, Exp.nodes] using hself
  | nil p => simpa [Exp.check, Exp.nodes] using hself
  | var t v => simpa [Exp.check, Exp.nodes] using hself
  | unary p t op e ih =>
    simp only [Exp.check, List.append_eq_nil_iff, Exp.nodes, List.forall_mem_cons] at hok hself ⊢
    exact ⟨hself, ih hok.1 (recorded_check h hok.1)⟩
  | binary p t op l r ihl ihr =>
    simp only [Exp.check, List.append_eq_nil_iff, Exp.nodes, List.forall_mem_cons,
      List.forall_mem_append] at hok hself ⊢
    obtain ⟨⟨hl, hr⟩, -⟩ := hok
    exact ⟨hself, ihl hl (recorded_check h hl), ihr hr (recorded_check h hr)⟩
  | element t v i ih =>
    simp only [Exp.check, List.append_eq_nil_iff, Exp.nodes, List.forall_mem_cons] at hok hself ⊢
    exact ⟨hself, ih hok.1 (recorded_check h hok.1)⟩
  | assign p t v e ih =>
    simp only [Exp.check, List.append_eq_nil_iff, Exp.nodes, List.forall_mem_cons] at hok hself ⊢
    obtain ⟨⟨-, he⟩, -⟩ := hok
    exact ⟨hself, ih he (recorded_check h he)⟩
  | assignElement p t v i e ihi ihe =>
    simp only [Exp.check, List.append_eq_nil_iff, Exp.nodes, List.forall_mem_cons,
      List.forall_mem_append] at hok hself ⊢
    obtain ⟨⟨⟨hi, -⟩, he⟩, -⟩ := hok
    exact ⟨hself, ihi hi (recorded_check h hi), ihe he (recorded_check h he)⟩
  | call p t f args ih =>
    simp only [Exp.check, List.append_eq_nil_iff, Exp.nodes, List.forall_mem_cons] at hok hself ⊢
    exact ⟨hself, recorded_nodesAll (fun a ha hok => ih a ha hok (recorded_check h hok)) hok.1⟩

/-- The same with the context beside each node. -/
theorem recorded_nodesIn (h : S.Reads Γ) {e : Exp} (hok : (e.check S).errors = []) :
    ∀ x ∈ (e.check S).exp.nodesIn Γ, x.2.Recorded x.1 :=
  List.forall_mem_map.mpr (recorded_nodes h hok)

end Exp

/-- The analysis of declarations changes nothing but what is recorded. Induction on the list. -/
theorem VarDecl.bare_checkAll {role : Role} {level : Nat} {S : ScopeTable} {next : Int}
    {ds : List VarDecl} :
    (VarDecl.checkAll role level S next ds).value.map VarDecl.bare = ds.map VarDecl.bare := by
  induction ds generalizing S next with
  | nil => rfl
  | cons d rest ih => simp only [VarDecl.checkAll, List.map_cons, ih, VarDecl.check, VarDecl.bare]

/-- What does not depend on storage is the same after the analysis. -/
theorem VarDecl.map_checkAll {α : Type} (g : VarDecl → α) (hg : ∀ d : VarDecl, g d.bare = g d)
    {role : Role} {level : Nat} {S : ScopeTable} {next : Int} {ds : List VarDecl} :
    (VarDecl.checkAll role level S next ds).value.map g = ds.map g := by
  have hmap : ∀ l : List VarDecl, (l.map VarDecl.bare).map g = l.map g := by
    intro l
    simp [Function.comp_def, hg]
  rw [← hmap, VarDecl.bare_checkAll, hmap]

namespace Stmt

variable {f : Enclosing} {S : ScopeTable} {Γ : TypeContext} {next : Int}

/-- The analysis of statements changes nothing but what is recorded. Induction on the list. -/
theorem bareAll_checkAll {body : List Stmt}
    (ih : ∀ s ∈ body, ∀ {next}, (s.check f S next).value.bare = s.bare) :
    Stmt.bareAll (Stmt.checkAll f S next body).value = Stmt.bareAll body := by
  induction body generalizing next with
  | nil => rfl
  | cons s rest hrest =>
    simp only [Stmt.checkAll, Stmt.bareAll, ih s List.mem_cons_self,
      hrest fun a ha => ih a (List.mem_cons_of_mem s ha)]

/-- The analysis of a statement changes nothing but what is recorded. Induction on its structure. -/
theorem bare_check (s : Stmt) : (s.check f S next).value.bare = s.bare := by
  induction s using Stmt.induction generalizing S next with
  | exp p e => simp only [Stmt.check, Stmt.bare, Exp.bare_check]
  | block p ds body ih =>
    simp only [Stmt.check, Stmt.bare, VarDecl.bare_checkAll, bareAll_checkAll fun s hs => ih s hs]
  | ifThen p t a ih => simp only [Stmt.check, Stmt.bare, Exp.bare_check, ih]
  | ifElse p t a b iha ihb => simp only [Stmt.check, Stmt.bare, Exp.bare_check, iha, ihb]
  | whileDo p t b ih => simp only [Stmt.check, Stmt.bare, Exp.bare_check, ih]
  | ret p v =>
    cases v with
    | none => rfl
    | some e => simp only [Stmt.check, Stmt.bare, Option.map_some, Exp.bare_check]

/-- Types are recorded in accepted statements, if they are in each of them. Induction on the list.
-/
theorem recorded_nodesAll {body : List Stmt}
    (ih : ∀ s ∈ body, ∀ {next}, (s.check f S next).errors = [] →
      ∀ x ∈ (s.check f S next).value.nodes VarDecl.binding Γ, x.2.Recorded x.1)
    (hok : (Stmt.checkAll f S next body).errors = []) :
    ∀ x ∈ Stmt.nodesAll VarDecl.binding Γ (Stmt.checkAll f S next body).value,
      x.2.Recorded x.1 := by
  induction body generalizing next with
  | nil =>
    intro x hx
    cases hx
  | cons s rest hrest =>
    simp only [Stmt.checkAll, List.append_eq_nil_iff] at hok
    simp only [Stmt.checkAll, Stmt.nodesAll, List.forall_mem_append]
    exact ⟨ih s List.mem_cons_self hok.1, hrest
      (fun a ha => ih a (List.mem_cons_of_mem s ha)) hok.2⟩

/-- Every expression in an accepted statement has its type recorded. -/
theorem recorded_nodes (h : S.Reads Γ) {s : Stmt} (hok : (s.check f S next).errors = []) :
    ∀ x ∈ (s.check f S next).value.nodes VarDecl.binding Γ, x.2.Recorded x.1 := by
  induction s using Stmt.induction generalizing S Γ next with
  | exp p e => exact Exp.recorded_nodesIn h hok
  | block p ds body ih =>
    simp only [Stmt.check, List.append_eq_nil_iff, Stmt.nodes,
      VarDecl.map_checkAll VarDecl.binding fun _ => rfl] at hok ⊢
    obtain ⟨hread, -⟩ := VarDecl.reads_checkAll h.enter hok.1
    exact recorded_nodesAll (fun s hs => ih s hs hread) hok.2
  | ifThen p t a ih =>
    simp only [Stmt.check, List.append_eq_nil_iff, Stmt.nodes, List.forall_mem_append] at hok ⊢
    exact ⟨Exp.recorded_nodesIn h hok.1.1, ih h hok.2⟩
  | ifElse p t a b iha ihb =>
    simp only [Stmt.check, List.append_eq_nil_iff, Stmt.nodes, List.forall_mem_append] at hok ⊢
    exact ⟨⟨Exp.recorded_nodesIn h hok.1.1.1, iha h hok.1.2⟩, ihb h hok.2⟩
  | whileDo p t b ih =>
    simp only [Stmt.check, List.append_eq_nil_iff, Stmt.nodes, List.forall_mem_append] at hok ⊢
    exact ⟨Exp.recorded_nodesIn h hok.1.1, ih h hok.2⟩
  | ret p v =>
    cases v with
    | none =>
      intro x hx
      cases hx
    | some e =>
      simp only [Stmt.check, List.append_eq_nil_iff, Stmt.nodes] at hok ⊢
      exact Exp.recorded_nodesIn h hok.1

end Stmt

/-- The analysis of a function changes nothing but what is recorded. -/
theorem FunDecl.bare_check {S : ScopeTable} {next : Int} (f : FunDecl) :
    (f.check S next).value.bare = f.bare := by
  unfold FunDecl.check
  cases hbody : f.body with
  | none => simp only [FunDecl.bare, hbody, Option.map_none, VarDecl.bare_checkAll]
  | some b =>
    simp only [FunDecl.bare, hbody, Option.map_some, VarDecl.bare_checkAll, Block.check, Block.bare,
      Stmt.bareAll_checkAll fun s _ => Stmt.bare_check s]

namespace Decl

variable {S : ScopeTable} {H : List Header} {next : Int}

/-- The analysis of declarations changes nothing but what is recorded. Induction on the list. -/
theorem bare_checkAll {ds : List Decl} :
    (Decl.checkAll S next ds).value.map Decl.bare = ds.map Decl.bare := by
  induction ds generalizing S next with
  | nil => rfl
  | cons d rest ih =>
    simp only [Decl.checkAll, List.map_cons, ih]
    congr 1
    cases d with
    | var d => rfl
    | function f => exact congrArg Decl.function f.bare_check

/-- An analysed declaration has the same header. -/
theorem header_check {d : Decl} : (d.check S next).value.header = d.header := by
  cases d with
  | var d => rfl
  | function f =>
    simp only [Decl.check, Decl.header]
    unfold FunDecl.check
    cases hbody : f.body with
    | none => simp [VarDecl.map_checkAll VarDecl.ty fun _ => rfl]
    | some b => simp [VarDecl.map_checkAll VarDecl.ty fun _ => rfl]

/-- Every expression in an accepted declaration has its type recorded. -/
theorem recorded_nodes (h : S.Outermost H) {d : Decl} (hok : (d.check S next).errors = []) :
    ∀ x ∈ (d.check S next).value.nodes VarDecl.binding [(H ++ [d.header]).map Header.binding],
      x.2.Recorded x.1 := by
  cases d with
  | var d =>
    intro x hx
    cases hx
  | function f =>
    simp only [Decl.check] at hok ⊢
    obtain ⟨T, hT⟩ := Option.isSome_iff_exists.mp
      ((FunDecl.announce?_isSome_iff h).mpr ((FunDecl.check_eq_nil_iff h).mp hok).1)
    have hread := (FunDecl.outermost_announce? h hT).reads
    cases hbody : f.body with
    | none =>
      intro x hx
      simp [FunDecl.check, hbody, Decl.nodes] at hx
    | some b =>
      simp only [FunDecl.check, hT, hbody, Option.getD_some, List.append_eq_nil_iff,
        Block.errors_check] at hok
      obtain ⟨⟨⟨-, hparams⟩, hb⟩, -⟩ := hok
      obtain ⟨hinner, -⟩ := VarDecl.reads_checkAll hread.enter hparams
      simp only [FunDecl.check, hT, hbody, Option.getD_some, Decl.nodes, Option.map_some,
        VarDecl.map_checkAll VarDecl.binding fun _ => rfl]
      exact Stmt.recorded_nodes hinner hb

/-- Types are recorded in accepted declarations. Induction on the list, with the invariant
`Outermost`. -/
theorem recorded_nodesAll (h : S.Outermost H) {ds : List Decl}
    (hok : (Decl.checkAll S next ds).errors = []) :
    ∀ x ∈ (Decl.inContext H (Decl.checkAll S next ds).value).flatMap fun x =>
      x.2.nodes VarDecl.binding x.1, x.2.Recorded x.1 := by
  induction ds generalizing S H next with
  | nil =>
    intro x hx
    cases hx
  | cons d rest ih =>
    simp only [Decl.checkAll, List.append_eq_nil_iff] at hok
    simp only [Decl.checkAll, Decl.inContext, List.flatMap_cons, List.forall_mem_append,
      header_check]
    exact ⟨recorded_nodes h hok.1, ih (outermost_check h hok.1).1 hok.2⟩

end Decl

/-- The analysis records types and storage, and changes nothing else. -/
theorem bare_analyze (p : Program) (trace : Bool) : (analyze p trace).program.bare = p.bare := by
  rw [analyze_eq]
  exact congrArg (Program.mk · 0) Decl.bare_checkAll

/-- The analysis decides the type system. It reports nothing exactly for the programs that are well
formed; it changes nothing but what it records; and at every expression of a well-formed program it
has recorded the only type of that expression. -/
theorem analyze_decides (p : Program) (trace : Bool) :
    ((analyze p trace).errors = [] ↔ p.WellFormed) ∧
      (analyze p trace).program.bare = p.bare ∧
      (p.WellFormed → ∀ x ∈ (analyze p trace).program.nodes, x.2.Recorded x.1) := by
  have hiff : (analyze p trace).errors = [] ↔ p.WellFormed := by
    rw [errors_analyze]
    refine (Decl.checkAll_eq_nil_iff ScopeTable.outermost_initial (by decide)).trans ?_
    rw [zero_sub]
    exact ⟨fun ⟨hnames, hfits, hdecls⟩ => ⟨hnames, hfits, hdecls⟩,
      fun hp => ⟨hp.names, hp.fits, hp.decls⟩⟩
  refine ⟨hiff, bare_analyze p trace, fun hp => ?_⟩
  have hok := hiff.mpr hp
  rw [errors_analyze] at hok
  rw [analyze_eq]
  exact Decl.recorded_nodesAll ScopeTable.outermost_initial hok

end MiniC
