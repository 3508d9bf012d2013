import Mathlib.Data.List.Nodup
import MiniC.Proofs.Scopes
import MiniC.Proofs.Sizes
import MiniC.Proofs.Typing.Rules

/-!
# The analysis of expressions and statements

A scope table holds what a context says, frame by frame, and the storage of variables besides. Along
that relation every check of the analysis is compared with the rule it enforces: the comparison says
when the analysis of a phrase reports nothing, and what it has found then.

* `HasType.unique`: an expression has one type at most
* `ScopeTable.Reads`: a table holds the names of a context
* `Exp.hasType_iff_check`: the analysis finds the types of expressions
* `VarDecl.checkAll_eq_nil_iff`, `Stmt.check_eq_nil_iff`: declarations and statements
-/

namespace MiniC

/-! ### Uniqueness of types

The rules for binary operators overlap in form, so they are put together first. Then each form has
one rule. -/

namespace BinaryOp

/-- The operators that the rules call arithmetic. -/
theorem family_eq_arithmetic {op : BinaryOp} :
    op.family = .arithmetic ↔ op ∈ [add, .sub, .mul, .div] := by
  cases op <;> decide

/-- The operators that the rules call logical. -/
theorem family_eq_logical {op : BinaryOp} : op.family = .logical ↔ op ∈ [BinaryOp.and, .or] := by
  cases op <;> decide

/-- The operators that the rules call comparisons. -/
theorem family_eq_comparison {op : BinaryOp} : op.family = .comparison ↔
    op ∈ [BinaryOp.less, .greater, .lessEqual, .greaterEqual, .equal, .notEqual] := by
  cases op <;> decide

/-- Two values of one type, which is not `void`, can be compared. -/
theorem Family.accepts_comparison {l r : Ty} :
    Family.comparison.accepts l r = true ↔ ∃ base, base ≠ .void ∧ l = .scalar base ∧
      r = .scalar base := by
  obtain ⟨base, isArray⟩ := l
  simp only [Family.accepts, Bool.and_eq_true, decide_eq_true_eq, Bool.not_eq_true', bne_iff_ne]
  constructor
  · rintro ⟨⟨rfl, rfl⟩, hbase⟩
    exact ⟨base, hbase, rfl, rfl⟩
  · rintro ⟨base', hbase, heq, rfl⟩
    cases heq
    exact ⟨⟨rfl, rfl⟩, hbase⟩

end BinaryOp

namespace HasType

variable {Γ : TypeContext} {e : Exp} {ty ty' : Ty}

/-- The two rules for unary operators in one. -/
theorem unary_iff {p : Pos} {t : Option Ty} {op : UnaryOp} :
    HasType Γ (.unary p t op e) ty ↔ HasType Γ e op.ty ∧ ty = op.ty := by
  constructor
  · intro h
    cases h with
    | neg he => exact ⟨he, rfl⟩
    | not he => exact ⟨he, rfl⟩
  · rintro ⟨he, rfl⟩
    cases op with
    | neg => exact .neg he
    | not => exact .not he

/-- The three rules for binary operators in one: the family of the operator decides which operands
it takes and which type it has. -/
theorem binary_iff {p : Pos} {t : Option Ty} {op : BinaryOp} {l r : Exp} :
    HasType Γ (.binary p t op l r) ty ↔
      ∃ a b, HasType Γ l a ∧ HasType Γ r b ∧ op.family.accepts a b = true ∧ ty = op.family.ty := by
  constructor
  · intro h
    cases h with
    | arithmetic hop hl hr =>
      rw [BinaryOp.family_eq_arithmetic.mpr hop]
      exact ⟨_, _, hl, hr, rfl, rfl⟩
    | logical hop hl hr =>
      rw [BinaryOp.family_eq_logical.mpr hop]
      exact ⟨_, _, hl, hr, rfl, rfl⟩
    | comparison hop hbase hl hr =>
      rw [BinaryOp.family_eq_comparison.mpr hop]
      exact ⟨_, _, hl, hr, BinaryOp.Family.accepts_comparison.mpr ⟨_, hbase, rfl, rfl⟩, rfl⟩
  · rintro ⟨a, b, hl, hr, hacc, rfl⟩
    cases hop : op.family with
    | arithmetic =>
      simp only [hop, BinaryOp.Family.accepts, Bool.and_eq_true, decide_eq_true_eq] at hacc
      obtain ⟨rfl, rfl⟩ := hacc
      exact .arithmetic (BinaryOp.family_eq_arithmetic.mp hop) hl hr
    | logical =>
      simp only [hop, BinaryOp.Family.accepts, Bool.and_eq_true, decide_eq_true_eq] at hacc
      obtain ⟨rfl, rfl⟩ := hacc
      exact .logical (BinaryOp.family_eq_logical.mp hop) hl hr
    | comparison =>
      rw [hop, BinaryOp.Family.accepts_comparison] at hacc
      obtain ⟨base, hbase, rfl, rfl⟩ := hacc
      exact .comparison (BinaryOp.family_eq_comparison.mp hop) hbase hl hr

/-- An expression has one type at most. Its form decides it, and for a name or a call the context
does; the types of its parts do not matter. -/
theorem unique (h : HasType Γ e ty) (h' : HasType Γ e ty') : ty = ty' := by
  cases e with
  | int p n => cases h; cases h'; rfl
  | bool p b => cases h; cases h'; rfl
  | nil p => cases h; cases h'; rfl
  | unary p t op e => rw [(unary_iff.mp h).2, (unary_iff.mp h').2]
  | binary p t op l r =>
    obtain ⟨-, -, -, -, -, rfl⟩ := binary_iff.mp h
    obtain ⟨-, -, -, -, -, rfl⟩ := binary_iff.mp h'
    rfl
  | var t v =>
    cases h with
    | var hv =>
      cases h' with
      | var hv' => simpa [hv] using hv'
  | element t v i =>
    cases h with
    | element hv hi =>
      cases h' with
      | element hv' hi' =>
        rw [hv] at hv'
        cases hv'
        rfl
  | assign p t v e =>
    cases h with
    | assign hv hbase he =>
      cases h' with
      | assign hv' hbase' he' =>
        rw [hv] at hv'
        cases hv'
        rfl
  | assignElement p t v i e =>
    cases h with
    | assignElement hv hi hbase he =>
      cases h' with
      | assignElement hv' hi' hbase' he' =>
        rw [hv] at hv'
        cases hv'
        rfl
  -- the callee determines the type, whatever the arguments
  | call p t f args =>
    cases h with
    | call hf hargs =>
      cases h' with
      | call hf' hargs' =>
        rw [hf] at hf'
        cases hf'
        rfl

end HasType

/-! ### Tables and contexts

A context is a list of frames, and a frame a list of names with what they stand for. `Reads` relates
a table to it frame by frame, and is kept by opening a scope and by each declaration. -/

/-- What a symbol says of its name. -/
def Symbol.entity : Symbol → Entity
  | .var _ ty _ => .var ty
  | .function _ result params _ => .function result (params.map Param.ty)

/-- A frame holds the given names. -/
structure Frame.Reads (f : Frame) (names : List (String × Entity)) : Prop where
  valid : f.Valid
  get : ∀ x, (f.get? x).map Symbol.entity = names.lookup x
  named : ∀ x s, f.get? x = some s → s.name = x

/-- A scope table holds the names of a context. The routine that writes a value takes a number,
wherever it can be called. -/
structure ScopeTable.Reads (S : ScopeTable) (Γ : TypeContext) : Prop where
  frames : List.Forall₂ Frame.Reads S.frames Γ
  output : ∀ result params, Γ.find "output" = some (.function result params) → params = [.int]

/-- A new frame has no names. -/
theorem Frame.reads_empty : Frame.empty.Reads [] := by
  refine ⟨Frame.valid_empty, ?_, ?_⟩
  · intro x
    simp [Frame.get?, Frame.empty]
  · intro x s h
    simp [Frame.get?, Frame.empty] at h

/-- A name is not found if it is in neither part. -/
theorem lookup_snoc_eq_none_iff {names : List (String × Entity)} {b : String × Entity}
    {x : String} :
    (names ++ [b]).lookup x = none ↔ names.lookup x = none ∧ x ≠ b.1 := by
  simp [List.lookup_append, List.lookup_eq_none_iff]

namespace TypeContext

/-- A name is looked up in the innermost frame first. -/
theorem find_cons (names : List (String × Entity)) (Γ : TypeContext) (x : String) :
    TypeContext.find (names :: Γ) x = (names.lookup x).or (Γ.find x) := by
  unfold TypeContext.find
  rw [List.findSome?_cons]
  cases names.lookup x with
  | none => rfl
  | some a => rfl

/-- An empty frame hides nothing. -/
theorem find_nil_cons (Γ : TypeContext) (x : String) : TypeContext.find ([] :: Γ) x = Γ.find x :=
  find_cons [] Γ x

/-- The innermost frame gets a new name. -/
theorem find_append (names : List (String × Entity)) (b : String × Entity) (Γ : TypeContext)
    (x : String) : TypeContext.find ((names ++ [b]) :: Γ) x =
      (names.lookup x).or (if x = b.1 then some b.2 else Γ.find x) := by
  rw [find_cons, List.lookup_append, Option.or_assoc, List.lookup_cons]
  by_cases h : x = b.1
  · simp [h]
  · simp [h, beq_eq_false_iff_ne.mpr h]

end TypeContext

namespace ScopeTable.Reads

variable {S : ScopeTable} {Γ : TypeContext} {names : List (String × Entity)}

/-- A table finds what the context says of a name. -/
theorem lookup (h : S.Reads Γ) (x : String) : (S.lookup x).map Symbol.entity = Γ.find x := by
  obtain ⟨frames⟩ := S
  have hframes : List.Forall₂ Frame.Reads frames Γ := h.frames
  clear h
  induction hframes with
  | nil => rfl
  | cons hf hrest ih =>
    rw [ScopeTable.lookup_eq rfl, TypeContext.find_cons, ← ih, ← hf.get]
    simp [Option.map_or]

/-- A symbol that is found has the name that was looked for. -/
theorem named (h : S.Reads Γ) {x : String} {s : Symbol} (hs : S.lookup x = some s) :
    s.name = x := by
  obtain ⟨frames⟩ := S
  have hframes : List.Forall₂ Frame.Reads frames Γ := h.frames
  clear h
  induction hframes with
  | nil => cases hs
  | cons hf hrest ih =>
    rw [ScopeTable.lookup_eq rfl, Option.or_eq_some_iff] at hs
    rcases hs with hs | ⟨-, hs⟩
    · exact hf.named x s hs
    · exact ih hs

/-- Opening a scope adds an empty frame. -/
theorem enter (h : S.Reads Γ) : S.enter.Reads ([] :: Γ) := by
  refine ⟨.cons Frame.reads_empty h.frames, ?_⟩
  intro result params hfind
  rw [TypeContext.find_nil_cons] at hfind
  exact h.output result params hfind

end ScopeTable.Reads

/-- A name is not found if the index has no entry for it. -/
theorem Frame.get?_eq_none_iff {f : Frame} (hf : f.Valid) {x : String} :
    f.get? x = none ↔ f.index.contains x = false := by
  rw [← Bool.not_eq_true, Std.TreeMap.contains_eq_isSome_getElem?]
  unfold Frame.get?
  cases hx : f.index[x]? with
  | none => simp
  | some i => simp [hf.bound x i hx]

/-- A frame takes a name exactly when it does not have it. -/
theorem Frame.declare?_isSome_iff {f : Frame} (hf : f.Valid) {x : String} {s : Symbol} :
    (f.declare? x s).isSome = true ↔ f.get? x = none := by
  rw [Frame.get?_eq_none_iff hf]
  unfold Frame.declare?
  cases f.index.contains x <;> simp

/-- A name that is found in the only frame can be redefined. -/
theorem ScopeTable.IsGlobal.redefine?_isSome {S : ScopeTable} (hS : S.IsGlobal) {x : String}
    {s t : Symbol} (h : S.lookup x = some s) : (S.redefine? x t).isSome = true := by
  obtain ⟨f, hf⟩ := hS
  rw [ScopeTable.lookup_eq hf] at h
  simp only [ScopeTable.lookup, List.findSome?_nil, Option.or_none, Frame.get?,
    Option.bind_eq_some_iff] at h
  obtain ⟨i, hi, -⟩ := h
  simp [ScopeTable.redefine?, ScopeTable.updateInner?, hf, Frame.redefine?, hi]

/-- A frame that takes a name has it last. -/
theorem Frame.Reads.declare {f g : Frame} {names : List (String × Entity)} {x : String} {s : Symbol}
    (h : f.Reads names) (hname : s.name = x) (hg : f.declare? x s = some g) :
    g.Reads (names ++ [(x, s.entity)]) := by
  refine ⟨h.valid.declare hg, ?_, ?_⟩
  · intro y
    rw [Frame.get?_declare h.valid hg, List.lookup_append, ← h.get]
    by_cases hxy : x = y
    · subst hxy
      simp [Frame.get?_eq_none_of_declare? hg]
    · rw [if_neg hxy, List.lookup_cons, beq_eq_false_iff_ne.mpr (Ne.symm hxy)]
      simp
  · intro y t ht
    rw [Frame.get?_declare h.valid hg] at ht
    split at ht
    · rename_i hxy
      cases ht
      exact hname.trans hxy
    · exact h.named y t ht

/-! ### Expressions

One comparison for each check, from variables up to expressions. Each says that the check reports
nothing exactly if the rule applies, and that it finds the type that the rule gives. -/

section Expressions

variable {S : ScopeTable} {Γ : TypeContext}

/-- A variable stands for what the context says, or is reported. -/
theorem VarUse.find_iff_check (h : S.Reads Γ) {v : VarUse} {ty : Ty} :
    Γ.find v.name = some (.var ty) ↔ (v.check S).errors = [] ∧ (v.check S).ty = ty := by
  rw [← h.lookup]
  unfold VarUse.check
  cases S.lookup v.name with
  | none => simp
  | some s =>
    cases s with
    | var n t l => simp [Symbol.entity]
    | function n r ps d => simp [Symbol.entity]

/-- So does an array with its index, which must be a number. -/
theorem VarUse.find_iff_checkIndexed (h : S.Reads Γ) {v : VarUse} {index ty : Ty} :
    (∃ base, Γ.find v.name = some (.var (.array base)) ∧ index = .int ∧ ty = .scalar base) ↔
      (v.checkIndexed S index).errors = [] ∧ (v.checkIndexed S index).ty = ty := by
  rw [← h.lookup]
  unfold VarUse.checkIndexed
  cases S.lookup v.name with
  | none => simp
  | some s =>
    cases s with
    | function n r ps d => simp [Symbol.entity]
    | var n aty l =>
      obtain ⟨base, isArray⟩ := aty
      cases isArray with
      | false => simp [Symbol.entity, Ty.array]
      | true =>
        simp only [Option.map_some, Symbol.entity, Ty.array, Option.some.injEq, Entity.var.injEq,
          Ty.mk.injEq, and_true, if_true, demand_eq_nil, decide_eq_true_eq]
        constructor
        · rintro ⟨base, rfl, rfl, rfl⟩
          exact ⟨rfl, rfl⟩
        · rintro ⟨rfl, rfl⟩
          exact ⟨_, rfl, rfl, rfl⟩

/-- No argument is reported exactly if all have the types of their parameters. -/
theorem argumentErrors_eq_nil_iff {p : Pos} {f : String} {n : Nat} {params : List Param}
    {tys : List Ty} (hlen : params.length = tys.length) :
    argumentErrors p f n params tys = [] ↔ params.map Param.ty = tys := by
  constructor
  · intro h
    exact (Exp.argumentErrors_eq_nil hlen h).symm
  · rintro rfl
    clear hlen
    induction params generalizing n with
    | nil => rfl
    | cons q params ih => simp [argumentErrors, ih]

/-- A call is accepted when the arguments have the types of the parameters. The routine that writes
a value has a check of its own, which comes to the same. -/
theorem find_iff_checkCall (h : S.Reads Γ) {p : Pos} {f : String} {tys : List Ty} {ty : Ty} :
    (∃ result, Γ.find f = some (.function result tys) ∧ ty = .scalar result) ↔
      (checkCall S p f tys).2 = [] ∧ (checkCall S p f tys).1 = ty := by
  have hlookup := h.lookup f
  unfold checkCall
  cases hs : S.lookup f with
  | none =>
    rw [hs] at hlookup
    simp [← hlookup]
  | some s =>
    rw [hs] at hlookup
    rw [← hlookup]
    cases s with
    | var n t l => simp [Symbol.entity]
    | function n r ps d =>
      obtain rfl : n = f := h.named hs
      have hshape : (∃ result, some (Entity.function r (ps.map Param.ty)) =
          some (.function result tys) ∧ ty = .scalar result) ↔
          ps.map Param.ty = tys ∧ Ty.scalar r = ty := by
        constructor
        · rintro ⟨result, heq, rfl⟩
          cases heq
          exact ⟨rfl, rfl⟩
        · rintro ⟨rfl, rfl⟩
          exact ⟨r, rfl, rfl⟩
      simp only [Option.map_some, Symbol.entity, hshape]
      refine and_congr_left fun _ => ?_
      by_cases hlen : ps.length = tys.length
      · rw [if_neg (not_not.mpr hlen)]
        split
        · rename_i hout
          subst hout
          -- its only parameter is a number
          have hparams : ps.map Param.ty = [.int] := h.output r _ hlookup.symm
          obtain ⟨t, rfl⟩ : ∃ t, tys = [t] := by
            rw [← List.length_eq_one_iff, ← hlen, ← List.length_map, hparams]
            rfl
          simp [hparams, @eq_comm Ty .int]
        · exact (argumentErrors_eq_nil_iff hlen).symm
      · rw [if_pos hlen]
        have hne : ps.map Param.ty ≠ tys := by
          rintro rfl
          exact hlen (List.length_map ..).symm
        simp [hne]

/-- An assignment is accepted exactly for scalars of one type that is not `void`. -/
theorem assignmentErrors_eq_nil_iff {p : Pos} {target value : Ty} :
    assignmentErrors p target value = [] ↔
      ∃ base, base ≠ .void ∧ target = .scalar base ∧ value = .scalar base := by
  unfold assignmentErrors
  obtain ⟨base, isArray⟩ := target
  split
  · rename_i hvoid
    simp only [List.cons_ne_nil, false_iff, not_exists, not_and]
    rintro base' hbase htarget rfl
    cases htarget
    rcases hvoid with rfl | rfl
    · exact hbase rfl
    · exact hbase rfl
  · rename_i hvoid
    simp only [demand_eq_nil, Bool.and_eq_true, Bool.not_eq_true', decide_eq_true_eq]
    constructor
    · rintro ⟨rfl, rfl⟩
      exact ⟨base, fun hbase => hvoid (Or.inl hbase), rfl, rfl⟩
    · rintro ⟨base', -, heq, rfl⟩
      cases heq
      exact ⟨rfl, rfl⟩

/-- The same for arguments, if it holds of each of them. Induction on the list. -/
theorem Exp.forall₂_iff_checkAll {args : List Exp} {tys : List Ty}
    (ih : ∀ a ∈ args, ∀ {ty}, HasType Γ a ty ↔ (a.check S).errors = [] ∧ (a.check S).ty = ty) :
    List.Forall₂ (HasType Γ) args tys ↔
      (Exp.checkAll S args).flatMap TypedExp.errors = [] ∧
        (Exp.checkAll S args).map TypedExp.ty = tys := by
  induction args generalizing tys with
  | nil => simp [Exp.checkAll, eq_comm]
  | cons e rest hrest =>
    replace hrest : ∀ {tys}, List.Forall₂ (HasType Γ) rest tys ↔ _ :=
      hrest fun a ha => ih a (List.mem_cons_of_mem e ha)
    simp only [List.forall₂_cons_left_iff, ih e List.mem_cons_self, hrest, Exp.checkAll,
      List.flatMap_cons, List.append_eq_nil_iff, List.map_cons]
    constructor
    · rintro ⟨ty, tys', ⟨he, rfl⟩, ⟨hrest, rfl⟩, rfl⟩
      exact ⟨⟨he, hrest⟩, rfl⟩
    · rintro ⟨⟨he, hrest⟩, rfl⟩
      exact ⟨_, _, ⟨he, rfl⟩, ⟨hrest, rfl⟩, rfl⟩

/-- The analysis of an expression reports nothing exactly when the expression has a type, and then
finds it. -/
theorem Exp.hasType_iff_check (h : S.Reads Γ) {e : Exp} {ty : Ty} :
    HasType Γ e ty ↔ (e.check S).errors = [] ∧ (e.check S).ty = ty := by
  induction e using Exp.induction generalizing ty with
  | int p n =>
    simp only [Exp.check, true_and]
    constructor
    · rintro ⟨⟩
      rfl
    · rintro rfl
      exact .int p n
  | bool p b =>
    simp only [Exp.check, true_and]
    constructor
    · rintro ⟨⟩
      rfl
    · rintro rfl
      exact .bool p b
  | nil p =>
    simp only [Exp.check, true_and]
    constructor
    · rintro ⟨⟩
      rfl
    · rintro rfl
      exact .nil p
  | unary p t op e ih =>
    simp only [HasType.unary_iff, ih, Exp.check, List.append_eq_nil_iff, demand_eq_nil,
      decide_eq_true_eq, @eq_comm Ty ty]
  | binary p t op l r ihl ihr =>
    simp only [HasType.binary_iff, ihl, ihr, Exp.check, List.append_eq_nil_iff, demand_eq_nil]
    constructor
    · rintro ⟨a, b, ⟨hl, rfl⟩, ⟨hr, rfl⟩, hacc, rfl⟩
      exact ⟨⟨⟨hl, hr⟩, hacc⟩, rfl⟩
    · rintro ⟨⟨⟨hl, hr⟩, hacc⟩, rfl⟩
      exact ⟨_, _, ⟨hl, rfl⟩, ⟨hr, rfl⟩, hacc, rfl⟩
  | var t v =>
    simp only [Exp.check, ← VarUse.find_iff_check h]
    constructor
    · rintro ⟨⟩
      assumption
    · exact .var
  | element t v i ih =>
    simp only [Exp.check, List.append_eq_nil_iff, and_assoc, ← VarUse.find_iff_checkIndexed h]
    constructor
    · intro hty
      cases hty with
      | element hv hi =>
        obtain ⟨hi, hity⟩ := ih.mp hi
        exact ⟨hi, _, hv, hity, rfl⟩
    · rintro ⟨hi, base, hv, hity, rfl⟩
      exact .element hv (ih.mpr ⟨hi, hity⟩)
  | assign p t v e ih =>
    simp only [Exp.check, List.append_eq_nil_iff, assignmentErrors_eq_nil_iff]
    constructor
    · intro hty
      cases hty with
      | assign hv hbase he =>
        obtain ⟨hu, huty⟩ := (VarUse.find_iff_check h).mp hv
        obtain ⟨he, hety⟩ := ih.mp he
        exact ⟨⟨⟨hu, he⟩, _, hbase, huty, hety⟩, huty⟩
    · rintro ⟨⟨⟨hu, he⟩, base, hbase, huty, hety⟩, rfl⟩
      rw [huty]
      exact .assign ((VarUse.find_iff_check h).mpr ⟨hu, huty⟩) hbase (ih.mpr ⟨he, hety⟩)
  | assignElement p t v i e ihi ihe =>
    simp only [Exp.check, List.append_eq_nil_iff, assignmentErrors_eq_nil_iff]
    constructor
    · intro hty
      cases hty with
      | assignElement hv hi hbase he =>
        obtain ⟨hi, hity⟩ := ihi.mp hi
        obtain ⟨he, hety⟩ := ihe.mp he
        -- what the analysis finds for the array depends on the type of the index
        obtain ⟨hu, huty⟩ := (VarUse.find_iff_checkIndexed h).mp ⟨_, hv, hity, rfl⟩
        exact ⟨⟨⟨⟨hi, hu⟩, he⟩, _, hbase, huty, hety⟩, huty⟩
    · rintro ⟨⟨⟨⟨hi, hu⟩, he⟩, base, hbase, huty, hety⟩, rfl⟩
      rw [huty]
      obtain ⟨base', hv, hity, heq⟩ := (VarUse.find_iff_checkIndexed h).mpr ⟨hu, huty⟩
      cases heq
      exact .assignElement hv (ihi.mpr ⟨hi, hity⟩) hbase (ihe.mpr ⟨he, hety⟩)
  | call p t f args ih =>
    have hargs : ∀ {tys}, List.Forall₂ (HasType Γ) args tys ↔ _ :=
      Exp.forall₂_iff_checkAll fun a ha => ih a ha
    simp only [Exp.check, List.append_eq_nil_iff, and_assoc, ← find_iff_checkCall h]
    constructor
    · intro hty
      cases hty with
      | call hf hforall =>
        obtain ⟨hok, rfl⟩ := hargs.mp hforall
        exact ⟨hok, _, hf, rfl⟩
    · rintro ⟨hok, result, hf, rfl⟩
      exact .call hf (hargs.mpr ⟨hok, rfl⟩)

end Expressions

/-! ### Declarations of variables

A frame of declarations is accepted if their names are different, each is well formed, and they fit.
-/

namespace ScopeTable.Reads

variable {S T : ScopeTable} {Γ : TypeContext} {names : List (String × Entity)} {x : String}
  {s : Symbol}

/-- The innermost frame of a table and that of its context. -/
theorem frames_eq (h : S.Reads (names :: Γ)) :
    ∃ f outer, S.frames = f :: outer ∧ f.Reads names ∧ List.Forall₂ Frame.Reads outer Γ := by
  obtain ⟨f, outer, hf, houter, hframes⟩ := List.forall₂_cons_right_iff.mp h.frames
  exact ⟨f, outer, hframes, hf, houter⟩

/-- A table takes a name exactly if its innermost frame does not have it. -/
theorem declare?_isSome_iff (h : S.Reads (names :: Γ)) :
    (S.declare? x s).isSome = true ↔ names.lookup x = none := by
  obtain ⟨f, outer, hframes, hf, -⟩ := h.frames_eq
  rw [← hf.get, Option.map_eq_none_iff, ← Frame.declare?_isSome_iff hf.valid (s := s)]
  simp [ScopeTable.declare?, ScopeTable.updateInner?, hframes]

/-- A table that takes a name has it in its innermost frame. -/
theorem declare (h : S.Reads (names :: Γ)) (hname : s.name = x)
    (houtput : x = "output" → ∀ result params, s.entity ≠ .function result params)
    (hT : S.declare? x s = some T) : T.Reads ((names ++ [(x, s.entity)]) :: Γ) := by
  obtain ⟨f, outer, hframes, hf, houter⟩ := h.frames_eq
  obtain ⟨f', outer', g, hframes', hg, rfl⟩ := ScopeTable.updateInner?_eq hT
  rw [hframes] at hframes'
  cases hframes'
  refine ⟨.cons (hf.declare hname hg) houter, ?_⟩
  intro result params hfind
  have hold := h.output result params
  rw [TypeContext.find_cons] at hold
  rw [TypeContext.find_append] at hfind
  cases hlookup : names.lookup "output" with
  | some a =>
    rw [hlookup] at hfind hold
    exact hold hfind
  | none =>
    simp only [hlookup, Option.none_or] at hfind hold
    split at hfind
    · rename_i hx
      exact absurd (Option.some.inj hfind) (houtput hx.symm result params)
    · exact hold hfind

end ScopeTable.Reads

namespace VarDecl

variable {role : Role} {level : Nat} {S : ScopeTable} {next : Int} {Γ : TypeContext}
  {names : List (String × Entity)}

/-- A declaration fits if its cells stay above the limit. -/
theorem fits_place {d : VarDecl} :
    (d.place level next).fits = true ↔ minOffset ≤ next - d.cells := by
  have hcells : next - (d.shape.elements : Int) - 1 = next - (d.cells : Nat) := by
    simp only [VarDecl.cells]
    omega
  simp only [VarDecl.place, hcells]
  split
  · rename_i hfits
    simp [hfits]
  · rename_i hfits
    simp [hfits]

/-- A declaration that fits takes its cells. -/
theorem next_place {d : VarDecl} (h : minOffset ≤ next - d.cells) :
    (d.place level next).next = next - d.cells := by
  have hcells : next - (d.shape.elements : Int) - 1 = next - (d.cells : Nat) := by
    simp only [VarDecl.cells]
    omega
  simp only [VarDecl.place, hcells, if_pos h]

/-- A declaration is accepted if it is well formed, its name is new, and it fits. -/
theorem check_eq_nil_iff (h : S.Reads (names :: Γ)) {d : VarDecl} :
    (d.check role level S next).errors = [] ↔
      d.WellFormed ∧ names.lookup d.name = none ∧ minOffset ≤ next - d.cells := by
  simp only [VarDecl.check, List.append_eq_nil_iff, demand_eq_nil, fits_place,
    h.declare?_isSome_iff, Bool.or_eq_true, bne_iff_ne]
  constructor
  · rintro ⟨⟨⟨hvoid, hempty⟩, hfits⟩, hname⟩
    exact ⟨⟨fun hbase => hvoid.resolve_left (not_not.mpr hbase), hempty⟩, hname, hfits⟩
  · rintro ⟨⟨hvoid, hempty⟩, hname, hfits⟩
    exact ⟨⟨⟨(em _).symm.imp_right hvoid, hempty⟩, hfits⟩, hname⟩

/-- A declaration with a new name adds it to its frame. -/
theorem reads_check (h : S.Reads (names :: Γ)) {d : VarDecl} (hname : names.lookup d.name = none) :
    (d.check role level S next).scopes.Reads ((names ++ [d.binding]) :: Γ) := by
  obtain ⟨T, hT⟩ := Option.isSome_iff_exists.mp ((h.declare?_isSome_iff
    (s := .var d.name d.ty (d.place level next).layout)).mpr hname)
  simp only [VarDecl.check, hT, Option.getD_some]
  have hvar : ∀ result params, (Symbol.var d.name d.ty (d.place level next).layout).entity ≠
      .function result params := by
    intro result params hfun
    cases hfun
  exact h.declare rfl (fun _ => hvar) hT

/-- Declarations of a frame that has names already. -/
theorem checkAll_eq_nil_iff (h : S.Reads (names :: Γ)) (hnext : minOffset ≤ next)
    {ds : List VarDecl} :
    (checkAll role level S next ds).errors = [] ↔
      VarDecl.FrameOf ds ∧ (∀ d ∈ ds, names.lookup d.name = none) ∧
        minOffset ≤ next - cellsAll ds := by
  induction ds generalizing S next names with
  | nil => simpa [checkAll, cellsAll] using ⟨⟨List.nodup_nil, List.forall_mem_nil _⟩, hnext⟩
  | cons d rest ih =>
    have hcells : next - (cellsAll (d :: rest) : Nat) = next - d.cells - cellsAll rest := by
      simp only [cellsAll, List.map_cons, List.sum_cons]
      omega
    -- to be free beside the first name is to be free and to differ from it
    have hlater : (∀ e ∈ rest, (names ++ [d.binding]).lookup e.name = none) ↔
        (∀ e ∈ rest, names.lookup e.name = none) ∧ d.name ∉ rest.map VarDecl.name := by
      simp only [lookup_snoc_eq_none_iff, List.mem_map, not_exists, not_and]
      exact forall₂_and
    simp only [checkAll, List.append_eq_nil_iff, check_eq_nil_iff h, hcells]
    constructor
    · rintro ⟨⟨hd, hname, hfits⟩, hrest⟩
      have hread : (d.check role level S next).scopes.Reads _ := reads_check h hname
      rw [show (d.check role level S next).next = next - d.cells from next_place hfits] at hrest
      obtain ⟨hframe, hnew, hfits'⟩ := (ih hread hfits).mp hrest
      obtain ⟨hnew, hnot⟩ := hlater.mp hnew
      exact ⟨⟨List.nodup_cons.mpr ⟨hnot, hframe.names⟩, List.forall_mem_cons.mpr ⟨hd, hframe.each⟩⟩,
        List.forall_mem_cons.mpr ⟨hname, hnew⟩, hfits'⟩
    · rintro ⟨hframe, hnew, hfits'⟩
      obtain ⟨hnot, hnodup⟩ := List.nodup_cons.mp hframe.names
      obtain ⟨hd, heach⟩ := List.forall_mem_cons.mp hframe.each
      obtain ⟨hname, hnew⟩ := List.forall_mem_cons.mp hnew
      have hfits : minOffset ≤ next - d.cells := by omega
      have hread : (d.check role level S next).scopes.Reads _ := reads_check h hname
      refine ⟨⟨hd, hname, hfits⟩, ?_⟩
      rw [show (d.check role level S next).next = next - d.cells from next_place hfits]
      exact (ih hread hfits).mpr ⟨⟨hnodup, heach⟩, hlater.mpr ⟨hnew, hnot⟩, hfits'⟩

/-- The state after declarations that are accepted. -/
theorem reads_checkAll (h : S.Reads (names :: Γ)) {ds : List VarDecl}
    (hok : (checkAll role level S next ds).errors = []) :
    (checkAll role level S next ds).scopes.Reads ((names ++ ds.map binding) :: Γ) ∧
      (checkAll role level S next ds).next = next - cellsAll ds := by
  induction ds generalizing S next names with
  | nil => simpa [checkAll, cellsAll] using h
  | cons d rest ih =>
    simp only [checkAll, List.append_eq_nil_iff, check_eq_nil_iff h] at hok ⊢
    obtain ⟨⟨-, hname, hfits⟩, hrest⟩ := hok
    obtain ⟨hread, hlast⟩ := ih (reads_check h hname) hrest
    rw [List.append_assoc] at hread
    refine ⟨hread, ?_⟩
    rw [hlast, show (d.check role level S next).next = next - d.cells from next_place hfits]
    simp only [cellsAll, List.map_cons, List.sum_cons]
    omega

end VarDecl

/-! ### Statements

By induction on the statement. What a statement takes of the storage is its number of cells, so
whether the next one fits can be told beforehand. -/

/-- What a condition may be: a number or a truth value. -/
theorem Ty.test_iff {ty : Ty} :
    (!ty.isArray && ty.base != .void) = true ↔ ty = .int ∨ ty = .bool := by
  obtain ⟨base, isArray⟩ := ty
  cases base <;> cases isArray <;> decide

/-- A condition is accepted exactly if it has one of these types. -/
theorem testErrors_eq_nil_iff {S : ScopeTable} {Γ : TypeContext} (h : S.Reads Γ) {c : Construct}
    {t : Exp} :
    ((t.check S).errors = [] ∧ testErrors c (t.check S) = []) ↔
      ∃ ty, HasType Γ t ty ∧ (ty = .int ∨ ty = .bool) := by
  simp only [testErrors, demand_eq_nil, Ty.test_iff, Exp.hasType_iff_check h]
  constructor
  · rintro ⟨hok, hty⟩
    exact ⟨_, ⟨hok, rfl⟩, hty⟩
  · rintro ⟨ty, ⟨hok, rfl⟩, hty⟩
    exact ⟨hok, hty⟩

/-- A returned value is accepted exactly if it is of the type of the function, and this is not
`void`. -/
theorem returnErrors_eq_nil_iff {f : Enclosing} {p : Pos} {ty : Ty} :
    returnErrors f p ty = [] ↔ f.result ≠ .void ∧ ty = .scalar f.result := by
  unfold returnErrors
  split
  · rename_i hvoid
    simp [hvoid]
  · rename_i hvoid
    simp [hvoid]

namespace Stmt

variable {f : Enclosing} {S : ScopeTable} {Γ : TypeContext} {next : Int}

/-- Statements take the cells of their declarations, if each of them does. Induction on the list. -/
theorem next_checkAll {body : List Stmt}
    (ih : ∀ s ∈ body, ∀ {next}, (s.check f S next).errors = [] →
      (s.check f S next).next = next - s.cells)
    (hok : (checkAll f S next body).errors = []) :
    (checkAll f S next body).next = next - cellsAll body := by
  induction body generalizing next with
  | nil => simp [checkAll, cellsAll]
  | cons s rest hrest =>
    simp only [checkAll, cellsAll, List.append_eq_nil_iff] at hok ⊢
    rw [hrest (fun a ha => ih a (List.mem_cons_of_mem s ha)) hok.2, ih s List.mem_cons_self hok.1]
    omega

/-- An accepted statement takes the cells of its declarations. -/
theorem next_check (h : S.Reads Γ) {s : Stmt} (hok : (s.check f S next).errors = []) :
    (s.check f S next).next = next - s.cells := by
  induction s using Stmt.induction generalizing S Γ next with
  | exp p e => simp [Stmt.check, cells]
  | block p ds body ih =>
    simp only [Stmt.check, cells, List.append_eq_nil_iff] at hok ⊢
    obtain ⟨hread, hnext⟩ := VarDecl.reads_checkAll h.enter hok.1
    rw [next_checkAll (fun s hs => ih s hs hread) hok.2, hnext]
    omega
  | ifThen p t a ih =>
    simp only [Stmt.check, cells, List.append_eq_nil_iff] at hok ⊢
    exact ih h hok.2
  | ifElse p t a b iha ihb =>
    simp only [Stmt.check, cells, List.append_eq_nil_iff] at hok ⊢
    rw [ihb h hok.2, iha h hok.1.2]
    omega
  | whileDo p t b ih =>
    simp only [Stmt.check, cells, List.append_eq_nil_iff] at hok ⊢
    exact ih h hok.2
  | ret p v =>
    cases v with
    | none => simp [Stmt.check, cells]
    | some e => simp [Stmt.check, cells]

/-- Statements are accepted one after the other, if it holds of each of them. Induction on the list.
-/
theorem checkAll_eq_nil_iff (h : S.Reads Γ) {body : List Stmt}
    (ih : ∀ s ∈ body, ∀ {next}, minOffset ≤ next → ((s.check f S next).errors = [] ↔
      s.WellTyped f.result Γ ∧ minOffset ≤ next - s.cells)) (hnext : minOffset ≤ next) :
    (checkAll f S next body).errors = [] ↔
      (∀ s ∈ body, s.WellTyped f.result Γ) ∧ minOffset ≤ next - cellsAll body := by
  induction body generalizing next with
  | nil => simpa [checkAll, cellsAll] using hnext
  | cons s rest hrest =>
    replace hrest : ∀ {next}, minOffset ≤ next → _ :=
      hrest fun a ha => ih a (List.mem_cons_of_mem s ha)
    have hfirst := ih s List.mem_cons_self hnext
    simp only [checkAll, cellsAll, List.append_eq_nil_iff, List.forall_mem_cons]
    constructor
    · rintro ⟨hs, hothers⟩
      obtain ⟨hwell, hfits⟩ := hfirst.mp hs
      rw [next_check h hs] at hothers
      obtain ⟨hall, hfits'⟩ := (hrest hfits).mp hothers
      exact ⟨⟨hwell, hall⟩, by omega⟩
    · rintro ⟨⟨hwell, hall⟩, hfits⟩
      have hs := hfirst.mpr ⟨hwell, by omega⟩
      refine ⟨hs, ?_⟩
      rw [next_check h hs]
      exact (hrest (by omega)).mpr ⟨hall, by omega⟩

/-- The analysis of a statement reports nothing exactly when the statement is well typed and its
declarations fit. -/
theorem check_eq_nil_iff (h : S.Reads Γ) (hnext : minOffset ≤ next) {s : Stmt} :
    (s.check f S next).errors = [] ↔ s.WellTyped f.result Γ ∧ minOffset ≤ next - s.cells := by
  induction s using Stmt.induction generalizing S Γ next with
  | exp p e =>
    simp only [Stmt.check, cells, Nat.cast_zero, sub_zero]
    constructor
    · intro hok
      exact ⟨.exp ((Exp.hasType_iff_check h).mpr ⟨hok, rfl⟩), hnext⟩
    · rintro ⟨hwell, -⟩
      cases hwell with
      | exp he => exact ((Exp.hasType_iff_check h).mp he).1
  | block p ds body ih =>
    simp only [Stmt.check, cells, List.append_eq_nil_iff, Nat.cast_add]
    -- the statements are checked with the names of the block, below its variables
    have hds : (VarDecl.checkAll .var frameLevel S.enter next ds).errors = [] ↔ _ :=
      VarDecl.checkAll_eq_nil_iff h.enter hnext
    constructor
    · rintro ⟨hd, hb⟩
      obtain ⟨hframe, -, hfits⟩ := hds.mp hd
      obtain ⟨hread, hafter⟩ := VarDecl.reads_checkAll h.enter hd
      rw [hafter] at hb
      obtain ⟨hall, hfits'⟩ := (checkAll_eq_nil_iff hread (fun s hs => ih s hs hread) hfits).mp hb
      exact ⟨.block hframe hall, by omega⟩
    · rintro ⟨hwell, hfits⟩
      cases hwell with
      | block hframe hall =>
        have hd := hds.mpr ⟨hframe, fun d _ => rfl, by omega⟩
        obtain ⟨hread, hafter⟩ := VarDecl.reads_checkAll h.enter hd
        refine ⟨hd, ?_⟩
        rw [hafter]
        exact (checkAll_eq_nil_iff hread (fun s hs => ih s hs hread) (by omega)).mpr
          ⟨hall, by omega⟩
  | ifThen p t a ih =>
    simp only [Stmt.check, cells, List.append_eq_nil_iff, testErrors_eq_nil_iff h, ih h hnext]
    constructor
    · rintro ⟨⟨ty, ht, hty⟩, ha, hfits⟩
      exact ⟨.ifThen ht hty ha, hfits⟩
    · rintro ⟨hwell, hfits⟩
      cases hwell with
      | ifThen ht hty ha => exact ⟨⟨_, ht, hty⟩, ha, hfits⟩
  | ifElse p t a b iha ihb =>
    simp only [Stmt.check, cells, List.append_eq_nil_iff, testErrors_eq_nil_iff h, Nat.cast_add]
    constructor
    · rintro ⟨⟨⟨ty, ht, hty⟩, ha⟩, hb⟩
      -- no cell is used twice: the second branch starts below the first
      rw [next_check h ha] at hb
      obtain ⟨ha, hfits⟩ := (iha h hnext).mp ha
      obtain ⟨hb, hfits'⟩ := (ihb h hfits).mp hb
      exact ⟨.ifElse ht hty ha hb, by omega⟩
    · rintro ⟨hwell, hfits⟩
      cases hwell with
      | ifElse ht hty ha hb =>
        have ha := (iha h hnext).mpr ⟨ha, by omega⟩
        refine ⟨⟨⟨_, ht, hty⟩, ha⟩, ?_⟩
        rw [next_check h ha]
        exact (ihb h (by omega)).mpr ⟨hb, by omega⟩
  | whileDo p t b ih =>
    simp only [Stmt.check, cells, List.append_eq_nil_iff, testErrors_eq_nil_iff h, ih h hnext]
    constructor
    · rintro ⟨⟨ty, ht, hty⟩, hb, hfits⟩
      exact ⟨.whileDo ht hty hb, hfits⟩
    · rintro ⟨hwell, hfits⟩
      cases hwell with
      | whileDo ht hty hb => exact ⟨⟨_, ht, hty⟩, hb, hfits⟩
  | ret p v =>
    cases v with
    | none =>
      simp only [Stmt.check, cells, demand_eq_nil, decide_eq_true_eq, Nat.cast_zero, sub_zero]
      constructor
      · intro hvoid
        exact ⟨.bareReturn hvoid, hnext⟩
      · rintro ⟨hwell, -⟩
        cases hwell with
        | bareReturn hvoid => exact hvoid
    | some e =>
      simp only [Stmt.check, cells, List.append_eq_nil_iff, returnErrors_eq_nil_iff, Nat.cast_zero,
        sub_zero]
      constructor
      · rintro ⟨hok, hvoid, hty⟩
        exact ⟨.valueReturn hvoid ((Exp.hasType_iff_check h).mpr ⟨hok, hty⟩), hnext⟩
      · rintro ⟨hwell, -⟩
        cases hwell with
        | valueReturn hvoid he =>
          obtain ⟨hok, hty⟩ := (Exp.hasType_iff_check h).mp he
          exact ⟨hok, hvoid, hty⟩

/-- Statements return a value if one of them does. Induction on the list. -/
theorem returns_checkAll {body : List Stmt}
    (ih : ∀ s ∈ body, ∀ {next}, (s.check f S next).returns = true ↔ s.ReturnsValue) :
    (checkAll f S next body).returns = true ↔ ∃ s ∈ body, s.ReturnsValue := by
  induction body generalizing next with
  | nil => simp [checkAll]
  | cons s rest hrest =>
    simp only [checkAll, Bool.or_eq_true, ih s List.mem_cons_self,
      hrest fun a ha => ih a (List.mem_cons_of_mem s ha), List.exists_mem_cons_iff]

/-- The analysis knows whether a value is returned. -/
theorem returns_check {s : Stmt} : (s.check f S next).returns = true ↔ s.ReturnsValue := by
  induction s using Stmt.induction generalizing S next with
  | exp p e =>
    simp only [Stmt.check, Bool.false_eq_true, false_iff]
    rintro ⟨⟩
  | block p ds body ih =>
    simp only [Stmt.check, returns_checkAll fun s hs => ih s hs]
    constructor
    · rintro ⟨s, hs, hret⟩
      exact .block hs hret
    · intro h
      cases h with
      | block hs hret => exact ⟨_, hs, hret⟩
  | ifThen p t a ih =>
    simp only [Stmt.check, ih]
    constructor
    · exact .ifThen
    · intro h
      cases h with
      | ifThen hret => exact hret
  | ifElse p t a b iha ihb =>
    simp only [Stmt.check, Bool.or_eq_true, iha, ihb]
    constructor
    · rintro (hret | hret)
      · exact .thenBranch hret
      · exact .elseBranch hret
    · intro h
      cases h with
      | thenBranch hret => exact Or.inl hret
      | elseBranch hret => exact Or.inr hret
  | whileDo p t b ih =>
    simp only [Stmt.check, ih]
    constructor
    · exact .whileDo
    · intro h
      cases h with
      | whileDo hret => exact hret
  | ret p v =>
    cases v with
    | none =>
      simp only [Stmt.check, Bool.false_eq_true, false_iff]
      rintro ⟨⟩
    | some e =>
      simp only [Stmt.check, true_iff]
      exact .ret

end Stmt

end MiniC
