import MiniC.Proofs.Linking

/-!
# Where the variables of a program lie

Every variable of a function has cells of its own: the storage of a function's parameters and
locals is cut from one range of offsets, and so is that of the global variables. A name that is
found in the scopes of a function stands for one of these variables, or for a function of the
program with the types of its parameters.

* `Stmt.Emits.tiled`: the variables of a statement have no cell in common
* `Laid.grows`: the global scope only grows, and functions keep their types
* `Scoped`: what the names inside a function stand for
-/

namespace MiniC

/-! ### Slots

A slot is what the layout of a variable comes to in cells. The offsets of a function run downwards
from its first one, and each declaration takes the next ones below; so the slots tile a range,
whatever the blocks they stand in. -/

/-- A placed variable: its offset and its shape. -/
structure Slot where
  offset : Int
  shape : Shape
deriving DecidableEq, Repr

namespace Slot

/-- The highest offset of the variable's cells. -/
def top (v : Slot) : Int :=
  v.offset + v.shape.elements

/-- No cell belongs to both variables. -/
def Apart (v w : Slot) : Prop :=
  v.top < w.offset ∨ w.top < v.offset

/-- A slot has one cell at least. -/
theorem offset_le_top (v : Slot) : v.offset ≤ v.top := by
  unfold top
  omega

end Slot

/-- The slots lie between two offsets, the lower one excluded, and have no cell in common. -/
structure Tiled (low high : Int) (slots : List Slot) : Prop where
  le : low ≤ high
  fits : minOffset ≤ high → minOffset ≤ low
  within : ∀ v ∈ slots, low < v.offset ∧ v.top ≤ high
  apart : slots.Pairwise Slot.Apart

/-- Nothing tiles the empty range. -/
theorem tiled_nil (n : Int) : Tiled n n [] :=
  ⟨Int.le_refl n, id, fun _ h => absurd h List.not_mem_nil, List.Pairwise.nil⟩

/-- Two ranges one below the other: the slots of the upper one lie above those of the lower one. -/
theorem Tiled.append {low mid high : Int} {a b : List Slot} (ha : Tiled mid high a)
    (hb : Tiled low mid b) : Tiled low high (a ++ b) := by
  refine ⟨Int.le_trans hb.le ha.le, hb.fits ∘ ha.fits, ?_, ?_⟩
  · intro v hv
    rcases List.mem_append.mp hv with hv | hv
    · exact ⟨Int.lt_of_le_of_lt hb.le (ha.within v hv).1, (ha.within v hv).2⟩
    · exact ⟨(hb.within v hv).1, Int.le_trans (hb.within v hv).2 ha.le⟩
  · -- a slot of the lower range ends where the upper one starts
    rw [List.pairwise_append]
    refine ⟨ha.apart, hb.apart, ?_⟩
    intro v hv w hw
    exact Or.inr (Int.lt_of_le_of_lt (hb.within w hw).2 (ha.within v hv).1)

/-- Two different slots of a tiled range are apart. -/
theorem Tiled.apart_of_ne {low high : Int} {slots : List Slot} (h : Tiled low high slots)
    {v w : Slot} (hv : v ∈ slots) (hw : w ∈ slots) (hne : v ≠ w) : v.Apart w := by
  -- being apart is symmetric, so the order of the two in the list does not matter
  have hpair : slots.Pairwise fun a b => a ≠ b → a.Apart b :=
    h.apart.imp (by intro a b hab _; exact hab)
  have hflip : slots.Pairwise (flip fun a b => a ≠ b → a.Apart b) :=
    h.apart.imp (by intro a b hab _; exact hab.symm)
  exact List.Pairwise.forall_of_forall_of_flip (fun x _ hx => absurd rfl hx) hpair hflip hv hw hne

/-- The slot of a placed declaration. -/
def VarDecl.slot (d : VarDecl) : Slot :=
  ⟨(d.layout.map Layout.offset).getD 0, d.shape⟩

mutual

/-- The slots of the variables that an analysed statement declares. -/
def Stmt.slots : Stmt → List Slot
  | .exp _ _ => []
  | .block _ decls body => decls.map VarDecl.slot ++ Stmt.slotsAll body
  | .ifThen _ _ a => a.slots
  | .ifElse _ _ a b => a.slots ++ b.slots
  | .whileDo _ _ b => b.slots
  | .ret _ _ => []

/-- The slots of the variables that analysed statements declare. -/
def Stmt.slotsAll : List Stmt → List Slot
  | [] => []
  | s :: rest => s.slots ++ Stmt.slotsAll rest

end

/-- The slots of the global variables among analysed declarations. -/
def Decl.slots : List Decl → List Slot
  | [] => []
  | .var d :: rest => d.slot :: Decl.slots rest
  | .function _ :: rest => Decl.slots rest

/-- An accepted variable takes the cells below the last one taken. -/
theorem VarDecl.Accepted.tiled {level : Nat} {S S' : ScopeTable} {next : Int} {d : VarDecl}
    {l : Layout} (h : d.Accepted level S next S' l) :
    Tiled (l.offset - 1) next [{ d with layout := some l }.slot] := by
  have hoffset : l.offset = next - d.shape.elements := by rw [h.layout_eq]
  refine ⟨by omega, fun _ => h.fits, ?_, List.pairwise_singleton _ _⟩
  intro v hv
  obtain rfl := List.mem_singleton.mp hv
  simp only [VarDecl.slot, Slot.top, Option.map_some, Option.getD_some]
  omega

/-- The variables at the start of a block tile a range. By induction on the declarations. -/
theorem Declares.tiled {level : Nat} {S S' : ScopeTable} {next next' : Int}
    {ds placed : List VarDecl} (h : Declares level S next ds S' next' placed) :
    Tiled next' next (placed.map VarDecl.slot) := by
  induction h with
  | nil S next => exact tiled_nil next
  | cons hd hrest ih => exact hd.tiled.append ih

/-- The variables of statements that follow each other, if it is so for each of them. -/
theorem Stmt.EmitsAll.tiled {f : Enclosing} {S : ScopeTable} {next : Int} {k : Linker}
    {offset : Int} {start : Nat} {body : List Stmt} {next' : Int} {is : List Instr}
    (ih : ∀ s ∈ body, ∀ {S next start next' is}, s.Emits f S next k offset start next' is →
      Tiled next' next (s.check f S next).value.slots)
    (h : Stmt.EmitsAll f S next k offset start body next' is) :
    Tiled next' next (Stmt.slotsAll (Stmt.checkAll f S next body).value) := by
  induction body generalizing next start is with
  | nil =>
    obtain ⟨rfl, -⟩ := Stmt.emitsAll_nil h
    exact tiled_nil _
  | cons s rest hrest =>
    obtain ⟨next₁, i, j, hi, hj, -⟩ := Stmt.emitsAll_cons h
    have hfirst := ih s List.mem_cons_self hi
    have hothers := hrest (fun a ha => ih a (List.mem_cons_of_mem s ha)) hj
    simp only [Stmt.checkAll, Stmt.slotsAll, hi.next_eq]
    exact hfirst.append hothers

/-- The variables of an accepted statement have no cell in common. -/
theorem Stmt.Emits.tiled {f : Enclosing} {S : ScopeTable} {next : Int} {k : Linker}
    {offset : Int} {start : Nat} {s : Stmt} {next' : Int} {is : List Instr}
    (h : s.Emits f S next k offset start next' is) :
    Tiled next' next (s.check f S next).value.slots := by
  induction s using Stmt.induction generalizing S next start next' is with
  | exp p e =>
    obtain ⟨rfl, -⟩ := Stmt.emits_exp h
    exact tiled_nil _
  | block p ds body ih =>
    obtain ⟨S₁, next₁, placed, j, hcheck, hi, hj, -⟩ := Stmt.emits_block h
    have hbody := hj.tiled ih
    simp only [Stmt.check, Stmt.slots, hcheck]
    exact hi.tiled.append hbody
  | ifThen p t a ih =>
    obtain ⟨ty, i, j, skip, -, -, hj, -, -⟩ := Stmt.emits_ifThen h
    exact ih hj
  | ifElse p t a b iha ihb =>
    obtain ⟨ty, next₁, i, j, l, toElse, toEnd, -, -, hj, hl, -, -, -⟩ := Stmt.emits_ifElse h
    simp only [Stmt.check, Stmt.slots, hj.next_eq]
    exact (iha hj).append (ihb hl)
  | whileDo p t b ih =>
    obtain ⟨ty, i, j, skip, back, -, -, hj, -, -, -⟩ := Stmt.emits_whileDo h
    exact ih hj
  | ret p v =>
    cases v with
    | none =>
      obtain ⟨rfl, -⟩ := Stmt.emits_ret_none h
      exact tiled_nil _
    | some e =>
      obtain ⟨rfl, -⟩ := Stmt.emits_ret_some h
      exact tiled_nil _

/-! ### Global scopes

Functions see the global scope as it is at their place in the text. What one function was compiled
with still holds for those after it, because the scope only grows. -/

/-- A function of this name is known, with this result and these types of parameters. -/
def ScopeTable.Signature (S : ScopeTable) (x : String) (r : BaseType) (tys : List Ty) : Prop :=
  ∃ ps d, S.lookup x = some (.function x r ps d) ∧ ps.map Param.ty = tys

/-- A function has one result type and one list of parameter types. -/
theorem ScopeTable.Signature.unique {S : ScopeTable} {x : String} {r r' : BaseType}
    {tys tys' : List Ty} (h : S.Signature x r tys) (h' : S.Signature x r' tys') :
    r = r' ∧ tys = tys' := by
  obtain ⟨ps, d, hl, rfl⟩ := h
  obtain ⟨ps', d', hl', rfl⟩ := h'
  rw [hl] at hl'
  cases hl'
  exact ⟨rfl, rfl⟩

/-- The arguments of an accepted call have the types of the parameters of the function; all
arguments of `output` are numbers, and it has one. -/
theorem ScopeTable.Signature.of_arguments {S : ScopeTable} {x : String} {r : BaseType}
    {params : List Param} {tys : List Ty} (h : S.Signature x r (params.map Param.ty))
    (hout : S.Signature "output" .void [.int]) (hlen : params.length = tys.length)
    (htys : if x = "output" then ∀ t ∈ tys, t = .int else tys = params.map Param.ty) :
    S.Signature x r tys := by
  split at htys
  · rename_i hname
    subst hname
    obtain ⟨rfl, hparams⟩ := h.unique hout
    have hone : tys.length = 1 := by
      rw [← hlen, ← List.length_map, hparams]
      rfl
    match tys, hone with
    | [t], _ =>
      rw [htys t (by simp)]
      exact hout
  · rw [htys]
    exact h

/-- A variable is found with the offset and the use of a slot. -/
structure Slot.Holds (v : Slot) (ty : Ty) (l : Layout) : Prop where
  offset_eq : l.offset = v.offset
  storage_eq : l.storage = v.shape.storage
  isArray_eq : ty.isArray = v.shape.isArray

/-- The scope of the outermost level, whose variables have these slots. -/
structure ScopeTable.Global (S : ScopeTable) (slots : List Slot) : Prop where
  valid : S.Valid
  isGlobal : S.IsGlobal
  placed : ∀ x n ty l, S.lookup x = some (.var n ty l) →
    l.level = globalLevel ∧ ∃ v ∈ slots, v.Holds ty l
  named : ∀ x n r ps d, S.lookup x = some (.function n r ps d) → n = x

/-- Every name keeps its meaning; a function may be given a body and other names of parameters. -/
structure ScopeTable.Grows (S S' : ScopeTable) : Prop where
  placed : ∀ x n ty l, S.lookup x = some (.var n ty l) → S'.lookup x = some (.var n ty l)
  functions : ∀ x n r ps d, S.lookup x = some (.function n r ps d) →
    S'.Signature x r (ps.map Param.ty)

namespace ScopeTable

/-- Growing is transitive. -/
theorem Grows.trans {S S' S'' : ScopeTable} (h : S.Grows S') (h' : S'.Grows S'') : S.Grows S'' := by
  constructor
  · intro x n ty l hl
    exact h'.placed x n ty l (h.placed x n ty l hl)
  · intro x n r ps d hl
    obtain ⟨ps', d', hl', hps⟩ := h.functions x n r ps d hl
    rw [← hps]
    exact h'.functions x x r ps' d' hl'

/-- A global scope has grown by nothing. -/
theorem Global.grows_self {S : ScopeTable} {slots : List Slot} (h : S.Global slots) :
    S.Grows S := by
  constructor
  · intro x n ty l hl
    exact hl
  · intro x n r ps d hl
    obtain rfl := h.named x n r ps d hl
    exact ⟨ps, d, hl, rfl⟩

/-- A function keeps its types while the scope grows. -/
theorem Grows.signature {S S' : ScopeTable} (h : S.Grows S') {x : String} {r : BaseType}
    {tys : List Ty} (hs : S.Signature x r tys) : S'.Signature x r tys := by
  obtain ⟨ps, d, hl, rfl⟩ := hs
  exact h.functions x x r ps d hl

/-- More slots than those of the scope do no harm. -/
theorem Global.mono {S : ScopeTable} {slots slots' : List Slot} (h : S.Global slots)
    (hsub : ∀ v ∈ slots, v ∈ slots') : S.Global slots' := by
  refine ⟨h.valid, h.isGlobal, ?_, h.named⟩
  intro x n ty l hl
  obtain ⟨hlevel, v, hv, hholds⟩ := h.placed x n ty l hl
  exact ⟨hlevel, v, hsub v hv, hholds⟩

/-- A new name leaves the others alone. -/
theorem Global.grows_declare {S S' : ScopeTable} {slots : List Slot} (h : S.Global slots)
    {x : String} {symbol : Symbol} (hd : S.declare? x symbol = some S') : S.Grows S' := by
  have hnone := h.isGlobal.lookup_eq_none_of_declare hd
  have hold : ∀ y s, S.lookup y = some s → S'.lookup y = some s := by
    intro y s hy
    rw [lookup_declare h.valid hd, if_neg, hy]
    rintro rfl
    rw [hnone] at hy
    cases hy
  constructor
  · intro y n ty l hl
    exact hold y _ hl
  · intro y n r ps d hl
    obtain rfl := h.named y n r ps d hl
    exact ⟨ps, d, hold _ _ hl, rfl⟩

/-- Declaring a global variable adds its slot. -/
theorem Global.declare_var {S S' : ScopeTable} {slots : List Slot} (h : S.Global slots) {next : Int}
    {d : VarDecl} {l : Layout} (hd : d.Accepted globalLevel S next S' l) :
    S'.Global ({ d with layout := some l }.slot :: slots) := by
  refine ⟨h.valid.declare hd.declared, h.isGlobal.declare hd.declared, ?_, ?_⟩
  · intro x n ty l' hl
    rw [lookup_declare h.valid hd.declared] at hl
    split at hl
    · cases hl
      refine ⟨by rw [hd.layout_eq], _, List.mem_cons_self, ⟨rfl, ?_, rfl⟩⟩
      rw [hd.layout_eq]
      rfl
    · obtain ⟨hlevel, v, hv, hholds⟩ := h.placed x n ty l' hl
      exact ⟨hlevel, v, List.mem_cons_of_mem _ hv, hholds⟩
  · intro x n r ps d' hl
    rw [lookup_declare h.valid hd.declared] at hl
    split at hl
    · cases hl
    · exact h.named x n r ps d' hl

/-- A table in which a function was entered. -/
theorem Global.of_function {S S' : ScopeTable} {slots : List Slot} (h : S.Global slots)
    {f : FunDecl} (hvalid : S'.Valid) (hglobal : S'.IsGlobal)
    (hl : ∀ y, S'.lookup y = if f.name = y then some f.symbol else S.lookup y) :
    S'.Global slots := by
  refine ⟨hvalid, hglobal, ?_, ?_⟩
  · intro x n ty l hx
    rw [hl] at hx
    split at hx
    · cases hx
    · exact h.placed x n ty l hx
  · intro x n r ps d hx
    rw [hl] at hx
    split at hx
    · rename_i heq
      cases hx
      exact heq
    · exact h.named x n r ps d hx

/-- A function can be announced if its name is new, or known with the same signature. -/
theorem Global.announce {S S' : ScopeTable} {slots : List Slot} (h : S.Global slots) {f : FunDecl}
    (hann : f.announce? S = some S') :
    S'.Global slots ∧ S.Grows S' ∧ S'.Signature f.name f.result (f.params.map VarDecl.ty) := by
  have hparams : (f.params.map fun p => (⟨p.name, p.ty⟩ : Param)).map Param.ty
      = f.params.map VarDecl.ty := by
    rw [List.map_map]
    rfl
  unfold FunDecl.announce? at hann
  rw [h.isGlobal.lookupInner] at hann
  split at hann
  · have hl := lookup_declare h.valid hann
    refine ⟨h.of_function (h.valid.declare hann) (h.isGlobal.declare hann) hl, h.grows_declare hann,
      ?_⟩
    exact ⟨_, _, by rw [hl, if_pos rfl]; rfl, hparams⟩
  · rename_i known hknown
    split at hann
    · rename_i hsame
      simp only [Bool.and_eq_true, Symbol.sameSignature, decide_eq_true_eq] at hsame
      obtain ⟨hfun, hbase, htys⟩ := hsame
      -- what is known is a function of the same name and signature
      cases known with
      | var n ty l => cases hfun
      | function n r ps d =>
        obtain rfl := h.named _ n r ps d hknown
        have hr : r = f.result := hbase
        have hps : ps.map Param.ty = f.params.map VarDecl.ty := htys.trans hparams
        split at hann
        · cases hann
          exact ⟨h, h.grows_self, ps, d, by rw [hknown, hr], hps⟩
        · split at hann
          · cases hann
          · have hl := lookup_redefine h.valid hann
            have hsig : S'.Signature f.name f.result (f.params.map VarDecl.ty) :=
              ⟨_, _, by rw [hl, if_pos rfl]; rfl, hparams⟩
            refine ⟨h.of_function (h.valid.redefine hann) (h.isGlobal.redefine hann) hl, ⟨?_, ?_⟩,
              hsig⟩
            · intro x n ty l hx
              rw [hl, if_neg, hx]
              rintro rfl
              rw [hknown] at hx
              cases hx
            · intro x n r' ps' d' hx
              by_cases heq : f.name = x
              · subst heq
                rw [hknown] at hx
                cases hx
                rw [hr, hps]
                exact hsig
              · obtain rfl := h.named x n r' ps' d' hx
                exact ⟨ps', d', by rw [hl, if_neg heq, hx], rfl⟩
    · cases hann

end ScopeTable

/-- Announcing a function adds no variable. -/
theorem FunDecl.var_of_announce {S S' : ScopeTable} (hS : S.Valid) {f : FunDecl}
    (hann : f.announce? S = some S') {x n : String} {ty : Ty} {l : Layout}
    (hl : S'.lookup x = some (.var n ty l)) : S.lookup x = some (.var n ty l) := by
  have hold : (∀ y, S'.lookup y = if f.name = y then some f.symbol else S.lookup y) →
      S.lookup x = some (.var n ty l) := by
    intro hlookup
    rw [hlookup] at hl
    split at hl
    · cases hl
    · exact hl
  unfold FunDecl.announce? at hann
  split at hann
  · exact hold (ScopeTable.lookup_declare hS hann)
  · split at hann
    · split at hann
      · cases hann
        exact hl
      · split at hann
        · cases hann
        · exact hold (ScopeTable.lookup_redefine hS hann)
    · cases hann

/-- At first there are only routines, and no variables. -/
theorem ScopeTable.global_initial : ScopeTable.initial.Global [] := by
  obtain ⟨hv, hl⟩ := ScopeTable.valid_initial
  refine ⟨hv, ⟨_, rfl⟩, ?_, ?_⟩
  · intro x n ty l hx
    rw [hl] at hx
    split at hx
    · cases hx
    · split at hx
      · cases hx
      · cases hx
  · intro x n r ps d hx
    rw [hl] at hx
    split at hx
    · rename_i heq
      cases hx
      exact heq
    · split at hx
      · rename_i heq
        cases hx
        exact heq
      · cases hx

/-- Along the declarations of a program the global scope grows by slots of its variables. -/
theorem Laid.scopes {linked : Bool} {pool : Entries} {S S' : ScopeTable} {next next' : Int}
    {start : Nat} {ds : List Decl} {is : List Instr}
    (h : Laid linked pool S next start ds S' next' is) {slots : List Slot} (hS : S.Global slots) :
    S'.Global (slots ++ Decl.slots (Decl.checkAll S next ds).value) ∧ S.Grows S' := by
  induction h generalizing slots with
  | nil S next start => exact ⟨by simpa [Decl.checkAll, Decl.slots] using hS, hS.grows_self⟩
  | var hd hcheck hrest ih =>
    obtain ⟨hglobal, hgrows⟩ := ih (hS.declare_var hd)
    refine ⟨?_, (hS.grows_declare hd.declared).trans hgrows⟩
    simp only [Decl.checkAll, hcheck, Decl.slots]
    apply hglobal.mono
    intro v hv
    simp only [List.cons_append, List.mem_cons, List.mem_append] at hv ⊢
    rcases hv with hv | hv | hv
    · exact Or.inr (Or.inl hv)
    · exact Or.inl hv
    · exact Or.inr (Or.inr hv)
  | prototype hbody hann hscopes hnext hvalue hrest ih =>
    obtain ⟨hS₁, hgrows₁, -⟩ := hS.announce hann
    obtain ⟨hglobal, hgrows⟩ := ih hS₁
    refine ⟨?_, hgrows₁.trans hgrows⟩
    simpa only [Decl.checkAll, Decl.check, hscopes, hnext, Decl.slots] using hglobal
  | definition hdef hjump hrest ih =>
    obtain ⟨hS₁, hgrows₁, -⟩ := hS.announce hdef.announced
    obtain ⟨hglobal, hgrows⟩ := ih hS₁
    refine ⟨?_, hgrows₁.trans hgrows⟩
    simpa only [Decl.checkAll, Decl.check, hdef.scopes_eq, hdef.next_eq, Decl.slots] using hglobal

/-- The global variables of a program have no cell in common. -/
theorem Laid.tiled {linked : Bool} {pool : Entries} {S S' : ScopeTable} {next next' : Int}
    {start : Nat} {ds : List Decl} {is : List Instr}
    (h : Laid linked pool S next start ds S' next' is) :
    Tiled next' next (Decl.slots (Decl.checkAll S next ds).value) := by
  induction h with
  | nil S next start => exact tiled_nil next
  | var hd hcheck hrest ih =>
    simp only [Decl.checkAll, hcheck, Decl.slots]
    exact hd.tiled.append ih
  | prototype hbody hann hscopes hnext hvalue hrest ih =>
    simpa only [Decl.checkAll, Decl.check, hscopes, hnext, Decl.slots] using ih
  | definition hdef hjump hrest ih =>
    simpa only [Decl.checkAll, Decl.check, hdef.scopes_eq, hdef.next_eq, Decl.slots] using ih

/-! ### Scopes inside a function

Inside a function a name stands for a variable of the function, or else for what it stands for
outside. `Scoped` is kept by opening a block and by every declaration in it. -/

/-- The names inside a function: variables of the function, which have these slots, and the names
of the global scope `G`. -/
structure Scoped (G : ScopeTable) (slots : List Slot) (S : ScopeTable) : Prop where
  valid : S.Valid
  placed : ∀ x n ty l, S.lookup x = some (.var n ty l) →
    G.lookup x = some (.var n ty l) ∨ (l.level = frameLevel ∧ ∃ v ∈ slots, v.Holds ty l)
  functions : ∀ x n r ps d, S.lookup x = some (.function n r ps d) →
    n = x ∧ G.Signature x r (ps.map Param.ty)

/-- More slots than those of the scope do no harm, as in `ScopeTable.Global.mono`. -/
theorem Scoped.mono {G S : ScopeTable} {slots slots' : List Slot} (h : Scoped G slots S)
    (hsub : ∀ v ∈ slots, v ∈ slots') : Scoped G slots' S := by
  refine ⟨h.valid, ?_, h.functions⟩
  intro x n ty l hl
  rcases h.placed x n ty l hl with hl | ⟨hlevel, v, hv, hholds⟩
  · exact Or.inl hl
  · exact Or.inr ⟨hlevel, v, hsub v hv, hholds⟩

/-- Opening a block changes no lookup. -/
theorem Scoped.enter {G S : ScopeTable} {slots : List Slot} (h : Scoped G slots S) :
    Scoped G slots S.enter := by
  refine ⟨h.valid.enter, ?_, ?_⟩
  · intro x n ty l hl
    rw [ScopeTable.lookup_enter] at hl
    exact h.placed x n ty l hl
  · intro x n r ps d hl
    rw [ScopeTable.lookup_enter] at hl
    exact h.functions x n r ps d hl

/-- A declared variable has its slot, and hides what its name stood for. -/
theorem Scoped.declare {G S S' : ScopeTable} {slots : List Slot} (h : Scoped G slots S)
    {next : Int} {d : VarDecl} {l : Layout} (hd : d.Accepted frameLevel S next S' l)
    (hslot : { d with layout := some l }.slot ∈ slots) : Scoped G slots S' := by
  have hl := ScopeTable.lookup_declare h.valid hd.declared
  refine ⟨h.valid.declare hd.declared, ?_, ?_⟩
  · intro x n ty l' hx
    rw [hl] at hx
    split at hx
    · cases hx
      refine Or.inr ⟨by rw [hd.layout_eq], _, hslot, ⟨rfl, ?_, rfl⟩⟩
      rw [hd.layout_eq]
      rfl
    · exact h.placed x n ty l' hx
  · intro x n r ps d' hx
    rw [hl] at hx
    split at hx
    · cases hx
    · exact h.functions x n r ps d' hx

/-- The declarations at the start of a block, by induction on them. -/
theorem Scoped.declares {G S S' : ScopeTable} {slots : List Slot} {next next' : Int}
    {ds placed : List VarDecl} (h : Scoped G slots S)
    (hd : Declares frameLevel S next ds S' next' placed)
    (hslots : ∀ v ∈ placed.map VarDecl.slot, v ∈ slots) : Scoped G slots S' := by
  induction hd with
  | nil S next => exact h
  | cons hfirst hrest ih =>
    simp only [List.map_cons, List.mem_cons, forall_eq_or_imp] at hslots
    exact ih (h.declare hfirst hslots.1) hslots.2

/-- The names of the outermost level, as seen from a function that is declared there. -/
theorem ScopeTable.Global.scopedIn {S G : ScopeTable} {globals : List Slot} (h : S.Global globals)
    (hgrows : S.Grows G) (slots : List Slot) : Scoped G slots S := by
  refine ⟨h.valid, ?_, ?_⟩
  · intro x n ty l hl
    exact Or.inl (hgrows.placed x n ty l hl)
  · intro x n r ps d hl
    exact ⟨h.named x n r ps d hl, hgrows.functions x n r ps d hl⟩

end MiniC
