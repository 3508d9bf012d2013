import MiniC.Proofs.Grammar.Trees
import MiniC.Proofs.Meaning.Evaluation
import MiniC.Proofs.Passes
import MiniC.Proofs.Typing.Programs
import MiniC.Proofs.Typing.Uses

/-!
# How storage is cut

The analysis hands out cells downwards, whatever else it finds wrong with a program: a variable that
has no name of its own, or an array without elements, still gets its cells. Only a declaration that
does not fit gets none; it is reported, and the next one is placed as if it were not there. So the
variables of a frame that were not reported fill one range of cells without gaps.

* `VarDecl.Stacked`: declarations placed one below the other
* `Stmt.stacks_check`, `FunDecl.stacks_check`, `Decl.stacked_checkAll`: the analysis places them so
* `VarDecl.Fills`: what it means for the cells of a frame
* `Program.Fills`: the same for every frame of a program, and the cells of its parameters
* `analyze_fills`: analysed programs
-/

namespace MiniC

/-! ### Declarations in order

The analysis hands out cells downwards. `Stacked` describes what it has done with a list of
declarations: each lies below the one before, unless it was too large, and then it takes no cell. -/

namespace Diagnostic

/-- A declaration did not fit. -/
def isTooLarge (d : Diagnostic) : Bool :=
  match d.fault with
  | .tooLarge _ => true
  | _ => false

theorem filter_isTooLarge {errors : List Diagnostic} (h : errors.filter ofDeclaration = []) :
    errors.filter isTooLarge = [] := by
  refine filter_eq_nil (fun d hd => ?_) h
  obtain ⟨pos, fault⟩ := d
  cases fault with
  | tooLarge name => rfl
  | _ => cases hd

end Diagnostic

namespace VarDecl

/-- The diagnostic of a declaration that does not fit. -/
def oversize (d : VarDecl) : Diagnostic :=
  ⟨d.pos, .tooLarge d.name⟩

/-- Analysed declarations below an offset, in order. Each takes the highest cells that are left,
except the large ones, which do not fit and take none. The last offset is below all of them. -/
inductive Stacked (level : Nat) : Int → List VarDecl → List VarDecl → Int → Prop
  | nil (next : Int) : Stacked level next [] [] next
  | fits {next low : Int} {d : VarDecl} {ds large : List VarDecl}
      (hfits : minOffset ≤ next - d.cells)
      (hlayout : d.layout = some ⟨level, next - d.shape.elements, d.shape.storage⟩)
      (hrest : Stacked level (next - d.cells) ds large low) : Stacked level next (d :: ds) large low
  | tooLarge {next low : Int} {d : VarDecl} {ds large : List VarDecl}
      (hlarge : next - d.cells < minOffset)
      (hlayout : d.layout = some ⟨level, next, d.shape.storage⟩)
      (hrest : Stacked level next ds large low) : Stacked level next (d :: ds) (d :: large) low

/-- Analysed declarations lie one below the other, and the diagnostics name those of them that do
not fit. -/
def Stacks (level : Nat) (next : Int) (ds : List VarDecl) (errors : List Diagnostic) (low : Int) :
    Prop :=
  ∃ large, Stacked level next ds large low ∧
    errors.filter Diagnostic.isTooLarge = large.map oversize

section

variable {level : Nat} {next mid low : Int} {ds es large large' : List VarDecl}
  {errors errors' : List Diagnostic}

theorem Stacked.append (h : Stacked level next ds large mid)
    (h' : Stacked level mid es large' low) :
    Stacked level next (ds ++ es) (large ++ large') low := by
  induction h with
  | nil next => exact h'
  | fits hfits hlayout hrest ih => exact .fits hfits hlayout (ih h')
  | tooLarge hlarge hlayout hrest ih => exact .tooLarge hlarge hlayout (ih h')

/-- The large declarations are some of the declarations, in order. -/
theorem Stacked.sublist (h : Stacked level next ds large low) : large.Sublist ds := by
  induction h with
  | nil next => exact .slnil
  | fits hfits hlayout hrest ih => exact ih.cons _
  | tooLarge hlarge hlayout hrest ih => exact ih.cons_cons _

/-- Every declaration has storage, also one that does not fit. -/
theorem Stacked.placed (h : Stacked level next ds large low) :
    ∀ d ∈ ds, d.layout.isSome = true := by
  induction h with
  | nil next => exact List.forall_mem_nil _
  | fits hfits hlayout hrest ih => exact List.forall_mem_cons.mpr ⟨by rw [hlayout]; rfl, ih⟩
  | tooLarge hlarge hlayout hrest ih => exact List.forall_mem_cons.mpr ⟨by rw [hlayout]; rfl, ih⟩

/-- Cells are handed out downwards, and never below the limit. -/
theorem Stacked.bounds (h : Stacked level next ds large low) (hnext : minOffset ≤ next) :
    minOffset ≤ low ∧ low ≤ next := by
  induction h with
  | nil next => exact ⟨hnext, Int.le_refl _⟩
  | fits hfits hlayout hrest ih =>
    obtain ⟨hmin, hle⟩ := ih hfits
    exact ⟨hmin, by omega⟩
  | tooLarge hlarge hlayout hrest ih => exact ih hnext

/-- Without a declaration no cell is taken. -/
theorem Stacks.silent (next : Int) (h : errors.filter Diagnostic.isTooLarge = []) :
    Stacks level next [] errors next :=
  ⟨[], .nil next, h⟩

/-- Declarations one behind the other, with the diagnostics of both. -/
theorem Stacks.append (h : Stacks level next ds errors mid) (h' : Stacks level mid es errors' low) :
    Stacks level next (ds ++ es) (errors ++ errors') low := by
  obtain ⟨large, hstacked, heq⟩ := h
  obtain ⟨large', hstacked', heq'⟩ := h'
  refine ⟨large ++ large', hstacked.append hstacked', ?_⟩
  rw [List.filter_append, heq, heq', List.map_append]

/-- Diagnostics before that are about something else. -/
theorem Stacks.behind (h : errors.filter Diagnostic.isTooLarge = [])
    (h' : Stacks level next ds errors' low) : Stacks level next ds (errors ++ errors') low :=
  (Stacks.silent next h).append h'

/-- Diagnostics behind that are about something else. -/
theorem Stacks.ahead (h : Stacks level next ds errors low)
    (h' : errors'.filter Diagnostic.isTooLarge = []) :
    Stacks level next ds (errors ++ errors') low := by
  rw [← List.append_nil ds]
  exact h.append (Stacks.silent low h')

end

end VarDecl

/-! ### What the analysis places

One lemma for each function of the analysis, with the diagnostics about size that it makes. All
other diagnostics are left out of the comparison. -/

namespace VarDecl

variable (role : Role) (level : Nat) (S : ScopeTable) (next : Int)

/-- A declaration takes its cells, or is reported as too large. -/
theorem stacks_check (d : VarDecl) :
    Stacks level next [(d.check role level S next).value] (d.check role level S next).errors
      (d.check role level S next).next := by
  have hcells : next - (d.shape.elements : Int) - 1 = next - (d.cells : Nat) := by
    simp only [VarDecl.cells]
    omega
  simp only [VarDecl.check, VarDecl.place, hcells]
  split
  · rename_i hfits
    refine ⟨[], .fits hfits rfl (.nil _), ?_⟩
    simp only [List.filter_append, filter_demand, Diagnostic.isTooLarge, cond_false, cond_true,
      List.append_nil]
    rfl
  · rename_i hlarge
    refine ⟨[_], .tooLarge (Int.not_le.mp hlarge) rfl (.nil _), ?_⟩
    simp only [List.filter_append, filter_demand, Diagnostic.isTooLarge, cond_false, cond_true,
      List.append_nil]
    rfl

/-- Declarations of a frame take their cells in order. Induction on the list. -/
theorem stacks_checkAll (ds : List VarDecl) :
    Stacks level next (checkAll role level S next ds).value (checkAll role level S next ds).errors
      (checkAll role level S next ds).next := by
  induction ds generalizing S next with
  | nil => exact .silent next rfl
  | cons d rest ih => exact (stacks_check role level S next d).append (ih _ _)

end VarDecl

namespace Stmt

variable (f : Enclosing) (S : ScopeTable) (next : Int)

/-- Statements in order, if each of them stacks its variables. Induction on the list. -/
theorem stacks_checkAll {body : List Stmt}
    (ih : ∀ s ∈ body, ∀ {next}, VarDecl.Stacks frameLevel next (s.check f S next).value.variables
      (s.check f S next).errors (s.check f S next).next) :
    VarDecl.Stacks frameLevel next (variablesAll (checkAll f S next body).value)
      (checkAll f S next body).errors (checkAll f S next body).next := by
  induction body generalizing next with
  | nil => exact .silent next rfl
  | cons s rest hrest =>
    exact (ih s List.mem_cons_self).append (hrest _ fun a ha => ih a (List.mem_cons_of_mem s ha))

/-- The variables of a statement lie one below the other, blocks inside it in the order of the
text. -/
theorem stacks_check (s : Stmt) :
    VarDecl.Stacks frameLevel next (s.check f S next).value.variables (s.check f S next).errors
      (s.check f S next).next := by
  induction s using Stmt.induction generalizing S next with
  | exp p e => exact .silent next (Diagnostic.filter_isTooLarge (e.filter_check S))
  | block p ds body ih =>
    have hdecls := VarDecl.stacks_checkAll .var frameLevel S.enter next ds
    exact hdecls.append (stacks_checkAll f _ _ fun s hs _ => ih s hs _ _)
  | ifThen p t a ih => exact .behind (Diagnostic.filter_isTooLarge (filter_test S _ t)) (ih _ _)
  | ifElse p t a b iha ihb =>
    exact (VarDecl.Stacks.behind (Diagnostic.filter_isTooLarge (filter_test S _ t))
      (iha _ _)).append (ihb _ _)
  | whileDo p t b ih => exact .behind (Diagnostic.filter_isTooLarge (filter_test S _ t)) (ih _ _)
  | ret p v =>
    cases v with
    | none => exact .silent next (filter_demand ..)
    | some e =>
      refine .silent next (Diagnostic.filter_isTooLarge ?_)
      simp only [Stmt.check, List.filter_append, e.filter_check, filter_returnErrors,
        List.append_nil]

end Stmt

/-- Parameters come first, then the variables of the body. -/
theorem FunDecl.stacks_check (S : ScopeTable) (next : Int) (f : FunDecl) :
    VarDecl.Stacks frameLevel firstFrameOffset (f.check S next).value.variables
      (f.check S next).errors (f.check S next).value.frameEnd := by
  have hparams : VarDecl.Stacks frameLevel firstFrameOffset _ _ _ :=
    .behind (filter_demand _ (f.announce? S).isSome f.pos (.redeclared .function f.name))
      (VarDecl.stacks_checkAll .param frameLevel ((f.announce? S).getD S).enter _ f.params)
  unfold FunDecl.check
  cases f.body with
  | none =>
    simp only [FunDecl.variables, Option.map_none, Option.getD_none, List.append_nil]
    exact hparams
  | some b =>
    exact (hparams.append (Stmt.stacks_check _ _ _ b.toStmt)).ahead (filter_demand ..)

namespace Decl

/-- Analysed declarations of the outermost level: the global variables lie one below the other, and
so do the variables of each function in its frame. -/
inductive Stacked : Int → List Decl → List VarDecl → Int → Prop
  | nil (next : Int) : Stacked next [] [] next
  | var {next mid low : Int} {d : VarDecl} {ds : List Decl} {large large' : List VarDecl}
      (hd : VarDecl.Stacked globalLevel next [d] large mid) (hrest : Stacked mid ds large' low) :
      Stacked next (.var d :: ds) (large ++ large') low
  | function {next low : Int} {f : FunDecl} {ds : List Decl} {large large' : List VarDecl}
      (hf : VarDecl.Stacked frameLevel firstFrameOffset f.variables large f.frameEnd)
      (hrest : Stacked next ds large' low) : Stacked next (.function f :: ds) (large ++ large') low

/-- Declarations of the outermost level. The frame of each function starts at the same offset.
Induction on the list. -/
theorem stacked_checkAll (S : ScopeTable) (next : Int) (ds : List Decl) :
    ∃ large, Stacked next (checkAll S next ds).value large (checkAll S next ds).next ∧
      (checkAll S next ds).errors.filter Diagnostic.isTooLarge = large.map VarDecl.oversize := by
  induction ds generalizing S next with
  | nil => exact ⟨[], .nil next, rfl⟩
  | cons d rest ih =>
    simp only [checkAll, List.filter_append]
    cases d with
    | var d =>
      obtain ⟨large, hd, heq⟩ := d.stacks_check .var globalLevel S next
      obtain ⟨large', hrest, heq'⟩ := ih (d.check .var globalLevel S next).scopes
        (d.check .var globalLevel S next).next
      exact ⟨large ++ large', .var hd hrest, by
        rw [List.map_append, ← heq, ← heq']
        rfl⟩
    | function f =>
      obtain ⟨large, hf, heq⟩ := f.stacks_check S next
      obtain ⟨large', hrest, heq'⟩ := ih (f.check S next).scopes next
      simp only [Decl.check, FunDecl.scopes_check.2]
      exact ⟨large ++ large', .function hf hrest, by rw [List.map_append, ← heq, ← heq']⟩

section

variable {next low : Int} {ds : List Decl} {large : List VarDecl}

/-- Global variables are some of the variables of a program. -/
theorem sublist_variables (ds : List Decl) :
    (ds.filterMap Decl.variable?).Sublist (ds.flatMap Decl.variables) := by
  induction ds with
  | nil => exact .slnil
  | cons d rest ih =>
    cases d with
    | var d => exact ih.cons_cons d
    | function f => exact ih.trans (List.sublist_append_right _ _)

/-- The large declarations are some of the variables of the program. -/
theorem Stacked.sublist (h : Stacked next ds large low) :
    large.Sublist (ds.flatMap Decl.variables) := by
  induction h with
  | nil next => exact .slnil
  | var hd hrest ih => exact hd.sublist.append ih
  | function hf hrest ih => exact hf.sublist.append ih

/-- Every variable of the program has storage. -/
theorem Stacked.placed (h : Stacked next ds large low) :
    ∀ d ∈ ds.flatMap Decl.variables, d.layout.isSome = true := by
  induction h with
  | nil next => exact List.forall_mem_nil _
  | var hd hrest ih => exact List.forall_mem_append.mpr ⟨hd.placed, ih⟩
  | function hf hrest ih => exact List.forall_mem_append.mpr ⟨hf.placed, ih⟩

/-- Global cells are handed out downwards, and never below the limit. -/
theorem Stacked.bounds (h : Stacked next ds large low) (hnext : minOffset ≤ next) :
    minOffset ≤ low ∧ low ≤ next := by
  induction h with
  | nil next => exact ⟨hnext, Int.le_refl _⟩
  | var hd hrest ih =>
    obtain ⟨hmin, hle⟩ := hd.bounds hnext
    obtain ⟨hmin', hle'⟩ := ih hmin
    exact ⟨hmin', Int.le_trans hle' hle⟩
  | function hf hrest ih => exact ih hnext

/-- The variables of a function; the large ones among them are those of the program. -/
theorem Stacked.of_function (h : Stacked next ds large low)
    (hnodup : (ds.flatMap Decl.variables).Nodup) {f : FunDecl} (hf : .function f ∈ ds) :
    ∃ own, VarDecl.Stacked frameLevel firstFrameOffset f.variables own f.frameEnd ∧
      ∀ d ∈ f.variables, d ∈ own ↔ d ∈ large := by
  induction h with
  | nil next => cases hf
  | var hd hrest ih =>
    obtain ⟨-, hnodup, hdisjoint⟩ := List.nodup_append.mp hnodup
    rcases List.mem_cons.mp hf with hf | hf
    · cases hf
    · obtain ⟨own, hown, hmem⟩ := ih hnodup hf
      refine ⟨own, hown, fun e he => ?_⟩
      have hother : e ∉ _ := fun hlarge => hdisjoint e (hd.sublist.subset hlarge) e
        (List.mem_flatMap.mpr ⟨_, hf, he⟩) rfl
      rw [List.mem_append, or_iff_right hother, hmem e he]
  | function hg hrest ih =>
    obtain ⟨-, hnodup, hdisjoint⟩ := List.nodup_append.mp hnodup
    rcases List.mem_cons.mp hf with hf | hf
    · cases hf
      refine ⟨_, hg, fun e he => ?_⟩
      have hother : e ∉ _ := fun hlarge => hdisjoint e he e (hrest.sublist.subset hlarge) rfl
      rw [List.mem_append, or_iff_left hother]
    · obtain ⟨own, hown, hmem⟩ := ih hnodup hf
      refine ⟨own, hown, fun e he => ?_⟩
      have hother : e ∉ _ := fun hlarge => hdisjoint e (hg.sublist.subset hlarge) e
        (List.mem_flatMap.mpr ⟨_, hf, he⟩) rfl
      rw [List.mem_append, or_iff_right hother, hmem e he]

/-- The global variables; the large ones among them are those of the program. -/
theorem Stacked.globals (h : Stacked next ds large low)
    (hnodup : (ds.flatMap Decl.variables).Nodup) :
    ∃ own, VarDecl.Stacked globalLevel next (ds.filterMap Decl.variable?) own low ∧
      ∀ d ∈ ds.filterMap Decl.variable?, d ∈ own ↔ d ∈ large := by
  induction h with
  | nil next => exact ⟨[], .nil next, fun _ h => absurd h List.not_mem_nil⟩
  | @var next mid low d ds large large' hd hrest ih =>
    obtain ⟨-, hnodup, hdisjoint⟩ := List.nodup_append.mp hnodup
    obtain ⟨own, hown, hmem⟩ := ih hnodup
    refine ⟨large ++ own, hd.append hown, fun e he => ?_⟩
    rcases List.mem_cons.mp he with rfl | he
    · have hnew := fun hmem => hdisjoint e List.mem_cons_self e hmem rfl
      have hown' : e ∉ own := fun h => hnew ((sublist_variables ds).subset (hown.sublist.subset h))
      have hlarge' : e ∉ large' := fun h => hnew (hrest.sublist.subset h)
      rw [List.mem_append, List.mem_append, or_iff_left hown', or_iff_left hlarge']
    · rw [List.mem_append, List.mem_append, hmem e he]
  | function hf hrest ih =>
    obtain ⟨-, hnodup, hdisjoint⟩ := List.nodup_append.mp hnodup
    obtain ⟨own, hown, hmem⟩ := ih hnodup
    refine ⟨own, hown, fun e he => ?_⟩
    have hother : e ∉ _ := fun hlarge => hdisjoint e (hf.sublist.subset hlarge) e
      ((sublist_variables _).subset he) rfl
    rw [List.mem_append, or_iff_right hother, hmem e he]

end

end Decl

/-- The same of a whole program: the declarations of an analysed tree are stacked, and its errors
name the large ones among them. -/
theorem stacked_analyze (p : Program) (trace : Bool) :
    ∃ large, Decl.Stacked 0 (analyze p trace).program.decls large
        (analyze p trace).program.globalsEnd ∧
      (analyze p trace).errors.filter Diagnostic.isTooLarge = large.map VarDecl.oversize := by
  rw [analyze_eq]
  exact Decl.stacked_checkAll .initial 0 p.decls

/-! ### The cells of a frame

From the stack to the cells: which declarations are kept can be told from the diagnostics, and those
that are kept fill the frame without a gap. -/

/-- A list holds itself at its start. -/
theorem holds_self {α : Type} (whole : List α) : Holds whole 0 whole := by
  intro i hi
  rw [Nat.zero_add, List.getElem?_eq_getElem hi]

namespace VarDecl

/-- The declarations that are not reported as too large. -/
def kept (errors : List Diagnostic) (ds : List VarDecl) : List VarDecl :=
  ds.filter fun d => d.oversize ∉ errors

/-- Declarations fill the cells from `high` down to, but without, `low`, except those that the
diagnostics report as too large. -/
structure Fills (errors : List Diagnostic) (level : Nat) (high : Int) (ds : List VarDecl)
    (low : Int) : Prop where
  /-- A declaration is reported when its cells, below those before it, would pass the limit. -/
  reported : ∀ {before d after}, ds = before ++ d :: after →
    (d.oversize ∈ errors ↔ high - cellsAll (kept errors before) - d.cells < minOffset)
  /-- It lies directly below the declarations before it that were not reported. -/
  layout : ∀ {before d after}, ds = before ++ d :: after → d.oversize ∉ errors →
    d.layout = some
      ⟨level, high - cellsAll (kept errors before) - d.shape.elements, d.shape.storage⟩
  low_eq : low = high - cellsAll (kept errors ds)
  /-- The lowest cell of an array is that for its length. -/
  lengths : ∀ d ∈ kept errors ds, ∀ n base, d.shape = .array n → Holds (d.lengthCode base) 0
    [.rm .ldc .ac n .unused s!"length of array {d.name}",
     .rm .st .ac d.slot.offset base "store array length"]
  apart : ((kept errors ds).map VarDecl.slot).Pairwise Slot.Apart
  covers : ∀ c, low < c ∧ c ≤ high ↔ ∃ d ∈ kept errors ds, d.slot.offset ≤ c ∧ c ≤ d.slot.top

namespace Fills

variable {errors : List Diagnostic} {level : Nat} {high low : Int} {d : VarDecl}
  {ds : List VarDecl}

/-- No declaration fills no cell. -/
theorem nil (errors : List Diagnostic) (level : Nat) (n : Int) : Fills errors level n [] n := by
  refine ⟨?_, ?_, ?_, ?_, List.Pairwise.nil, ?_⟩
  · intro before d after h
    simp at h
  · intro before d after h
    simp at h
  · simp [kept, cellsAll]
  · intro d hd
    cases hd
  · intro c
    simp [kept]

/-- Cells are filled downwards. -/
theorem low_le (h : Fills errors level high ds low) : low ≤ high := by
  rw [h.low_eq]
  omega

/-- A declaration that is not reported lies at the top, above what fills the cells below it. -/
theorem keep (hd : d.oversize ∉ errors) (hfits : minOffset ≤ high - d.cells)
    (hlayout : d.layout = some ⟨level, high - d.shape.elements, d.shape.storage⟩)
    (h : Fills errors level (high - d.cells) ds low) : Fills errors level high (d :: ds) low := by
  have hkept : ∀ es, kept errors (d :: es) = d :: kept errors es := fun es =>
    List.filter_cons_of_pos (by simpa using hd)
  have hcells : ∀ es,
      (cellsAll (kept errors (d :: es)) : Int) = d.cells + cellsAll (kept errors es) := by
    intro es
    simp [hkept, cellsAll]
  have hoffset : d.slot.offset = high - d.shape.elements := by simp [slot, hlayout]
  have htop : d.slot.top = high := by
    rw [Slot.top, hoffset]
    exact Int.sub_add_cancel ..
  have hsize : (d.cells : Int) = d.shape.elements + 1 := rfl
  -- the first declaration is the new one, and the others are as they were, below it
  refine ⟨?_, ?_, ?_, ?_, ?_, ?_⟩
  · intro before e after hsplit
    cases before with
    | nil =>
      obtain ⟨rfl, rfl⟩ := List.cons.inj hsplit
      simp only [hd, kept, List.filter_nil, cellsAll, List.map_nil, List.sum_nil, false_iff]
      omega
    | cons b before =>
      obtain ⟨rfl, htail⟩ := List.cons.inj hsplit
      rw [h.reported htail, hcells, Int.sub_sub high]
  · intro before e after hsplit he
    cases before with
    | nil =>
      obtain ⟨rfl, rfl⟩ := List.cons.inj hsplit
      simpa [kept, cellsAll] using hlayout
    | cons b before =>
      obtain ⟨rfl, htail⟩ := List.cons.inj hsplit
      rw [h.layout htail he, hcells, Int.sub_sub high]
  · rw [h.low_eq, hcells, Int.sub_sub]
  · rw [hkept]
    refine List.forall_mem_cons.mpr ⟨fun n base hn => ?_, h.lengths⟩
    rw [hoffset]
    simp only [lengthCode, hlayout, hn]
    exact holds_self _
  · rw [hkept, List.map_cons, List.pairwise_cons]
    refine ⟨fun v hv => ?_, h.apart⟩
    obtain ⟨e, he, rfl⟩ := List.mem_map.mp hv
    have hbelow := (h.covers e.slot.top).mpr ⟨e, he, e.slot.offset_le_top, Int.le_refl _⟩
    exact Or.inr (by omega)
  · intro c
    have hlow := h.low_le
    have hrest := h.covers c
    simp only [hkept, List.exists_mem_cons_iff, ← hrest]
    omega

/-- A declaration that is reported takes no cell. -/
theorem skip (hd : d.oversize ∈ errors) (hlarge : high - d.cells < minOffset)
    (h : Fills errors level high ds low) : Fills errors level high (d :: ds) low := by
  have hkept : ∀ es, kept errors (d :: es) = kept errors es := fun es =>
    List.filter_cons_of_neg (by simpa using hd)
  refine ⟨?_, ?_, ?_, ?_, ?_, ?_⟩
  · intro before e after hsplit
    cases before with
    | nil =>
      obtain ⟨rfl, rfl⟩ := List.cons.inj hsplit
      simpa [hd, kept, cellsAll] using hlarge
    | cons b before =>
      obtain ⟨rfl, htail⟩ := List.cons.inj hsplit
      rw [hkept, h.reported htail]
  · intro before e after hsplit he
    cases before with
    | nil =>
      obtain ⟨rfl, rfl⟩ := List.cons.inj hsplit
      exact absurd hd he
    | cons b before =>
      obtain ⟨rfl, htail⟩ := List.cons.inj hsplit
      rw [hkept, h.layout htail he]
  · rw [hkept, h.low_eq]
  · rw [hkept]
    exact h.lengths
  · rw [hkept]
    exact h.apart
  · intro c
    rw [hkept]
    exact h.covers c

end Fills

/-- What is stacked fills its cells, if the large declarations are those that are reported.
Induction on the stack. -/
theorem Stacked.fills {errors : List Diagnostic} {level : Nat} {high low : Int}
    {ds large : List VarDecl} (h : Stacked level high ds large low) (hnodup : ds.Nodup)
    (hlarge : ∀ d ∈ ds, d ∈ large ↔ d.oversize ∈ errors) : Fills errors level high ds low := by
  induction h with
  | nil next => exact .nil errors level next
  | fits hfits hlayout hrest ih =>
    obtain ⟨hnew, hnodup⟩ := List.nodup_cons.mp hnodup
    obtain ⟨hd, hlarge⟩ := List.forall_mem_cons.mp hlarge
    have hkept := fun hreported => hnew (hrest.sublist.subset (hd.mpr hreported))
    exact .keep hkept hfits hlayout (ih hnodup hlarge)
  | tooLarge hover hlayout hrest ih =>
    obtain ⟨hnew, hnodup⟩ := List.nodup_cons.mp hnodup
    obtain ⟨hd, hlarge⟩ := List.forall_mem_cons.mp hlarge
    refine .skip (hd.mp List.mem_cons_self) hover (ih hnodup fun e he => ?_)
    rw [← hlarge e he, List.mem_cons, or_iff_right (by rintro rfl; exact hnew he)]

end VarDecl

/-! ### The cells of parameters

The caller stores arguments before the frame of the callee is opened, relative to its own frame
base. The frame of the callee lies just below the arguments, which are therefore in the cells of its
parameters. -/

/-- A parameter lies in a cell of its function's frame, and this is the cell in which the code of
each call stores the argument of the same number. The frame starts below the stored arguments. -/
structure FunDecl.Receives (f : FunDecl) (i : Nat) (p : VarDecl) (cell : Int) : Prop where
  layout : p.layout = some ⟨frameLevel, cell, p.shape.storage⟩
  stored : ∀ {k offset start pos ty args is}, args.length = f.params.length →
    (Exp.call pos ty f.name args).code k offset start = .ok is →
      ∃ a jump, Exp.argumentCode k offset start args = .ok a ∧
        Holds is (a.length + 2 * i)
          [.rm .ld .ac (offset - i) .fp "call: load argument",
           .rm .st .ac (offset - args.length + cell) .fp "call: store parameter"] ∧
        Holds is (a.length + 2 * args.length) (callSequence (offset - args.length) jump)

/-- The code of a call behind that of its arguments. -/
theorem Exp.holds_call {k : Linker} {offset : Int} {start : Nat} {p : Pos} {t : Option Ty}
    {callee : String} {args : List Exp} {is : List Instr}
    (h : (Exp.call p t callee args).code k offset start = .ok is) :
    ∃ a jump, Exp.argumentCode k offset start args = .ok a ∧
      Holds is a.length (copyArguments offset args.length) ∧
      Holds is (a.length + 2 * args.length) (callSequence (offset - args.length) jump) := by
  cases Exp.coded h with
  | @call _ _ _ _ _ _ a _ jump ha =>
    have hself := holds_self (a ++ (copyArguments offset args.length ++
      callSequence (offset - args.length) jump))
    simp only [holds_append, length_copyArguments, Nat.zero_add] at hself
    exact ⟨a, jump, ha, hself.2.1, hself.2.2⟩

/-- A parameter whose cell has this offset is where a call stores its argument. -/
theorem FunDecl.receives {f : FunDecl} {i : Nat} {p : VarDecl} (hp : f.params[i]? = some p)
    (hlayout : p.layout = some ⟨frameLevel, -2 - i, p.shape.storage⟩) :
    f.Receives i p (-2 - i) := by
  refine ⟨hlayout, ?_⟩
  intro k offset start pos ty args is hlen hcode
  obtain ⟨a, jump, ha, hcopy, hcall⟩ := Exp.holds_call hcode
  have hi : i < args.length := by
    rw [hlen]
    exact (List.getElem?_eq_some_iff.mp hp).1
  refine ⟨a, jump, ha, ?_, hcall⟩
  have hpair := holds_flatMap (k := 2) (fun _ => rfl) hcopy (i := i) (x := i)
    (List.getElem?_range hi)
  rwa [show offset - args.length + (-2 - i) = offset - args.length - 2 - i by omega]

/-! ### Whole programs

Positions of a parsed program are different, so a diagnostic tells which declaration it is about. -/

section Analysed

variable {p : Program} {large : List VarDecl} {errors : List Diagnostic}

/-- Positions tell declarations apart, so the reported ones are the large ones. -/
theorem VarDecl.mem_large_iff {ds : List VarDecl} (hnodup : (ds.map VarDecl.pos).Nodup)
    (hsub : large.Sublist ds)
    (herrors : errors.filter Diagnostic.isTooLarge = large.map VarDecl.oversize) {d : VarDecl}
    (hd : d ∈ ds) : d ∈ large ↔ d.oversize ∈ errors := by
  have hmem : d.oversize ∈ errors ↔ d.oversize ∈ large.map VarDecl.oversize := by
    rw [← herrors, List.mem_filter]
    exact (and_iff_left rfl).symm
  rw [hmem, List.mem_map]
  constructor
  · intro h
    exact ⟨d, h, rfl⟩
  · rintro ⟨e, he, heq⟩
    have hpos : e.pos = d.pos := congrArg Diagnostic.pos heq
    rwa [← List.inj_on_of_nodup_map hnodup (hsub.subset he) hd hpos]

/-- The globals and every frame are filled. -/
theorem Program.fills_of_stacked (hnodup : (p.variables.map VarDecl.pos).Nodup) {next : Int}
    (h : Decl.Stacked next p.decls large p.globalsEnd)
    (herrors : errors.filter Diagnostic.isTooLarge = large.map VarDecl.oversize) :
    VarDecl.Fills errors globalLevel next p.globals p.globalsEnd ∧
      ∀ f ∈ p.functions,
        VarDecl.Fills errors frameLevel firstFrameOffset f.variables f.frameEnd := by
  have hdecls : (p.decls.flatMap Decl.variables).Nodup := List.Nodup.of_map _ hnodup
  have hlarge : ∀ d ∈ p.decls.flatMap Decl.variables, d ∈ large ↔ d.oversize ∈ errors :=
    fun d hd => VarDecl.mem_large_iff hnodup h.sublist herrors hd
  constructor
  · obtain ⟨own, hown, hmem⟩ := h.globals hdecls
    have hsub := Decl.sublist_variables p.decls
    refine hown.fills (hdecls.sublist hsub) fun d hd => ?_
    rw [hmem d hd, hlarge d (hsub.subset hd)]
  · intro f hf
    have hf := Program.mem_functions.mp hf
    obtain ⟨own, hown, hmem⟩ := h.of_function hdecls hf
    refine hown.fills ((List.nodup_flatMap.mp hdecls).1 _ hf) fun d hd => ?_
    rw [hmem d hd, hlarge d (List.mem_flatMap.mpr ⟨_, hf, hd⟩)]

/-- Each parameter takes one cell, so the parameters of a frame that kept all of them lie in
consecutive cells. -/
theorem FunDecl.layout_of_fills {f : FunDecl} {low : Int}
    (h : VarDecl.Fills errors frameLevel firstFrameOffset f.variables low)
    (hcells : ∀ p ∈ f.params, p.cells = 1) (hkept : ∀ p ∈ f.params, p.oversize ∉ errors) {i : Nat}
    {p : VarDecl} (hp : f.params[i]? = some p) :
    p.layout = some ⟨frameLevel, -2 - i, p.shape.storage⟩ := by
  obtain ⟨hi, rfl⟩ := List.getElem?_eq_some_iff.mp hp
  have hmem : f.params[i] ∈ f.params := List.getElem_mem hi
  have htake : f.params.take i ++ f.params[i] :: f.params.drop (i + 1) = f.params := by
    rw [← List.drop_eq_getElem_cons hi, List.take_append_drop]
  have hsplit : f.variables = f.params.take i ++ f.params[i] ::
      (f.params.drop (i + 1) ++ (f.body.map Block.variables).getD []) := by
    rw [← List.cons_append, ← List.append_assoc, htake]
    rfl
  have hbefore : VarDecl.cellsAll (VarDecl.kept errors (f.params.take i)) = i := by
    have hall : VarDecl.kept errors (f.params.take i) = f.params.take i :=
      List.filter_eq_self.mpr fun q hq => by simpa using hkept q (List.mem_of_mem_take hq)
    have hones := List.map_eq_replicate_iff.mpr fun q hq =>
      hcells q (List.mem_of_mem_take (i := i) hq)
    rw [hall, VarDecl.cellsAll, hones, List.sum_replicate_nat, List.length_take, Nat.mul_one]
    exact Nat.min_eq_left hi.le
  have helements : f.params[i].shape.elements = 0 := by
    have := hcells _ hmem
    unfold VarDecl.cells at this
    omega
  rw [h.layout hsplit (hkept _ hmem), hbefore, helements]
  simp [firstFrameOffset]

end Analysed

/-- Every frame of an analysed program is filled by the variables that the diagnostics do not report
as too large. -/
structure Program.Fills (p : Program) (errors : List Diagnostic) : Prop where
  globals : VarDecl.Fills errors globalLevel 0 p.globals p.globalsEnd
  frames : ∀ f ∈ p.functions, VarDecl.Fills errors frameLevel (-2) f.variables f.frameEnd
  /-- A parameter takes one cell, also when it is an array. -/
  cells : ∀ f ∈ p.functions, ∀ d ∈ f.params, d.cells = 1
  receives : ∀ f ∈ p.functions, (∀ d ∈ f.params, d.oversize ∉ errors) →
    ∀ i d, f.params[i]? = some d → f.Receives i d (-2 - i)

/-- The analysis keeps a parsed tree and cuts storage exactly. Global variables fill the cells from
`0` down to the end of the globals, and parameters and locals of a function those from `-2` down to
the end of its frame, whatever else is wrong with the program. Parameters lie where calls store
their arguments. -/
theorem analyze_fills {source : String} {tree : Program} (h : parse source = .ok tree)
    (trace : Bool) :
    (analyze tree trace).program.bare = tree ∧
      (analyze tree trace).program.Fills (analyze tree trace).errors := by
  have hbare : (analyze tree trace).program.bare = tree :=
    (bare_analyze tree trace).trans (bare_of_parse h)
  have hnodup : ((analyze tree trace).program.variables.map VarDecl.pos).Nodup := by
    have hpos := nodup_of_parse h
    rw [← hbare, Program.variables_bare, List.map_map] at hpos
    exact hpos
  obtain ⟨large, hstacked, herrors⟩ := stacked_analyze tree trace
  obtain ⟨hglobals, hframes⟩ := Program.fills_of_stacked hnodup hstacked herrors
  have hcells : ∀ f ∈ (analyze tree trace).program.functions, ∀ d ∈ f.params, d.cells = 1 := by
    intro f hf d hd
    have hmem : .function f.bare ∈ tree.decls := by
      rw [← hbare]
      exact List.mem_map.mpr ⟨_, Program.mem_functions.mp hf, rfl⟩
    have hshape : d.shape = .scalar ∨ d.shape = .reference :=
      ((parse_size h).2 _ hmem).1 d.bare (List.mem_map.mpr ⟨d, hd, rfl⟩)
    rcases hshape with hshape | hshape <;> simp [VarDecl.cells, hshape, Shape.elements]
  refine ⟨hbare, hglobals, hframes, hcells, fun f hf hkept i d hd => ?_⟩
  exact FunDecl.receives hd (FunDecl.layout_of_fills (hframes f hf) (hcells f hf) hkept hd)

/-- A name that is declared twice, an array without elements, and an array that does not fit. -/
def crowdedSource : String :=
  "int g[3]; int f(int a, int b[]) \x7b int x; int x; " ++
    "\x7b int z[0]; int w[2000000000]; int y; \x7d return a; \x7d void main(void) \x7b \x7d"

/-- What is left of the global cells and of each frame after the analysis, and what did not fit. -/
def endsOf? (source : String) : Option (Int × List Int × List SemanticFault) :=
  (parse source).toOption.map fun tree =>
    let a := analyze tree false
    (a.program.globalsEnd, a.program.functions.map FunDecl.frameEnd,
      (a.errors.filter Diagnostic.isTooLarge).map Diagnostic.fault)

/-- One array of the function is too large, so the variable behind it takes its place. -/
theorem analyze_fills_crowded : ∃ tree, parse crowdedSource = .ok tree ∧
    endsOf? crowdedSource = some (-4, [-8, -2], [.tooLarge "w"]) ∧
    (analyze tree false).program.bare = tree ∧
      (analyze tree false).program.Fills (analyze tree false).errors := by
  have hascii : Ascii crowdedSource _ := .append ⟨rfl, rfl⟩ ⟨rfl, rfl⟩
  have hends : endsOf? crowdedSource = some (-4, [-8, -2], [.tooLarge "w"]) := by
    rw [endsOf?, parse, hascii.scan_eq]
    decide +kernel
  obtain ⟨tree, hparse, -⟩ := Option.map_eq_some_iff.mp hends
  have h := Except.eq_ok_of_toOption hparse
  exact ⟨tree, h, hends, analyze_fills h false⟩

end MiniC
