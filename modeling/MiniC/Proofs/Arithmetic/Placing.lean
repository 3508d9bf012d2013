import MiniC.Code.Buffer
import MiniC.Proofs.Layout

/-!
# Placing declarations with 32-bit numbers

The analysis hands out cells by two subtractions for each declaration, the cells of an array from
the free offset and one more for the cell that is named. The free offset stays between the limit for
declarations and zero, and an array has no more elements than a number can say; but the difference
need not be a 32-bit number. It is then below the limit, so a declaration whose subtractions are
checked is placed just like one whose subtractions are exact.

* `VarDecl.place_eq_placeChecked`: checked and exact subtractions place alike
* `VarDecl.Checked`: declarations placed in order by checked subtractions
* `analyze_places`: analysed programs
-/

namespace MiniC

/-! ### Sizes of arrays

The size of an array is a numeral of the source, and the scanner takes no larger one than fits. By
induction on derivations, as for the records in a parsed tree. -/

/-- The size of the variable can be written. -/
def VarDecl.Writable (d : VarDecl) : Prop :=
  d.shape.elements ≤ maxNumeral

namespace Grammar

/-- The size of a declared array is a numeral. -/
theorem Variable.writable {ts : List Token} {d : VarDecl} (h : Variable ts d) : d.Writable := by
  cases h with
  | scalar => exact Nat.zero_le _
  | array hty hname hl hsize hr hsemi => exact hsize.bound

/-- A parameter has no size. -/
theorem Parameter.writable {ts : List Token} {d : VarDecl} (h : Parameter ts d) : d.Writable := by
  cases h <;> exact Nat.zero_le _

/-- What holds of each phrase holds of each item of a list of phrases. -/
theorem Many.forall_mem {α : Type} {P : List Token → α → Prop} {Q : α → Prop}
    (hP : ∀ ts a, P ts a → Q a) {ts : List Token} {as : List α} (h : Many P ts as) :
    ∀ a ∈ as, Q a := by
  induction h with
  | nil => exact List.forall_mem_nil _
  | cons h _ ih => exact List.forall_mem_cons.mpr ⟨hP _ _ h, ih⟩

/-- The same of a list with commas, as in `Many.forall_mem`. -/
theorem Separated.forall_mem {α : Type} {P : List Token → α → Prop} {Q : α → Prop}
    (hP : ∀ ts a, P ts a → Q a) {ts : List Token} {as : List α} (h : Separated P ts as) :
    ∀ a ∈ as, Q a := by
  induction h with
  | one h => exact List.forall_mem_singleton.mpr (hP _ _ h)
  | more h _ _ ih => exact List.forall_mem_cons.mpr ⟨hP _ _ h, ih⟩

/-- The cases are those of the rules for statements, in their order, and then those of the
statements in a block. -/
theorem Statement.writable {ts : List Token} {a : Stmt} (h : Statement ts a) :
    ∀ d ∈ a.variables, d.Writable :=
  @Statement.rec (fun _ a _ => ∀ d ∈ a.variables, d.Writable)
    (fun _ body _ => ∀ d ∈ Stmt.variablesAll body, d.Writable)
    (fun _ hds _ _ ih =>
      List.forall_mem_append.mpr ⟨hds.forall_mem fun _ _ h => h.writable, ih⟩)
    (fun _ _ _ _ _ ih => ih)
    (fun _ _ _ _ _ _ _ _ iha ihb => List.forall_mem_append.mpr ⟨iha, ihb⟩)
    (fun _ _ _ _ _ ih => ih)
    (fun _ _ => List.forall_mem_nil _) (fun _ _ _ => List.forall_mem_nil _)
    (fun _ => List.forall_mem_nil _) (fun _ _ => List.forall_mem_nil _)
    (List.forall_mem_nil _)
    (fun _ _ ih ihrest => List.forall_mem_append.mpr ⟨ih, ihrest⟩)
    ts a h

/-- The declarations in the statements of a body. -/
theorem Many.writable {ts : List Token} {body : List Stmt} (h : Many Statement ts body) :
    ∀ d ∈ Stmt.variablesAll body, d.Writable := by
  induction h with
  | nil => exact List.forall_mem_nil _
  | cons h _ ih => exact List.forall_mem_append.mpr ⟨h.writable, ih⟩

/-- The parameters of a function. -/
theorem Parameters.writable {ts : List Token} {params : List VarDecl} (h : Parameters ts params) :
    ∀ d ∈ params, d.Writable := by
  cases h with
  | none => exact List.forall_mem_nil _
  | void => exact List.forall_mem_nil _
  | some h => exact h.forall_mem fun _ _ h => h.writable

/-- The declarations in one of the outermost level. -/
theorem Declaration.writable {ts : List Token} {d : Decl} (h : Declaration ts d) :
    ∀ v ∈ d.variables, v.Writable := by
  cases h with
  | var h => exact List.forall_mem_singleton.mpr h.writable
  | prototype hty hname hl hparams hr hsemi =>
    exact List.forall_mem_append.mpr ⟨hparams.writable, List.forall_mem_nil _⟩
  | definition hty hname hl hparams hr hbrace hds hbody hstop =>
    exact List.forall_mem_append.mpr ⟨hparams.writable,
      List.forall_mem_append.mpr ⟨hds.forall_mem fun _ _ h => h.writable, hbody.writable⟩⟩

end Grammar

/-- All declarations of a parsed program. -/
theorem writable_of_parse {source : String} {p : Program} (h : parse source = .ok p) :
    ∀ d ∈ p.variables, d.Writable := by
  obtain ⟨-, hdecls, -⟩ := derives_of_parse h
  intro d hd
  obtain ⟨e, he, hd⟩ := List.mem_flatMap.mp hd
  exact hdecls.forall_mem (fun _ _ h => h.writable) e he d hd

/-! ### Checked subtractions

A subtraction of numbers in range is exact or reports that it is not. Placing a variable takes two
of them. -/

/-- The difference of two 32-bit numbers, if it is one. -/
def checkedSub (a b : Int) : Option Int :=
  (fit32 (a - b)).toOption

/-- A difference in range is exact. -/
theorem checkedSub_of_le {a b : Int} (h : minInt32 ≤ a - b) (h' : a - b ≤ maxInt32) :
    checkedSub a b = some (a - b) := by
  rw [checkedSub, fit32, if_pos ⟨h, h'⟩]
  rfl

/-- A difference below the range is none. -/
theorem checkedSub_of_lt {a b : Int} (h : a - b < minInt32) : checkedSub a b = none := by
  rw [checkedSub, fit32, if_neg (by omega)]
  rfl

namespace VarDecl

/-- Places a declaration below the offset `next` by subtractions of 32-bit numbers. Where a
difference is none, the declaration does not fit. -/
def placeChecked (d : VarDecl) (level : Nat) (next : Int) : Placement :=
  let ends := do
    let offset ← checkedSub next d.shape.elements
    let below ← checkedSub offset 1
    if minOffset ≤ below then some (offset, below) else none
  match ends with
  | some (offset, below) => ⟨⟨level, offset, d.shape.storage⟩, below, true⟩
  | none => ⟨⟨level, next, d.shape.storage⟩, next, false⟩

/-- A difference that is no 32-bit number is below the limit for declarations. -/
theorem place_eq_placeChecked (d : VarDecl) (level : Nat) {next : Int} (hnext : next ≤ 0) :
    d.place level next = d.placeChecked level next := by
  have hmin : minInt32 = -2147483648 := rfl
  have hmax : maxInt32 = 2147483647 := rfl
  have hlimit : minOffset = -1073741824 := rfl
  unfold place placeChecked
  by_cases hfirst : minInt32 ≤ next - d.shape.elements
  · rw [checkedSub_of_le hfirst (by omega), Option.bind_eq_bind, Option.bind_some]
    by_cases hsecond : minInt32 ≤ next - d.shape.elements - 1
    · rw [checkedSub_of_le hsecond (by omega), Option.bind_some]
      by_cases hfits : minOffset ≤ next - d.shape.elements - 1
      · simp only [if_pos hfits]
      · simp only [if_neg hfits]
    · rw [checkedSub_of_lt (by omega), if_neg (by omega)]
      rfl
  · rw [checkedSub_of_lt (by omega), if_neg (by omega)]
    rfl

/-- Analysed declarations in order below an offset, each placed by checked subtractions: from the
free offset, which is between the limit and zero, of the elements, which are no more than a number
can say. The last offset is the one that is free behind all of them. -/
inductive Checked (level : Nat) : Int → List VarDecl → Int → Prop
  | nil {next : Int} (hlow : minOffset ≤ next) (hhigh : next ≤ 0) : Checked level next [] next
  | cons {next low : Int} {d : VarDecl} {ds : List VarDecl} (hlow : minOffset ≤ next)
      (hhigh : next ≤ 0) (helements : (d.shape.elements : Int) ≤ maxInt32)
      (hlayout : d.layout = some (d.placeChecked level next).layout)
      (hrest : Checked level (d.placeChecked level next).next ds low) :
      Checked level next (d :: ds) low

/-- Declarations that are placed one by one end below where they started. -/
theorem Checked.bounds {level : Nat} {next low : Int} {ds : List VarDecl}
    (h : Checked level next ds low) : minOffset ≤ low ∧ low ≤ 0 := by
  induction h with
  | nil hlow hhigh => exact ⟨hlow, hhigh⟩
  | cons hlow hhigh helements hlayout hrest ih => exact ih

/-- The offsets that the analysis gives are those of checked subtractions, in order. -/
theorem Stacked.checked {level : Nat} {next low : Int} {ds large : List VarDecl}
    (h : Stacked level next ds large low) (hwritable : ∀ d ∈ ds, d.Writable)
    (hlow : minOffset ≤ next) (hhigh : next ≤ 0) : Checked level next ds low := by
  induction h with
  | nil next => exact .nil hlow hhigh
  | @fits next low d ds large hfits hlayout hrest ih =>
    obtain ⟨hd, hds⟩ := List.forall_mem_cons.mp hwritable
    have hcells : (d.cells : Int) = d.shape.elements + 1 := rfl
    have hplace : d.place level next =
        ⟨⟨level, next - d.shape.elements, d.shape.storage⟩, next - d.cells, true⟩ := by
      rw [place, if_pos (by omega), hcells, Int.sub_sub]
    rw [place_eq_placeChecked d level hhigh] at hplace
    refine .cons hlow hhigh (Int.ofNat_le.mpr hd) (by rw [hplace, hlayout]) ?_
    rw [hplace]
    exact ih hds hfits (by omega)
  | @tooLarge next low d ds large hlarge hlayout hrest ih =>
    obtain ⟨hd, hds⟩ := List.forall_mem_cons.mp hwritable
    have hcells : (d.cells : Int) = d.shape.elements + 1 := rfl
    have hplace : d.place level next = ⟨⟨level, next, d.shape.storage⟩, next, false⟩ := by
      rw [place, if_neg (by omega)]
    rw [place_eq_placeChecked d level hhigh] at hplace
    refine .cons hlow hhigh (Int.ofNat_le.mpr hd) (by rw [hplace, hlayout]) ?_
    rw [hplace]
    exact ih hds hlow hhigh

end VarDecl

/-! ### Analysed programs

The offsets of an accepted program go downwards from the first one, and none of them is out of
range. -/

/-- The variables of every frame of an analysed program were placed by checked subtractions. -/
structure Program.Checked (p : Program) : Prop where
  globals : VarDecl.Checked globalLevel 0 p.globals p.globalsEnd
  frames : ∀ f ∈ p.functions, VarDecl.Checked frameLevel firstFrameOffset f.variables f.frameEnd

/-- The analysis of a parsed tree, with 32-bit numbers. -/
theorem analyze_places {source : String} {tree : Program} (h : parse source = .ok tree)
    (trace : Bool) : (analyze tree trace).program.Checked := by
  have hbare : (analyze tree trace).program.bare = tree :=
    (bare_analyze tree trace).trans (bare_of_parse h)
  have hvariables : (analyze tree trace).program.variables.map VarDecl.bare = tree.variables := by
    rw [← Program.variables_bare, hbare]
  have hnodup : (analyze tree trace).program.variables.Nodup := by
    have hpos := nodup_of_parse h
    rw [← hvariables] at hpos
    exact (hpos.of_map _).of_map _
  have hwritable : ∀ d ∈ (analyze tree trace).program.variables, d.Writable := fun d hd =>
    writable_of_parse h d.bare (hvariables ▸ List.mem_map_of_mem hd)
  obtain ⟨large, hstacked, -⟩ := stacked_analyze tree trace
  constructor
  · obtain ⟨own, hown, -⟩ := hstacked.globals hnodup
    exact hown.checked (fun d hd => hwritable d ((Decl.sublist_variables _).subset hd)) (by decide)
      (by decide)
  · intro f hf
    have hmem := Program.mem_functions.mp hf
    obtain ⟨own, hown, -⟩ := hstacked.of_function hnodup hmem
    exact hown.checked (fun d hd => hwritable d (List.mem_flatMap.mpr ⟨_, hmem, hd⟩)) (by decide)
      (by decide)

end MiniC
