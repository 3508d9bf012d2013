import MiniC.Proofs.Sizes
import MiniC.Proofs.Typing.Rules

/-!
# The instructions of expressions

The code of an expression is made of a few kinds of instructions. A property that each kind has
holds of all instructions in the code, so it need not be followed through the generator again.

* `Instr.Kind`: the kinds of instructions
* `Exp.kind_of_code`: every instruction in the code of an expression is of one of them
* `Instr.Common`: each kind of instruction has a property
* `Exp.forall_code`: so every instruction in the code of an expression has it
-/

namespace MiniC

/-- The kinds of instructions in code that keeps temporary values in the cells of the frame from
`offset` down. The nodes are all expressions in the one that the code is of. -/
inductive Instr.Kind (nodes : List Exp) (offset : Int) : Instr → Prop
  | operation (op : Opcode) (r s q : Reg) (t : String) : Kind nodes offset (.ro op r s q t)
  | constant (r : Reg) (n : Int) (t : String) : Kind nodes offset (.rm .ldc r n .unused t)
  /-- A jump, or an access to an element of an array. -/
  | based {op : Opcode} {s : Reg} (hop : op ≠ .ldc) (hs : s ≠ .fp) (r : Reg) (d : Int)
      (t : String) : Kind nodes offset (.rm op r d s t)
  /-- A temporary value is stored in its cell, or loaded from it. -/
  | cell {op : Opcode} {d : Int} (hop : op = .st ∨ op = .ld) (hd : d ≤ offset) (r : Reg)
      (t : String) : Kind nodes offset (.rm op r d .fp t)
  | load {v : VarUse} {r : Reg} {i : Instr} (hr : r ≠ .fp) (hi : v.load r = .ok i) :
      Kind nodes offset i
  | store {p : Pos} {ty : Option Ty} {v : VarUse} {e : Exp} {i : Instr}
      (hv : .assign p ty v e ∈ nodes) (hi : v.store = .ok i) : Kind nodes offset i
  /-- The frame of a callee starts at a cell that is not in use. -/
  | enter {d : Int} (hd : d ≤ offset) (t : String) : Kind nodes offset (.rm .lda .fp d .fp t)
  /-- The frame base of the caller is restored behind a call. -/
  | restore : Kind nodes offset (.rm .ld .fp savedFrameOffset .fp "pop frame")

/-- A jump of generated code is no constant. -/
theorem Combination.jump_ne_ldc {op : BinaryOp} {jump : Opcode} {t : String}
    (h : op.combination = .shortCircuit jump t ∨ op.combination = .comparison jump) :
    jump ≠ .ldc := by
  rintro rfl
  cases op <;> simp [BinaryOp.combination] at h

namespace Instr.Kind

variable {nodes nodes' : List Exp} {offset offset' : Int}

/-- Code of a part of an expression that uses fewer cells. -/
theorem mono {i : Instr} (h : i.Kind nodes offset) (hnodes : nodes ⊆ nodes')
    (hoffset : offset ≤ offset') : i.Kind nodes' offset' := by
  cases h with
  | operation op r s q t => exact .operation op r s q t
  | constant r n t => exact .constant r n t
  | based hop hs r d t => exact .based hop hs r d t
  | cell hop hd r t => exact .cell hop (by omega) r t
  | load hr hi => exact .load hr hi
  | store hv hi => exact .store (hnodes hv) hi
  | enter hd t => exact .enter (by omega) t
  | restore => exact .restore

theorem relative {op : Opcode} (hop : op ≠ .ldc) {r : Reg} {address target : Nat} {t : String}
    {i : Instr} (hi : Instr.relative op r address target t = .ok i) : i.Kind nodes offset := by
  simp only [Instr.relative, Except.bind_eq_ok_iff, Except.pure_eq_ok_iff] at hi
  obtain ⟨d, -, rfl⟩ := hi
  exact .based hop (by decide) r d t

theorem truthValue {jump : Opcode} (hjump : jump ≠ .ldc) (what : String) :
    ∀ i ∈ truthValue jump what, i.Kind nodes offset := by
  simp only [MiniC.truthValue, List.forall_mem_cons]
  exact ⟨.based hjump (by decide) _ _ _, .constant _ _ _, .based (by decide) (by decide) _ _ _,
    .constant _ _ _, List.forall_mem_nil _⟩

theorem elementAddress {v : VarUse} {start : Nat} {is : List Instr}
    (his : v.elementAddress start = .ok is) : ∀ i ∈ is, i.Kind nodes offset := by
  simp only [VarUse.elementAddress, Except.bind_eq_ok_iff, Except.pure_eq_ok_iff] at his
  obtain ⟨load, hload, tooLarge, hlarge, negative, hneg, rfl⟩ := his
  simp only [List.forall_mem_cons]
  exact ⟨.load (by decide) hload, .based (by decide) (by decide) _ _ _, .operation _ _ _ _ _,
    .relative (by decide) hlarge, .relative (by decide) hneg, .load (by decide) hload,
    .operation _ _ _ _ _, .based (by decide) (by decide) _ _ _, List.forall_mem_nil _⟩

/-- Arguments are copied from the cells of temporary values to cells below them. -/
theorem copyArguments (n : Nat) : ∀ i ∈ copyArguments offset n, i.Kind nodes offset := by
  intro i hi
  simp only [MiniC.copyArguments, List.mem_flatMap, List.mem_cons, List.not_mem_nil,
    or_false] at hi
  obtain ⟨_, -, rfl | rfl⟩ := hi
  · exact .cell (.inr rfl) (by omega) _ _
  · exact .cell (.inl rfl) (by omega) _ _

theorem callSequence {frame : Int} (hframe : frame ≤ offset) {jump : Instr}
    (hjump : jump.Kind nodes offset) : ∀ i ∈ callSequence frame jump, i.Kind nodes offset := by
  have hsaved : frame + savedFrameOffset ≤ offset := by
    unfold savedFrameOffset
    omega
  simp only [MiniC.callSequence, List.forall_mem_cons]
  exact ⟨.cell (.inl rfl) hsaved _ _, .enter hframe _, .based (by decide) (by decide) _ _ _, hjump,
    .restore, List.forall_mem_nil _⟩

end Instr.Kind

/-! ### The code of expressions

By induction on how the code is made. A part keeps its temporary values at the same offset or below,
so its instructions are of a kind for the offset of the whole too. -/

namespace Exp

variable {k : Linker} {offset : Int} {start : Nat} {is : List Instr}

theorem kind_of_argumentCode {args : List Exp}
    (ih : ∀ a ∈ args, ∀ {offset start is}, a.code k offset start = .ok is →
      ∀ i ∈ is, i.Kind a.nodes offset)
    (his : Exp.argumentCode k offset start args = .ok is) :
    ∀ i ∈ is, i.Kind (Exp.nodesAll args) offset := by
  induction args generalizing offset start is with
  | nil =>
    rw [argumentCode_nil his]
    exact List.forall_mem_nil _
  | cons e rest hrest =>
    obtain ⟨i, j, -, hi, hj, rfl⟩ := argumentCode_cons his
    have hfirst := ih e List.mem_cons_self hi
    have hothers := hrest (fun a ha => ih a (List.mem_cons_of_mem e ha)) hj
    simp only [List.forall_mem_append, List.forall_mem_cons, Exp.nodesAll]
    exact ⟨fun x hx => (hfirst x hx).mono (List.subset_append_left _ _) (by omega),
      .cell (.inl rfl) (by omega) _ _,
      fun x hx => (hothers x hx).mono (List.subset_append_right _ _) (by omega)⟩

/-- Every instruction in the code of an expression is of one of the kinds. -/
theorem kind_of_code {e : Exp} (his : e.code k offset start = .ok is) :
    ∀ i ∈ is, i.Kind e.nodes offset := by
  replace his := coded his
  induction his with
  | int p n => exact List.forall_mem_singleton.mpr (.constant _ _ _)
  | bool p b => exact List.forall_mem_singleton.mpr (.constant _ _ _)
  | nil p => exact List.forall_mem_nil _
  | @unary offset _ p t op e _ _ ih =>
    simp only [List.forall_mem_append]
    refine ⟨fun x hx => (ih x hx).mono (List.subset_cons_self _ _) (Int.le_refl _), ?_⟩
    cases op with
    | neg =>
      simp only [unaryTail, List.forall_mem_cons]
      exact ⟨.constant _ _ _, .operation _ _ _ _ _, List.forall_mem_nil _⟩
    | not => exact .truthValue (by decide) _
  | shortCircuit hop _ _ hskip ihl ihr =>
    simp only [List.forall_mem_append, List.forall_mem_cons]
    exact ⟨fun x hx => (ihl x hx).mono (by simp [Exp.nodes]) (Int.le_refl _),
      .relative (Combination.jump_ne_ldc (Or.inl hop)) hskip,
      fun x hx => (ihr x hx).mono (by simp [Exp.nodes]) (Int.le_refl _)⟩
  -- the right operand has the cells below the one that the left operand is put into
  | operation hop _ _ _ ihl ihr =>
    simp only [List.forall_mem_append, List.forall_mem_cons]
    exact ⟨fun x hx => (ihl x hx).mono (by simp [Exp.nodes]) (Int.le_refl _),
      .cell (.inl rfl) (Int.le_refl _) _ _,
      fun x hx => (ihr x hx).mono (by simp [Exp.nodes]) (by omega),
      .cell (.inr rfl) (Int.le_refl _) _ _, .operation _ _ _ _ _, List.forall_mem_nil _⟩
  | comparison hop _ _ _ ihl ihr =>
    simp only [List.forall_mem_append, List.forall_mem_cons]
    exact ⟨fun x hx => (ihl x hx).mono (by simp [Exp.nodes]) (Int.le_refl _),
      .cell (.inl rfl) (Int.le_refl _) _ _,
      fun x hx => (ihr x hx).mono (by simp [Exp.nodes]) (by omega),
      .cell (.inr rfl) (Int.le_refl _) _ _, .operation _ _ _ _ _,
      .truthValue (Combination.jump_ne_ldc (t := "") (Or.inr hop)) _⟩
  | var hload => exact List.forall_mem_singleton.mpr (.load (by decide) hload)
  | element _ ha ih =>
    simp only [List.forall_mem_append, List.forall_mem_singleton]
    exact ⟨fun x hx => (ih x hx).mono (List.subset_cons_self _ _) (Int.le_refl _),
      .elementAddress ha, .based (by decide) (by decide) _ _ _⟩
  | assign _ hstore ih =>
    simp only [List.forall_mem_append, List.forall_mem_singleton]
    exact ⟨fun x hx => (ih x hx).mono (List.subset_cons_self _ _) (Int.le_refl _),
      .store List.mem_cons_self hstore⟩
  | assignElement _ ha _ _ ihi ihe =>
    simp only [List.forall_mem_append, List.forall_mem_cons]
    exact ⟨fun x hx => (ihi x hx).mono (by simp [Exp.nodes]) (Int.le_refl _),
      .elementAddress ha, .cell (.inl rfl) (Int.le_refl _) _ _,
      fun x hx => (ihe x hx).mono (fun a ha => by simp [Exp.nodes, ha]) (by omega),
      .cell (.inr rfl) (Int.le_refl _) _ _, .based (by decide) (by decide) _ _ _,
      List.forall_mem_nil _⟩
  | call hargs _ _ _ hjump ih =>
    simp only [List.forall_mem_append]
    exact ⟨fun x hx => (kind_of_argumentCode ih hargs x hx).mono (List.subset_cons_self _ _)
      (Int.le_refl _), .copyArguments _, .callSequence (by omega) (.relative (by decide) hjump)⟩

end Exp

/-! ### Common properties

A property is shown once for each kind, with what the kind says about registers and cells. -/

/-- Each kind of instruction in the code of expressions has a property. It may depend on the offset
of the highest cell of the frame that the code keeps a temporary value in. -/
structure Instr.Common (P : Int → Instr → Prop) : Prop where
  /-- Code that uses fewer cells has the property of code that uses more of them. -/
  raise {offset offset' : Int} {i : Instr} : P offset i → offset ≤ offset' → P offset' i
  operation (offset : Int) (op : Opcode) (r s q : Reg) (t : String) : P offset (.ro op r s q t)
  constant (offset : Int) (r : Reg) (n : Int) (t : String) : P offset (.rm .ldc r n .unused t)
  /-- A jump, or an access to an element of an array. -/
  based (offset : Int) {op : Opcode} {s : Reg} (hop : op ≠ .ldc) (hs : s ≠ .fp) (r : Reg) (d : Int)
    (t : String) : P offset (.rm op r d s t)
  /-- An access to the cell of a temporary value. -/
  cell (offset : Int) {op : Opcode} (hop : op ≠ .ldc) (r : Reg) (t : String) :
    P offset (.rm op r offset .fp t)
  load (offset : Int) {v : VarUse} {r : Reg} {i : Instr} : v.load r = .ok i → P offset i
  store (offset : Int) {v : VarUse} {i : Instr} : v.store = .ok i → P offset i
  /-- The frame base of the caller is restored behind a call. -/
  restore (offset : Int) : P offset (.rm .ld .fp savedFrameOffset .fp "pop frame")

theorem Instr.Common.of_kind {P : Int → Instr → Prop} (h : Instr.Common P) {nodes : List Exp}
    {offset : Int} {i : Instr} (hi : i.Kind nodes offset) : P offset i := by
  cases hi with
  | operation op r s q t => exact h.operation offset op r s q t
  | constant r n t => exact h.constant offset r n t
  | based hop hs r d t => exact h.based offset hop hs r d t
  | cell hop hd r t => exact h.raise (h.cell _ (by rintro rfl; simp at hop) r t) hd
  | load hr hi => exact h.load offset hi
  | store hv hi => exact h.store offset hi
  | enter hd t => exact h.raise (h.cell _ (by decide) .fp t) hd
  | restore => exact h.restore offset

/-- A common property holds of every instruction in the code of an expression. -/
theorem Exp.forall_code {P : Int → Instr → Prop} (h : Instr.Common P) {k : Linker} {e : Exp}
    {offset : Int} {start : Nat} {is : List Instr} (his : e.code k offset start = .ok is) :
    ∀ i ∈ is, P offset i :=
  fun i hi => h.of_kind (Exp.kind_of_code his i hi)

end MiniC
