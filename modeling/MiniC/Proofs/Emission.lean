import Mathlib.Algebra.Ring.Int.Defs
import Mathlib.Algebra.Ring.Nat
import MiniC.Proofs.Coding
import MiniC.Proofs.Typing.Checking

/-!
# What accepted phrases compile to

The analysis of a phrase and the code of the analysed phrase, read together: an accepted phrase has
code of a known form, made from the code of its accepted parts.

* `Exp.Emits`, `Stmt.Emits`: a phrase is accepted in some scopes, and has this code at this address
* `Exp.emits_unary`, `Exp.emits_binary`, …: the parts of the code, one statement for each form
* `Declares`: accepted declarations, with the storage they are given
-/

namespace MiniC

/-- A demand that is met reports nothing. -/
@[simp]
theorem demand_eq_nil {b : Bool} {pos : Pos} {fault : SemanticFault} :
    demand b pos fault = [] ↔ b = true := by
  unfold demand
  cases b <;> simp

/-! ### Segments of code

Where a piece of code stands in a program is said by `Holds`, from an address on. The simp set takes
such a statement apart into the single instructions. -/

/-- The list `whole` holds the items of `segment` from the place `start` on. -/
def Holds {α : Type} (whole : List α) (start : Nat) (segment : List α) : Prop :=
  ∀ i (h : i < segment.length), whole[start + i]? = some segment[i]

/-- Nothing is held anywhere. -/
@[simp]
theorem holds_nil {α : Type} (whole : List α) (start : Nat) : Holds whole start [] := by
  intro i h
  exact absurd h (by simp)

/-- A segment is held item by item. -/
@[simp]
theorem holds_cons {α : Type} {whole : List α} {start : Nat} {a : α} {rest : List α} :
    Holds whole start (a :: rest) ↔ whole[start]? = some a ∧ Holds whole (start + 1) rest := by
  constructor
  · intro h
    refine ⟨h 0 (by simp), ?_⟩
    intro i hi
    have := h (i + 1) (by simpa using hi)
    rw [show start + 1 + i = start + (i + 1) from by omega]
    simpa using this
  · rintro ⟨hhead, hrest⟩ i hi
    cases i with
    | zero => exact hhead
    | succ i =>
      have := hrest i (by simpa using hi)
      rw [show start + (i + 1) = start + 1 + i from by omega]
      simpa using this

/-- Segments are held one behind the other. Induction on the first one. -/
@[simp]
theorem holds_append {α : Type} {whole : List α} {start : Nat} {a b : List α} :
    Holds whole start (a ++ b) ↔ Holds whole start a ∧ Holds whole (start + a.length) b := by
  induction a generalizing start with
  | nil => simp
  | cons x a ih =>
    rw [List.cons_append, holds_cons, holds_cons, ih, and_assoc, List.length_cons,
      show start + 1 + a.length = start + (a.length + 1) from by omega]

/-- A segment ends inside the whole if it starts there. -/
theorem Holds.le_length {α : Type} {whole : List α} {start : Nat} {segment : List α}
    (h : Holds whole start segment) (hs : start ≤ whole.length) :
    start + segment.length ≤ whole.length := by
  cases hlen : segment.length with
  | zero => omega
  | succ n =>
    have hget := h n (by omega)
    obtain ⟨hlt, -⟩ := List.getElem?_eq_some_iff.mp hget
    omega

/-- A segment that is not empty ends inside the whole. -/
theorem Holds.bound {α : Type} {whole : List α} {start : Nat} {segment : List α}
    (h : Holds whole start segment) (hne : segment ≠ []) :
    start + segment.length ≤ whole.length := by
  have hpos : 0 < segment.length := List.length_pos_iff.mpr hne
  have hget := h 0 hpos
  obtain ⟨hlt, -⟩ := List.getElem?_eq_some_iff.mp hget
  exact h.le_length (by omega)

/-- A segment of pieces of the same length holds each piece at its place. -/
theorem holds_flatMap {α β : Type} {whole : List β} {g : α → List β} {k : Nat}
    (hg : ∀ x, (g x).length = k) {l : List α} {start : Nat} (h : Holds whole start (l.flatMap g))
    {i : Nat} {x : α} (hi : l[i]? = some x) : Holds whole (start + k * i) (g x) := by
  induction l generalizing start i with
  | nil => simp at hi
  | cons y l ih =>
    rw [List.flatMap_cons, holds_append, hg] at h
    cases i with
    | zero =>
      cases hi
      exact h.1
    | succ i =>
      have hrest := ih h.2 (i := i) (by simpa using hi)
      rw [show start + k + k * i = start + k * (i + 1) by rw [Nat.mul_succ]; omega] at hrest
      exact hrest

/-- The routine for each fault is among the routines. -/
theorem holds_faultRoutine {code : List Instr} (h : Holds code inputEntry routines)
    (fault : BoundsFault) : Holds code (faultEntry fault) (faultRoutine fault) := by
  rw [routines, holds_append, holds_append] at h
  cases fault with
  | lower => exact h.1.2
  | upper => exact h.2

/-! ### Numbers that fit their field

Addresses are kept in 32 bits when a displacement is computed, and it is checked whether it fits.
Below 2 ^ 31 neither changes anything. -/

/-- Addresses below 2 ^ 31 fit a field of 32 bits. -/
theorem low32_eq {n : Nat} (h : n < 2 ^ 31) : low32 n = n := by
  unfold low32
  exact Int.bmod_eq_of_le_mul_two (by omega) (by omega)

/-- Below the limit of 32-bit addresses a relative instruction names its target exactly. -/
theorem Instr.relative_eq_ok {op : Opcode} {r : Reg} {address target : Nat} {comment : String}
    {i : Instr} (h : Instr.relative op r address target comment = .ok i)
    (ha : address < 2 ^ 31) (ht : target < 2 ^ 31) :
    i = .rm op r (target - (address + 1)) .pc comment := by
  unfold Instr.relative displacement at h
  simp only [Except.bind_eq_ok_iff, Except.pure_eq_ok_iff] at h
  rw [low32_eq ha, low32_eq ht] at h
  obtain ⟨d, ⟨b, hb, hd⟩, rfl⟩ := h
  obtain ⟨rfl, -, -⟩ := fit32_eq_ok hb
  obtain ⟨rfl, -, -⟩ := fit32_eq_ok hd
  rfl

/-! ### Storage of variables

Which instruction loads a variable depends on its storage: the value of a scalar, the address of an
array, or the address that a reference holds. -/

/-- The operation that loads the value of a variable. -/
def Storage.loadOp : Storage → Opcode
  | .scalar => .ld
  | .array => .lda
  | .arrayRef => .ld

/-- The register that the offset of a variable counts from. -/
def Layout.base (l : Layout) : Reg :=
  if l.isGlobal then .gp else .fp

/-- A variable whose storage is known is loaded by one instruction. -/
theorem VarUse.load_of_layout {v : VarUse} {l : Layout} (h : v.layout = some l) (r : Reg) :
    ∃ t, v.load r = .ok (.rm l.storage.loadOp r l.offset l.base t) := by
  obtain ⟨level, offset, storage⟩ := l
  unfold VarUse.load VarUse.storage
  rw [h]
  cases storage with
  | scalar => exact ⟨_, rfl⟩
  | array => exact ⟨_, rfl⟩
  | arrayRef => exact ⟨_, rfl⟩

/-- The remark of a load of a variable starts with another letter than that of an operand. -/
theorem VarUse.remark_load {v : VarUse} {r r' s : Reg} {op : Opcode} {d : Int} {t : String}
    (h : v.load r = .ok (.rm op r' d s t)) : t ≠ "op: load left" := by
  simp only [VarUse.load, Except.bind_eq_ok_iff] at h
  obtain ⟨⟨layout, base⟩, -, h⟩ := h
  rintro rfl
  cases hs : layout.storage <;> simp only [hs, Except.pure_eq_ok_iff] at h <;>
    · have hremark := (Instr.rm.inj h).2.2.2.2
      have hlist := congrArg String.toList hremark
      simp [toString] at hlist

/-- A variable whose storage is known is stored to by one instruction. -/
theorem VarUse.store_of_layout {v : VarUse} {l : Layout} (h : v.layout = some l) :
    ∃ t, v.store = .ok (.rm .st .ac l.offset l.base t) := by
  unfold VarUse.store VarUse.storage
  rw [h]
  exact ⟨_, rfl⟩

/-- The eight instructions that turn an index into the address of an element. -/
structure ElementCode (l : Layout) (start : Nat) (is : List Instr) : Prop where
  form : ∃ t₁ t₂ t₃ t₄ t₅ t₆ tooLarge negative,
    Instr.relative .jge .ac1 (start + 3) (faultEntry .upper) t₄ = .ok tooLarge ∧
    Instr.relative .jlt .ac (start + 4) (faultEntry .lower) t₅ = .ok negative ∧
    is = [.rm l.storage.loadOp .ac1 l.offset l.base t₁, .rm .ld .ac1 0 .ac1 t₂,
      .ro .sub .ac1 .ac .ac1 t₃, tooLarge, negative,
      .rm l.storage.loadOp .ac1 l.offset l.base t₁, .ro .add .ac .ac1 .ac t₆,
      .rm .lda .ac 1 .ac "skip length cell"]
  /-- None of them loads the left operand of an operator. -/
  remarks : ∀ op r d s t, .rm op r d s t ∈ is → t ≠ "op: load left"

/-- The address of an element of an array whose storage is known. -/
theorem VarUse.elementAddress_of_layout {v : VarUse} {l : Layout} {start : Nat} {is : List Instr}
    (h : v.layout = some l) (hc : v.elementAddress start = .ok is) : ElementCode l start is := by
  obtain ⟨t, ht⟩ := v.load_of_layout h .ac1
  unfold VarUse.elementAddress at hc
  simp only [ht, Except.bind_eq_ok_iff, Except.pure_eq_ok_iff] at hc
  obtain ⟨_, hload, tooLarge, hlarge, negative, hneg, rfl⟩ := hc
  cases hload
  refine ⟨⟨t, _, _, _, _, _, tooLarge, negative, hlarge, hneg, rfl⟩, ?_⟩
  simp only [Instr.relative, Except.bind_eq_ok_iff, Except.pure_eq_ok_iff] at hlarge hneg
  obtain ⟨_, -, rfl⟩ := hlarge
  obtain ⟨_, -, rfl⟩ := hneg
  intro op r d s t' hmem
  simp only [List.mem_cons, Instr.rm.injEq, reduceCtorEq, false_or, or_false,
    List.not_mem_nil] at hmem
  rcases hmem with h | h | h | h | h | h
  · exact h.2.2.2.2 ▸ VarUse.remark_load ht
  · exact h.2.2.2.2 ▸ by decide
  · exact h.2.2.2.2 ▸ by decide
  · exact h.2.2.2.2 ▸ by decide
  · exact h.2.2.2.2 ▸ VarUse.remark_load ht
  · exact h.2.2.2.2 ▸ by decide

/-- There are eight of them. -/
@[simp]
theorem ElementCode.length_eq {l : Layout} {start : Nat} {is : List Instr}
    (h : ElementCode l start is) : is.length = 8 := by
  obtain ⟨_, _, _, _, _, _, _, _, _, _, rfl⟩ := h.form
  rfl

/-! ### Expressions

One inversion lemma for each form. They say what an accepted expression is made of, types, code and
all, so that later proofs follow the forms without a look at the analysis or at the generator. -/

namespace Exp

/-- The operands of a binary operator are accepted. -/
theorem check_binary {S : ScopeTable} {p : Pos} {t : Option Ty} {op : BinaryOp} {l r : Exp}
    (h : ((Exp.binary p t op l r).check S).errors = []) :
    (l.check S).errors = [] ∧ (r.check S).errors = [] ∧
      op.family.accepts (l.check S).ty (r.check S).ty = true := by
  simpa only [Exp.check, List.append_eq_nil_iff, demand_eq_nil, and_assoc] using h

/-- The expression is accepted with a type, and it has this code at the address `start`. -/
structure Emits (S : ScopeTable) (k : Linker) (offset : Int) (start : Nat) (e : Exp) (ty : Ty)
    (is : List Instr) : Prop where
  accepted : (e.check S).errors = []
  ty_eq : (e.check S).ty = ty
  code_eq : (e.check S).exp.code k offset start = .ok is

section Inversion

variable {S : ScopeTable} {k : Linker} {offset : Int} {start : Nat} {p : Pos} {t : Option Ty}
  {ty : Ty} {is : List Instr}

/-- A number is loaded as a constant. -/
theorem emits_int {value : Nat} (h : Emits S k offset start (.int p value) ty is) :
    ty = .int ∧ is = [.rm .ldc .ac value .unused "load constant"] := by
  obtain ⟨-, hty, hcode⟩ := h
  cases coded hcode
  exact ⟨hty.symm, rfl⟩

/-- A truth value is loaded as zero or one. -/
theorem emits_bool {value : Bool} (h : Emits S k offset start (.bool p value) ty is) :
    ty = .bool ∧ is = [.rm .ldc .ac (if value then 1 else 0) .unused "load boolean"] := by
  obtain ⟨-, hty, hcode⟩ := h
  cases coded hcode
  exact ⟨hty.symm, rfl⟩

/-- The empty expression has no code, and no value. -/
theorem emits_nil (h : Emits S k offset start (.nil p) ty is) :
    ty = .scalar .void ∧ is = [] := by
  obtain ⟨-, hty, hcode⟩ := h
  cases coded hcode
  exact ⟨hty.symm, rfl⟩

/-- The operand comes first, then the instructions of the operator. -/
theorem emits_unary {op : UnaryOp} {e : Exp} (h : Emits S k offset start (.unary p t op e) ty is) :
    ty = op.ty ∧ ∃ i, Emits S k offset start e op.ty i ∧ is = i ++ unaryTail op := by
  obtain ⟨hok, hty, hcode⟩ := h
  simp only [Exp.check, List.append_eq_nil_iff, demand_eq_nil, decide_eq_true_eq] at hok
  cases coded hcode with
  | unary he => exact ⟨hty.symm, _, ⟨hok.1, hok.2, he.code_eq⟩, rfl⟩

/-- The jump goes from behind the left operand to behind the right one, which has the same type. -/
theorem emits_shortCircuit {op : BinaryOp} {l r : Exp} {jump : Opcode} {comment : String}
    (hop : op.combination = .shortCircuit jump comment)
    (h : Emits S k offset start (.binary p t op l r) ty is) :
    ty = .bool ∧ ∃ i j skip, Emits S k offset start l .bool i ∧
      Emits S k offset (start + i.length + 1) r .bool j ∧
      Instr.relative jump .ac (start + i.length) (start + i.length + 1 + j.length) comment
        = .ok skip ∧
      is = i ++ skip :: j := by
  obtain ⟨hok, hty, hcode⟩ := h
  obtain ⟨hl, hr, hacc⟩ := check_binary hok
  have hfam : op.family = .logical := by
    cases op <;> first | rfl | (simp [BinaryOp.combination] at hop)
  simp only [hfam, BinaryOp.Family.accepts, Bool.and_eq_true, decide_eq_true_eq] at hacc
  simp only [Exp.check, hfam] at hty hcode
  refine ⟨hty.symm, ?_⟩
  cases coded hcode with
  | shortCircuit hop' hi hj hskip =>
    cases hop.symm.trans hop'
    exact ⟨_, _, _, ⟨hl, hacc.1, hi.code_eq⟩, ⟨hr, hacc.2, hj.code_eq⟩, hskip, rfl⟩
  | operation hop' => cases hop.symm.trans hop'
  | comparison hop' => cases hop.symm.trans hop'

/-- The left operand is kept in a temporary cell while the right one is computed, with one cell
less. -/
theorem emits_operation {op : BinaryOp} {l r : Exp} {operation : Opcode}
    (hop : op.combination = .operation operation)
    (h : Emits S k offset start (.binary p t op l r) ty is) :
    ty = .int ∧ ∃ i j, Emits S k offset start l .int i ∧ -2 ^ 31 ≤ offset - 1 ∧
      Emits S k (offset - 1) (start + i.length + 1) r .int j ∧
      is = i ++ (.rm .st .ac offset .fp "op: push left" :: (j ++
        [.rm .ld .ac1 offset .fp "op: load left",
         .ro operation .ac .ac1 .ac s!"op {op.symbol}"])) := by
  obtain ⟨hok, hty, hcode⟩ := h
  obtain ⟨hl, hr, hacc⟩ := check_binary hok
  have hfam : op.family = .arithmetic := by
    cases op <;> first | rfl | (simp [BinaryOp.combination] at hop)
  simp only [hfam, BinaryOp.Family.accepts, Bool.and_eq_true, decide_eq_true_eq] at hacc
  simp only [Exp.check, hfam] at hty hcode
  refine ⟨hty.symm, ?_⟩
  cases coded hcode with
  | shortCircuit hop' => cases hop.symm.trans hop'
  | operation hop' hi hlower hj =>
    cases hop.symm.trans hop'
    exact ⟨_, _, ⟨hl, hacc.1, hi.code_eq⟩, (lowered_eq_ok hlower).2, ⟨hr, hacc.2, hj.code_eq⟩, rfl⟩
  | comparison hop' => cases hop.symm.trans hop'

/-- Operands of one type, not `void`, are subtracted, and the sign of the difference becomes a truth
value. -/
theorem emits_comparison {op : BinaryOp} {l r : Exp} {jump : Opcode}
    (hop : op.combination = .comparison jump)
    (h : Emits S k offset start (.binary p t op l r) ty is) :
    ty = .bool ∧ ∃ i j base, base ≠ .void ∧ Emits S k offset start l (.scalar base) i ∧
      -2 ^ 31 ≤ offset - 1 ∧
      Emits S k (offset - 1) (start + i.length + 1) r (.scalar base) j ∧
      is = i ++ (.rm .st .ac offset .fp "op: push left" :: (j ++
        (.rm .ld .ac1 offset .fp "op: load left" ::
         .ro .sub .ac .ac1 .ac s!"op {op.symbol}" :: truthValue jump op.symbol))) := by
  obtain ⟨hok, hty, hcode⟩ := h
  obtain ⟨hl, hr, hacc⟩ := check_binary hok
  have hfam : op.family = .comparison := by
    cases op <;> first | rfl | (simp [BinaryOp.combination] at hop)
  simp only [hfam, BinaryOp.Family.accepts, Bool.and_eq_true, decide_eq_true_eq,
    Bool.not_eq_true', bne_iff_ne] at hacc
  obtain ⟨⟨heq, harr⟩, hbase⟩ := hacc
  have hlty : (l.check S).ty = .scalar (l.check S).ty.base := by
    unfold Ty.scalar
    rw [← harr]
  simp only [Exp.check, hfam] at hty hcode
  refine ⟨hty.symm, ?_⟩
  cases coded hcode with
  | shortCircuit hop' => cases hop.symm.trans hop'
  | operation hop' => cases hop.symm.trans hop'
  | comparison hop' hi hlower hj =>
    cases hop.symm.trans hop'
    exact ⟨_, _, _, hbase, ⟨hl, hlty, hi.code_eq⟩, (lowered_eq_ok hlower).2,
      ⟨hr, heq.symm.trans hlty, hj.code_eq⟩, rfl⟩

/-- A variable that is accepted as a whole is found in the scopes. -/
theorem check_use {v : VarUse} (h : (v.check S).errors = []) :
    ∃ n l, S.lookup v.name = some (.var n (v.check S).ty l) ∧ (v.check S).var.layout = some l := by
  unfold VarUse.check at h ⊢
  split at h
  · rename_i n vty l hl
    exact ⟨n, l, by simp [hl]⟩
  · cases h
  · cases h

/-- A variable that is accepted at an index is an array, and the index a number. -/
theorem check_indexed {v : VarUse} {index : Ty} (h : (v.checkIndexed S index).errors = []) :
    ∃ n aty l, S.lookup v.name = some (.var n aty l) ∧ aty.isArray = true ∧ index = .int ∧
      (v.checkIndexed S index).ty = .scalar aty.base ∧
      (v.checkIndexed S index).var.layout = some l := by
  unfold VarUse.checkIndexed at h ⊢
  split at h
  · rename_i n aty l hl
    simp only at h
    split at h
    · rename_i harr
      refine ⟨n, aty, l, hl, harr, ?_, rfl, rfl⟩
      simpa using h
    · cases h
  · cases h
  · cases h

/-- A variable is loaded from the cell that its scope knows. -/
theorem emits_var {v : VarUse} (h : Emits S k offset start (.var t v) ty is) :
    ∃ n l c, S.lookup v.name = some (.var n ty l) ∧
      is = [.rm l.storage.loadOp .ac l.offset l.base c] := by
  obtain ⟨hok, hty, hcode⟩ := h
  simp only [Exp.check] at hok hty hcode
  obtain ⟨n, l, hl, hlay⟩ := check_use hok
  obtain ⟨c, hc⟩ := VarUse.load_of_layout hlay .ac
  cases coded hcode with
  | var hload =>
    cases hc.symm.trans hload
    exact ⟨n, l, c, by rw [hl, hty], rfl⟩

/-- An index, the address of the element, and a load through it. -/
theorem emits_element {v : VarUse} {index : Exp}
    (h : Emits S k offset start (.element t v index) ty is) :
    ∃ n aty l i a c, S.lookup v.name = some (.var n aty l) ∧ aty.isArray = true ∧
      ty = .scalar aty.base ∧ Emits S k offset start index .int i ∧
      ElementCode l (start + i.length) a ∧ is = i ++ (a ++ [.rm .ld .ac 0 .ac c]) := by
  obtain ⟨hok, hty, hcode⟩ := h
  simp only [Exp.check, List.append_eq_nil_iff] at hok hty hcode
  obtain ⟨n, aty, l, hl, harr, hint, hvty, hlay⟩ := check_indexed hok.2
  cases coded hcode with
  | element hi ha =>
    exact ⟨n, aty, l, _, _, _, hl, harr, hty.symm.trans hvty, ⟨hok.1, hint, hi.code_eq⟩,
      VarUse.elementAddress_of_layout hlay ha, rfl⟩

/-- An assignment is accepted for a scalar that takes a value of its own type. -/
theorem assignmentErrors_eq_nil {target value : Ty} (h : assignmentErrors p target value = []) :
    target.base ≠ .void ∧ target.isArray = false ∧ value = target := by
  unfold assignmentErrors at h
  split at h
  · cases h
  · rename_i hvoid
    simp only [demand_eq_nil, Bool.and_eq_true, Bool.not_eq_true', decide_eq_true_eq] at h
    exact ⟨fun hv => hvoid (Or.inl hv), h.1, h.2.symm⟩

/-- A value, and a store to the cell of the variable. -/
theorem emits_assign {v : VarUse} {value : Exp}
    (h : Emits S k offset start (.assign p t v value) ty is) :
    ∃ n l i c, S.lookup v.name = some (.var n ty l) ∧ ty.isArray = false ∧ ty.base ≠ .void ∧
      Emits S k offset start value ty i ∧ is = i ++ [.rm .st .ac l.offset l.base c] := by
  obtain ⟨hok, hty, hcode⟩ := h
  simp only [Exp.check, List.append_eq_nil_iff] at hok hty hcode
  obtain ⟨n, l, hl, hlay⟩ := check_use hok.1.1
  obtain ⟨hvoid, harr, hval⟩ := assignmentErrors_eq_nil hok.2
  obtain ⟨c, hc⟩ := VarUse.store_of_layout hlay
  rw [hty] at hl hvoid harr hval
  cases coded hcode with
  | assign he hstore =>
    cases hc.symm.trans hstore
    exact ⟨n, l, _, c, hl, harr, hvoid, ⟨hok.1.2, hval, he.code_eq⟩, rfl⟩

/-- An index and the address of the element, which is kept in a temporary cell while the value is
computed. -/
theorem emits_assignElement {v : VarUse} {index value : Exp}
    (h : Emits S k offset start (.assignElement p t v index value) ty is) :
    ∃ n aty l i a j c, S.lookup v.name = some (.var n aty l) ∧ aty.isArray = true ∧
      aty.base ≠ .void ∧ ty = .scalar aty.base ∧ Emits S k offset start index .int i ∧
      ElementCode l (start + i.length) a ∧ -2 ^ 31 ≤ offset - 1 ∧
      Emits S k (offset - 1) (start + i.length + a.length + 1) value (.scalar aty.base) j ∧
      is = i ++ (a ++ (.rm .st .ac offset .fp "assign: push address" :: (j ++
        [.rm .ld .ac1 offset .fp "assign: load address", .rm .st .ac 0 .ac1 c]))) := by
  obtain ⟨hok, hty, hcode⟩ := h
  simp only [Exp.check, List.append_eq_nil_iff] at hok hty hcode
  obtain ⟨⟨⟨hi, hu⟩, he⟩, hassign⟩ := hok
  obtain ⟨n, aty, l, hl, harr, hint, hvty, hlay⟩ := check_indexed hu
  obtain ⟨hvoid, -, hval⟩ := assignmentErrors_eq_nil hassign
  rw [hvty] at hvoid hval
  cases coded hcode with
  | assignElement hindex ha hlower hvalue =>
    exact ⟨n, aty, l, _, _, _, _, hl, harr, hvoid, hty.symm.trans hvty, ⟨hi, hint, hindex.code_eq⟩,
      VarUse.elementAddress_of_layout hlay ha, (lowered_eq_ok hlower).2,
      ⟨he, hval, hvalue.code_eq⟩, rfl⟩

/-- The arguments are accepted with types, and their code stores them from `offset` downwards. -/
structure ArgumentsEmit (S : ScopeTable) (k : Linker) (offset : Int) (start : Nat)
    (args : List Exp) (tys : List Ty) (is : List Instr) : Prop where
  accepted : (Exp.checkAll S args).flatMap TypedExp.errors = []
  tys_eq : (Exp.checkAll S args).map TypedExp.ty = tys
  code_eq : Exp.argumentCode k offset start ((Exp.checkAll S args).map TypedExp.exp) = .ok is

/-- No arguments have no code. -/
theorem argumentsEmit_nil {tys : List Ty} (h : ArgumentsEmit S k offset start [] tys is) :
    tys = [] ∧ is = [] := by
  obtain ⟨-, htys, hcode⟩ := h
  exact ⟨htys.symm, argumentCode_nil hcode⟩

/-- An argument is computed below the cell that it is stored in, and the next one below that. -/
theorem argumentsEmit_cons {e : Exp} {rest : List Exp} {tys : List Ty}
    (h : ArgumentsEmit S k offset start (e :: rest) tys is) :
    ∃ ety etys i j, tys = ety :: etys ∧ -2 ^ 31 ≤ offset - 1 ∧
      Emits S k (offset - 1) start e ety i ∧
      ArgumentsEmit S k (offset - 1) (start + i.length + 1) rest etys j ∧
      is = i ++ (.rm .st .ac offset .fp "call: store argument" :: j) := by
  obtain ⟨hok, htys, hcode⟩ := h
  simp only [Exp.checkAll, List.flatMap_cons, List.append_eq_nil_iff,
    List.map_cons] at hok htys hcode
  obtain ⟨i, j, hlower, hi, hj, his⟩ := argumentCode_cons hcode
  exact ⟨_, _, i, j, htys.symm, (lowered_eq_ok hlower).2, ⟨hok.1, rfl, hi⟩, ⟨hok.2, rfl, hj⟩, his⟩

/-- The types of the arguments are those of the parameters. -/
theorem argumentErrors_eq_nil {f : String} {n : Nat} {params : List Param} {tys : List Ty}
    (hlen : params.length = tys.length) (h : argumentErrors p f n params tys = []) :
    tys = params.map Param.ty := by
  induction params generalizing n tys with
  | nil =>
    cases tys with
    | nil => rfl
    | cons t tys => simp at hlen
  | cons q params ih =>
    cases tys with
    | nil => simp at hlen
    | cons t tys =>
      simp only [argumentErrors, List.append_eq_nil_iff, demand_eq_nil, decide_eq_true_eq] at h
      simp only [List.length_cons, Nat.add_right_cancel_iff] at hlen
      rw [List.map_cons, h.1, ← ih hlen h.2]

/-- The analysis gives as many arguments as there are. -/
theorem length_checkAll (S : ScopeTable) (args : List Exp) :
    (Exp.checkAll S args).length = args.length := by
  induction args with
  | nil => rfl
  | cons e rest ih => simp only [Exp.checkAll, List.length_cons, ih]

/-- An accepted call names a function, with arguments of its parameters' types. -/
theorem checkCall_eq_nil {callee : String} {tys : List Ty}
    (h : (checkCall S p callee tys).2 = []) :
    ∃ name result params d, S.lookup callee = some (.function name result params d) ∧
      (checkCall S p callee tys).1 = .scalar result ∧ params.length = tys.length ∧
      (if name = "output" then ∀ t ∈ tys, t = .int else tys = params.map Param.ty) := by
  unfold checkCall at h ⊢
  split at h
  · rename_i name result params d hl
    refine ⟨name, result, params, d, hl, rfl, ?_⟩
    simp only at h
    split at h
    · cases h
    · rename_i hlen
      have hlen : params.length = tys.length := by omega
      refine ⟨hlen, ?_⟩
      split at h
      · rename_i hname
        rw [if_pos hname]
        simpa [List.flatMap_eq_nil_iff] using h
      · rename_i hname
        rw [if_neg hname]
        exact argumentErrors_eq_nil hlen h
  · cases h
  · cases h

/-- The arguments, their copies in the frame of the callee, and the jump to its entry. The routine
for output takes numbers alone, and all other functions the types that they declare. -/
theorem emits_call {callee : String} {args : List Exp}
    (h : Emits S k offset start (.call p t callee args) ty is) :
    ∃ name result params d tys a entry jump,
      S.lookup callee = some (.function name result params d) ∧ ty = .scalar result ∧
      params.length = tys.length ∧
      (if name = "output" then ∀ t ∈ tys, t = .int else tys = params.map Param.ty) ∧
      ArgumentsEmit S k offset start args tys a ∧ -2 ^ 31 ≤ offset - (2 * args.length + 1 : Nat) ∧
      k.entry callee (start + a.length + 2 * args.length) = .ok entry ∧
      Instr.relative .lda .pc (start + a.length + 2 * args.length + 3) entry s!"jump to {callee}"
        = .ok jump ∧
      is = a ++ (copyArguments offset args.length ++
        callSequence (offset - args.length) jump) := by
  obtain ⟨hok, hty, hcode⟩ := h
  simp only [Exp.check, List.append_eq_nil_iff] at hok hty hcode
  obtain ⟨name, result, params, d, hl, hres, hlen, htys⟩ := checkCall_eq_nil hok.2
  have hargs : ((Exp.checkAll S args).map TypedExp.exp).length = args.length := by
    rw [List.length_map, length_checkAll]
  cases coded hcode with
  | call ha hparts hlower htarget hjump =>
    rw [hargs] at hlower htarget hjump ⊢
    exact ⟨name, result, params, d, _, _, _, _, hl, hty.symm.trans hres, hlen, htys,
      ⟨hok.1, rfl, ha⟩, (lowered_eq_ok hlower).2, htarget, hjump, rfl⟩

end Inversion

end Exp

/-! ### Declarations

Declarations change the scopes, so they are described by a relation from the scopes and the free
offset before them to those behind them. -/

/-- The declaration is accepted in the scopes `S`, and given the storage `l` below `next`. -/
structure VarDecl.Accepted (level : Nat) (S : ScopeTable) (next : Int) (d : VarDecl)
    (S' : ScopeTable) (l : Layout) : Prop where
  layout_eq : l = ⟨level, next - d.shape.elements, d.shape.storage⟩
  fits : minOffset ≤ l.offset - 1
  nonzero : d.shape ≠ .array 0
  declared : S.declare? d.name (.var d.name d.ty l) = some S'

/-- The declarations are accepted in order; `placed` are the same with the storage given to them. -/
inductive Declares (level : Nat) :
    ScopeTable → Int → List VarDecl → ScopeTable → Int → List VarDecl → Prop where
  | nil (S : ScopeTable) (next : Int) : Declares level S next [] S next []
  | cons {S S₁ S₂ : ScopeTable} {next next₂ : Int} {d : VarDecl} {rest : List VarDecl} {l : Layout}
      {placed : List VarDecl} (hd : d.Accepted level S next S₁ l)
      (hrest : Declares level S₁ (l.offset - 1) rest S₂ next₂ placed) :
      Declares level S next (d :: rest) S₂ next₂ ({ d with layout := some l } :: placed)

/-- A declaration without errors is placed below the free offset, and its name was free. -/
theorem VarDecl.accepted_of_check {role : Role} {level : Nat} {S : ScopeTable} {next : Int}
    {d : VarDecl} (h : (d.check role level S next).errors = []) :
    d.Accepted level S next (d.check role level S next).scopes (d.place level next).layout ∧
      (d.check role level S next).next = (d.place level next).layout.offset - 1 ∧
      (d.check role level S next).value = { d with
        layout := some (d.place level next).layout } := by
  simp only [VarDecl.check, List.append_eq_nil_iff, demand_eq_nil, bne_iff_ne] at h ⊢
  obtain ⟨⟨⟨-, hzero⟩, hfits⟩, hdecl⟩ := h
  have hplace : minOffset ≤ next - d.shape.elements - 1 := by
    unfold VarDecl.place at hfits
    simp only at hfits
    split at hfits
    · assumption
    · cases hfits
  have hlayout : (d.place level next).layout =
      ⟨level, next - d.shape.elements, d.shape.storage⟩ := by
    unfold VarDecl.place
    rw [if_pos hplace]
  refine ⟨⟨hlayout, by rw [hlayout]; exact hplace, hzero, ?_⟩, ?_, trivial⟩
  · obtain ⟨S', hS'⟩ := Option.isSome_iff_exists.mp hdecl
    rw [hS']
    rfl
  · unfold VarDecl.place
    rw [if_pos hplace]

/-- Declarations without errors are all accepted. Induction on the list. -/
theorem declares_of_checkAll {role : Role} {level : Nat} {S : ScopeTable} {next : Int}
    {ds : List VarDecl} (h : (VarDecl.checkAll role level S next ds).errors = []) :
    Declares level S next ds (VarDecl.checkAll role level S next ds).scopes
      (VarDecl.checkAll role level S next ds).next
        (VarDecl.checkAll role level S next ds).value := by
  induction ds generalizing S next with
  | nil => exact .nil S next
  | cons d rest ih =>
    simp only [VarDecl.checkAll, List.append_eq_nil_iff] at h ⊢
    obtain ⟨hacc, hnext, hvalue⟩ := VarDecl.accepted_of_check h.1
    have hrest := ih h.2
    rw [hvalue]
    rw [hnext] at hrest ⊢
    exact .cons hacc hrest

/-! ### Statements

The inversion lemmas for statements. Each statement takes up the free offset where the one before
has left it. -/

namespace Stmt

/-- What is returned is accepted, and a single value. -/
theorem check_ret {f : Enclosing} {S : ScopeTable} {next : Int} {p : Pos} {e : Exp}
    (h : ((Stmt.ret p (some e)).check f S next).errors = []) :
    (e.check S).errors = [] ∧ (e.check S).ty.isArray = false := by
  simp only [Stmt.check, List.append_eq_nil_iff] at h
  refine ⟨h.1, ?_⟩
  have hret := h.2
  unfold returnErrors at hret
  split at hret
  · cases hret
  · simp only [demand_eq_nil, decide_eq_true_eq] at hret
    rw [hret]
    rfl

/-- The statement is accepted, takes the offsets from `next` down to `next'`, and has this code at
the address `start`. -/
structure Emits (f : Enclosing) (S : ScopeTable) (next : Int) (k : Linker) (offset : Int)
    (start : Nat) (s : Stmt) (next' : Int) (is : List Instr) : Prop where
  accepted : (s.check f S next).errors = []
  next_eq : (s.check f S next).next = next'
  code_eq : (s.check f S next).value.code k offset start = .ok is

/-- The same for statements in order. -/
structure EmitsAll (f : Enclosing) (S : ScopeTable) (next : Int) (k : Linker) (offset : Int)
    (start : Nat) (body : List Stmt) (next' : Int) (is : List Instr) : Prop where
  accepted : (Stmt.checkAll f S next body).errors = []
  next_eq : (Stmt.checkAll f S next body).next = next'
  code_eq : Stmt.codeAll k offset start (Stmt.checkAll f S next body).value = .ok is

section Inversion

variable {f : Enclosing} {S : ScopeTable} {next next' : Int} {k : Linker} {offset : Int}
  {start : Nat} {p : Pos} {is : List Instr}

/-- No statements have no code. -/
theorem emitsAll_nil (h : EmitsAll f S next k offset start [] next' is) :
    next' = next ∧ is = [] := by
  obtain ⟨-, hnext, hcode⟩ := h
  exact ⟨hnext.symm, codeAll_nil hcode⟩

/-- A statement and those behind it, in the same scopes. -/
theorem emitsAll_cons {s : Stmt} {rest : List Stmt}
    (h : EmitsAll f S next k offset start (s :: rest) next' is) :
    ∃ next₁ i j, Emits f S next k offset start s next₁ i ∧
      EmitsAll f S next₁ k offset (start + i.length) rest next' j ∧ is = i ++ j := by
  obtain ⟨hok, hnext, hcode⟩ := h
  simp only [Stmt.checkAll, List.append_eq_nil_iff] at hok hnext hcode
  obtain ⟨i, j, hi, hj, his⟩ := codeAll_cons hcode
  exact ⟨_, i, j, ⟨hok.1, rfl, hi⟩, ⟨hok.2, hnext, hj⟩, his⟩

/-- The code of an expression statement is that of the expression. -/
theorem emits_exp {e : Exp} (h : Emits f S next k offset start (.exp p e) next' is) :
    next' = next ∧ ∃ ty, e.Emits S k offset start ty is := by
  obtain ⟨hok, hnext, hcode⟩ := h
  cases coded hcode with
  | exp he => exact ⟨hnext.symm, _, hok, rfl, he⟩

/-- The lengths of the arrays of a block are stored first; its statements are in a scope of their
own. -/
theorem emits_block {decls : List VarDecl} {body : List Stmt}
    (h : Emits f S next k offset start (.block p decls body) next' is) :
    ∃ S₁ next₁ placed j,
      VarDecl.checkAll .var frameLevel S.enter next decls = ⟨placed, S₁, next₁, []⟩ ∧
      Declares frameLevel S.enter next decls S₁ next₁ placed ∧
      EmitsAll f S₁ next₁ k offset
        (start + (placed.flatMap (VarDecl.lengthCode · .fp)).length) body next' j ∧
      is = placed.flatMap (VarDecl.lengthCode · .fp) ++ j := by
  obtain ⟨hok, hnext, hcode⟩ := h
  simp only [Stmt.check, List.append_eq_nil_iff] at hok hnext hcode
  cases coded hcode with
  | block hbody =>
    exact ⟨_, _, _, _, by rw [← hok.1], declares_of_checkAll hok.1, ⟨hok.2, hnext, hbody⟩, rfl⟩

/-- A test is a single value. -/
theorem testErrors_eq_nil {construct : Construct} {test : TypedExp}
    (h : testErrors construct test = []) : test.ty.isArray = false ∧ test.ty.base ≠ .void := by
  unfold testErrors at h
  simpa only [demand_eq_nil, Bool.and_eq_true, Bool.not_eq_true', bne_iff_ne] using h

/-- The jump goes from behind the condition to behind the branch. -/
theorem emits_ifThen {test : Exp} {a : Stmt}
    (h : Emits f S next k offset start (.ifThen p test a) next' is) :
    ∃ ty i j skip, ty.isArray = false ∧ test.Emits S k offset start ty i ∧
      Emits f S next k offset (start + i.length + 1) a next' j ∧
      Instr.relative .jeq .ac (start + i.length) (start + i.length + 1 + j.length) "if: jump to end"
        = .ok skip ∧
      is = i ++ skip :: j := by
  obtain ⟨hok, hnext, hcode⟩ := h
  simp only [Stmt.check, List.append_eq_nil_iff] at hok hnext hcode
  cases coded hcode with
  | ifThen ht ha hskip =>
    exact ⟨_, _, _, _, (testErrors_eq_nil hok.1.2).1, ⟨hok.1.1, rfl, ht⟩,
      ⟨hok.2, hnext, ha.code_eq⟩, hskip, rfl⟩

/-- The first branch ends with a jump around the second one, and the condition jumps to behind that
jump. -/
theorem emits_ifElse {test : Exp} {a b : Stmt}
    (h : Emits f S next k offset start (.ifElse p test a b) next' is) :
    ∃ ty next₁ i j l toElse toEnd, ty.isArray = false ∧ test.Emits S k offset start ty i ∧
      Emits f S next k offset (start + i.length + 1) a next₁ j ∧
      Emits f S next₁ k offset (start + i.length + 1 + j.length + 1) b next' l ∧
      Instr.relative .jeq .ac (start + i.length) (start + i.length + 1 + j.length + 1)
        "if: jump to else" = .ok toElse ∧
      Instr.relative .lda .pc (start + i.length + 1 + j.length)
        (start + i.length + 1 + j.length + 1 + l.length) "if: jump to end" = .ok toEnd ∧
      is = i ++ (toElse :: (j ++ toEnd :: l)) := by
  obtain ⟨hok, hnext, hcode⟩ := h
  simp only [Stmt.check, List.append_eq_nil_iff] at hok hnext hcode
  cases coded hcode with
  | ifElse ht ha hElse hb hEnd =>
    exact ⟨_, _, _, _, _, _, _, (testErrors_eq_nil hok.1.1.2).1, ⟨hok.1.1.1, rfl, ht⟩,
      ⟨hok.1.2, rfl, ha.code_eq⟩, ⟨hok.2, hnext, hb.code_eq⟩, hElse, hEnd, rfl⟩

/-- The body ends with a jump back to the condition, and the condition jumps to behind that jump. -/
theorem emits_whileDo {test : Exp} {b : Stmt}
    (h : Emits f S next k offset start (.whileDo p test b) next' is) :
    ∃ ty i j skip back, ty.isArray = false ∧ test.Emits S k offset start ty i ∧
      Emits f S next k offset (start + i.length + 1) b next' j ∧
      Instr.relative .lda .pc (start + i.length + 1 + j.length) start "while: jump back to test"
        = .ok back ∧
      Instr.relative .jeq .ac (start + i.length) (start + i.length + 1 + j.length + 1)
        "while: jump to end" = .ok skip ∧
      is = i ++ (skip :: (j ++ [back])) := by
  obtain ⟨hok, hnext, hcode⟩ := h
  simp only [Stmt.check, List.append_eq_nil_iff] at hok hnext hcode
  cases coded hcode with
  | whileDo ht hb hback hskip =>
    exact ⟨_, _, _, _, _, (testErrors_eq_nil hok.1.2).1, ⟨hok.1.1, rfl, ht⟩,
      ⟨hok.2, hnext, hb.code_eq⟩, hback, hskip, rfl⟩

/-- A return without a value is one instruction. -/
theorem emits_ret_none (h : Emits f S next k offset start (.ret p none) next' is) :
    next' = next ∧ is = [returnInstr] := by
  obtain ⟨-, hnext, hcode⟩ := h
  cases coded hcode
  exact ⟨hnext.symm, rfl⟩

/-- A value is left in the accumulator before the return. -/
theorem emits_ret_some {e : Exp} (h : Emits f S next k offset start (.ret p (some e)) next' is) :
    next' = next ∧ ∃ ty i, ty.isArray = false ∧ e.Emits S k offset start ty i ∧
      is = i ++ [returnInstr] := by
  obtain ⟨hok, hnext, hcode⟩ := h
  obtain ⟨haccepted, hscalar⟩ := check_ret hok
  cases coded hcode with
  | retSome he => exact ⟨hnext.symm, _, _, hscalar, ⟨haccepted, rfl, he⟩, rfl⟩

end Inversion

end Stmt

end MiniC
