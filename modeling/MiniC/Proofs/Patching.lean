import MiniC.Code.Program
import MiniC.Proofs.Coding

/-!
# Jumps that are filled in later

While code is written, the slots of its forward jumps are free, and those of the phrases around it
too. What is written for a phrase begins at the end of the buffer and leaves the slots in front of
it alone; by the time the phrase ends, each slot that was kept for one of its jumps has been filled,
once and with the cursor moved to it and back. So the buffer grows by a list of instructions, which
is the code of the phrase at its address. The fault that stops the generator is the one that stops
the making of this list: no slot is missed, and none is looked for behind the end of the buffer.

* `CodeBuffer.AtEnd`: nothing is being filled in
* `CodeBuffer.AtEnd.patch_reserved`: a slot that is kept, code behind it, and then the jump
* `Exp.emit_eq`, `Stmt.emit_eq`, `FunDecl.emit_eq`: what is written is the code
* `CodeBuffer.Full`, `CodeBuffer.Full.finish`: a buffer without free slots
* `Assembly.declaration_eq`: the layout of a function
-/

namespace MiniC

/-! ### Steps that go on alike

A generator with a buffer and one that makes lists are compared step by step: both go through with
related results, or both stop with the same fault. -/

section Except

variable {ε α β γ δ : Type} {f : δ → γ} {g' : α → Except ε δ}

/-- A sequence goes on with what its first part has computed. -/
theorem Except.bind_ok {a : α} {g : α → Except ε γ} : (Except.ok a >>= g) = g a := rfl

/-- A result that is changed before it is used. -/
theorem Except.map_bind (x : Except ε α) (h : α → β) (g : β → Except ε γ) :
    (x.map h >>= g) = x >>= fun a => g (h a) := by
  cases x <;> rfl

/-- Both have a first step, with results that correspond. -/
theorem Except.map_bind_eq {x : Except ε α} {h : α → β} {g : β → Except ε γ}
    (hg : ∀ a, g (h a) = (g' a).map f) : (x.map h >>= g) = (x >>= g').map f := by
  cases x with
  | error e => rfl
  | ok a => exact hg a

/-- The buffer is done where the list has one more step. -/
theorem Except.map_eq_map {x : Except ε α} {h : α → γ}
    (hg : ∀ a, .ok (h a) = (g' a).map f) : x.map h = (x >>= g').map f := by
  cases x with
  | error e => rfl
  | ok a => exact hg a

/-- Both have the same first step. -/
theorem Except.bind_eq_map {x : Except ε α} {g : α → Except ε γ}
    (hg : ∀ a, g a = (g' a).map f) : (x >>= g) = (x >>= g').map f := by
  cases x with
  | error e => rfl
  | ok a => exact hg a

end Except

/-! ### Buffers

A buffer is at its end when the cursor is behind the last slot. What is written there is appended,
and a patch comes back to the end; in between a slot may be free. -/

namespace CodeBuffer

/-- The cursor stands behind the last slot, and no slot is being filled. Slots in front of it may be
free. -/
def AtEnd (b : CodeBuffer) : Prop :=
  b.cursor = b.slots.size

variable {b : CodeBuffer}

/-- Nothing is written. -/
theorem emitAll_nil (b : CodeBuffer) : b.emitAll [] = b := rfl

/-- Instructions are written in order. -/
theorem emitAll_cons (b : CodeBuffer) (i : Instr) (is : List Instr) :
    b.emitAll (i :: is) = (b.emit i).emitAll is := rfl

/-- Code in two parts is written part by part. -/
theorem emitAll_append (b : CodeBuffer) (is js : List Instr) :
    b.emitAll (is ++ js) = (b.emitAll is).emitAll js :=
  List.foldl_append

/-- Instructions that are written at the end are added to the slots. By induction on the
instructions: each one leaves the cursor at the end again. -/
theorem AtEnd.emitAll_eq (h : b.AtEnd) (is : List Instr) :
    b.emitAll is = ⟨b.slots ++ (is.map some).toArray, b.cursor + is.length⟩ := by
  induction is generalizing b with
  | nil => simp [emitAll]
  | cons i is ih =>
    have hemit : b.emit i = ⟨b.slots.push (some i), b.cursor + 1⟩ := by
      rw [emit, if_neg (by rw [h]; exact Nat.lt_irrefl _)]
    have hend : (b.emit i).AtEnd := by
      rw [hemit]
      simpa [AtEnd] using h
    rw [emitAll_cons, ih hend, hemit]
    simp only [List.map_cons, List.length_cons, mk.injEq]
    exact ⟨by simp, by omega⟩

/-- Behind what is written there is nothing. -/
theorem AtEnd.emitAll (h : b.AtEnd) (is : List Instr) : (b.emitAll is).AtEnd := by
  rw [h.emitAll_eq]
  simpa [AtEnd] using h

/-- The cursor moves on by one for each instruction. -/
theorem AtEnd.cursor_emitAll (h : b.AtEnd) (is : List Instr) :
    (b.emitAll is).cursor = b.cursor + is.length := by
  rw [h.emitAll_eq]

/-- The same for one instruction. -/
theorem AtEnd.emit (h : b.AtEnd) (i : Instr) : (b.emit i).AtEnd :=
  h.emitAll [i]

/-- The cursor moves on by one. -/
theorem AtEnd.cursor_emit (h : b.AtEnd) (i : Instr) : (b.emit i).cursor = b.cursor + 1 :=
  h.cursor_emitAll [i]

/-- At the end, the slots kept free are new ones. -/
theorem AtEnd.reserve_eq (h : b.AtEnd) (n : Nat) :
    b.reserve n = ⟨b.slots ++ Array.replicate n none, b.cursor + n⟩ := by
  simp [CodeBuffer.reserve, show b.cursor = b.slots.size from h]

/-- The cursor is behind the slots that are kept free. -/
theorem AtEnd.reserve (h : b.AtEnd) (n : Nat) : (b.reserve n).AtEnd := by
  rw [h.reserve_eq]
  simpa [AtEnd] using h

/-- Keeping no slot free changes nothing. -/
theorem AtEnd.reserve_zero (h : b.AtEnd) : b.reserve 0 = b := by
  rw [h.reserve_eq, Array.replicate_zero, Array.append_empty, Nat.add_zero]

/-- The cursor moves on over the slots that are kept free. -/
theorem cursor_reserve (b : CodeBuffer) (n : Nat) : (b.reserve n).cursor = b.cursor + n := rfl

/-- A jump is written relative to the cursor. -/
theorem emitRelative_eq {op : Opcode} (hop : op.isRegisterOnly = false) (b : CodeBuffer) (r : Reg)
    (target : Nat) (comment : String) :
    b.emitRelative op r target comment =
      (Instr.relative op r b.cursor target comment).map b.emit := by
  refine Except.bind_eq_map fun d => ?_
  rw [emitRm, hop]
  rfl

/-- The cursor is moved to a slot, an instruction is written there, and the cursor goes back behind
the last slot. -/
theorem patch_eq {op : Opcode} (hop : op.isRegisterOnly = false) {slot : Nat}
    (hslot : slot ≤ b.slots.size) (r : Reg) (target : Nat) (comment : String) :
    b.patch slot op r target comment = (Instr.relative op r slot target comment).map fun jump =>
      (CodeBuffer.emit { b with cursor := slot } jump).resume := by
  have hrewind : b.rewind slot = .ok { b with cursor := slot } := if_neg (Nat.not_lt.mpr hslot)
  unfold patch
  rw [hrewind, Except.bind_ok, emitRelative_eq hop]
  cases Instr.relative op r slot target comment <;> rfl

/-- A slot is kept, code is written behind it, perhaps other slots are kept behind that code, and
then the first slot is filled with a jump. It comes to the same as writing the jump in front of the
code, had its target been known. -/
theorem AtEnd.patch_reserved_reserve (h : b.AtEnd) {op : Opcode} (hop : op.isRegisterOnly = false)
    (js : List Instr) (n : Nat) (r : Reg) (target : Nat) (comment : String) :
    (((b.reserve 1).emitAll js).reserve n).patch b.cursor op r target comment =
      (Instr.relative op r b.cursor target comment).map fun jump =>
        (b.emitAll (jump :: js)).reserve n := by
  have hcursor : b.cursor = b.slots.size := h
  have hslots : (((b.reserve 1).emitAll js).reserve n).slots =
      b.slots.push none ++ (js.map some).toArray ++ Array.replicate n none := by
    rw [((h.reserve 1).emitAll js).reserve_eq, (h.reserve 1).emitAll_eq, h.reserve_eq]
    simp
  have hsize : (((b.reserve 1).emitAll js).reserve n).slots.size =
      b.slots.size + 1 + js.length + n := by
    simp only [hslots, Array.size_append, Array.size_push, List.size_toArray, List.length_map,
      Array.size_replicate]
  rw [patch_eq hop (by omega)]
  congr 1
  funext jump
  -- the jump takes the place of the free slot, and the cursor goes back to the end
  rw [(h.emitAll _).reserve_eq, h.emitAll_eq, CodeBuffer.emit, if_pos (by simp only; omega)]
  simp only [resume, highWater, Array.size_setIfInBounds, hsize, mk.injEq, List.length_cons]
  constructor
  · rw [hslots, ← Array.toList_inj]
    simp [hcursor]
  · omega

/-- The same with no slots behind the code. -/
theorem AtEnd.patch_reserved (h : b.AtEnd) {op : Opcode} (hop : op.isRegisterOnly = false)
    (js : List Instr) (r : Reg) (target : Nat) (comment : String) :
    ((b.reserve 1).emitAll js).patch b.cursor op r target comment =
      (Instr.relative op r b.cursor target comment).map fun jump => b.emitAll (jump :: js) := by
  have hpatch := h.patch_reserved_reserve hop js 0 r target comment
  simpa only [((h.reserve 1).emitAll js).reserve_zero, (h.emitAll _).reserve_zero] using hpatch

/-- A slot is kept in front of code and filled with a jump to the end of that code. -/
theorem AtEnd.jumpToEnd_reserved (h : b.AtEnd) (js : List Instr) (comment : String) :
    ((b.reserve 1).emitAll js).jumpToEnd b.cursor comment =
      (Instr.relative .lda .pc b.cursor (b.cursor + 1 + js.length) comment).map fun jump =>
        b.emitAll (jump :: js) := by
  rw [jumpToEnd, h.patch_reserved rfl, (h.reserve 1).cursor_emitAll, cursor_reserve]

/-- The buffer holds the instructions, and the cursor stands behind them. -/
structure Full (b : CodeBuffer) (is : List Instr) : Prop where
  slots_eq : b.slots.toList = is.map some
  cursor_eq : b.cursor = is.length

variable {is : List Instr}

/-- A new buffer holds nothing. -/
theorem full_empty : empty.Full [] := ⟨rfl, rfl⟩

/-- A full buffer has a slot for each instruction. -/
theorem Full.size_eq (h : b.Full is) : b.slots.size = is.length := by
  rw [← Array.length_toList, h.slots_eq, List.length_map]

/-- The cursor of a full buffer is at its end. -/
theorem Full.atEnd (h : b.Full is) : b.AtEnd :=
  h.cursor_eq.trans h.size_eq.symm

/-- Writing more code keeps a buffer full. -/
theorem Full.emitAll (h : b.Full is) (js : List Instr) : (b.emitAll js).Full (is ++ js) := by
  rw [h.atEnd.emitAll_eq]
  exact ⟨by simp [h.slots_eq], by rw [h.cursor_eq, List.length_append]⟩

/-- Slots that are all filled are the code. Induction on the code. -/
theorem filled_map_some (address : Nat) (is : List Instr) :
    filled address (is.map some) = .ok is := by
  induction is generalizing address with
  | nil => rfl
  | cons i is ih => simp [filled, ih, bind, Except.bind, pure, Except.pure]

/-- A full buffer is finished without a fault. -/
theorem Full.finish (h : b.Full is) : b.finish = .ok is := by
  rw [CodeBuffer.finish, h.slots_eq, filled_map_some]

end CodeBuffer

/-! ### Expressions

The generator and the making of lists go through the same steps in the same order, so the equations
follow the text of both. The only step that is different is at a jump: the list has it at once, the
buffer a free slot that is filled when the target is known. -/

section Phrases

open CodeBuffer

variable {k : Linker} {offset : Int} {b : CodeBuffer}

/-- The jump over a right operand is a register-memory instruction. -/
theorem BinaryOp.isRegisterOnly_of_shortCircuit {op : BinaryOp} {jump : Opcode} {comment : String}
    (h : op.combination = .shortCircuit jump comment) : jump.isRegisterOnly = false := by
  cases op <;> cases h <;> rfl

/-- Arguments, each of which is written as its code. -/
theorem Exp.emitArguments_eq {args : List Exp}
    (ih : ∀ a ∈ args, ∀ {b : CodeBuffer}, b.AtEnd → ∀ {offset : Int},
      a.emit k offset b = (a.code k offset b.cursor).map b.emitAll)
    (h : b.AtEnd) {offset : Int} :
    Exp.emitArguments k offset b args =
      (Exp.argumentCode k offset b.cursor args).map b.emitAll := by
  induction args generalizing b offset with
  | nil => rfl
  | cons e rest hrest =>
    simp only [emitArguments, argumentCode]
    refine Except.bind_eq_map fun lower => ?_
    rw [ih e List.mem_cons_self h]
    refine Except.map_bind_eq fun i => ?_
    rw [hrest (fun a ha => ih a (List.mem_cons_of_mem e ha)) ((h.emitAll i).emit _),
      (h.emitAll i).cursor_emit, h.cursor_emitAll]
    refine Except.map_eq_map fun j => congrArg Except.ok ?_
    rw [emitAll_append, emitAll_cons]

/-- What is written for an expression at the end of a buffer is its code at that address, or the
generator stops with the same fault. By induction on the expression: the parts are written at the
end too, also while the slot of a jump over them is free. -/
theorem Exp.emit_eq (e : Exp) (h : b.AtEnd) {offset : Int} :
    e.emit k offset b = (e.code k offset b.cursor).map b.emitAll := by
  induction e using Exp.induction generalizing b offset with
  | int p n => rfl
  | bool p b => rfl
  | nil p => rfl
  | unary p t op e ih =>
    simp only [emit, code]
    rw [ih h]
    refine Except.map_bind_eq fun i => ?_
    cases op with
    | neg => exact congrArg Except.ok (b.emitAll_append i _).symm
    | not => exact congrArg Except.ok (b.emitAll_append i _).symm
  | binary p t op l r ihl ihr =>
    simp only [emit, code]
    rw [ihl h]
    refine Except.map_bind_eq fun i => ?_
    have hi := h.emitAll i
    rw [← h.cursor_emitAll]
    cases hop : op.combination with
    | shortCircuit jump comment =>
      simp only
      rw [ihr (hi.reserve 1), cursor_reserve]
      refine Except.map_bind_eq fun j => ?_
      -- the slot that was reserved behind the left operand is filled now, from the end of the right
      -- one
      rw [hi.patch_reserved (BinaryOp.isRegisterOnly_of_shortCircuit hop),
        (hi.reserve 1).cursor_emitAll, cursor_reserve]
      exact Except.map_eq_map fun skip => congrArg Except.ok (b.emitAll_append i _).symm
    | operation operation =>
      simp only
      refine Except.bind_eq_map fun lower => ?_
      rw [ihr (hi.emit _), hi.cursor_emit]
      refine Except.map_bind_eq fun j => congrArg Except.ok ?_
      simp only [List.append_assoc, List.cons_append, emitAll_append, emitAll_cons]
    | comparison jump =>
      simp only
      refine Except.bind_eq_map fun lower => ?_
      rw [ihr (hi.emit _), hi.cursor_emit]
      refine Except.map_bind_eq fun j => congrArg Except.ok ?_
      simp only [List.append_assoc, List.cons_append, List.nil_append, emitAll_append, emitAll_cons]
  | var t v =>
    simp only [emit, code]
    exact Except.bind_eq_map fun load => rfl
  | element t v i ih =>
    simp only [emit, code]
    rw [ih h]
    refine Except.map_bind_eq fun i => ?_
    rw [h.cursor_emitAll]
    refine Except.bind_eq_map fun a => congrArg Except.ok ?_
    simp only [emitAll_append, emitAll_cons, emitAll_nil]
  | assign p t v e ih =>
    simp only [emit, code]
    rw [ih h]
    refine Except.map_bind_eq fun i => ?_
    exact Except.bind_eq_map fun store => congrArg Except.ok (b.emitAll_append i [store]).symm
  | assignElement p t v i e ihi ihe =>
    simp only [emit, code]
    rw [ihi h]
    refine Except.map_bind_eq fun i => ?_
    rw [h.cursor_emitAll]
    refine Except.bind_eq_map fun a => Except.bind_eq_map fun lower => ?_
    have ha := (h.emitAll i).emitAll a
    rw [ihe (ha.emit _), ha.cursor_emit, (h.emitAll i).cursor_emitAll, h.cursor_emitAll]
    refine Except.map_bind_eq fun j => congrArg Except.ok ?_
    simp only [List.append_assoc, List.cons_append, emitAll_append, emitAll_cons]
  | call p t f args ih =>
    simp only [emit, code]
    rw [emitArguments_eq (fun a ha _ h _ => ih a ha h) h]
    refine Except.map_bind_eq fun a => Except.bind_eq_map fun lower => ?_
    rw [(h.emitAll a).cursor_emitAll, h.cursor_emitAll, length_copyArguments]
    refine Except.bind_eq_map fun entry => Except.bind_eq_map fun jump => congrArg Except.ok ?_
    simp only [emitAll_append]

/-! ### Statements

An alternative is the one phrase with two slots at a time: the first is filled while the second one
is free. -/

/-- Statements are written as their code, if each of them is. Induction on the list. -/
theorem Stmt.emitAll_eq {body : List Stmt}
    (ih : ∀ s ∈ body, ∀ {b : CodeBuffer}, b.AtEnd →
      s.emit k offset b = (s.code k offset b.cursor).map b.emitAll)
    (h : b.AtEnd) :
    Stmt.emitAll k offset b body = (Stmt.codeAll k offset b.cursor body).map b.emitAll := by
  induction body generalizing b with
  | nil => rfl
  | cons s rest hrest =>
    simp only [emitAll, codeAll]
    rw [ih s List.mem_cons_self h]
    refine Except.map_bind_eq fun i => ?_
    rw [hrest (fun a ha => ih a (List.mem_cons_of_mem s ha)) (h.emitAll i), h.cursor_emitAll]
    exact Except.map_eq_map fun j => congrArg Except.ok (b.emitAll_append i j).symm

/-- What is written for a statement at the end of a buffer is its code at that address, or the
generator stops with the same fault. By induction on the statement. Each slot that is kept for one
of its jumps is filled when the phrase it jumps over has been written; of an alternative the slot
behind the first branch is free while the one in front of that branch is filled. -/
theorem Stmt.emit_eq (s : Stmt) (h : b.AtEnd) :
    s.emit k offset b = (s.code k offset b.cursor).map b.emitAll := by
  induction s using Stmt.induction generalizing b with
  | exp p e => exact e.emit_eq h
  | block p ds body ih =>
    simp only [emit, code]
    rw [emitAll_eq (fun s hs _ h => ih s hs h) (h.emitAll _), h.cursor_emitAll]
    exact Except.map_eq_map fun j => congrArg Except.ok (b.emitAll_append _ j).symm
  | ifThen p t a ih =>
    simp only [emit, code]
    rw [t.emit_eq h]
    refine Except.map_bind_eq fun i => ?_
    have hi := h.emitAll i
    rw [← h.cursor_emitAll, ih (hi.reserve 1), cursor_reserve]
    refine Except.map_bind_eq fun j => ?_
    rw [hi.patch_reserved rfl, (hi.reserve 1).cursor_emitAll, cursor_reserve]
    exact Except.map_eq_map fun skip => congrArg Except.ok (b.emitAll_append i _).symm
  | ifElse p t a s iha ihs =>
    simp only [emit, code]
    rw [t.emit_eq h]
    refine Except.map_bind_eq fun i => ?_
    have hi := h.emitAll i
    rw [← h.cursor_emitAll, iha (hi.reserve 1), cursor_reserve]
    refine Except.map_bind_eq fun j => ?_
    rw [hi.patch_reserved_reserve rfl, cursor_reserve, (hi.reserve 1).cursor_emitAll,
      cursor_reserve]
    refine Except.map_bind_eq fun toElse => ?_
    -- the slot of the second jump stands behind the branch whose slot has been filled
    have hElse := hi.emitAll (toElse :: j)
    have hexit : ((b.emitAll i).emitAll (toElse :: j)).cursor =
        (b.emitAll i).cursor + 1 + j.length := by
      rw [hi.cursor_emitAll, List.length_cons]
      omega
    rw [← hexit, ihs (hElse.reserve 1), cursor_reserve]
    refine Except.map_bind_eq fun l => ?_
    rw [hElse.patch_reserved rfl, (hElse.reserve 1).cursor_emitAll, cursor_reserve]
    refine Except.map_eq_map fun toEnd => congrArg Except.ok ?_
    simp only [List.append_assoc, List.cons_append, emitAll_append, emitAll_cons]
  | whileDo p t s ih =>
    simp only [emit, code]
    rw [t.emit_eq h]
    refine Except.map_bind_eq fun i => ?_
    have hi := h.emitAll i
    rw [← h.cursor_emitAll, ih (hi.reserve 1), cursor_reserve]
    refine Except.map_bind_eq fun j => ?_
    rw [emitRelative_eq rfl, (hi.reserve 1).cursor_emitAll, cursor_reserve]
    refine Except.map_bind_eq fun back => ?_
    rw [show (((b.emitAll i).reserve 1).emitAll j).emit back =
        ((b.emitAll i).reserve 1).emitAll (j ++ [back]) from (emitAll_append _ j [back]).symm,
      hi.patch_reserved rfl, (hi.reserve 1).cursor_emitAll, cursor_reserve, List.length_append,
      List.length_singleton, ← Nat.add_assoc]
    refine Except.map_eq_map fun skip => congrArg Except.ok ?_
    simp only [List.append_assoc, List.cons_append, emitAll_append, emitAll_cons]
  | ret p v =>
    cases v with
    | none => rfl
    | some e =>
      simp only [emit, code]
      rw [e.emit_eq h]
      exact Except.map_bind_eq fun i => congrArg Except.ok (b.emitAll_append i [returnInstr]).symm

/-! ### Declarations

The jump over a function is a slot as well, free while the whole body is written. -/

/-- What is written for a function is its code, return address and all. -/
theorem FunDecl.emit_eq (h : b.AtEnd) (f : FunDecl) (body : Block) :
    f.emit k b body = (f.code k b.cursor body).map b.emitAll := by
  simp only [FunDecl.emit, FunDecl.code, Block.emit]
  rw [Stmt.emit_eq _ (h.emit _), h.cursor_emit]
  refine Except.map_bind_eq fun i => congrArg Except.ok ?_
  exact congrArg (CodeBuffer.emit · returnInstr) (emitAll_cons b _ i).symm |>.trans
    (emitAll_append b _ [returnInstr]).symm

end Phrases

namespace Assembly

/-- The fixed code: the slot behind the start of the program is filled when the routines have been
written. -/
theorem start_eq (known : Entries) :
    start known = (do
      let jump ← Instr.relative .lda .pc startupCode.length
        (startupCode.length + 1 + routines.length) "jump around i/o routines"
      return ⟨CodeBuffer.empty.emitAll (startupCode ++ jump :: routines),
        ("output", outputEntry) :: ("input", inputEntry) :: known⟩) := by
  have hstart : (CodeBuffer.empty.emitAll startupCode).AtEnd :=
    (CodeBuffer.full_empty.emitAll startupCode).atEnd
  have hjump := hstart.jumpToEnd_reserved MiniC.routines "jump around i/o routines"
  rw [show (CodeBuffer.empty.emitAll startupCode).cursor = startupCode.length from rfl] at hjump
  simp only [start, hjump, Except.map_bind, CodeBuffer.emitAll_append]

/-- The layout of a function with a body, at the end of the buffer: the code of the function behind
a jump over it. The slot of that jump is free while the body is written, with all the slots that are
kept and filled inside it. -/
theorem declaration_eq {linked : Bool} {a : Assembly} {f : FunDecl} {body : Block}
    (h : a.buffer.AtEnd) (hbody : f.body = some body) :
    declaration linked a (.function f) = (do
      let is ← f.code ⟨(f.name, a.buffer.cursor + 1) :: a.entries, linked⟩
        (a.buffer.cursor + 1) body
      let jump ← Instr.relative .lda .pc a.buffer.cursor (a.buffer.cursor + 1 + is.length)
        s!"jump around {f.name} body"
      return (.function (if linked then { f with entry := some (a.buffer.cursor + 1) } else f),
        ⟨a.buffer.emitAll (jump :: is), (f.name, a.buffer.cursor + 1) :: a.entries⟩)) := by
  simp only [declaration, hbody]
  rw [FunDecl.emit_eq (h.reserve 1), CodeBuffer.cursor_reserve, Except.map_bind]
  refine bind_congr fun is => ?_
  rw [h.jumpToEnd_reserved, Except.map_bind]

end Assembly

end MiniC
