import MiniC.Proofs.Linking

/-!
# What a buffer holds

A buffer is written out of order: slots are kept free, and the cursor goes back to them. Whatever
is done to it, it holds at each address the instruction that was written there last.

The buffer takes the number of its slots for the address behind the highest one that was written or
kept free. A buffer that keeps a mark of its own for that address, and that is changed in place,
does the same, since the cursor never passes the mark and the mark is the number of the slots.

* `BufferOp`, `CodeBuffer.perform`: the operations of a buffer
* `MarkedBuffer`: a buffer with a mark of its own, changed in place
* `CodeBuffer.Effect`: all that one operation changes
* `CodeBuffer.Records`: the slots hold what was written last
* `buffer_faithful`: any sequence of operations on a new buffer
-/

namespace MiniC

/-- A sequence stops at a fault. -/
theorem Except.error_bind {ε α β : Type} (e : ε) (f : α → Except ε β) :
    ((.error e : Except ε α) >>= f) = .error e := rfl

/-- A sequence has a fault if one of its two parts has. -/
theorem Except.bind_eq_error_iff {ε α β : Type} {x : Except ε α} {f : α → Except ε β} {e : ε} :
    (x >>= f) = .error e ↔ x = .error e ∨ ∃ a, x = .ok a ∧ f a = .error e := by
  cases x with
  | error e' => simp [bind, Except.bind]
  | ok a => simp [bind, Except.bind]

/-! ### Operations

A buffer is described by what can be done to it, one operation at a time, with an answer to each. An
operation that is refused has an answer too, and the next one can follow. -/

/-- The operations of a buffer. -/
inductive BufferOp where
  | emit (i : Instr)
  | emitRo (op : Opcode) (r s t : Reg) (comment : String)
  | emitRm (op : Opcode) (r : Reg) (d : Int) (s : Reg) (comment : String)
  | emitRelative (op : Opcode) (r : Reg) (target : Nat) (comment : String)
  | reserve (n : Nat)
  | rewind (address : Nat)
  | resume
  | patch (slot : Nat) (op : Opcode) (r : Reg) (target : Nat) (comment : String)

/-- What an operation answers. -/
inductive BufferAnswer where
  /-- The address at which the operation began to write or to keep slots free. -/
  | address (address : Nat)
  | done
  /-- The operation was to go beyond the mark. -/
  | refused (address mark : Nat)
deriving DecidableEq

namespace BufferOp

/-- The instruction that an operation has written, and where, as far as it can be told from its
answer. -/
def write? : BufferOp → BufferAnswer → Option (Nat × Instr)
  | .emit i, .address a => some (a, i)
  | .emitRo op r s t comment, .address a => some (a, .ro op r s t comment)
  | .emitRm op r d s comment, .address a => some (a, .rm op r d s comment)
  | .emitRelative op r target comment, .address a =>
    (Instr.relative op r a target comment).toOption.map fun i => (a, i)
  | .patch slot op r target comment, .done =>
    (Instr.relative op r slot target comment).toOption.map fun i => (slot, i)
  | _, _ => none

/-- What operations have written, the oldest first. -/
def writes (ops : List BufferOp) (answers : List BufferAnswer) : List (Nat × Instr) :=
  (ops.zip answers).filterMap fun (op, answer) => op.write? answer

/-- What a first operation has written is written before all that follows. -/
theorem writes_cons (op : BufferOp) (ops : List BufferOp) (answer : BufferAnswer)
    (answers : List BufferAnswer) :
    writes (op :: ops) (answer :: answers) = (op.write? answer).toList ++ writes ops answers := by
  unfold writes
  rw [List.zip_cons_cons]
  cases hw : op.write? answer with
  | none => exact List.filterMap_cons_none hw
  | some w => exact List.filterMap_cons_some hw

/-- Performs operations in order; nothing if one of them has no answer. -/
def performAll {β : Type} (perform : β → BufferOp → Option (BufferAnswer × β)) :
    β → List BufferOp → Option (List BufferAnswer × β)
  | b, [] => some ([], b)
  | b, op :: rest =>
    (perform b op).bind fun (answer, b') =>
      (performAll perform b' rest).map fun (answers, b'') => (answer :: answers, b'')

end BufferOp

namespace CodeBuffer

/-- The answer of an operation that may fail. One that was to go beyond the mark is refused; any
other fault leaves no buffer to go on with. -/
def answered (b : CodeBuffer) (answer : BufferAnswer) :
    Except CodeFault CodeBuffer → Option (BufferAnswer × CodeBuffer)
  | .ok b' => some (answer, b')
  | .error (.rewindBeyond address mark) => some (.refused address mark, b)
  | .error _ => none

/-- Performs an operation. -/
def perform (b : CodeBuffer) : BufferOp → Option (BufferAnswer × CodeBuffer)
  | .emit i => some (.address b.cursor, b.emit i)
  | .emitRo op r s t comment => b.answered (.address b.cursor) (b.emitRo op r s t comment)
  | .emitRm op r d s comment => b.answered (.address b.cursor) (b.emitRm op r d s comment)
  | .emitRelative op r target comment =>
    b.answered (.address b.cursor) (b.emitRelative op r target comment)
  | .reserve n => b.answered (.address b.cursor) (b.tryReserve n)
  | .rewind address => b.answered .done (b.rewind address)
  | .resume => some (.done, b.resume)
  | .patch slot op r target comment => b.answered .done (b.patch slot op r target comment)

end CodeBuffer

/-! ### Buffers with a mark

A buffer that is changed in place keeps what it has changed before a fault. Only one fault leaves it
as it was, and this is the one that can be recovered from: to go beyond the mark. -/

/-- A buffer that keeps the address behind the highest slot beside the slots. -/
structure MarkedBuffer where
  slots : Array (Option Instr)
  cursor : Nat
  mark : Nat

namespace MarkedBuffer

/-- A computation that changes a buffer in place. What it has changed before a fault stays
changed. -/
abbrev Writer := EStateM CodeFault MarkedBuffer

/-- A number that may not have been found. -/
def lift {α : Type} : Except CodeFault α → Writer α
  | .ok a => pure a
  | .error fault => throw fault

section Evaluation

variable {α β : Type} (b : MarkedBuffer)

/-- A sequence goes on in the buffer that its first part has left, and stops at a fault with what
was left then. -/
@[simp] theorem bind_apply (x : Writer α) (f : α → Writer β) :
    (x >>= f) b =
      match x b with
      | .ok a b' => f a b'
      | .error fault b' => .error fault b' := by
  show EStateM.bind x f b = _
  unfold EStateM.bind
  cases x b <;> rfl

variable {b} in
/-- The first part of a sequence has gone well. -/
theorem bind_of_ok {x : Writer α} {a : α} {b' : MarkedBuffer} (h : x b = .ok a b')
    (f : α → Writer β) : (x >>= f) b = f a b' := by
  rw [bind_apply, h]

variable {b} in
/-- The first part of a sequence has failed. -/
theorem bind_of_error {x : Writer α} {fault : CodeFault} {b' : MarkedBuffer}
    (h : x b = .error fault b') (f : α → Writer β) : (x >>= f) b = .error fault b' := by
  rw [bind_apply, h]

@[simp] theorem pure_apply (a : α) : (pure a : Writer α) b = .ok a b := rfl

@[simp] theorem get_apply : (get : Writer MarkedBuffer) b = .ok b b := rfl

@[simp] theorem modify_apply (f : MarkedBuffer → MarkedBuffer) :
    (modify f : Writer Unit) b = .ok () (f b) := rfl

@[simp] theorem throw_apply (fault : CodeFault) : (throw fault : Writer α) b = .error fault b := rfl

/-- A choice that does not depend on the buffer. -/
@[simp] theorem ite_apply (p : Prop) [Decidable p] (x y : Writer α) :
    (if p then x else y) b = if p then x b else y b := by
  split <;> rfl

end Evaluation

/-- Raises the mark to the cursor. -/
def raise : Writer Unit :=
  modify fun b => { b with mark := max b.mark b.cursor }

/-- Writes an instruction at the cursor: over a slot that there is, otherwise behind all slots. -/
def emit (i : Instr) : Writer Nat := do
  let address := (← get).cursor
  if address < (← get).slots.size then
    modify fun b => { b with slots := b.slots.setIfInBounds address (some i) }
  else
    modify fun b => { b with slots := b.slots.push (some i) }
  modify fun b => { b with cursor := b.cursor + 1 }
  raise
  return address

/-- Writes a register-only instruction, if the operation is one. -/
def emitRo (op : Opcode) (r s t : Reg) (comment : String) : Writer Nat := do
  if !op.isRegisterOnly then throw .wrongForm
  emit (.ro op r s t comment)

/-- Writes a register-memory instruction, if the operation is one. -/
def emitRm (op : Opcode) (r : Reg) (d : Int) (s : Reg) (comment : String) : Writer Nat := do
  if op.isRegisterOnly then throw .wrongForm
  emit (.rm op r d s comment)

/-- Writes an instruction whose address is relative to the one behind the cursor. -/
def emitRelative (op : Opcode) (r : Reg) (target : Nat) (comment : String) : Writer Nat := do
  let d ← lift (displacement (← get).cursor target)
  emitRm op r d .pc comment

/-- Moves the cursor on, and adds slots as far as there are none. -/
def reserve (n : Nat) : Writer Nat := do
  let address := (← get).cursor
  if CodeBuffer.slotLimit ≤ address + n then throw .tooManySlots
  modify fun b => { b with cursor := b.cursor + n }
  if (← get).slots.size < (← get).cursor then
    modify fun b => { b with slots := b.slots ++ Array.replicate (b.cursor - b.slots.size) none }
  raise
  return address

/-- Moves the cursor back, or anywhere up to the mark. -/
def rewind (address : Nat) : Writer Unit := do
  if (← get).mark < address then throw (.rewindBeyond address (← get).mark)
  modify fun b => { b with cursor := address }

/-- Moves the cursor to the mark. -/
def resume : Writer Unit :=
  modify fun b => { b with cursor := b.mark }

/-- Fills a slot that was kept free, and goes on at the mark. -/
def patch (slot : Nat) (op : Opcode) (r : Reg) (target : Nat) (comment : String) :
    Writer Unit := do
  rewind slot
  let _ ← emitRelative op r target comment
  resume

/-- Performs an operation in place. -/
def run : BufferOp → Writer BufferAnswer
  | .emit i => return .address (← emit i)
  | .emitRo op r s t comment => return .address (← emitRo op r s t comment)
  | .emitRm op r d s comment => return .address (← emitRm op r d s comment)
  | .emitRelative op r target comment => return .address (← emitRelative op r target comment)
  | .reserve n => return .address (← reserve n)
  | .rewind address => do
    rewind address
    return .done
  | .resume => do
    resume
    return .done
  | .patch slot op r target comment => do
    patch slot op r target comment
    return .done

/-- The answer of an operation, with the buffer as the operation has left it, also if it was
refused. -/
def settled : EStateM.Result CodeFault MarkedBuffer BufferAnswer →
    Option (BufferAnswer × MarkedBuffer)
  | .ok answer b => some (answer, b)
  | .error (.rewindBeyond address mark) b => some (.refused address mark, b)
  | .error _ _ => none

/-- Performs an operation. -/
def perform (b : MarkedBuffer) (op : BufferOp) : Option (BufferAnswer × MarkedBuffer) :=
  settled (run op b)

end MarkedBuffer

namespace CodeBuffer

/-- The buffer, with the number of its slots as its mark. -/
def marked (b : CodeBuffer) : MarkedBuffer :=
  ⟨b.slots, b.cursor, b.slots.size⟩

section Marked

variable {b : CodeBuffer}

/-- A computation in place answers what an operation of the buffer answers, and leaves what the
operation leaves. Where it was to go beyond the mark, it leaves everything as it was. -/
inductive Does {α : Type} (b : CodeBuffer) (x : MarkedBuffer.Writer α) (answer : α) :
    Except CodeFault CodeBuffer → Prop
  | ok {b' : CodeBuffer} (h : x b.marked = .ok answer b'.marked) : Does b x answer (.ok b')
  | error {fault : CodeFault} (left : MarkedBuffer) (h : x b.marked = .error fault left)
      (hsame : ∀ address mark, fault = .rewindBeyond address mark → left = b.marked) :
      Does b x answer (.error fault)

/-- Raising the mark to the cursor makes it the number of the slots again, written over or added to.
-/
theorem does_emit (h : b.cursor ≤ b.slots.size) (i : Instr) :
    b.Does (MarkedBuffer.emit i) b.cursor (.ok (b.emit i)) := by
  refine .ok ?_
  simp only [MarkedBuffer.emit, MarkedBuffer.raise, MarkedBuffer.bind_apply,
    MarkedBuffer.get_apply, MarkedBuffer.ite_apply, MarkedBuffer.modify_apply,
    MarkedBuffer.pure_apply]
  by_cases hlt : b.cursor < b.slots.size
  · -- the mark stands behind the cursor already
    have hmark : max b.slots.size (b.cursor + 1) = b.slots.size := max_eq_left hlt
    simp only [marked, hmark]
    simp [emit, hlt]
  · -- the cursor stands behind the last slot, so the new slot is the one it points to
    have hmark : max b.slots.size (b.cursor + 1) = b.slots.size + 1 := by omega
    simp [emit, marked, hlt, hmark]

/-- An operation of the other form fails without any change. -/
theorem does_emitRo (h : b.cursor ≤ b.slots.size) (op : Opcode) (r s t : Reg) (comment : String) :
    b.Does (MarkedBuffer.emitRo op r s t comment) b.cursor (b.emitRo op r s t comment) := by
  unfold emitRo MarkedBuffer.emitRo
  cases op.isRegisterOnly with
  | true => exact does_emit h _
  | false => exact .error b.marked rfl nofun

/-- An operation of the other form fails without any change. -/
theorem does_emitRm (h : b.cursor ≤ b.slots.size) (op : Opcode) (r : Reg) (d : Int) (s : Reg)
    (comment : String) :
    b.Does (MarkedBuffer.emitRm op r d s comment) b.cursor (b.emitRm op r d s comment) := by
  unfold emitRm MarkedBuffer.emitRm
  cases op.isRegisterOnly with
  | true => exact .error b.marked rfl nofun
  | false => exact does_emit h _

/-- A displacement fails only because it is out of range. -/
theorem eq_outOfRange_of_displacement {a t : Nat} {fault : CodeFault}
    (h : displacement a t = .error fault) : fault = .outOfRange := by
  have hfit : ∀ n, fit32 n = .error fault → fault = .outOfRange := by
    intro n hn
    unfold fit32 at hn
    split at hn <;> cases hn
    rfl
  unfold displacement at h
  rcases Except.bind_eq_error_iff.mp h with h | ⟨_, -, h⟩
  · exact hfit _ h
  · exact hfit _ h

/-- Computations in sequence. If the second one fails, the first has left its changes behind, so
that fault must not be one that can be recovered from. -/
theorem Does.bind {α β : Type} {x : MarkedBuffer.Writer α} {a : α} {c : β}
    {result : Except CodeFault CodeBuffer} (h : b.Does x a result)
    {f : α → MarkedBuffer.Writer β} {g : CodeBuffer → Except CodeFault CodeBuffer}
    (hrest : ∀ b', result = .ok b' → b'.Does (f a) c (g b'))
    (hne : ∀ b' address mark, g b' ≠ .error (.rewindBeyond address mark)) :
    b.Does (x >>= f) c (result >>= g) := by
  cases h with
  | @ok b' h =>
    have hb' := hrest b' rfl
    rw [Except.bind_ok]
    generalize hg : g b' = y at hb'
    cases hb' with
    | ok hf => exact .ok (by rw [MarkedBuffer.bind_of_ok h, hf])
    | @error _ left hf _ =>
      -- what was changed before stays changed, but the fault leaves nothing to go on with
      refine .error left (by rw [MarkedBuffer.bind_of_ok h, hf]) ?_
      rintro address mark rfl
      exact absurd hg (hne b' address mark)
  | error left h hsame =>
    rw [Except.error_bind]
    exact .error left (MarkedBuffer.bind_of_error h f) hsame

/-- The displacement is computed before anything is changed. -/
theorem does_emitRelative (h : b.cursor ≤ b.slots.size) (op : Opcode) (r : Reg) (target : Nat)
    (comment : String) :
    b.Does (MarkedBuffer.emitRelative op r target comment) b.cursor
      (b.emitRelative op r target comment) := by
  have hget : (get : MarkedBuffer.Writer MarkedBuffer) b.marked = .ok b.marked b.marked := rfl
  have hcursor : b.marked.cursor = b.cursor := rfl
  unfold emitRelative
  cases hd : displacement b.cursor target with
  | ok d =>
    have hrun : MarkedBuffer.emitRelative op r target comment b.marked =
        MarkedBuffer.emitRm op r d .pc comment b.marked := by
      rw [MarkedBuffer.emitRelative, MarkedBuffer.bind_of_ok hget, hcursor, hd]
      rfl
    rw [Except.bind_ok]
    have hwrite := does_emitRm h op r d .pc comment
    generalize b.emitRm op r d .pc comment = result at hwrite
    cases hwrite with
    | ok hrm => exact .ok (hrun.trans hrm)
    | error left hrm hsame => exact .error left (hrun.trans hrm) hsame
  | error fault =>
    obtain rfl := eq_outOfRange_of_displacement hd
    rw [Except.error_bind]
    refine .error b.marked ?_ nofun
    rw [MarkedBuffer.emitRelative, MarkedBuffer.bind_of_ok hget, hcursor, hd]
    rfl

/-- A relative instruction that cannot be written is not beyond the mark. -/
theorem emitRelative_ne_rewindBeyond {op : Opcode} {r : Reg} {target : Nat} {comment : String}
    (address mark : Nat) :
    b.emitRelative op r target comment ≠ .error (.rewindBeyond address mark) := by
  intro h
  rcases Except.bind_eq_error_iff.mp h with h | ⟨d, -, h⟩
  · cases eq_outOfRange_of_displacement h
  · unfold emitRm at h
    split at h <;> cases h

/-- Slots are added up to the cursor, in place or at once. -/
theorem does_reserve (n : Nat) :
    b.Does (MarkedBuffer.reserve n) b.cursor (b.tryReserve n) := by
  unfold tryReserve
  by_cases hlimit : b.cursor + n < slotLimit
  · rw [if_pos hlimit]
    refine .ok ?_
    simp only [MarkedBuffer.reserve, MarkedBuffer.raise, MarkedBuffer.bind_apply,
      MarkedBuffer.get_apply, MarkedBuffer.ite_apply, MarkedBuffer.modify_apply,
      MarkedBuffer.pure_apply, marked, if_neg (Nat.not_le.mpr hlimit)]
    by_cases hlt : b.slots.size < b.cursor + n
    · have hmark : max b.slots.size (b.cursor + n) = b.cursor + n := max_eq_right (Nat.le_of_lt hlt)
      simp [reserve, hlt, hmark]
      omega
    · -- there are slots enough
      have hmark : max b.slots.size (b.cursor + n) = b.slots.size := by omega
      have hnone : b.cursor + n - b.slots.size = 0 := by omega
      simp [reserve, hlt, hmark, hnone]
  · rw [if_neg hlimit]
    refine .error b.marked ?_ (by rintro _ _ ⟨⟩)
    simp only [MarkedBuffer.reserve, MarkedBuffer.bind_apply, MarkedBuffer.get_apply,
      MarkedBuffer.ite_apply, MarkedBuffer.throw_apply, marked, if_pos (Nat.not_lt.mp hlimit)]

/-- The mark is the number of the slots, so the same addresses are refused. -/
theorem does_rewind (address : Nat) :
    b.Does (MarkedBuffer.rewind address) () (b.rewind address) := by
  unfold rewind highWater
  by_cases hlt : b.slots.size < address
  · rw [if_pos hlt]
    refine .error b.marked ?_ fun _ _ _ => rfl
    simp only [MarkedBuffer.rewind, MarkedBuffer.bind_apply, MarkedBuffer.get_apply,
      MarkedBuffer.ite_apply, MarkedBuffer.throw_apply, marked, if_pos hlt]
  · rw [if_neg hlt]
    refine .ok ?_
    simp only [MarkedBuffer.rewind, MarkedBuffer.bind_apply, MarkedBuffer.get_apply,
      MarkedBuffer.ite_apply, MarkedBuffer.modify_apply, marked, if_neg hlt]

/-- Going back, writing and going on again. What is left by a patch that fails later on is not
looked at. -/
theorem does_patch (slot : Nat) (op : Opcode) (r : Reg) (target : Nat) (comment : String) :
    b.Does (MarkedBuffer.patch slot op r target comment) ()
      (b.patch slot op r target comment) := by
  refine (does_rewind slot).bind (fun b' hb' => ?_) fun b' address mark h => ?_
  · have hle : b'.cursor ≤ b'.slots.size := by
      unfold rewind highWater at hb'
      split at hb' <;> cases hb'
      simpa using ‹¬b.slots.size < slot›
    exact (does_emitRelative hle op r target comment).bind (fun _ _ => .ok rfl) nofun
  · rcases Except.bind_eq_error_iff.mp h with h | ⟨_, -, h⟩
    · exact emitRelative_ne_rewindBeyond address mark h
    · cases h

/-- What a computation in place does is what the operation answers and leaves. -/
theorem Does.settled {α : Type} {x : MarkedBuffer.Writer α} {a : α}
    {result : Except CodeFault CodeBuffer} (h : b.Does x a result) (answer : α → BufferAnswer) :
    MarkedBuffer.settled ((x >>= fun a => pure (answer a)) b.marked) =
      (b.answered (answer a) result).map fun (answer, b') => (answer, b'.marked) := by
  cases h with
  | ok h =>
    rw [MarkedBuffer.bind_of_ok h]
    rfl
  | @error fault _ h hsame =>
    rw [MarkedBuffer.bind_of_error h]
    cases fault with
    | rewindBeyond address mark =>
      rw [hsame address mark rfl]
      rfl
    | _ => rfl

/-- A buffer with a mark does what the buffer does, as long as the cursor is not beyond the
slots. -/
theorem perform_marked (h : b.cursor ≤ b.slots.size) (op : BufferOp) :
    b.marked.perform op = (b.perform op).map fun (answer, b') => (answer, b'.marked) := by
  cases op with
  | emit i => exact (does_emit h i).settled .address
  | emitRo op r s t comment => exact (does_emitRo h op r s t comment).settled .address
  | emitRm op r d s comment => exact (does_emitRm h op r d s comment).settled .address
  | emitRelative op r target comment =>
    exact (does_emitRelative h op r target comment).settled .address
  | reserve n => exact (does_reserve n).settled .address
  | rewind address => exact (does_rewind address).settled fun _ => .done
  | resume => rfl
  | patch slot op r target comment =>
    exact (does_patch slot op r target comment).settled fun _ => .done

end Marked

/-! ### What one operation changes

`Effect` is the specification of an operation: its answer, the slots, the cursor and the mark, in
terms of those before it. Each operation is shown to have its effect, and nothing else is used
below. -/

/-- An instruction has been written at an address, and no other slot is changed. -/
structure Wrote (b : CodeBuffer) (address : Nat) (i : Instr) (b' : CodeBuffer) : Prop where
  here : b'.slots[address]? = some (some i)
  elsewhere : ∀ a ≠ address, b'.slots[a]? = b.slots[a]?
  highWater : b'.highWater = max b.highWater (address + 1)

/-- All that an operation with this answer changes. What is emitted goes to the cursor, and what is
beyond the mark is refused without any change. -/
def Effect (b : CodeBuffer) (op : BufferOp) (answer : BufferAnswer) (b' : CodeBuffer) : Prop :=
  match op with
  | .emit _ | .emitRo .. | .emitRm .. | .emitRelative .. =>
    answer = .address b.cursor ∧ b'.cursor = b.cursor + 1 ∧
      ∃ i, op.write? answer = some (b.cursor, i) ∧ b.Wrote b.cursor i b'
  | .reserve n =>
    answer = .address b.cursor ∧ b'.cursor = b.cursor + n ∧
      b'.highWater = max b.highWater (b.cursor + n) ∧
      (∀ a < b.highWater, b'.slots[a]? = b.slots[a]?) ∧
      ∀ a, b.highWater ≤ a → a < b'.highWater → b'.slots[a]? = some none
  | .rewind address =>
    if address ≤ b.highWater then answer = .done ∧ b' = ⟨b.slots, address⟩
    else answer = .refused address b.highWater ∧ b' = b
  | .resume => answer = .done ∧ b' = ⟨b.slots, b.highWater⟩
  | .patch slot _ _ _ _ =>
    if slot ≤ b.highWater then
      answer = .done ∧ b'.cursor = b'.highWater ∧
        ∃ i, op.write? answer = some (slot, i) ∧ b.Wrote slot i b'
    else answer = .refused slot b.highWater ∧ b' = b

section Effects

variable {b b' : CodeBuffer} {answer : BufferAnswer}

/-- Writing at the cursor changes one slot, which may be a new one. -/
theorem wrote_emit (h : b.cursor ≤ b.slots.size) (i : Instr) : b.Wrote b.cursor i (b.emit i) := by
  unfold emit
  by_cases hlt : b.cursor < b.slots.size
  · rw [if_pos hlt]
    refine ⟨by simp [hlt], fun a ha => ?_, ?_⟩
    · exact Array.getElem?_setIfInBounds_ne fun heq => ha heq.symm
    · simp only [highWater, Array.size_setIfInBounds]
      omega
  · -- the new slot stands at the cursor
    have hsize : b.slots.size = b.cursor := by omega
    rw [if_neg hlt]
    refine ⟨by simp [← hsize], fun a ha => ?_, ?_⟩
    · simp only [Array.getElem?_push, hsize, if_neg ha]
    · simp only [highWater, Array.size_push]
      omega

/-- Writing moves the cursor on by one. -/
theorem cursor_emit (i : Instr) : (b.emit i).cursor = b.cursor + 1 := by
  unfold emit
  split <;> rfl

/-- An answer is that of an operation that was performed or refused. -/
theorem answered_eq_some {result : Except CodeFault CodeBuffer} {a : BufferAnswer}
    (h : b.answered a result = some (answer, b')) :
    result = .ok b' ∧ answer = a ∨ ∃ address mark,
      result = .error (.rewindBeyond address mark) ∧ answer = .refused address mark ∧ b' = b := by
  unfold answered at h
  split at h
  · cases h
    exact .inl ⟨rfl, rfl⟩
  · cases h
    exact .inr ⟨_, _, rfl, rfl, rfl⟩
  · cases h

/-- A register-only instruction is written, or is none. -/
theorem eq_emit_of_emitRo {op : Opcode} {r s t : Reg} {comment : String}
    {result : Except CodeFault CodeBuffer} (h : b.emitRo op r s t comment = result) :
    result = .ok (b.emit (.ro op r s t comment)) ∨ result = .error .wrongForm := by
  subst h
  unfold emitRo
  split
  · exact .inl rfl
  · exact .inr rfl

/-- A register-memory instruction is written, or is none. -/
theorem eq_emit_of_emitRm {op : Opcode} {r s : Reg} {d : Int} {comment : String}
    {result : Except CodeFault CodeBuffer} (h : b.emitRm op r d s comment = result) :
    result = .ok (b.emit (.rm op r d s comment)) ∨ result = .error .wrongForm := by
  subst h
  unfold emitRm
  split
  · exact .inr rfl
  · exact .inl rfl

/-- What a relative instruction has written can be told from the address in its answer. -/
theorem write?_emitRelative {op : Opcode} {r : Reg} {address target : Nat} {comment : String}
    {i : Instr} (hi : Instr.relative op r address target comment = .ok i) :
    (BufferOp.emitRelative op r target comment).write? (.address address) = some (address, i) := by
  rw [BufferOp.write?, hi]
  rfl

/-- What a patch has written can be told from the slot. -/
theorem write?_patch {op : Opcode} {r : Reg} {slot target : Nat} {comment : String}
    {i : Instr} (hi : Instr.relative op r slot target comment = .ok i) :
    (BufferOp.patch slot op r target comment).write? .done = some (slot, i) := by
  rw [BufferOp.write?, hi]
  rfl

/-- A relative instruction is written with its displacement from the cursor. -/
theorem eq_emit_of_emitRelative {op : Opcode} {r : Reg} {target : Nat} {comment : String}
    (h : b.emitRelative op r target comment = .ok b') :
    ∃ i, Instr.relative op r b.cursor target comment = .ok i ∧ b' = b.emit i := by
  obtain ⟨d, hd, h⟩ := Except.bind_eq_ok_iff.mp h
  rcases eq_emit_of_emitRm h with h | h
  · exact ⟨_, Except.bind_eq_ok_iff.mpr ⟨d, hd, rfl⟩, Except.ok.inj h⟩
  · cases h

/-- Filling a slot up to the mark writes there and goes on at the mark; no other slot can be
filled. -/
theorem patch_cases {slot : Nat} {op : Opcode} {r : Reg} {target : Nat} {comment : String}
    {result : Except CodeFault CodeBuffer} (h : b.patch slot op r target comment = result) :
    b.highWater < slot ∧ result = .error (.rewindBeyond slot b.highWater) ∨
      slot ≤ b.highWater ∧ ((∃ i, Instr.relative op r slot target comment = .ok i ∧
        result = .ok ((CodeBuffer.mk b.slots slot).emit i).resume) ∨
        ∃ fault, result = .error fault ∧ ∀ address mark, fault ≠ .rewindBeyond address mark) := by
  subst h
  unfold patch rewind
  by_cases hlt : b.highWater < slot
  · exact .inl ⟨hlt, by rw [if_pos hlt, Except.error_bind]⟩
  · refine .inr ⟨Nat.not_lt.mp hlt, ?_⟩
    rw [if_neg hlt, Except.bind_ok]
    generalize hx : CodeBuffer.emitRelative _ op r target comment = x
    cases x with
    | ok b₁ =>
      obtain ⟨i, hi, rfl⟩ := eq_emit_of_emitRelative hx
      exact .inl ⟨i, hi, rfl⟩
    | error fault =>
      refine .inr ⟨fault, Except.error_bind .., ?_⟩
      rintro address mark rfl
      exact emitRelative_ne_rewindBeyond address mark hx

/-- What an operation that writes at the cursor changes. -/
theorem emit_effect (h : b.cursor ≤ b.slots.size) {op : BufferOp} {i : Instr}
    (hop : op.write? (.address b.cursor) = some (b.cursor, i)) :
    (BufferAnswer.address b.cursor) = .address b.cursor ∧ (b.emit i).cursor = b.cursor + 1 ∧
      ∃ j, op.write? (.address b.cursor) = some (b.cursor, j) ∧ b.Wrote b.cursor j (b.emit i) :=
  ⟨rfl, cursor_emit i, i, hop, wrote_emit h i⟩

/-- Slots are kept free up to the new cursor, and none is given up. -/
theorem size_reserve (n : Nat) : (b.reserve n).slots.size = max b.slots.size (b.cursor + n) := by
  simp only [reserve, Array.size_append, Array.size_replicate]
  omega

/-- Keeping slots free changes none that there is. -/
theorem effect_of_reserve {n : Nat} (hop : b.perform (.reserve n) = some (answer, b')) :
    b.Effect (.reserve n) answer b' := by
  have hsize := b.size_reserve n
  rcases answered_eq_some hop with ⟨hok, rfl⟩ | ⟨address, mark, herror, -⟩
  · unfold tryReserve at hok
    split at hok <;> cases hok
    refine ⟨rfl, rfl, hsize, fun a ha => ?_, fun a ha hlt => ?_⟩
    · exact Array.getElem?_append_left ha
    · unfold highWater at ha hlt
      rw [reserve, Array.getElem?_append_right ha, Array.getElem?_replicate, if_pos (by omega)]
  · unfold tryReserve at herror
    split at herror <;> cases herror

/-- Going back changes the cursor alone. -/
theorem effect_of_rewind {address : Nat} (hop : b.perform (.rewind address) = some (answer, b')) :
    b.Effect (.rewind address) answer b' := by
  dsimp only [Effect]
  rcases answered_eq_some hop with ⟨hok, rfl⟩ | ⟨_, _, herror, rfl, rfl⟩
  · unfold rewind at hok
    split at hok
    · cases hok
    · rename_i hlt
      cases hok
      rw [if_pos (Nat.not_lt.mp hlt)]
      exact ⟨rfl, rfl⟩
  · unfold rewind at herror
    split at herror
    · rename_i hlt
      cases herror
      rw [if_neg (Nat.not_le.mpr hlt)]
      exact ⟨rfl, rfl⟩
    · cases herror

/-- A patch writes its slot, or changes nothing. -/
theorem effect_of_patch {slot : Nat} {op : Opcode} {r : Reg} {target : Nat} {comment : String}
    (hop : b.perform (.patch slot op r target comment) = some (answer, b')) :
    b.Effect (.patch slot op r target comment) answer b' := by
  dsimp only [Effect]
  rcases patch_cases (Eq.refl (b.patch slot op r target comment)) with
    ⟨hlt, hresult⟩ | ⟨hle, ⟨i, hi, hresult⟩ | ⟨fault, hresult, hne⟩⟩
  · rw [if_neg (Nat.not_le.mpr hlt)]
    simp only [perform, hresult, answered] at hop
    cases hop
    exact ⟨rfl, rfl⟩
  · rw [if_pos hle]
    simp only [perform, hresult, answered] at hop
    cases hop
    have hwrote : b.Wrote slot i ((CodeBuffer.mk b.slots slot).emit i).resume :=
      have ⟨hhere, helsewhere, hmark⟩ := (CodeBuffer.mk b.slots slot).wrote_emit hle i
      ⟨hhere, helsewhere, hmark⟩
    exact ⟨rfl, rfl, i, write?_patch hi, hwrote⟩
  · rcases answered_eq_some hop with ⟨hok, -⟩ | ⟨address, mark, herror, -⟩
    · rw [hresult] at hok
      cases hok
    · rw [hresult] at herror
      exact absurd (Except.error.inj herror) (hne address mark)

/-- Every operation with an answer has its effect, as long as the cursor is not beyond the slots. -/
theorem effect_of_perform (h : b.cursor ≤ b.slots.size) {op : BufferOp}
    (hop : b.perform op = some (answer, b')) : b.Effect op answer b' := by
  cases op with
  | emit i =>
    cases hop
    exact emit_effect h rfl
  | emitRo op r s t comment =>
    rcases answered_eq_some hop with ⟨hok, rfl⟩ | ⟨address, mark, herror, -⟩
    · rcases eq_emit_of_emitRo hok with hb' | hb' <;> cases hb'
      exact emit_effect h rfl
    · rcases eq_emit_of_emitRo herror with hb' | hb' <;> cases hb'
  | emitRm op r d s comment =>
    rcases answered_eq_some hop with ⟨hok, rfl⟩ | ⟨address, mark, herror, -⟩
    · rcases eq_emit_of_emitRm hok with hb' | hb' <;> cases hb'
      exact emit_effect h rfl
    · rcases eq_emit_of_emitRm herror with hb' | hb' <;> cases hb'
  | emitRelative op r target comment =>
    rw [perform] at hop
    rcases answered_eq_some hop with ⟨hok, rfl⟩ | ⟨address, mark, herror, -⟩
    · obtain ⟨i, hi, rfl⟩ := eq_emit_of_emitRelative hok
      exact emit_effect h (write?_emitRelative hi)
    · exact absurd herror (emitRelative_ne_rewindBeyond address mark)
  | reserve n => exact effect_of_reserve hop
  | rewind address => exact effect_of_rewind hop
  | resume =>
    cases hop
    exact ⟨rfl, rfl⟩
  | patch slot op r target comment => exact effect_of_patch hop

end Effects

/-! ### What is held

The slots are compared with the list of all writes so far. That an address holds the last of its
writes is kept by one operation, and so by any number of them. -/

/-- The instruction that was written last at an address. -/
def lastWrite (ws : List (Nat × Instr)) (address : Nat) : Option Instr :=
  ws.reverse.lookup address

/-- One more write is the last one at its address. -/
theorem lastWrite_concat (ws : List (Nat × Instr)) (address a : Nat) (i : Instr) :
    lastWrite (ws ++ [(address, i)]) a = if a = address then some i else lastWrite ws a := by
  unfold lastWrite
  rw [List.reverse_append, List.reverse_singleton, List.singleton_append, List.lookup_cons]
  by_cases ha : a = address
  · rw [if_pos ha, beq_iff_eq.mpr ha]
  · rw [if_neg ha, beq_eq_false_iff_ne.mpr ha]

/-- There is no last write where nothing was written. -/
theorem lastWrite_eq_none_iff {ws : List (Nat × Instr)} {address : Nat} :
    lastWrite ws address = none ↔ ∀ i, (address, i) ∉ ws := by
  rw [lastWrite, List.lookup_eq_none_iff]
  constructor
  · intro h i hi
    exact bne_iff_ne.mp (h _ (List.mem_reverse.mpr hi)) rfl
  · rintro h ⟨a, i⟩ hi
    refine bne_iff_ne.mpr ?_
    rintro rfl
    exact h i (List.mem_reverse.mp hi)

/-- The slots hold what was written last, and the cursor is not beyond them. -/
structure Records (b : CodeBuffer) (ws : List (Nat × Instr)) : Prop where
  cursor_le : b.cursor ≤ b.slots.size
  slots : ∀ a, b.slots[a]?.join = lastWrite ws a

/-- A new buffer holds nothing. -/
theorem records_empty : empty.Records [] :=
  ⟨Nat.le_refl 0, fun _ => rfl⟩

section Recording

variable {b b' : CodeBuffer} {ws : List (Nat × Instr)} {answer : BufferAnswer}

/-- A write is recorded at its address, and all others are as before. -/
theorem Wrote.records {address : Nat} {i : Instr} (h : b.Wrote address i b')
    (hb : b.Records ws) (hcursor : b'.cursor ≤ b'.slots.size) :
    b'.Records (ws ++ [(address, i)]) := by
  refine ⟨hcursor, fun a => ?_⟩
  rw [lastWrite_concat]
  by_cases ha : a = address
  · rw [if_pos ha, ha, h.here, Option.join_some]
  · rw [if_neg ha, h.elsewhere a ha, hb.slots]

/-- An operation that writes nothing adds nothing to the record. -/
theorem Records.of_unwritten {op : BufferOp} (hb : b.Records ws) (hop : op.write? answer = none) :
    b.Records (ws ++ (op.write? answer).toList) := by
  rw [hop, Option.toList_none, List.append_nil]
  exact hb

/-- An operation adds to the record what it writes. -/
theorem Effect.records {op : BufferOp} (h : b.Effect op answer b') (hb : b.Records ws) :
    b'.Records (ws ++ (op.write? answer).toList) := by
  have hle := hb.cursor_le
  cases op with
  | emit _ | emitRo _ _ _ _ _ | emitRm _ _ _ _ _ | emitRelative _ _ _ _ =>
    obtain ⟨-, hcursor, i, hop, hwrote⟩ := h
    have hmark := hwrote.highWater
    rw [hop]
    refine hwrote.records hb ?_
    unfold highWater at hmark
    omega
  | reserve n =>
    obtain ⟨rfl, hcursor, hmark, hbelow, hfree⟩ := h
    unfold highWater at hmark hbelow hfree
    refine .of_unwritten ⟨by omega, fun a => ?_⟩ rfl
    rw [← hb.slots]
    by_cases ha : a < b.slots.size
    · rw [hbelow a ha]
    · -- a slot that was added is free
      rw [Array.getElem?_eq_none (Nat.not_lt.mp ha)]
      by_cases hlt : a < b'.slots.size
      · rw [hfree a (Nat.not_lt.mp ha) hlt]
        rfl
      · rw [Array.getElem?_eq_none (Nat.not_lt.mp hlt)]
  | rewind address =>
    dsimp only [Effect] at h
    split at h
    · rename_i haddress
      obtain ⟨rfl, rfl⟩ := h
      exact .of_unwritten ⟨haddress, hb.slots⟩ rfl
    · obtain ⟨rfl, rfl⟩ := h
      exact .of_unwritten hb rfl
  | resume =>
    obtain ⟨rfl, rfl⟩ := h
    exact .of_unwritten ⟨Nat.le_refl _, hb.slots⟩ rfl
  | patch slot op r target comment =>
    dsimp only [Effect] at h
    split at h
    · obtain ⟨-, hcursor, i, hop, hwrote⟩ := h
      rw [hop]
      exact hwrote.records hb (Nat.le_of_eq hcursor)
    · obtain ⟨rfl, rfl⟩ := h
      exact .of_unwritten hb rfl

/-- Any operations, from a buffer with a record: what is written is added to the record, and a
buffer with a mark does the same. -/
theorem records_performAll (hb : b.Records ws) {ops : List BufferOp}
    {answers : List BufferAnswer} (h : BufferOp.performAll perform b ops = some (answers, b')) :
    b'.Records (ws ++ BufferOp.writes ops answers) := by
  induction ops generalizing b ws answers with
  | nil =>
    cases h
    rw [BufferOp.writes, List.zip_nil_left, List.filterMap_nil, List.append_nil]
    exact hb
  | cons op rest ih =>
    obtain ⟨⟨answer, b₁⟩, hop, hrest⟩ := Option.bind_eq_some_iff.mp h
    obtain ⟨⟨answers', _⟩, hall, heq⟩ := Option.map_eq_some_iff.mp hrest
    cases heq
    rw [BufferOp.writes_cons, ← List.append_assoc]
    exact ih ((effect_of_perform hb.cursor_le hop).records hb) hall

/-- A buffer with a mark does the same for any operations. Induction on them; the record keeps the
cursor from going beyond the slots. -/
theorem performAll_marked (hb : b.Records ws) (ops : List BufferOp) :
    BufferOp.performAll MarkedBuffer.perform b.marked ops =
      (BufferOp.performAll perform b ops).map fun (answers, b') => (answers, b'.marked) := by
  induction ops generalizing b ws with
  | nil => rfl
  | cons op rest ih =>
    rw [BufferOp.performAll, BufferOp.performAll, perform_marked hb.cursor_le]
    cases hop : b.perform op with
    | none => rfl
    | some p =>
      obtain ⟨answer, b₁⟩ := p
      have hrest := ih ((effect_of_perform hb.cursor_le hop).records hb)
      simp only [Option.map_some, Option.bind_some, hrest, Option.map_map]
      rfl

end Recording

/-! ### Finishing

Finishing a buffer goes through the slots from the lowest up, and stops at the first that is empty.
-/

/-- The fault names the first empty slot. Induction on the slots. -/
theorem filled_error {address : Nat} {slots : List (Option Instr)} {fault : CodeFault}
    (h : filled address slots = .error fault) :
    ∃ (is : List Instr) (rest : List (Option Instr)),
      slots = is.map some ++ none :: rest ∧ fault = .slotEmpty (address + is.length) := by
  induction slots generalizing address with
  | nil => cases h
  | cons slot slots ih =>
    cases slot with
    | none =>
      cases h
      exact ⟨[], slots, rfl, rfl⟩
    | some i =>
      rw [filled] at h
      rcases Except.bind_eq_error_iff.mp h with h | ⟨_, -, h⟩
      · obtain ⟨is, rest, rfl, rfl⟩ := ih h
        refine ⟨i :: is, rest, rfl, ?_⟩
        rw [List.length_cons, Nat.add_assoc, Nat.add_comm 1]
      · cases h

/-- Code consists of all slots, none of them empty. Induction on the slots. -/
theorem filled_ok {address : Nat} {slots : List (Option Instr)} {is : List Instr}
    (h : filled address slots = .ok is) : slots = is.map some := by
  induction slots generalizing address is with
  | nil =>
    cases h
    rfl
  | cons slot slots ih =>
    cases slot with
    | none => cases h
    | some i =>
      obtain ⟨is', his', h⟩ := Except.bind_eq_ok_iff.mp h
      cases h
      rw [ih his', List.map_cons]

/-- A buffer is finished if every slot was written; then the code is what was written last.
Otherwise the fault names the first slot that was not. -/
structure Finishes (b : CodeBuffer) (ws : List (Nat × Instr)) : Prop where
  ok_iff : (∃ code, b.finish = .ok code) ↔ ∀ a < b.highWater, ∃ i, (a, i) ∈ ws
  code : ∀ code, b.finish = .ok code →
    code.length = b.highWater ∧ ∀ a : Nat, code[a]? = lastWrite ws a
  fault : ∀ fault, b.finish = .error fault → ∃ a < b.highWater,
    fault = .slotEmpty a ∧ (∀ i, (a, i) ∉ ws) ∧ ∀ c < a, ∃ i, (c, i) ∈ ws

/-- What was written last was written. -/
theorem exists_mem_of_lastWrite_ne_none {ws : List (Nat × Instr)} {a : Nat}
    (h : lastWrite ws a ≠ none) : ∃ i, (a, i) ∈ ws := by
  by_contra hnot
  exact h (lastWrite_eq_none_iff.mpr fun i hi => hnot ⟨i, hi⟩)

section Finishing

variable {b : CodeBuffer} {ws : List (Nat × Instr)}

/-- The code of a buffer is what was written last. -/
theorem Records.finish_ok (hb : b.Records ws) {code : List Instr} (h : b.finish = .ok code) :
    code.length = b.highWater ∧ ∀ a : Nat, code[a]? = lastWrite ws a := by
  have hslots := filled_ok h
  refine ⟨?_, fun a => ?_⟩
  · rw [highWater, ← Array.length_toList, hslots, List.length_map]
  · rw [← hb.slots, ← Array.getElem?_toList, hslots, List.getElem?_map]
    cases code[a]? <;> rfl

/-- The fault names the first address at which nothing was written. -/
theorem Records.finish_error (hb : b.Records ws) {fault : CodeFault}
    (h : b.finish = .error fault) : ∃ a < b.highWater,
      fault = .slotEmpty a ∧ (∀ i, (a, i) ∉ ws) ∧ ∀ c < a, ∃ i, (c, i) ∈ ws := by
  obtain ⟨is, rest, hslots, rfl⟩ := filled_error h
  have hslot : ∀ a, b.slots[a]? = (is.map some ++ none :: rest)[a]? := fun a => by
    rw [← Array.getElem?_toList, hslots]
  refine ⟨is.length, ?_, by rw [Nat.zero_add], ?_, fun c hc => ?_⟩
  · rw [highWater, ← Array.length_toList, hslots]
    simp
  · refine lastWrite_eq_none_iff.mp ?_
    rw [← hb.slots, hslot]
    simp
  · refine exists_mem_of_lastWrite_ne_none ?_
    rw [← hb.slots, hslot, List.getElem?_append_left (by simpa using hc), List.getElem?_map,
      List.getElem?_eq_getElem hc]
    exact Option.some_ne_none _

/-- A buffer that holds what was written last is finished as it should be. -/
theorem Records.finishes (hb : b.Records ws) : b.Finishes ws := by
  refine ⟨⟨?_, fun hall => ?_⟩, fun _ => hb.finish_ok, fun _ => hb.finish_error⟩
  · rintro ⟨code, hcode⟩ a ha
    obtain ⟨hlength, hlast⟩ := hb.finish_ok hcode
    refine exists_mem_of_lastWrite_ne_none ?_
    rw [← hlast, List.getElem?_eq_getElem (hlength ▸ ha)]
    exact Option.some_ne_none _
  · cases hfinish : b.finish with
    | ok code => exact ⟨code, rfl⟩
    | error fault =>
      -- the slot that the fault names was written too
      obtain ⟨a, ha, -, hnone, -⟩ := hb.finish_error hfinish
      obtain ⟨i, hi⟩ := hall a ha
      exact absurd hi (hnone i)

end Finishing

end CodeBuffer

/-! ### Any operations on a new buffer

A new buffer holds nothing, as nothing was written. -/

/-- Operations on a new buffer, changed in place with a mark of its own: the mark is the number of
the slots, the cursor is not beyond it, each operation that has an answer has its effect, and the
buffer is finished to what was written last. -/
theorem buffer_faithful (ops : List BufferOp) :
    BufferOp.performAll MarkedBuffer.perform ⟨#[], 0, 0⟩ ops =
        (BufferOp.performAll CodeBuffer.perform .empty ops).map
          (fun (answers, b) => (answers, b.marked)) ∧
      ∀ answers b, BufferOp.performAll CodeBuffer.perform .empty ops = some (answers, b) →
        b.marked.mark = b.marked.slots.size ∧ b.marked.cursor ≤ b.marked.mark ∧
          (∀ op answer b', b.perform op = some (answer, b') → b.Effect op answer b') ∧
          b.Finishes (BufferOp.writes ops answers) := by
  refine ⟨CodeBuffer.performAll_marked CodeBuffer.records_empty ops, fun answers b h => ?_⟩
  have hb := CodeBuffer.records_performAll CodeBuffer.records_empty h
  rw [List.nil_append] at hb
  exact ⟨rfl, hb.cursor_le, fun op answer b' => CodeBuffer.effect_of_perform hb.cursor_le,
    hb.finishes⟩

/-- Two slots are kept free, the first is filled, both are kept free again, and the second is
filled from behind; filling a slot beyond the mark is refused. -/
def backpatching : List BufferOp :=
  [.reserve 2, .emitRo .write .ac1 .ac .ac "print", .rewind 0, .emitRm .ldc .ac1 7 .ac "load",
    .rewind 0, .reserve 2, .patch 4 .jeq .ac1 0 "beyond", .rewind 9,
    .emitRelative .jne .ac1 0 "back", .resume,
    .patch 1 .lda .pc 5 "skip", .patch 4 .lda .pc 0 "loop", .emitRo .halt .ac .ac .ac "stop"]

/-- The buffer after those operations, and what finishing it gives. -/
theorem buffer_faithful_backpatching :
    ∃ b, BufferOp.performAll CodeBuffer.perform .empty backpatching = some
        ([.address 0, .address 2, .done, .address 0, .done, .address 0, .refused 4 3, .refused 9 3,
          .address 2, .done, .done, .refused 4 3, .address 3], b) ∧
      b.finish = .ok [.rm .ldc .ac1 7 .ac "load", .rm .lda .pc 3 .pc "skip",
        .rm .jne .ac1 (-3) .pc "back", .ro .halt .ac .ac .ac "stop"] ∧
      b.Finishes (BufferOp.writes backpatching
        [.address 0, .address 2, .done, .address 0, .done, .address 0, .refused 4 3, .refused 9 3,
          .address 2, .done, .done, .refused 4 3, .address 3]) := by
  have hrun : (BufferOp.performAll CodeBuffer.perform .empty backpatching).map
        (fun p => (p.1, p.2.finish.toOption)) = some
          ([.address 0, .address 2, .done, .address 0, .done, .address 0, .refused 4 3,
            .refused 9 3, .address 2, .done, .done, .refused 4 3, .address 3],
          some [.rm .ldc .ac1 7 .ac "load", .rm .lda .pc 3 .pc "skip",
            .rm .jne .ac1 (-3) .pc "back", .ro .halt .ac .ac .ac "stop"]) := by
    decide +kernel
  obtain ⟨⟨answers, b⟩, hall, heq⟩ := Option.map_eq_some_iff.mp hrun
  obtain ⟨rfl, hfinish⟩ := Prod.mk.inj heq
  obtain ⟨-, hall'⟩ := buffer_faithful backpatching
  exact ⟨b, hall, by cases h : b.finish <;> simp_all [Except.toOption], (hall' _ b hall).2.2.2⟩

end MiniC
