import MiniC.Machine.Tape
import MiniC.Proofs.Buffers
import MiniC.Proofs.Outcomes
import MiniC.Proofs.Steps

/-!
# Targets of relative instructions

A buffer writes the distance of a target from the instruction behind the one that names it, and the
machine adds that distance to a program counter that has moved on before the instruction takes
effect. Both count from the same place, so the machine forms the address that the buffer was given,
and goes on there.

A distance is written once, when the instruction is, and nothing that is written elsewhere changes
it. So it does not matter in which order slots are kept free and filled.

* `BufferOp.Names`: the operations that write an instruction with a target
* `Machine.Aims`: what the machine does at such an instruction
* `lastWrite_of_unwritten`: what is written elsewhere leaves an instruction alone
* `target_reached`: any instruction with a target, in any finished buffer
-/

namespace MiniC

/-! ### Instructions with a target

An instruction gets its distance from where it is written, be it at the cursor or in a slot that was
kept free before. -/

/-- An operation on a buffer that writes, at the address `a`, an instruction that names a target:
either at the cursor, or in a slot that is not beyond the mark. -/
inductive BufferOp.Names (b : CodeBuffer) : BufferOp → Nat → Opcode → Reg → Nat → Prop
  | emitRelative (op : Opcode) (r : Reg) (target : Nat) (comment : String) :
      Names b (.emitRelative op r target comment) b.cursor op r target
  | patch {slot : Nat} (hslot : slot ≤ b.highWater) (op : Opcode) (r : Reg) (target : Nat)
      (comment : String) : Names b (.patch slot op r target comment) slot op r target

/-- Between addresses in range an instruction can name its target, and the distance is exact. -/
theorem Instr.relative_of_lt {op : Opcode} {r : Reg} {a target : Nat} {comment : String}
    (ha : a + 1 < 2 ^ 31) (htarget : target < 2 ^ 31) :
    Instr.relative op r a target comment = .ok (.rm op r (target - (a + 1)) .pc comment) := by
  obtain ⟨d, hd⟩ := exists_displacement ha htarget
  have hi : Instr.relative op r a target comment = .ok (.rm op r d .pc comment) :=
    Except.bind_eq_ok_iff.mpr ⟨d, hd, rfl⟩
  rw [hi, Instr.relative_eq_ok hi (by omega) htarget]

namespace CodeBuffer

variable {b b' : CodeBuffer} {op : Opcode} {r : Reg} {a target : Nat} {comment : String}

theorem emitRelative_of_lt (ha : b.cursor + 1 < 2 ^ 31) (htarget : target < 2 ^ 31) :
    b.emitRelative op r target comment =
      b.emitRm op r (target - (b.cursor + 1)) .pc comment := by
  have hrelative : Instr.relative op r b.cursor target comment = _ :=
    Instr.relative_of_lt ha htarget
  obtain ⟨d, hd, hi⟩ := Except.bind_eq_ok_iff.mp hrelative
  rw [emitRelative, hd, ← (Instr.rm.inj (Except.pure_eq_ok_iff.mp hi)).2.2.1]
  rfl

theorem patch_of_lt (hslot : a ≤ b.highWater) (ha : a + 1 < 2 ^ 31) (htarget : target < 2 ^ 31) :
    b.patch a op r target comment =
      ((CodeBuffer.mk b.slots a).emitRm op r (target - (a + 1)) .pc comment).map resume := by
  have hrewind : b.rewind a = .ok ⟨b.slots, a⟩ := if_neg (Nat.not_lt.mpr hslot)
  have hemit : (CodeBuffer.mk b.slots a).emitRelative op r target comment = _ :=
    emitRelative_of_lt ha htarget
  rw [patch, hrewind, Except.bind_ok, hemit]
  cases (CodeBuffer.mk b.slots a).emitRm op r (target - (a + 1)) .pc comment <;> rfl

theorem isSome_answered_emitRm (c : CodeBuffer) (answer : BufferAnswer) (d : Int)
    (f : CodeBuffer → CodeBuffer) :
    (b.answered answer ((c.emitRm op r d .pc comment).map f)).isSome = !op.isRegisterOnly := by
  unfold emitRm
  cases op.isRegisterOnly <;> rfl

end CodeBuffer

namespace BufferOp.Names

variable {b b' : CodeBuffer} {op : BufferOp} {a target : Nat} {o : Opcode} {r : Reg}

/-- Between addresses in range only an operation of the wrong form has no answer. -/
theorem isSome_perform (h : op.Names b a o r target) (ha : a + 1 < 2 ^ 31)
    (htarget : target < 2 ^ 31) : (b.perform op).isSome = !o.isRegisterOnly := by
  cases h with
  | emitRelative _ _ _ comment =>
    have hmap : ∀ x : Except CodeFault CodeBuffer, x.map id = x := fun x => by cases x <;> rfl
    rw [CodeBuffer.perform, CodeBuffer.emitRelative_of_lt ha htarget, ← hmap (b.emitRm ..)]
    exact CodeBuffer.isSome_answered_emitRm b _ _ id
  | patch hslot _ _ _ comment =>
    rw [CodeBuffer.perform, CodeBuffer.patch_of_lt hslot ha htarget]
    exact CodeBuffer.isSome_answered_emitRm _ _ _ CodeBuffer.resume

/-- The instruction that is written. -/
theorem write?_eq (h : op.Names b a o r target) (ha : a + 1 < 2 ^ 31) (htarget : target < 2 ^ 31)
    {answer : BufferAnswer} (heffect : b.Effect op answer b') :
    ∃ comment, op.write? answer = some (a, .rm o r (target - (a + 1)) .pc comment) := by
  cases h with
  | emitRelative _ _ _ comment =>
    obtain ⟨rfl, -, -⟩ := heffect
    exact ⟨comment, CodeBuffer.write?_emitRelative (Instr.relative_of_lt ha htarget)⟩
  | patch hslot _ _ _ comment =>
    dsimp only [CodeBuffer.Effect] at heffect
    rw [if_pos hslot] at heffect
    obtain ⟨rfl, -, -⟩ := heffect
    exact ⟨comment, CodeBuffer.write?_patch (Instr.relative_of_lt ha htarget)⟩

end BufferOp.Names

/-! ### The machine at such an instruction

The program counter has moved on before the address is formed, so it is the one behind the
instruction that the distance is added to. -/

namespace Machine

section

variable {σ : Type} (code : Array Instr) (device : Device σ) (m : Machine) (io : σ)

/-- The machine executes one instruction and goes on at an address. Nothing but the program counter
is changed. -/
def GoesTo (address : Nat) : Prop :=
  ∀ steps, runFor code device (steps + 1) m io =
    runFor code device steps (m.setReg .pc (Int64.ofInt address)) io

/-- The machine is at an instruction at the address `a` that names a target. -/
structure Aims (a : Nat) (op : Opcode) (r : Reg) (target : Nat) : Prop where
  /-- The address that the machine forms is the target. -/
  address : ∃ d comment, m.current code = some (.rm op r d .pc comment) ∧
    d + (m.advanced.reg .pc).toInt = target
  always : op = .lda → r = .pc → m.GoesTo code device io target
  taken : jumps? op (m.advanced.reg r) = some true → m.GoesTo code device io target
  passed : jumps? op (m.advanced.reg r) = some false → m.GoesTo code device io (a + 1)

end

variable {σ : Type} {code : Array Instr} {device : Device σ} {m : Machine} {io : σ}
  {a target : Nat} {op : Opcode} {r : Reg} {comment : String}

theorem setReg_setReg (m : Machine) (r : Reg) (w w' : Word) :
    (m.setReg r w).setReg r w' = m.setReg r w' := by
  simp only [setReg, Vector.set_set]

theorem goesTo_of_step {address : Nat}
    (h : step code device m io = ⟨none, m.setReg .pc (Int64.ofInt address), io⟩) :
    m.GoesTo code device io address :=
  runFor_of_step h

/-- A conditional jump changes the program counter if it is taken, and nothing otherwise. -/
theorem stepRm_of_jumps {site : Nat} {d : Int} {s : Reg} {taken : Bool}
    (hword : Core.IsWord (d + (m.reg s).toInt)) (htaken : jumps? op (m.reg r) = some taken) :
    stepRm m io site op r d s =
      ⟨none, if taken then m.setReg .pc (Int64.ofInt (d + (m.reg s).toInt)) else m, io⟩ := by
  unfold stepRm
  dsimp only
  rw [if_pos (show minWord ≤ _ ∧ _ from hword)]
  -- only the six conditional jumps say whether they are taken
  cases op
  case jlt | jle | jgt | jge | jeq | jne =>
    simp only [htaken]
    cases taken <;> rfl
  all_goals cases htaken

/-- The machine counts the distance from the same place as the buffer. -/
theorem aims_of_current (ha : a + 1 < 2 ^ 31) (htarget : target < 2 ^ 31)
    (hpc : (m.reg .pc).toInt = a)
    (hi : m.current code = some (.rm op r (target - (a + 1)) .pc comment)) :
    m.Aims code device io a op r target := by
  have hnext : (m.advanced.reg .pc).toInt = a + 1 := by
    rw [reg_advanced_pc, hpc]
    exact Core.toInt_ofInt_of_isWord (Core.isWord_of_code_address (by omega) (by omega))
  have hsum : (target - (a + 1) : Int) + (m.advanced.reg .pc).toInt = target := by
    rw [hnext]
    omega
  have hword : Core.IsWord ((target - (a + 1) : Int) + (m.advanced.reg .pc).toInt) := by
    rw [hsum]
    exact Core.isWord_of_code_address (by omega) (by omega)
  have hjump : m.advanced.setReg .pc (Int64.ofInt target) = m.setReg .pc (Int64.ofInt target) :=
    setReg_setReg m .pc _ _
  have hpass : m.advanced = m.setReg .pc (Int64.ofInt (a + 1 : Nat)) := by
    rw [advanced, hpc]
    rfl
  refine ⟨⟨_, comment, hi, hsum⟩, ?_, fun htaken => goesTo_of_step ?_,
    fun hpassed => goesTo_of_step ?_⟩
  · rintro rfl rfl
    refine goesTo_of_step ?_
    rw [step_rm_eq hi, stepRm, if_pos (show minWord ≤ _ ∧ _ from hword), hsum, hjump]
  · rw [step_rm_eq hi, stepRm_of_jumps hword htaken, hsum, if_pos rfl, hjump]
  · rw [step_rm_eq hi, stepRm_of_jumps hword hpassed, ← hpass]
    rfl

end Machine

/-! ### Finished buffers

The last write to a slot decides what is in the finished code. -/

/-- What is written at other addresses leaves an instruction alone, whenever it is written. -/
theorem CodeBuffer.lastWrite_of_unwritten (ws : List (Nat × Instr)) {after : List (Nat × Instr)}
    {a : Nat} (h : ∀ w ∈ after, w.1 ≠ a) (i : Instr) :
    lastWrite (ws ++ [(a, i)] ++ after) a = some i := by
  have hnone : after.reverse.lookup a = none := by
    refine List.lookup_eq_none_iff.mpr fun w hw => bne_iff_ne.mpr ?_
    exact (h w (List.mem_reverse.mp hw)).symm
  rw [lastWrite, List.reverse_append, List.reverse_append, List.lookup_append, hnone,
    List.reverse_singleton, List.singleton_append, List.lookup_cons_self]
  rfl

/-- Any operations on a new buffer, one that writes an instruction with a target, and any further
ones that write at other addresses. Between addresses in range the instruction can be written, if
its operation has the right form. Whenever the machine comes to it in the finished code, the address
that it forms is the target. A jump that is taken goes on at the target, and one that is not taken
behind the jump. -/
theorem target_reached {before : List BufferOp} {answers : List BufferAnswer} {b : CodeBuffer}
    (hbefore : BufferOp.performAll CodeBuffer.perform .empty before = some (answers, b))
    {op : BufferOp} {a target : Nat} {o : Opcode} {r : Reg} (hop : op.Names b a o r target)
    (ha : a < 2 ^ 31 - 1) (htarget : target < 2 ^ 31 - 1) :
    (b.perform op).isSome = !o.isRegisterOnly ∧
      ∀ answer b', b.perform op = some (answer, b') → ∀ after answers' b'',
        BufferOp.performAll CodeBuffer.perform b' after = some (answers', b'') →
        (∀ w ∈ BufferOp.writes after answers', w.1 ≠ a) → ∀ code, b''.finish = .ok code →
          ∀ {σ : Type} (device : Device σ) (m : Machine) (io : σ), (m.reg .pc).toInt = a →
            m.Aims code.toArray device io a o r target := by
  have ha' : a + 1 < 2 ^ 31 := by omega
  have htarget' : target < 2 ^ 31 := by omega
  refine ⟨hop.isSome_perform ha' htarget', ?_⟩
  intro answer b' hperform after answers' b'' hafter hother code hcode σ device m io hpc
  -- the buffer holds what was written before, then the instruction, then what was written after
  have hb := CodeBuffer.records_performAll CodeBuffer.records_empty hbefore
  have heffect := CodeBuffer.effect_of_perform hb.cursor_le hperform
  obtain ⟨comment, hwrite⟩ := hop.write?_eq ha' htarget' heffect
  have hb' := heffect.records hb
  rw [hwrite, Option.toList_some] at hb'
  have hb'' := CodeBuffer.records_performAll hb' hafter
  have hlast : code[a]? = some (.rm o r (target - (a + 1)) .pc comment) :=
    ((hb''.finish_ok hcode).2 a).trans (CodeBuffer.lastWrite_of_unwritten _ hother _)
  have hcurrent : m.current code.toArray = some (.rm o r (target - (a + 1)) .pc comment) := by
    rw [Machine.current_eq_some_iff, hpc]
    exact ⟨Int.natCast_nonneg a, code_at hlast⟩
  exact Machine.aims_of_current ha' htarget' hpc hcurrent

/-- Two slots are kept free, with an instruction between them. -/
def slotsKept : List BufferOp :=
  [.reserve 1, .emitRm .ldc .ac 1 .unused "one", .reserve 1]

/-- The second slot is filled with a jump back, and the code goes on behind it. -/
def slotsFilled : List BufferOp :=
  [.patch 2 .lda .pc 0 "again", .emitRo .write .ac .unused .unused "print",
    .emitRo .halt .unused .unused .unused "stop"]

/-- Between the two, the first slot is filled with a jump to the last instruction. The addresses
that are written to behind that, and the finished code. -/
def loopCode : Option (List Nat × List Instr) :=
  (BufferOp.performAll CodeBuffer.perform .empty slotsKept).bind fun (_, b) =>
    (b.perform (.patch 0 .jeq .ac 4 "leave")).bind fun (_, b') =>
      (BufferOp.performAll CodeBuffer.perform b' slotsFilled).bind fun (answers, b'') =>
        b''.finish.toOption.map fun code =>
          ((BufferOp.writes slotsFilled answers).map Prod.fst, code)

/-- The jump to the last instruction, whose address is not written to any more. A new machine has
zero in its accumulator, so it goes there. -/
theorem target_reached_forward : ∃ answers b answer b' answers' b'' code,
    BufferOp.performAll CodeBuffer.perform .empty slotsKept = some (answers, b) ∧
    BufferOp.Names b (.patch 0 .jeq .ac 4 "leave") 0 .jeq .ac 4 ∧
    b.perform (.patch 0 .jeq .ac 4 "leave") = some (answer, b') ∧
    BufferOp.performAll CodeBuffer.perform b' slotsFilled = some (answers', b'') ∧
    (∀ w ∈ BufferOp.writes slotsFilled answers', w.1 ≠ 0) ∧ b''.finish = .ok code ∧
    code[0]? = some (.rm .jeq .ac 3 .pc "leave") ∧
    ((Machine.init 16).reg .pc).toInt = (0 : Nat) ∧
    (Machine.init 16).Aims code.toArray Tape.device (Tape.ofList [] none) 0 .jeq .ac 4 ∧
    (Machine.init 16).GoesTo code.toArray Tape.device (Tape.ofList [] none) 4 := by
  -- the whole construction is computed once, and its steps are read off the result
  have hcode : loopCode = some ([2, 3, 4],
      [.rm .jeq .ac 3 .pc "leave", .rm .ldc .ac 1 .unused "one", .rm .lda .pc (-3) .pc "again",
        .ro .write .ac .unused .unused "print", .ro .halt .unused .unused .unused "stop"]) := by
    decide +kernel
  rw [loopCode] at hcode
  obtain ⟨⟨answers, b⟩, hbefore, hcode⟩ := Option.bind_eq_some_iff.mp hcode
  obtain ⟨⟨answer, b'⟩, hperform, hcode⟩ := Option.bind_eq_some_iff.mp hcode
  obtain ⟨⟨answers', b''⟩, hafter, hcode⟩ := Option.bind_eq_some_iff.mp hcode
  obtain ⟨code, hfinish, hcode⟩ := Option.map_eq_some_iff.mp hcode
  obtain ⟨haddresses, hcode⟩ := Prod.mk.inj hcode
  have hnames : BufferOp.Names b (.patch 0 .jeq .ac 4 "leave") 0 .jeq .ac 4 :=
    .patch (Nat.zero_le _) .jeq .ac 4 "leave"
  have hother : ∀ w ∈ BufferOp.writes slotsFilled answers', w.1 ≠ 0 := by
    have hall : ∀ a ∈ [2, 3, 4], a ≠ 0 := by decide
    rw [← haddresses, List.forall_mem_map] at hall
    exact hall
  have hfinish := Except.eq_ok_of_toOption hfinish
  have hfirst : code[0]? = some (.rm .jeq .ac 3 .pc "leave") := by rw [hcode]; rfl
  have haims := (target_reached hbefore hnames (by decide) (by decide)).2 answer b' hperform
    slotsFilled answers' b'' hafter hother code hfinish Tape.device (Machine.init 16)
    (Tape.ofList [] none) (by decide)
  exact ⟨answers, b, answer, b', answers', b'', code, hbefore, hnames, hperform, hafter, hother,
    hfinish, hfirst, by decide, haims, haims.taken (by decide)⟩

end MiniC
