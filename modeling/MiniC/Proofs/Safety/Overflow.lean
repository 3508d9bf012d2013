import MiniC.Proofs.Inventory
import MiniC.Proofs.Safety.Programs
import MiniC.Proofs.Steps

/-!
# Address overflow

The machine forms the address that a register-memory instruction names before it looks at the
operation, and stops when that address is no word. An instruction that loads a constant has no use
for an address, but it names one: the constant itself, counted from the accumulator. Generated code
stops in this way at such an instruction only, and exactly when the accumulator holds a number so
close to an end of the range that the sum leaves it.

* `Instr.Regular`: constants are loaded with the accumulator as the base that is not used
* `run_overflows_iff`: when a run ends in address overflow
* `not_run_within_words`: a program that reads a large number and then loads a constant
-/

namespace MiniC

/-! ### Constants in generated code

The load of a constant adds its register to the constant before it is thrown away. In generated code
that register is the accumulator, and the lemmas go through the code of every phrase to see it. -/

/-- An instruction that loads a constant names the accumulator as its base. -/
def Instr.Regular : Instr → Prop
  | .rm .ldc _ _ s _ => s = .unused
  | _ => True

/-- Only loads of constants matter. -/
theorem Instr.regular_of_ne {op : Opcode} (hop : op ≠ .ldc) {r : Reg} {d : Int} {s : Reg}
    {t : String} : Instr.Regular (.rm op r d s t) := by
  cases op with
  | ldc => exact absurd rfl hop
  | _ => trivial

/-- Jumps are no loads of constants. -/
theorem Instr.regular_relative {op : Opcode} {r : Reg} {address target : Nat} {t : String}
    {i : Instr} (h : Instr.relative op r address target t = .ok i) (hop : op ≠ .ldc) :
    i.Regular := by
  simp only [Instr.relative, Except.bind_eq_ok_iff, Except.pure_eq_ok_iff] at h
  obtain ⟨d, -, rfl⟩ := h
  exact regular_of_ne hop

namespace VarUse

variable {v : VarUse}

/-- Nor are loads of variables. -/
theorem regular_load {r : Reg} {i : Instr} (h : v.load r = .ok i) : i.Regular := by
  simp only [VarUse.load, Except.bind_eq_ok_iff] at h
  obtain ⟨⟨layout, base⟩, -, h⟩ := h
  cases hs : layout.storage with
  | scalar =>
    simp only [hs, Except.pure_eq_ok_iff] at h
    rw [← h]
    trivial
  | array =>
    simp only [hs, Except.pure_eq_ok_iff] at h
    rw [← h]
    trivial
  | arrayRef =>
    simp only [hs, Except.pure_eq_ok_iff] at h
    rw [← h]
    trivial

/-- Nor are stores. -/
theorem regular_store {i : Instr} (h : v.store = .ok i) : i.Regular := by
  simp only [VarUse.store, Except.bind_eq_ok_iff, Except.pure_eq_ok_iff] at h
  obtain ⟨_, -, rfl⟩ := h
  trivial

end VarUse

/-- Nor is any instruction of a call. -/
theorem regular_callSequence {frame : Int} {jump : Instr} (h : jump.Regular) :
    ∀ i ∈ callSequence frame jump, i.Regular := by
  simp only [callSequence, List.forall_mem_cons]
  exact ⟨trivial, trivial, trivial, h, trivial, List.forall_mem_nil _⟩

/-- The constants in the code that expressions have in common. -/
theorem Instr.common_regular : Instr.Common fun _ i => i.Regular where
  raise h _ := h
  operation _ _ _ _ _ _ := trivial
  constant _ _ _ _ := rfl
  based _ _ _ hop _ _ _ _ := regular_of_ne hop
  cell _ _ hop _ _ := regular_of_ne hop
  load _ _ _ _ h := VarUse.regular_load h
  store _ _ _ h := VarUse.regular_store h
  restore _ := trivial

/-- The code of an expression loads constants in the regular way. -/
theorem Exp.regular_code {k : Linker} {e : Exp} {offset : Int} {start : Nat} {is : List Instr}
    (h : e.code k offset start = .ok is) : ∀ i ∈ is, i.Regular :=
  Exp.forall_code Instr.common_regular h

/-- The length of an array is loaded as a constant, in the regular way. -/
theorem VarDecl.regular_lengthCode (d : VarDecl) (base : Reg) :
    ∀ i ∈ d.lengthCode base, i.Regular := by
  unfold VarDecl.lengthCode
  split
  · simp only [List.forall_mem_cons]
    exact ⟨rfl, trivial, List.forall_mem_nil _⟩
  · exact List.forall_mem_nil _

/-- Statements that follow each other, if it is so for each of them. -/
theorem Stmt.regular_codeAll {k : Linker} {offset : Int} {body : List Stmt}
    (ih : ∀ s ∈ body, ∀ {start is}, s.code k offset start = .ok is → ∀ i ∈ is, i.Regular)
    {start : Nat} {is : List Instr} (h : Stmt.codeAll k offset start body = .ok is) :
    ∀ i ∈ is, i.Regular := by
  induction body generalizing start is with
  | nil =>
    rw [Stmt.codeAll_nil h]
    exact List.forall_mem_nil _
  | cons s rest hrest =>
    obtain ⟨i, j, hi, hj, rfl⟩ := Stmt.codeAll_cons h
    rw [List.forall_mem_append]
    exact ⟨ih s List.mem_cons_self hi, hrest (fun a ha => ih a (List.mem_cons_of_mem s ha)) hj⟩

/-- A return is no load of a constant. -/
theorem regular_returnInstr : returnInstr.Regular :=
  trivial

/-- The code of a statement loads constants in the regular way. -/
theorem Stmt.regular_code {k : Linker} {s : Stmt} {offset : Int} {start : Nat} {is : List Instr}
    (h : s.code k offset start = .ok is) : ∀ i ∈ is, i.Regular := by
  replace h := Stmt.coded h
  induction h with
  | exp he => exact Exp.regular_code he
  | block hbody _ ih =>
    rw [List.forall_mem_append]
    refine ⟨?_, Stmt.regular_codeAll ih hbody⟩
    intro i hi
    obtain ⟨d, -, hd⟩ := List.mem_flatMap.mp hi
    exact d.regular_lengthCode .fp i hd
  | ifThen ht _ hskip ih =>
    simp only [List.forall_mem_append, List.forall_mem_cons]
    exact ⟨Exp.regular_code ht, Instr.regular_relative hskip (by decide), ih⟩
  | ifElse ht _ hElse _ hEnd iha ihb =>
    simp only [List.forall_mem_append, List.forall_mem_cons]
    exact ⟨Exp.regular_code ht, Instr.regular_relative hElse (by decide), iha,
      Instr.regular_relative hEnd (by decide), ihb⟩
  | whileDo ht _ hback hskip ih =>
    simp only [List.forall_mem_append, List.forall_mem_cons]
    exact ⟨Exp.regular_code ht, Instr.regular_relative hskip (by decide), ih,
      Instr.regular_relative hback (by decide), List.forall_mem_nil _⟩
  | retNone p => exact List.forall_mem_singleton.mpr regular_returnInstr
  | retSome he =>
    rw [List.forall_mem_append, List.forall_mem_singleton]
    exact ⟨Exp.regular_code he, regular_returnInstr⟩

/-- The code of declarations, by induction on how it is laid out. -/
theorem Laid.regular {linked : Bool} {pool : Entries} {S S' : ScopeTable} {next next' : Int}
    {start : Nat} {ds : List Decl} {is : List Instr}
    (h : Laid linked pool S next start ds S' next' is) : ∀ i ∈ is, i.Regular := by
  induction h with
  | nil S next start => exact List.forall_mem_nil _
  | var hd hcheck hrest ih =>
    rw [List.forall_mem_append]
    exact ⟨VarDecl.regular_lengthCode _ .gp, ih⟩
  | prototype hbody hann hscopes hnext hvalue hrest ih => exact ih
  | definition hdef hjump hrest ih =>
    obtain ⟨_, _, _, _, _, _, -, -, -, hemits, -, -⟩ := hdef.emitted
    simp only [FunDecl.framed, List.forall_mem_append, List.forall_mem_cons]
    exact ⟨Instr.regular_relative hjump (by decide), ⟨trivial, Stmt.regular_code hemits.code_eq,
      regular_returnInstr, List.forall_mem_nil _⟩, ih⟩

/-- The fixed code loads its constants in the regular way. -/
theorem regular_routines : ∀ i ∈ routines, i.Regular := by
  simp only [routines, inputRoutine, outputRoutine, faultRoutine, List.forall_mem_append,
    List.forall_mem_cons]
  simp [Instr.Regular, returnInstr]

/-- Every instruction of generated code that loads a constant names the accumulator as its base. -/
theorem Compiles.regular {source : String} {tree : Program} {code : List Instr}
    (h : Compiles source tree code) : ∀ i ∈ code, i.Regular := by
  obtain ⟨is, t, main, jump, hlaid, -, -, hjump, rfl⟩ := h.code_eq
  simp only [startupCode, List.forall_mem_append, List.forall_mem_cons]
  exact ⟨⟨trivial, trivial, trivial, List.forall_mem_nil _⟩, trivial, regular_routines,
    hlaid.regular, regular_callSequence (Instr.regular_relative hjump (by decide)), trivial,
    List.forall_mem_nil _⟩

/-! ### Runs

A run ends in address overflow if some instruction in it overflows, and that can only be the load of
a constant. -/

namespace Machine

/-- A constant is loaded, unless its unused address is no word. -/
theorem step_constant {σ : Type} {code : Array Instr} {device : Device σ} {m : Machine} {io : σ}
    {r : Reg} {d : Int} {t : String} (h : m.current code = some (.rm .ldc r d .unused t)) :
    (step code device m io).stopped = some .addressOverflow ↔
      ¬Core.IsWord (d + (m.reg .unused).toInt) := by
  rw [step_rm_eq h]
  simp only [stepRm, reg_advanced (show Reg.unused ≠ Reg.pc by decide)]
  split
  next hword => simpa using show Core.IsWord _ from hword
  next hword => simpa using show ¬Core.IsWord _ from hword

end Machine

/-- A run of a compiled program ends in address overflow exactly when it comes to an instruction
that loads a constant while the sum of the constant and the accumulator is no word. -/
theorem run_overflows_iff {σ : Type} {source : String} {tree : Program} {code : List Instr}
    (h : Compiles source tree code) (device : Device σ) {memory : Nat}
    (hmemory : memory < Memory.sizeLimit) (limit : Nat) (io : σ) :
    (Machine.run code.toArray device limit (Machine.init memory) io).outcome = .addressOverflow ↔
      ∃ k < limit, ∃ m io' r d t,
        Machine.runFor code.toArray device k (Machine.init memory) io = ⟨none, m, io'⟩ ∧
        m.current code.toArray = some (.rm .ldc r d .ac t) ∧
        ¬Core.IsWord (d + (m.reg .ac).toInt) := by
  have hstopped : (Machine.run code.toArray device limit (Machine.init memory) io).outcome
      = .addressOverflow ↔ (Machine.runFor code.toArray device limit (Machine.init memory)
        io).stopped = some .addressOverflow := by
    change Option.getD _ _ = _ ↔ _
    cases (Machine.runFor code.toArray device limit (Machine.init memory) io).stopped with
    | none => simp
    | some o => simp
  rw [hstopped, Machine.runFor_stopped_iff]
  constructor
  · rintro ⟨k, hk, m, io', hrun, hstep⟩
    -- an orderly step overflows at a constant only
    obtain ⟨g, hafter⟩ := Watched.after_of_runFor (analyze tree false).program.marks
      (w := Watched.start memory io) hrun
    have horderly := (h.good device hmemory io hafter).1
    rw [hstep] at horderly
    cases horderly with
    | overflow r s d t hldc =>
      have hmem : Instr.rm .ldc r d s t ∈ code := by
        unfold Machine.current Machine.fetch at hldc
        split at hldc
        · exact List.mem_toArray.mp (Array.mem_of_getElem? hldc)
        · cases hldc
      obtain rfl : s = .unused := h.regular _ hmem
      exact ⟨k, hk, m, io', r, d, t, hrun, hldc, (Machine.step_constant hldc).mp hstep⟩
  · rintro ⟨k, hk, m, io', r, d, t, hrun, hldc, hword⟩
    exact ⟨k, hk, m, io', hrun, (Machine.step_constant hldc).mpr hword⟩

/-- A program that reads a number and then evaluates a constant. -/
def readingSource : String :=
  "void main(void) { input(); 1; }"

/-- How the reading program ends when the number it reads is the largest one. -/
def readingOutcome : Option Outcome :=
  (compile? readingSource).map fun (_, code) =>
    (Machine.run code.toArray Tape.device 100 (Machine.init 1024)
      (Tape.ofList [9223372036854775807] none)).outcome

/-- A program that is given the largest word and loads a constant next ends in address overflow. -/
theorem exists_readingOutcome : ∃ tree code, Compiles readingSource tree code ∧
    (Machine.run code.toArray Tape.device 100 (Machine.init 1024)
      (Tape.ofList [9223372036854775807] none)).outcome = .addressOverflow := by
  have hascii : Ascii readingSource _ := ⟨rfl, rfl⟩
  have hout : readingOutcome = some .addressOverflow := by
    rw [readingOutcome, compile?, parse, hascii.scan_eq]
    decide +kernel
  have hshort : readingSource.utf8ByteSize < 2 ^ 27 := by
    rw [hascii.utf8ByteSize_eq]
    decide +kernel
  obtain ⟨⟨tree, code⟩, hcompile, hrun⟩ := Option.map_eq_some_iff.mp hout
  exact ⟨tree, code, compiles_of_compile? hshort hcompile, hrun⟩

/-- The theorem at work on that program: there is a state of its run that overflows. -/
theorem run_overflows_iff_reading : ∃ tree code, Compiles readingSource tree code ∧
    ∃ k < 100, ∃ m io' r d t,
      Machine.runFor code.toArray Tape.device k (Machine.init 1024)
        (Tape.ofList [9223372036854775807] none) = ⟨none, m, io'⟩ ∧
      m.current code.toArray = some (.rm .ldc r d .ac t) ∧
      ¬Core.IsWord (d + (m.reg .ac).toInt) := by
  obtain ⟨tree, code, h, hrun⟩ := exists_readingOutcome
  exact ⟨tree, code, h, (run_overflows_iff h Tape.device (by decide) 100 _).mp hrun⟩

/-- There is a compiled program that address overflow stops. -/
theorem not_run_within_words : ¬∀ (source : String) (tree : Program) (code : List Instr),
    Compiles source tree code → ∀ memory < Memory.sizeLimit, ∀ limit (input : List Word),
      (Machine.run code.toArray Tape.device limit (Machine.init memory)
        (Tape.ofList input none)).outcome ≠ .addressOverflow := by
  intro hall
  obtain ⟨tree, code, h, hrun⟩ := exists_readingOutcome
  exact hall _ tree code h 1024 (by decide) 100 _ hrun

end MiniC
