import MiniC.Proofs.Failures
import MiniC.Proofs.Fields
import MiniC.Proofs.Scanning.Lexemes
import MiniC.Proofs.Sessions

/-!
# Output as input

What a program writes can be read by another one. The console writes a number and a line feed, and
reads up to a line feed; the digits and the sign of a number are no white space and no line feed,
and every word is in the range that is read.

* `Console.bytes`, `Console.linesOf`: what is written
* `Console.read_lines`, `Console.read_empty`: the console on such an input
* `Machine.answers`: what a program has read
* `output_pipes_back`: any two runs, the output of the first being the input of the second
-/

namespace MiniC

namespace Console

/-- The bytes of a text. -/
def bytes (text : String) : List UInt8 :=
  text.toUTF8.data.toList

/-- The lines of numbers. -/
def linesOf (words : List Word) : String :=
  String.join (words.map lineOfWord)

/-- The bytes of texts one behind the other. -/
theorem bytes_append (a b : String) : bytes (a ++ b) = bytes a ++ bytes b := by
  simp [bytes]

/-- A character of ASCII is its own byte. -/
theorem bytes_ascii {cs : List Char} (h : ∀ c ∈ cs, c.toNat < 128) :
    bytes (String.ofList cs) = cs.map fun c => c.val.toUInt8 := by
  rw [bytes, String.toUTF8_eq_toByteArray, String.toByteArray_ofList, utf8Encode_ascii h]

/-- Bytes of a text are that text. -/
theorem fromUTF8?_bytes (text : String) : String.fromUTF8? ⟨(bytes text).toArray⟩ = some text := by
  have hbytes : (⟨(bytes text).toArray⟩ : ByteArray) = text.toUTF8 := by
    rw [bytes, Array.toArray_toList]
  rw [hbytes]
  simpa [String.fromUTF8?] using ⟨text.isValidUTF8, rfl⟩

/-! ### One line

The number that `output` prints has a sign and digits only, so nothing is trimmed from it, and it is
read back as itself. The bytes of its line are ASCII and have no line feed among them. -/

/-- A number is written with digits and a sign. -/
theorem mem_toString_int {i : Int} {c : Char} (h : c ∈ (toString i).toList) :
    c = '-' ∨ c.isDigit := by
  rw [Decimal.toList_toString_int] at h
  split at h
  · rcases List.mem_cons.mp h with rfl | h
    · exact .inl rfl
    · exact .inr (Decimal.isDigit_of_mem_toString h)
  · exact .inr (Decimal.isDigit_of_mem_toString h)

/-- No character of a number is a blank. -/
theorem isBlank_of_mem_toString_int {i : Int} {c : Char} (h : c ∈ (toString i).toList) :
    Text.isBlank c = false := by
  rcases mem_toString_int h with rfl | hc
  · decide
  · exact Decimal.isBlank_of_isDigit hc

/-- A text without blanks is not trimmed. -/
theorem trim_of_forall {text : List Char} (h : ∀ c ∈ text, Text.isBlank c = false) :
    Text.trim text = text := by
  have hdrop : ∀ l : List Char, (∀ c ∈ l, Text.isBlank c = false) →
      l.dropWhile Text.isBlank = l := by
    intro l hl
    cases l with
    | nil => rfl
    | cons c l => exact List.dropWhile_cons_of_neg (by simp [hl c List.mem_cons_self])
  rw [Text.trim, hdrop text h, Text.trimEnd, hdrop _ fun c hc => h c (List.mem_reverse.mp hc),
    List.reverse_reverse]

/-- A word is read back from its decimal text, because it is in range. -/
theorem readWord?_toString (w : Word) : readWord? (toString w.toInt).toList = some w := by
  have hrange : Machine.minWord ≤ w.toInt ∧ w.toInt ≤ Machine.maxWord :=
    ⟨w.le_toInt, w.toInt_le⟩
  rw [readWord?, trim_of_forall fun c => isBlank_of_mem_toString_int, Decimal.readInt?_toString]
  simp only [if_pos hrange, Int64.ofInt_toInt]

/-- A word is read back from the bytes of its line. -/
theorem wordOfLine_toString (w : Word) : wordOfLine (bytes (toString w.toInt)) = .ok w := by
  rw [wordOfLine, fromUTF8?_bytes]
  simp only [readWord?_toString]

/-- No byte of a number is a line feed. -/
theorem break_notMem_bytes (i : Int) : 10 ∉ bytes (toString i) := by
  have hascii : ∀ c ∈ (toString i).toList, c.toNat < 128 := by
    intro c hc
    rcases mem_toString_int hc with rfl | hc
    · decide
    · have hle := (Char.isDigit_iff_toNat.mp hc).2
      have hnine : '9'.toNat = 57 := rfl
      omega
  rw [← String.ofList_toList (s := toString i), bytes_ascii hascii, List.mem_map]
  rintro ⟨c, hc, hbreak⟩
  have heq := ofUInt8_ascii (hascii c hc)
  rw [hbreak] at heq
  rcases mem_toString_int hc with rfl | hdigit
  · exact absurd heq (by decide)
  · rw [← heq] at hdigit
    exact absurd hdigit (by decide)

/-- The first of the numbers is read, and the others are left. -/
theorem read_lines (w : Word) (words : List Word) (output : String) (limit : Option Limit) :
    read ⟨bytes (linesOf (w :: words)), output, limit⟩ =
      (.ok w, ⟨bytes (linesOf words), output, limit⟩) := by
  have hbytes : bytes (linesOf (w :: words)) =
      bytes (toString w.toInt) ++ ([10] ++ bytes (linesOf words)) := by
    rw [linesOf, List.map_cons, String.join_cons, bytes_append, lineOfWord, bytes_append,
      List.append_assoc]
    rfl
  have hbreak := break_notMem_bytes w.toInt
  have hne : (bytes (toString w.toInt) ++ ([10] ++ bytes (linesOf words))).isEmpty = false := by
    simp
  have hdrop : (bytes (toString w.toInt) ++ ([10] ++ bytes (linesOf words))).drop
      ((bytes (toString w.toInt)).length + 1) = bytes (linesOf words) := by
    rw [← List.append_assoc]
    exact List.drop_left' List.length_append
  rw [read, hbytes]
  simp only [hne, takeWhile_ne_append hbreak, wordOfLine_toString, hdrop]
  rfl

/-- Without lines the input has ended. -/
theorem read_empty (output : String) (limit : Option Limit) :
    read ⟨bytes (linesOf []), output, limit⟩ =
      (.error (.input "end of input"), ⟨bytes (linesOf []), output, limit⟩) := rfl

end Console

/-! ### What a program reads

The answers of a run are read off its record of exchanges. Every step adds one answer or none to it.
-/

/-- The answer to a call that reads. -/
def Exchange.answer? : Exchange → Option (Except MachineError Word)
  | .read answer => some answer
  | .write _ _ => none

namespace Machine

section Answers

variable {σ : Type} (code : Array Instr) (device : Device σ)

/-- What the device has answered to the calls that read, in order. -/
def answers (limit : Nat) (m : Machine) (io : σ) : List (Except MachineError Word) :=
  (exchanges code device limit m io).filterMap Exchange.answer?

/-- What an instruction reads: nothing, while it may write; or one word; or it fails because there
is none. -/
inductive Consults (io : σ) (log : List Exchange) : StepResult (σ × List Exchange) → Prop
  | silent {stopped : Option Outcome} {m : Machine} : Consults io log ⟨stopped, m, (io, log)⟩
  | write {stopped : Option Outcome} {m : Machine} {w : Word} {a : Except MachineError Unit}
      {io' : σ} (h : device.write w io = (a, io')) :
      Consults io log ⟨stopped, m, (io', log ++ [.write w a])⟩
  | read {m : Machine} {w : Word} {io' : σ} (h : device.read io = (.ok w, io')) :
      Consults io log ⟨none, m, (io', log ++ [.read (.ok w)])⟩
  | fail {m : Machine} {e : MachineError} {io' : σ} (h : device.read io = (.error e, io')) :
      Consults io log ⟨some (.failed e), m, (io', log ++ [.read (.error e)])⟩

/-- An instruction on registers consults the device at most once. -/
theorem consults_stepRo (m : Machine) (io : σ) (log : List Exchange) (site : Nat) (op : Opcode)
    (r s q : Reg) :
    Consults device io log (stepRo device.recorded m (io, log) site op r s q) := by
  cases op with
  | read =>
    simp only [stepRo, Device.recorded]
    cases h : device.read io with
    | mk a io' =>
      cases a with
      | ok w => exact .read h
      | error e => exact .fail h
  | write =>
    simp only [stepRo, Device.recorded]
    cases h : device.write (m.reg r) io with
    | mk a io' => cases a <;> exact .write h
  | div =>
    simp only [stepRo]
    split <;> exact .silent
  | _ => exact .silent

/-- A step consults the device at most once. -/
theorem consults_step (m : Machine) (io : σ) (log : List Exchange) :
    Consults device io log (step code device.recorded m (io, log)) := by
  cases hi : m.current code with
  | none =>
    rw [step_of_current_none hi]
    exact .silent
  | some i =>
    cases i with
    | ro op r s q t =>
      rw [step_ro_eq hi]
      exact consults_stepRo device ..
    | rm op r d s t =>
      rw [step_rm_eq hi]
      have hio : (stepRm m.advanced (io, log) (m.reg .pc).toInt.toNat op r d s).io = (io, log) :=
        io_stepRm _ op r d s
      generalize stepRm m.advanced (io, log) (m.reg .pc).toInt.toNat op r d s = x at hio ⊢
      obtain ⟨stopped, m', io'⟩ := x
      obtain rfl : io' = (io, log) := hio
      exact .silent

end Answers

/-! ### Lines as the input

With lines of numbers as the input, the first answers are these numbers, and the next one, if there
is a next one, is that the input has ended. That stops the machine. -/

/-- What is read from the lines of numbers: the numbers in order, and when there are no more, the
machine stops. -/
def ReadsLines (words : List Word) (log : List Exchange)
    (r : StepResult (Console × List Exchange)) :
    Prop :=
  ∃ answers, r.io.2.filterMap Exchange.answer? = log.filterMap Exchange.answer? ++ answers ∧
    answers <+: words.map .ok ++ [.error (.input "end of input")] ∧
    (words.length < answers.length → r.stopped = some (.failed (.input "end of input")))

/-- A run that has read nothing has read the first none of the lines. -/
theorem ReadsLines.of_silent {words : List Word} {log : List Exchange}
    {r : StepResult (Console × List Exchange)}
    (h : r.io.2.filterMap Exchange.answer? = log.filterMap Exchange.answer?) :
    ReadsLines words log r :=
  ⟨[], by rw [h, List.append_nil], List.nil_prefix, fun hlt => absurd hlt (Nat.not_lt_zero _)⟩

/-- By induction on the steps. A line that is read leaves the lines behind it to the rest of the
run, and a word that is written, or that there is no room for, leaves all of them. -/
theorem readsLines_runFor (code : Array Instr) (n : Nat) (m : Machine) (words : List Word)
    (output : String) (room : Option Console.Limit) (log : List Exchange) :
    ReadsLines words log (runFor code Console.device.recorded n m
      (⟨Console.bytes (Console.linesOf words), output, room⟩, log)) := by
  induction n generalizing m words output log with
  | zero => exact .of_silent rfl
  | succ n ih =>
    have hstep := consults_step code Console.device m
      ⟨Console.bytes (Console.linesOf words), output, room⟩ log
    rw [runFor]
    generalize step code Console.device.recorded m _ = x at hstep ⊢
    cases hstep with
    | @silent stopped m' =>
      cases stopped with
      | none => exact ih m' words output log
      | some o => exact .of_silent rfl
    | @write stopped m' w a io' h =>
      have hsilent : (log ++ [Exchange.write w a]).filterMap Exchange.answer? =
          log.filterMap Exchange.answer? := by
        simp [Exchange.answer?]
      obtain ⟨output', rfl⟩ : ∃ output',
          io' = ⟨Console.bytes (Console.linesOf words), output', room⟩ := by
        obtain ⟨-, hwrite⟩ | ⟨reason, hwrite⟩ := Console.write_cases
          ⟨Console.bytes (Console.linesOf words), output, room⟩ w
        · cases hwrite.symm.trans h
          exact ⟨_, rfl⟩
        · cases hwrite.symm.trans h
          exact ⟨_, rfl⟩
      cases stopped with
      | none =>
        obtain ⟨answers, hanswers, hrest⟩ := ih m' words output' (log ++ [.write w a])
        exact ⟨answers, hsilent ▸ hanswers, hrest⟩
      | some o => exact .of_silent hsilent
    | @read m' w io' h =>
      cases words with
      | nil => cases (Console.read_empty output room).symm.trans h
      | cons w' words =>
        -- the other lines are read by the rest of the run
        cases (Console.read_lines w' words output room).symm.trans h
        obtain ⟨answers, hanswers, hanswered, hstopped⟩ := ih m' words output
          (log ++ [.read (.ok w)])
        refine ⟨.ok w :: answers, ?_, List.cons_prefix_cons.mpr ⟨rfl, hanswered⟩, fun hlt => ?_⟩
        · rw [hanswers]
          simp [Exchange.answer?]
        · exact hstopped (Nat.lt_of_succ_lt_succ hlt)
    | @fail m' e io' h =>
      cases words with
      | nil =>
        cases (Console.read_empty output room).symm.trans h
        exact ⟨[.error (.input "end of input")], by simp [Exchange.answer?], List.prefix_rfl,
          fun _ => rfl⟩
      | cons w' words => cases (Console.read_lines w' words output room).symm.trans h

/-- A run that stops within its limit has the outcome that it stopped with. -/
theorem outcome_of_stopped {σ : Type} {code : Array Instr} {device : Device σ} {limit : Nat}
    {m : Machine} {io : σ} {o : Outcome} (h : (runFor code device limit m io).stopped = some o) :
    (run code device limit m io).outcome = o := by
  simp only [run, h, Option.getD_some]

/-- What a run reads from lines of numbers. -/
theorem answers_run (code : Array Instr) (limit : Nat) (m : Machine) (words : List Word)
    (room : Option Console.Limit) :
    answers code Console.device limit m ⟨Console.bytes (Console.linesOf words), "", room⟩ <+:
        words.map .ok ++ [.error (.input "end of input")] ∧
      (words.length < (answers code Console.device limit m
          ⟨Console.bytes (Console.linesOf words), "", room⟩).length →
        (run code Console.device limit m
          ⟨Console.bytes (Console.linesOf words), "", room⟩).outcome =
            .failed (.input "end of input")) := by
  obtain ⟨as, heq, hanswered, hstopped⟩ := readsLines_runFor code limit m words "" room []
  rw [runFor_recording] at heq hstopped
  obtain rfl : answers code Console.device limit m _ = as := heq
  refine ⟨hanswered, fun hlt => ?_⟩
  exact outcome_of_stopped (hstopped hlt)

/-! ### What a program writes

The console's output is the lines of the words that were written, as long as it takes them. -/

/-- One more line. -/
theorem linesOf_concat (words : List Word) (w : Word) :
    Console.linesOf (words ++ [w]) = Console.linesOf words ++ Console.lineOfWord w := by
  simp [Console.linesOf]

/-- The text is the lines of the words that the console has taken. -/
def Written (s : Console × List Exchange) : Prop :=
  s.1.output = Console.linesOf (s.2.filterMap Exchange.output?)

/-- What is read is not written, what is written is a line of its own, and what finds no room is not
written either. -/
theorem matches_written :
    Console.device.recorded.Matches (fun s t => s = t ∧ Written s) Console.device.recorded where
  read := by
    rintro ⟨c, log⟩ _ ⟨rfl, h⟩
    refine ⟨rfl, rfl, ?_⟩
    simp only [Written, Device.recorded, Console.device, List.filterMap_append, Console.output_read]
    exact h.trans (congrArg Console.linesOf (List.append_nil _).symm)
  write w := by
    rintro ⟨c, log⟩ _ ⟨rfl, h⟩
    refine ⟨rfl, rfl, ?_⟩
    simp only [Written, Device.recorded, Console.device, List.filterMap_append]
    obtain ⟨-, hwrite⟩ | ⟨reason, hwrite⟩ := c.write_cases w
    · rw [hwrite]
      exact (congrArg (· ++ Console.lineOfWord w) h).trans (linesOf_concat _ w).symm
    · rw [hwrite]
      exact h.trans (congrArg Console.linesOf (List.append_nil _).symm)

/-- The text of a run is the lines of the words that the console has taken. -/
theorem output_run (code : Array Instr) (limit : Nat) (m : Machine) (input : List UInt8)
    (room : Option Console.Limit) :
    (run code Console.device limit m ⟨input, "", room⟩).io.output =
      Console.linesOf (outputs code Console.device limit m ⟨input, "", room⟩) := by
  have hwritten := (runFor_matches code matches_written (s := (⟨input, "", room⟩, [])) ⟨rfl, rfl⟩
    limit m).io.2
  rw [runFor_recording] at hwritten
  exact hwritten

/-! ### A program that copies its input

The theorem has two runs in it, and neither says that anything is printed. A program that copies
numbers shows that there are such runs, of any length. -/

section Copying

variable {c : Core} (hpc : c.pc = 0)

include hpc

/-- Three instructions copy one word, and the program counter is back at the first of them. -/
theorem runFor_echoCode {σ : Type} {device : Device σ} {io io₁ io₂ : σ} {w : Word}
    (hread : device.read io = (.ok w, io₁)) (hwrite : device.write w io₁ = (.ok (), io₂))
    (n : Nat) :
    runFor echoCode device (n + 3) c.machine io =
      runFor echoCode device n { c with ac := w }.machine io₂ := by
  have hsize : echoCode.size < 2 ^ 31 := by decide
  have hfirst : step echoCode device c.machine io =
      ⟨none, { c with pc := 1, ac := w }.machine, io₁⟩ := by
    rw [Core.step_read hsize (by rw [hpc]; rfl), hread]
    simp only [Core.next, hpc]
  have hsecond : step echoCode device { c with pc := 1, ac := w }.machine io₁ =
      ⟨none, { c with pc := 2, ac := w }.machine, io₂⟩ := by
    rw [Core.step_write hsize rfl, hwrite]
    rfl
  have hthird : step echoCode device { c with pc := 2, ac := w }.machine io₂ =
      ⟨none, { c with ac := w }.machine, io₂⟩ := by
    rw [Core.step_jump hsize (n := 0) rfl (Nat.zero_le _) rfl, ← hpc]
  rw [runFor_of_step hfirst, runFor_of_step hsecond, runFor_of_step hthird]

/-- The whole input is copied, and then there is no more. -/
theorem runFor_echoCode_lines (words : List Word) (output : String) (log : List Exchange) :
    ∃ m' log', runFor echoCode Console.device.recorded (3 * words.length + 1) c.machine
        (⟨Console.bytes (Console.linesOf words), output, none⟩, log) =
      ⟨some (.failed (.input "end of input")), m',
        (⟨Console.bytes (Console.linesOf []), output ++ Console.linesOf words, none⟩, log')⟩ ∧
      log'.filterMap Exchange.output? = log.filterMap Exchange.output? ++ words ∧
      log'.filterMap Exchange.answer? = log.filterMap Exchange.answer? ++
        (words.map .ok ++ [.error (.input "end of input")]) := by
  induction words generalizing c output log with
  | nil =>
    have hsize : echoCode.size < 2 ^ 31 := by decide
    have hread : Console.device.recorded.read
        (⟨Console.bytes (Console.linesOf []), output, none⟩, log) =
        (.error (.input "end of input"), (⟨Console.bytes (Console.linesOf []), output, none⟩,
          log ++ [.read (.error (.input "end of input"))])) := rfl
    refine ⟨c.next.machine, log ++ [.read (.error (.input "end of input"))], ?_, ?_, ?_⟩
    · refine runFor_of_stop ?_ 0
      rw [Core.step_read hsize (by rw [hpc]; rfl), hread]
      rw [show Console.linesOf [] = "" from rfl, String.append_empty]
    · simp [Exchange.output?]
    · simp [Exchange.answer?]
  | cons w words ih =>
    have hread : Console.device.recorded.read
        (⟨Console.bytes (Console.linesOf (w :: words)), output, none⟩, log) =
        (.ok w, (⟨Console.bytes (Console.linesOf words), output, none⟩,
          log ++ [.read (.ok w)])) := by
      simp only [Device.recorded, Console.device, Console.read_lines]
    have hlines : Console.linesOf (w :: words) = Console.lineOfWord w ++ Console.linesOf words := by
      rw [Console.linesOf, List.map_cons, String.join_cons]
      rfl
    -- three steps copy the first word, and leave the console with the other lines
    obtain ⟨m', log', hrun, hout, hin⟩ := ih (c := { c with ac := w }) hpc
      (output ++ Console.lineOfWord w) (log ++ [.read (.ok w)] ++ [.write w (.ok ())])
    refine ⟨m', log', ?_, ?_, ?_⟩
    · rw [List.length_cons, show 3 * (words.length + 1) + 1 = 3 * words.length + 1 + 3 by omega,
        runFor_echoCode hpc hread rfl, hlines, ← String.append_assoc]
      exact hrun
    · rw [hout, List.filterMap_append, List.filterMap_append, List.append_assoc, List.append_assoc]
      rfl
    · rw [hin]
      simp [Exchange.answer?]

end Copying

/-- A run that copies words and then fails. -/
structure Copies (words : List Word) (code : Array Instr) (limit : Nat) (m : Machine)
    (c : Console) : Prop where
  output : (run code Console.device limit m c).io.output = c.output ++ Console.linesOf words
  outputs : outputs code Console.device limit m c = words
  answers : answers code Console.device limit m c =
    words.map .ok ++ [.error (.input "end of input")]
  outcome : (run code Console.device limit m c).outcome = .failed (.input "end of input")

/-- The copying program copies any list of words that fits into its limit. -/
theorem copies_echoCode (words : List Word) (memory : Nat) :
    Copies words echoCode (3 * words.length + 1) (init memory)
      (.ofInput (Console.bytes (Console.linesOf words))) := by
  obtain ⟨m', log', hrun, hout, hin⟩ :=
    runFor_echoCode_lines (c := ⟨0, 0, 0, 0, 0, .fresh (memory - 1)⟩) rfl words "" []
  rw [← init_eq, runFor_recording] at hrun
  obtain ⟨hstopped, -, hio⟩ := StepResult.mk.inj hrun
  obtain ⟨hconsole, hlog⟩ := Prod.mk.inj hio
  obtain rfl : exchanges echoCode Console.device _ _ _ = log' := hlog
  exact ⟨congrArg Console.output hconsole, hout, hin, outcome_of_stopped hstopped⟩

end Machine

/-- The machine that `execute` runs is a new one. -/
theorem execute_eq_run {o : Options} {code : List Instr} {c : Console}
    {r : Machine.RunResult Console} (h : execute o code c = some ⟨code, some r⟩) :
    r = Machine.run code.toArray Console.device o.maxSteps (Machine.init o.memory) c := by
  obtain ⟨-, hx⟩ := execute_eq_some_iff.mp h
  obtain ⟨machine, hmachine, hr⟩ := Option.map_eq_some_iff.mp (Execution.mk.inj hx).2.symm
  unfold Machine.init? at hmachine
  split at hmachine <;> cases hmachine
  exact hr.symm

/-- The options under which a code is run with one cell and so many instructions. -/
def runOptions (limit : Nat) : Options :=
  ⟨"", false, false, false, none, true, 1, limit⟩

/-- Output can be piped back. For all words there is a run that writes them and that also reads them
all, and after them finds the end of its input. If what any run has written is the input of any
other run, that one reads the words of the first in order, each as it was, and if it reads once
more, it fails at the end of the input. It does not matter how much room there is for the output of
either run. -/
theorem output_pipes_back :
    (∀ words : List Word, ∃ o r,
      execute o echoCode.toList (.ofInput (Console.bytes (Console.linesOf words))) =
          some ⟨echoCode.toList, some r⟩ ∧
        Machine.Copies words echoCode o.maxSteps (Machine.init o.memory)
          (.ofInput (Console.bytes (Console.linesOf words)))) ∧
    ∀ o code stdin room r o' code' room' r',
      execute o code ⟨stdin, "", room⟩ = some ⟨code, some r⟩ →
      execute o' code' ⟨Console.bytes r.io.output, "", room'⟩ = some ⟨code', some r'⟩ →
        let words := Machine.outputs code.toArray Console.device o.maxSteps (Machine.init o.memory)
          ⟨stdin, "", room⟩
        let answers := Machine.answers code'.toArray Console.device o'.maxSteps
          (Machine.init o'.memory) ⟨Console.bytes r.io.output, "", room'⟩
        answers <+: words.map .ok ++ [.error (.input "end of input")] ∧
          (words.length < answers.length → r'.outcome = .failed (.input "end of input")) := by
  refine ⟨fun words => ?_, ?_⟩
  · exact ⟨runOptions (3 * words.length + 1), _, rfl, Machine.copies_echoCode words 1⟩
  · intro o code stdin room r o' code' room' r' h h'
    obtain rfl := execute_eq_run h
    obtain rfl := execute_eq_run h'
    rw [Machine.output_run]
    exact Machine.answers_run ..

/-- The lowest and the highest word and zero, copied by a run that its limit stops, and copied again
from there. -/
theorem output_pipes_back_extremes :
    let stdin := Console.bytes "-9223372036854775808\n9223372036854775807\n0\n"
    let first := Machine.run echoCode Console.device 9 (Machine.init 1) (.ofInput stdin)
    let second := Machine.run echoCode Console.device 10 (Machine.init 1)
      (.ofInput (Console.bytes first.io.output))
    first.outcome = .failed (.stepLimit 9) ∧
      Machine.outputs echoCode Console.device 9 (Machine.init 1) (.ofInput stdin) =
        [Int64.minValue, Int64.maxValue, 0] ∧
      Machine.answers echoCode Console.device 10 (Machine.init 1)
          (.ofInput (Console.bytes first.io.output)) <+:
        [.ok Int64.minValue, .ok Int64.maxValue, .ok 0, .error (.input "end of input")] ∧
      second.outcome = .failed (.input "end of input") := by
  intro stdin first second
  have houtputs : Machine.outputs echoCode Console.device 9 (Machine.init 1) (.ofInput stdin) =
      [Int64.minValue, Int64.maxValue, 0] := by
    decide +kernel
  obtain ⟨hanswered, houtcome⟩ := output_pipes_back.2
    (runOptions 9) echoCode.toList stdin none first
    (runOptions 10) echoCode.toList none second rfl rfl
  have hwords : Machine.outputs echoCode.toList.toArray Console.device (runOptions 9).maxSteps
      (Machine.init (runOptions 9).memory) ⟨stdin, "", none⟩ =
        [Int64.minValue, Int64.maxValue, 0] :=
    houtputs
  rw [hwords] at hanswered houtcome
  have hlength : 3 < (Machine.answers echoCode Console.device 10 (Machine.init 1)
      (.ofInput (Console.bytes first.io.output))).length := by
    decide +kernel
  exact ⟨by decide +kernel, houtputs, hanswered, houtcome hlength⟩

end MiniC
