import MiniC.Command.Session
import MiniC.Proofs.Consoles
import MiniC.Proofs.Files

/-!
# Sessions and their effects

A session touches the files at one point only, when it writes the listing, and it runs a program at
one point only, behind the listing. Both come after the last step that can reject the source, so a
source that is rejected leaves no trace, and what is listed is what is run. Each step prints on the
console that the step before has left, and fails if there is no room on it.

Relations on the options, the files and the console say what the front half came to: `Rejected`,
`Accepted` and `Generated`. `Listed` says how the listing step goes through, and `Unlisted` how it
fails.

* `compile_faithful`: what a session does to the files, what it runs, and when it succeeds
-/

namespace MiniC

/-! ### The steps of a session

For every options, files and console just one of these relations holds, and `prepare` and
`writeListing` come to what it says. -/

/-- The path that a listing is written to, unless it goes to the standard output. -/
def Options.outputPath (o : Options) : String :=
  o.output.getD (withExtension o.source "tm")

/-- The place of the output file. -/
def Options.outputPlace (o : Options) : Location :=
  (PathName.ofText o.outputPath).location

/-- A listing in a file is asked for. -/
def Options.Files (o : Options) : Prop :=
  o.generate = true ∧ o.output ≠ some "-"

/-- A listing on the standard output is asked for. -/
def Options.Prints (o : Options) : Prop :=
  o.generate = true ∧ o.output = some "-"

/-- Something is asked for that needs code. -/
def Options.NeedsCode (o : Options) : Prop :=
  o.generate = true ∨ o.run = true

/-- The source is read and parsed, what is to be shown of it is printed, and the analysis finds no
errors. -/
structure Accepted (o : Options) (files : FileSystem) (c : Console) (tree : Program)
    (c' : Console) : Prop where
  parsed : ∃ text, sourceText (files.read o.source) = .ok text ∧ parse text = .ok tree
  shown : c.printAll (o.shown tree (analyze tree o.showSymbols)) = (.ok (), c')
  accepted : (analyze tree o.showSymbols).errors = []

/-- The front half of a session fails. -/
inductive Rejected (o : Options) (files : FileSystem) (c : Console) : SessionFault → Prop where
  | unreadable (fault : FileFault) (hread : sourceText (files.read o.source) = .error fault) :
      Rejected o files c (.unreadable o.source fault)
  | unparsed (text : String) (errors : List SyntaxError)
      (hread : sourceText (files.read o.source) = .ok text) (hparse : parse text = .error errors) :
      Rejected o files c (.rejected errors.length)
  | unshown (text : String) (tree : Program) (fault : FileFault) (c' : Console)
      (hread : sourceText (files.read o.source) = .ok text) (hparse : parse text = .ok tree)
      (hshown : c.printAll (o.shown tree (analyze tree o.showSymbols)) = (.error fault, c')) :
      Rejected o files c .aborted
  | refused (text : String) (tree : Program) (c' : Console)
      (hread : sourceText (files.read o.source) = .ok text) (hparse : parse text = .ok tree)
      (hshown : c.printAll (o.shown tree (analyze tree o.showSymbols)) = (.ok (), c'))
      (herrors : (analyze tree o.showSymbols).errors ≠ []) :
      Rejected o files c (.rejected (analyze tree o.showSymbols).errors.length)
  | ungenerated (tree : Program) (c' : Console) (fault : CodeFault)
      (haccepts : Accepted o files c tree c') (hneeds : o.NeedsCode)
      (hcode : generate (analyze tree o.showSymbols).program = .error fault) :
      Rejected o files c (.ofCode fault)

/-- The front half of a session goes through; this is the code, and the console behind it. -/
structure Generated (o : Options) (files : FileSystem) (c : Console) (code : List Instr)
    (c' : Console) : Prop where
  needed : o.NeedsCode
  generated : ∃ tree p, Accepted o files c tree c' ∧
    generate (analyze tree o.showSymbols).program = .ok (p, code)

/-- The listing step goes through, and leaves these files and this console behind. -/
inductive Listed (o : Options) (code : List Instr) (files : FileSystem) (c : Console) :
    FileSystem → Console → Prop where
  | unasked (hgenerate : o.generate = false) : Listed o code files c files c
  | printed (c' : Console) (hprints : o.Prints)
      (hprint : c.printAll (o.listing code) = (.ok (), c')) : Listed o code files c files c'
  | written (files' : FileSystem) (hfiles : o.Files)
      (hwrite : files.write o.outputPath (listingText o.source code).toUTF8 = .ok files') :
      Listed o code files c files' c

/-- The listing step fails: there is no room on the standard output, or the output file cannot be
written. -/
inductive Unlisted (o : Options) (code : List Instr) (files : FileSystem) (c : Console) :
    SessionFault → Prop where
  | unprinted (fault : FileFault) (c' : Console) (hprints : o.Prints)
      (hprint : c.printAll (o.listing code) = (.error fault, c')) :
      Unlisted o code files c (.unwritable "-" fault)
  | unwritten (fault : FileFault) (hfiles : o.Files)
      (hwrite : files.write o.outputPath (listingText o.source code).toUTF8 = .error fault) :
      Unlisted o code files c (.unwritable o.outputPath fault)

variable {o : Options} {files files' : FileSystem} {c c' c₁ c₂ : Console} {code code' : List Instr}
  {tree : Program} {fault fault' : SessionFault}

/-- The front half stops with the fault. -/
theorem prepare_of_rejected (h : Rejected o files c fault) :
    (prepare o (files.read o.source) c).result = .error fault := by
  cases h with
  | unreadable fault hread => simp [prepare, hread]
  | unparsed text errors hread hparse => simp [prepare, hread, hparse]
  | unshown text tree fault c' hread hparse hshown => simp [prepare, hread, hparse, hshown]
  | refused text tree c' hread hparse hshown herrors =>
    simp [prepare, hread, hparse, hshown, herrors]
  | ungenerated tree c' fault haccepts hneeds hcode =>
    obtain ⟨⟨text, hread, hparse⟩, hshown, hclean⟩ := haccepts
    have hasked : (o.generate || o.run) = true := by simpa [Options.NeedsCode] using hneeds
    simp [prepare, hread, hparse, hshown, hclean, hasked, hcode]

/-- The front half gives the code. -/
theorem prepare_of_generated (h : Generated o files c code c') :
    prepare o (files.read o.source) c = ⟨c', "no errors\n", .ok (some code)⟩ := by
  obtain ⟨hneeds, tree, p, ⟨⟨text, hread, hparse⟩, hshown, hclean⟩, hcode⟩ := h
  have hasked : (o.generate || o.run) = true := by simpa [Options.NeedsCode] using hneeds
  simp [prepare, hread, hparse, hshown, hclean, hasked, hcode]

/-- Without a need for code, none is made, and its faults are not found. -/
theorem prepare_of_accepted (h : Accepted o files c tree c') (hneeds : ¬ o.NeedsCode) :
    prepare o (files.read o.source) c = ⟨c', "no errors\n", .ok none⟩ := by
  obtain ⟨⟨text, hread, hparse⟩, hshown, hclean⟩ := h
  have hasked : (o.generate || o.run) = false := by simpa [Options.NeedsCode] using hneeds
  simp [prepare, hread, hparse, hshown, hclean, hasked]

/-- The front half comes to one of three ends. -/
theorem rejected_or_accepted_or_generated (o : Options) (files : FileSystem) (c : Console) :
    (∃ fault, Rejected o files c fault) ∨ (∃ tree c', Accepted o files c tree c' ∧ ¬ o.NeedsCode) ∨
      ∃ code c', Generated o files c code c' := by
  cases hread : sourceText (files.read o.source) with
  | error fault => exact .inl ⟨_, .unreadable fault hread⟩
  | ok text =>
    cases hparse : parse text with
    | error errors => exact .inl ⟨_, .unparsed text errors hread hparse⟩
    | ok tree =>
      obtain ⟨answer, c', hshown⟩ :
          ∃ answer c', c.printAll (o.shown tree (analyze tree o.showSymbols)) = (answer, c') :=
        ⟨_, _, rfl⟩
      cases answer with
      | error fault => exact .inl ⟨_, .unshown text tree fault c' hread hparse hshown⟩
      | ok _ =>
        by_cases herrors : (analyze tree o.showSymbols).errors = []
        · have haccepts : Accepted o files c tree c' := ⟨⟨text, hread, hparse⟩, hshown, herrors⟩
          by_cases hneeds : o.NeedsCode
          · cases hcode : generate (analyze tree o.showSymbols).program with
            | error fault => exact .inl ⟨_, .ungenerated tree c' fault haccepts hneeds hcode⟩
            | ok result =>
              exact .inr (.inr ⟨result.2, c', hneeds, tree, result.1, haccepts, hcode⟩)
          · exact .inr (.inl ⟨tree, c', haccepts, hneeds⟩)
        · exact .inl ⟨_, .refused text tree c' hread hparse hshown herrors⟩

/-- There is one code for a source, and one console behind it. -/
theorem Generated.unique (h : Generated o files c code c₁) (h' : Generated o files c code' c₂) :
    code = code' ∧ c₁ = c₂ := by
  have heq := (prepare_of_generated h).symm.trans (prepare_of_generated h')
  simp only [Step.mk.injEq, Except.ok.injEq, Option.some.injEq, true_and] at heq
  exact ⟨heq.2, heq.1⟩

/-- A source with code was not rejected. -/
theorem Generated.not_rejected (h : Generated o files c code c') : ¬ Rejected o files c fault := by
  intro h'
  have hresult := prepare_of_rejected h'
  rw [prepare_of_generated h] at hresult
  cases hresult

/-- Nor was one that was accepted and needs none. -/
theorem Accepted.not_rejected (h : Accepted o files c tree c') (hneeds : ¬ o.NeedsCode) :
    ¬ Rejected o files c fault := by
  intro h'
  have hresult := prepare_of_rejected h'
  rw [prepare_of_accepted h hneeds] at hresult
  cases hresult

/-- A source is rejected for one reason. -/
theorem Rejected.unique (h : Rejected o files c fault) (h' : Rejected o files c fault') :
    fault' = fault := by
  simpa using (prepare_of_rejected h').symm.trans (prepare_of_rejected h)

/-! ### The listing

Where the listing goes is settled by the options; whether it gets there, by the files or by the room
on the console. -/

/-- A listing in a file goes to the output path. -/
theorem Options.target_of_files (h : o.Files) : o.target = .file o.outputPath := by
  obtain ⟨hgenerate, houtput⟩ := h
  unfold Options.target Options.outputPath
  rw [if_pos hgenerate]
  split
  · rename_i hhyphen
    exact absurd hhyphen houtput
  · rename_i path _ hpath
    rw [hpath, Option.getD_some]
  · rename_i hnone
    rw [hnone, Option.getD_none]

/-- A dash as the output path stands for the standard output. -/
theorem Options.target_of_prints (h : o.Prints) : o.target = .stdout := by
  simp [Options.target, h.1, h.2]

/-- The listing step leaves what the relation says. -/
theorem writeListing_of_listed (h : Listed o code files c files' c') :
    writeListing o code files c = (.ok files', c') := by
  cases h with
  | unasked hgenerate => simp [writeListing, Options.target, hgenerate]
  | printed c' hprints hprint => simp only [writeListing, Options.target_of_prints hprints, hprint]
  | written files' hfiles hwrite =>
    simp only [writeListing, Options.target_of_files hfiles, hwrite]

/-- The listing step fails with this fault. -/
theorem writeListing_of_unlisted (h : Unlisted o code files c fault) :
    (writeListing o code files c).1 = .error fault := by
  cases h with
  | unprinted fault c' hprints hprint =>
    simp only [writeListing, Options.target_of_prints hprints, hprint]
  | unwritten fault hfiles hwrite =>
    simp only [writeListing, Options.target_of_files hfiles, hwrite]

/-- The listing step goes through or fails. -/
theorem listed_or_unlisted (o : Options) (code : List Instr) (files : FileSystem) (c : Console) :
    (∃ files' c', Listed o code files c files' c') ∨ ∃ fault, Unlisted o code files c fault := by
  by_cases hfiles : o.Files
  · cases hwrite : files.write o.outputPath (listingText o.source code).toUTF8 with
    | error fault => exact .inr ⟨_, .unwritten fault hfiles hwrite⟩
    | ok files' => exact .inl ⟨files', c, .written files' hfiles hwrite⟩
  · cases hgenerate : o.generate with
    | false => exact .inl ⟨files, c, .unasked hgenerate⟩
    | true =>
      have hprints : o.Prints := ⟨hgenerate, by simpa [Options.Files, hgenerate] using hfiles⟩
      obtain ⟨answer, c', hprint⟩ : ∃ answer c', c.printAll (o.listing code) = (answer, c') :=
        ⟨_, _, rfl⟩
      cases answer with
      | ok _ => exact .inl ⟨files, c', .printed c' hprints hprint⟩
      | error fault => exact .inr ⟨_, .unprinted fault c' hprints hprint⟩

/-- The listing step leaves one state behind. -/
theorem Listed.unique {files'' : FileSystem} (h : Listed o code files c files' c₁)
    (h' : Listed o code files c files'' c₂) : files' = files'' ∧ c₁ = c₂ := by
  have heq := (writeListing_of_listed h).symm.trans (writeListing_of_listed h')
  simpa using heq

/-- It does not fail as well. -/
theorem Listed.not_unlisted (h : Listed o code files c files' c') :
    ¬ Unlisted o code files c fault := by
  intro h'
  have hanswer := writeListing_of_unlisted h'
  rw [writeListing_of_listed h] at hanswer
  cases hanswer

/-- It fails for one reason. -/
theorem Unlisted.unique (h : Unlisted o code files c fault) (h' : Unlisted o code files c fault') :
    fault' = fault := by
  simpa using (writeListing_of_unlisted h').symm.trans (writeListing_of_unlisted h)

/-- The listing step changes the output file alone, and only if a listing in a file is asked for. -/
theorem Listed.file? {place : Location} (h : Listed o code files c files' c')
    (hplace : files'.file? place ≠ files.file? place) : o.Files ∧ place = o.outputPlace := by
  cases h with
  | unasked hgenerate => exact absurd rfl hplace
  | printed c' hprints hprint => exact absurd rfl hplace
  | written files' hfiles hwrite =>
    refine ⟨hfiles, ?_⟩
    by_contra hne
    rw [FileSystem.eq_put_of_write hwrite, FileSystem.file?_put] at hplace
    exact hplace (if_neg hne)

/-! ### Sessions

Each end of the front half and of the listing step settles what the whole session comes to. -/

/-- A session whose front half fails ends there. -/
theorem compile_of_rejected (h : Rejected o files c fault) :
    (compile o files c).files = files ∧ (compile o files c).execution = none ∧
      (compile o files c).result = .error fault := by
  simp [compile, prepare_of_rejected h]

/-- A session that needs no code ends when the source is accepted. -/
theorem compile_of_accepted (h : Accepted o files c tree c') (hneeds : ¬ o.NeedsCode) :
    (compile o files c).files = files ∧ (compile o files c).execution = none ∧
      (compile o files c).result = .ok () := by
  simp [compile, prepare_of_accepted h hneeds]

/-- Behind the listing, a session goes on with the run. -/
theorem compile_of_listed (h : Generated o files c code c₁)
    (hlisted : Listed o code files c₁ files' c₂) :
    compile o files c = .conclude o code c₂ "no errors\n" files' := by
  simp only [compile, prepare_of_generated h, writeListing_of_listed hlisted]

/-- A session whose listing fails ends there, before the run. -/
theorem compile_of_unlisted (h : Generated o files c code c₁)
    (hunlisted : Unlisted o code files c₁ fault) :
    (compile o files c).files = files ∧ (compile o files c).execution = none ∧
      (compile o files c).result = .error fault := by
  have hanswer := writeListing_of_unlisted hunlisted
  simp only [compile, prepare_of_generated h]
  generalize writeListing o code files c₁ = x at hanswer
  obtain ⟨answer, c'⟩ := x
  obtain rfl : answer = .error fault := hanswer
  exact ⟨rfl, rfl, rfl⟩

/-- The run of a session: the start of the machine may fail. -/
def Options.run? (o : Options) (code : List Instr) (c : Console) :
    Option (Machine.RunResult Console) :=
  (Machine.init? o.memory).map fun machine =>
    machine.run code.toArray Console.device o.maxSteps c

/-- A run that ended by halting, with no fault in cell 0. -/
def Machine.RunResult.Clean {σ : Type} (r : Machine.RunResult σ) : Prop :=
  r.outcome = .halted ∧ r.machine.fault = none

/-- A program is run if this is asked for, and it is the one that is given. -/
theorem execute_eq_some_iff {x : Execution} :
    execute o code c = some x ↔ o.run = true ∧ x = ⟨code, o.run? code c⟩ := by
  unfold execute Options.run?
  cases o.run <;> simp [eq_comm]

/-- A run counts as a success if it has halted without a fault in the first cell. -/
theorem runResult_eq_ok_iff {r : Machine.RunResult Console} : runResult r = .ok () ↔ r.Clean := by
  unfold runResult Machine.RunResult.Clean
  cases houtcome : r.outcome with
  | halted => cases hfault : r.machine.fault <;> simp
  | failed e => simp
  | addressOverflow => simp

/-- The back half succeeds if no run is asked for, or if the machine starts and its run is clean. -/
theorem report_execute_eq_ok_iff :
    (report c (execute o code c)).result = .ok () ↔
      (o.run = true → ∃ r, o.run? code c = some r ∧ r.Clean) := by
  cases hrun : o.run with
  | false => simp [execute, hrun, report]
  | true =>
    rw [execute_eq_some_iff.mpr ⟨hrun, rfl⟩]
    cases hr : o.run? code c with
    | none => simp [report]
    | some r => simpa [report] using runResult_eq_ok_iff

/-- The back half adds to the console, whether it runs a program or not. -/
theorem extends_report (o : Options) (code : List Instr) (c : Console) :
    c.Extends (report c (execute o code c)).console := by
  cases hrun : o.run with
  | false =>
    simp only [execute, hrun, Bool.false_eq_true, if_false, report]
    exact .refl c
  | true =>
    rw [execute_eq_some_iff.mpr ⟨hrun, rfl⟩, Options.run?]
    cases Machine.init? o.memory with
    | none => exact .refl c
    | some machine => exact Console.extends_run ..

/-- What a session keeps to. -/
structure Session.Faithful (o : Options) (files : FileSystem) (c : Console) (s : Session) :
    Prop where
  /-- If the source is rejected, the files are as before and nothing is run. -/
  rejected : ∀ fault, Rejected o files c fault →
    s.files = files ∧ s.execution = none ∧ s.result = .error fault
  /-- No file but the output file changes, and that one only if a listing in a file is asked for and
  the source has code. -/
  changed : ∀ place, s.files.file? place ≠ files.file? place →
    o.Files ∧ place = o.outputPlace ∧ ∃ code c₁, Generated o files c code c₁
  /-- The output file is left with the listing of the code. -/
  written : ∀ code c₁ files', Generated o files c code c₁ → o.Files →
    files.write o.outputPath (listingText o.source code).toUTF8 = .ok files' →
    s.files = files' ∧ s.files.file? o.outputPlace = some (listingText o.source code).toUTF8
  /-- A listing on the standard output stands behind what was shown of the source, and in front of
  what the run prints. -/
  printed : ∀ code c₁ c₂, Generated o files c code c₁ → o.Prints →
    c₁.printAll (o.listing code) = (.ok (), c₂) →
    s.files = files ∧ ∃ rest, s.stdout = c₁.output ++ listingText o.source code ++ rest
  /-- If the listing cannot be written, in a file or on the standard output, the files are as before
  and nothing is run. -/
  unlisted : ∀ code c₁ fault, Generated o files c code c₁ → Unlisted o code files c₁ fault →
    s.files = files ∧ s.execution = none ∧ s.result = .error fault
  /-- A program is run just if that is asked for and the listing step goes through, and it is the
  code of the listing that is run, on the console behind the listing. -/
  ran : ∀ x, s.execution = some x ↔ o.run = true ∧ ∃ code c₁ files' c₂,
    Generated o files c code c₁ ∧ Listed o code files c₁ files' c₂ ∧ x = ⟨code, o.run? code c₂⟩
  /-- The session succeeds just if every step that was asked for does. -/
  succeeded : s.result = .ok () ↔ (∃ tree c₁, Accepted o files c tree c₁) ∧ (o.NeedsCode →
    ∃ code c₁ files' c₂, Generated o files c code c₁ ∧ Listed o code files c₁ files' c₂ ∧
      (o.run = true → ∃ r, o.run? code c₂ = some r ∧ r.Clean))

/-- The case of a source that is rejected: no other end is possible, so most of the fields are about
nothing. -/
theorem Rejected.faithful (h : Rejected o files c fault) :
    Session.Faithful o files c (compile o files c) := by
  obtain ⟨hfiles, hexecution, hresult⟩ := compile_of_rejected h
  -- there is no code, so only the first field has anything to say
  have hnone : ∀ code c₁, ¬ Generated o files c code c₁ := fun code c₁ hcode => hcode.not_rejected h
  constructor
  case rejected =>
    intro fault' h'
    obtain rfl := h.unique h'
    exact ⟨hfiles, hexecution, hresult⟩
  case changed => exact fun place hplace => absurd (congrArg (·.file? place) hfiles) hplace
  case written => exact fun code c₁ _ hcode => absurd hcode (hnone code c₁)
  case printed => exact fun code c₁ _ hcode => absurd hcode (hnone code c₁)
  case unlisted => exact fun code c₁ _ hcode => absurd hcode (hnone code c₁)
  case ran => simp [hexecution, hnone]
  case succeeded =>
    simp only [hresult, reduceCtorEq, hnone, false_and, exists_false, imp_false, false_iff,
      not_and, not_not]
    rintro ⟨tree, c₁, haccepts⟩
    by_contra hneeds
    exact haccepts.not_rejected hneeds h

/-- The case of a source that is accepted where no code is needed. -/
theorem Accepted.faithful (h : Accepted o files c tree c') (hneeds : ¬ o.NeedsCode) :
    Session.Faithful o files c (compile o files c) := by
  obtain ⟨hfiles, hexecution, hresult⟩ := compile_of_accepted h hneeds
  have hnone : ∀ code c₁, ¬ Generated o files c code c₁ := fun code c₁ hcode => hneeds hcode.needed
  constructor
  case rejected => exact fun fault h' => absurd h' (h.not_rejected hneeds)
  case changed => exact fun place hplace => absurd (congrArg (·.file? place) hfiles) hplace
  case written => exact fun code c₁ _ hcode => absurd hcode (hnone code c₁)
  case printed => exact fun code c₁ _ hcode => absurd hcode (hnone code c₁)
  case unlisted => exact fun code c₁ _ hcode => absurd hcode (hnone code c₁)
  case ran => simp [hexecution, hnone]
  case succeeded => exact iff_of_true hresult ⟨⟨tree, c', h⟩, fun h' => absurd h' hneeds⟩

/-- The case of a listing that goes through, or of none. What is run comes behind it. -/
theorem Generated.faithful_of_listed (h : Generated o files c code c₁)
    (hlisted : Listed o code files c₁ files' c₂) :
    Session.Faithful o files c (compile o files c) := by
  rw [compile_of_listed h hlisted]
  constructor
  case rejected => exact fun fault h' => absurd h' h.not_rejected
  -- the code of a session is unique, and so is what its listing step leaves
  case changed =>
    intro place hplace
    obtain ⟨hasked, houtput⟩ := hlisted.file? hplace
    exact ⟨hasked, houtput, code, c₁, h⟩
  case written =>
    intro code' c₁' files'' h' hasked hwrite
    obtain ⟨rfl, rfl⟩ := h.unique h'
    obtain ⟨rfl, -⟩ := hlisted.unique (.written files'' hasked hwrite)
    refine ⟨rfl, ?_⟩
    rw [Options.outputPlace, Session.conclude, FileSystem.eq_put_of_write hwrite,
      FileSystem.file?_put, if_pos rfl]
  case printed =>
    intro code' c₁' c₂' h' hprints hprint
    obtain ⟨rfl, rfl⟩ := h.unique h'
    obtain ⟨rfl, rfl⟩ := hlisted.unique (.printed c₂' hprints hprint)
    obtain ⟨rest, hrest⟩ := extends_report o code c₂
    refine ⟨rfl, rest, hrest.trans ?_⟩
    rw [Console.eq_of_printAll hprint, listingText, Options.listing]
  case unlisted =>
    intro code' c₁' fault h' hunlisted
    obtain ⟨rfl, rfl⟩ := h.unique h'
    exact absurd hunlisted hlisted.not_unlisted
  case ran =>
    intro x
    rw [Session.conclude, execute_eq_some_iff]
    constructor
    · rintro ⟨hrun, rfl⟩
      exact ⟨hrun, code, c₁, files', c₂, h, hlisted, rfl⟩
    · rintro ⟨hrun, code', c₁', files'', c₂', h', hlisted', rfl⟩
      obtain ⟨rfl, rfl⟩ := h.unique h'
      obtain ⟨-, rfl⟩ := hlisted.unique hlisted'
      exact ⟨hrun, rfl⟩
  case succeeded =>
    obtain ⟨tree, -, haccepts, -⟩ := h.generated
    rw [Session.conclude, report_execute_eq_ok_iff]
    constructor
    · exact fun hclean =>
        ⟨⟨tree, c₁, haccepts⟩, fun _ => ⟨code, c₁, files', c₂, h, hlisted, hclean⟩⟩
    · rintro ⟨-, hsteps⟩
      obtain ⟨code', c₁', files'', c₂', h', hlisted', hclean⟩ := hsteps h.needed
      obtain ⟨rfl, rfl⟩ := h.unique h'
      obtain ⟨-, rfl⟩ := hlisted.unique hlisted'
      exact hclean

/-- The case of a listing that fails: the code is there, but nothing is done with it. -/
theorem Generated.faithful_of_unlisted (h : Generated o files c code c₁)
    (hunlisted : Unlisted o code files c₁ fault) :
    Session.Faithful o files c (compile o files c) := by
  obtain ⟨hfiles, hexecution, hresult⟩ := compile_of_unlisted h hunlisted
  -- the session ends at the listing, and nothing behind it happens
  have hnone : ∀ code' c₁' files' c₂, Generated o files c code' c₁' →
      ¬ Listed o code' files c₁' files' c₂ := by
    intro code' c₁' files' c₂ h' hlisted
    obtain ⟨rfl, rfl⟩ := h.unique h'
    exact hlisted.not_unlisted hunlisted
  constructor
  case rejected => exact fun fault h' => absurd h' h.not_rejected
  case changed => exact fun place hplace => absurd (congrArg (·.file? place) hfiles) hplace
  case written =>
    exact fun code' c₁' files' h' hasked hwrite =>
      absurd (.written files' hasked hwrite) (hnone code' c₁' files' c₁' h')
  case printed =>
    exact fun code' c₁' c₂ h' hprints hprint =>
      absurd (.printed c₂ hprints hprint) (hnone code' c₁' files c₂ h')
  case unlisted =>
    intro code' c₁' fault' h' hunlisted'
    obtain ⟨rfl, rfl⟩ := h.unique h'
    obtain rfl := hunlisted.unique hunlisted'
    exact ⟨hfiles, hexecution, hresult⟩
  case ran =>
    intro x
    rw [hexecution]
    constructor
    · intro h'
      cases h'
    · rintro ⟨-, code', c₁', files', c₂, h', hlisted, -⟩
      exact absurd hlisted (hnone code' c₁' files' c₂ h')
  case succeeded =>
    rw [hresult]
    constructor
    · intro h'
      cases h'
    · rintro ⟨-, hsteps⟩
      obtain ⟨code', c₁', files', c₂, h', hlisted, -⟩ := hsteps h.needed
      exact absurd hlisted (hnone code' c₁' files' c₂ h')

/-- Whatever the options, the files and the console: a source that is rejected leaves no trace, only
the output file can change, and it is left with the listing of the code that is run. What finds no
room on the console is a fault of the step that prints it, and ends the session. By cases on the
ends that the front half and the listing step come to. -/
theorem compile_faithful (o : Options) (files : FileSystem) (c : Console) :
    Session.Faithful o files c (compile o files c) := by
  rcases rejected_or_accepted_or_generated o files c with
    ⟨fault, hrejected⟩ | ⟨tree, c', haccepts, hneeds⟩ | ⟨code, c', hgenerated⟩
  · exact hrejected.faithful
  · exact haccepts.faithful hneeds
  · rcases listed_or_unlisted o code files c' with ⟨files', c₂, hlisted⟩ | ⟨fault, hunlisted⟩
    · exact hgenerated.faithful_of_listed hlisted
    · exact hgenerated.faithful_of_unlisted hunlisted

-- A fault in the run comes after the listing is written.
example :
    let o : Options := ⟨"prog.cm", false, false, true, none, true, defaultMemory, defaultMaxSteps⟩
    let files := FileSystem.ofList [("prog.cm", "int a[1]; void main(void) { a[1]; }".toUTF8)]
    let s := compile o files (.ofInput [])
    s.exitCode = 1 ∧ (s.files.file? ⟨.above 0, ["prog.tm"]⟩).isSome := by
  decide +kernel

-- A listing that finds no room on the standard output ends the session in front of the run.
example :
    let o : Options := ⟨"prog.cm", false, false, true, some "-", true, 1024, defaultMaxSteps⟩
    let files := FileSystem.ofList [("prog.cm", "void main(void) { output(1); }".toUTF8)]
    let full : Console.Limit := ⟨80, .other "No space left on device (os error 28)"⟩
    let s := compile o files ⟨[], "", some full⟩
    s.result = .error (.unwritable "-" full.fault) ∧ s.execution.isNone := by
  decide +kernel

end MiniC
