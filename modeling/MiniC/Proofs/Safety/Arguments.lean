import MiniC.Proofs.Passes
import MiniC.Proofs.Safety.Programs
import MiniC.Proofs.Typing.Programs

/-!
# Arguments of functions

Whenever a function is entered, each of its parameters holds the value that the argument in its
place had when it was evaluated, and an array is passed by the address of its length cell. The
caller and the function agree on the parameters since the signature of a function is the same
wherever it is called.

The exception is the call that starts the program: it passes nothing to `main`, whatever parameters
`main` has. They are zero, since no cell below the global ones has been stored to.

* `Program.Starts`: where functions start, and the types of their parameters
* `arguments_received`: what a function finds when it is entered
* `not_all_arguments_given`: a program whose `main` has a parameter
-/

namespace MiniC

/-- A function whose parameters have these types starts at this address: one of the routines, or a
function with a body. -/
inductive Program.Starts (p : Program) : Nat → List Ty → Prop where
  | input : Starts p inputEntry []
  | output : Starts p outputEntry [.int]
  | function (f : FunDecl) (entry : Nat) (hf : f ∈ p.functions) (hbody : f.body ≠ none)
      (hentry : f.entry = some entry) : Starts p entry (f.params.map VarDecl.ty)

/-! ### The function at an address

An address where a function starts determines the function, since the remark of its first
instruction has the name. And the name has one signature in the whole program. -/

namespace CompiledProgram

variable {tree : Program} {code : List Instr} {marks : List Mark} {G : ScopeTable} {next : Int}
  {is : List Instr} {main : Nat} {globals : List Slot}

/-- A function starts by storing its return address. The remark names the function. -/
theorem entry_instr (h : CompiledProgram tree code marks G next is main globals) {name : String}
    {entry : Nat} (hmem : (name, entry) ∈ tree.pool) :
    code[entry]? = some (.rm .st .ac returnOffset .fp s!"{name}: store return") ∧
      marks[entry]? = some .entry := by
  rcases h.target hmem with ⟨rfl, rfl⟩ | ⟨rfl, rfl⟩ | ⟨f, -, rfl, -, hcode, hmarks⟩
  · exact ⟨h.image.routines 3 (by decide), h.fixedMarks 7 (by decide)⟩
  · exact ⟨h.image.routines 0 (by decide), h.fixedMarks 4 (by decide)⟩
  · exact ⟨(holds_cons.mp hcode).1, (holds_cons.mp hmarks).1⟩

/-- No two functions start at one address. -/
theorem name_unique (h : CompiledProgram tree code marks G next is main globals)
    {name other : String}
    {entry : Nat} (hmem : (name, entry) ∈ tree.pool) (hother : (other, entry) ∈ tree.pool) :
    name = other := by
  have hinstr := (h.entry_instr hmem).1.symm.trans (h.entry_instr hother).1
  have hremark : s!"{name}: store return" = s!"{other}: store return" := by
    simpa using hinstr
  have hchars := congrArg String.toList hremark
  simp only [toString, String.toList_append] at hchars
  exact String.toList_injective (List.append_cancel_right hchars)

theorem input_signature (h : CompiledProgram tree code marks G next is main globals) :
    G.Signature "input" .int [] := by
  apply h.initial.signature
  refine ⟨[], true, ?_, rfl⟩
  decide +kernel

/-- The signature of a function with a body is the one that it is called with. -/
theorem signature (h : CompiledProgram tree code marks G next is main globals) {f : FunDecl}
    (hf : .function f ∈ tree.decls) (hbody : f.body.isSome = true) :
    G.Signature f.name f.result (f.params.map VarDecl.ty) := by
  obtain ⟨-, hnodup⟩ := h.image.laid.nodup_table ScopeTable.global_initial
  have hnames := Decl.map_fst_table bodyStart tree.decls
  have hdefined : (Decl.function f).defined? = some f.name := by
    simp [Decl.defined?, hbody]
  have hname : f.name ∈ (Decl.table bodyStart tree.decls).map Prod.fst := by
    rw [hnames]
    exact List.mem_filterMap.mpr ⟨_, hf, hdefined⟩
  obtain ⟨⟨name, entry⟩, hmem, rfl⟩ := List.mem_map.mp hname
  obtain ⟨g, hg, hgname, -⟩ := h.image.laid.function ScopeTable.global_initial h.image.declarations
    h.declMarks hmem
  -- only one function of this name has a body
  have heq : Decl.function g.decl = .function f := by
    rw [hnames] at hnodup
    refine eq_of_nodup_filterMap hnodup hg.declared hf ?_ hdefined
    simp [Decl.defined?, hg.body_eq, hgname]
  cases heq
  exact hg.signature

end CompiledProgram

/-- The functions of the program with addresses are those of its table, with the same types of
parameters. -/
theorem Compiles.starts {source : String} {tree : Program} {code : List Instr}
    (h : Compiles source tree code) {marks : List Mark} {G : ScopeTable} {next : Int}
    {is : List Instr} {main : Nat} {globals : List Slot}
    (hprogram : CompiledProgram tree code marks G next is main globals) {p : Program}
    (hgen : generate (analyze tree false).program = .ok (p, code)) {entry : Nat} {tys : List Ty}
    (hstarts : p.Starts entry tys) :
    ∃ name r, (name, entry) ∈ tree.pool ∧ G.Signature name r tys := by
  cases hstarts with
  | input => exact ⟨"input", .int, by simp [Program.pool], hprogram.input_signature⟩
  | output => exact ⟨"output", .void, by simp [Program.pool], hprogram.output_signature⟩
  | function f entry hf hbody hentry =>
    obtain ⟨known, assembly, hknown, hrun, hfinish⟩ := h.layout hgen
    obtain ⟨-, -, -, -, -, -, -, -, -, hpool⟩ := Assembly.laid_program h.accepted hknown hrun
    obtain ⟨-, hentered, hplaced, -⟩ := Assembly.placed_program hrun hfinish
    obtain ⟨body, hsome⟩ := Option.ne_none_iff_exists'.mp hbody
    have hdecl := Program.mem_functions.mp hf
    obtain ⟨entry', k, js, hplace⟩ := hplaced f body hdecl hsome
    cases hplace.entry_eq.symm.trans hentry
    obtain ⟨d, hd, hentered⟩ := Decl.exists_entered hentered hdecl
    cases hentered with
    | prototype f hnone => exact absurd hnone hbody
    | definition f₀ entry hne =>
      rw [decls_analyze] at hd
      obtain ⟨g, S, next', hg, -, rfl⟩ := Decl.mem_checkAll h.checked hd
      -- the analysis changes neither the name nor the types of a function
      have hheader : (Decl.function (g.check S next').value).header = (Decl.function g).header :=
        Decl.header_check (d := .function g)
      simp only [Decl.header, Header.mk.injEq, Entity.function.injEq] at hheader
      obtain ⟨hname, ⟨hresult, htys⟩, hdefined⟩ := hheader
      have hgbody : g.body.isSome = true := by
        rw [← hdefined]
        exact Option.isSome_iff_ne_none.mpr hne
      refine ⟨g.name, g.result, ?_, ?_⟩
      · rw [← hname]
        exact hpool _ hplace.known
      · rw [htys]
        exact hprogram.signature hg hgbody

/-! ### What functions find

The invariant of runs says it with an account of its own for each call; here it is stated for the
ledger, which can be read without the invariant. -/

section Runs

variable {σ : Type}

/-- When a function of a compiled program is entered, its parameters hold what its call gives. -/
theorem arguments_received {source : String} {tree : Program} {code : List Instr}
    (h : Compiles source tree code) {p : Program}
    (hgen : generate (analyze tree false).program = .ok (p, code)) (device : Device σ)
    {memory : Nat}
    (hmemory : memory < Memory.sizeLimit) (io : σ) {k : Nat} {w : Watched σ}
    (hafter : (Watched.start memory io).after code.toArray
      (analyze tree false).program.marks device k
      = some w) {entry : Nat} {tys : List Ty} (hstarts : p.Starts entry tys)
    (hpc : (w.machine.reg .pc).toInt = entry) :
    ∃ a waiting given, Received w ((Watched.start memory io).ledger code.toArray
      (analyze tree false).program.marks device k []) tys a waiting given := by
  obtain ⟨G, is, main, globals, hprogram, hsafe⟩ := h.safe device hmemory io
  obtain ⟨name, r, hmem, hsig⟩ := h.starts hprogram hgen hstarts
  have hmark : w.machine.mark (analyze tree false).program.marks = some .entry := by
    rw [Machine.mark, hpc, Int.toNat_natCast]
    exact (hprogram.entry_instr hmem).2
  obtain ⟨name', entry', r', tys', a, waiting, given, hmem', hpc', hsig', hreceived⟩ :=
    (Safe.good hsafe hafter).receiving hmark
  -- the function that starts here is known by its address
  obtain rfl : entry' = entry := by
    have := hpc'.symm.trans hpc
    omega
  obtain rfl := hprogram.name_unique hmem hmem'
  obtain ⟨-, rfl⟩ := hsig.unique hsig'
  refine ⟨a, waiting, given, ?_⟩
  -- the ledger is what the book says of the arguments
  rw [scene, Watched.book_accounts] at hreceived
  exact hreceived

end Runs

/-- What a function of a source is given that is entered after so many steps, and the number of its
parameters. -/
def givenAt (source name : String) (k : Nat) : Option (List Word × Nat) :=
  (parse source).toOption.bind fun tree =>
  (generate (analyze tree false).program).toOption.bind fun (p, code) =>
  (p.functions.find? fun f => f.name = name && f.body.isSome).bind fun f =>
  ((Watched.start 1000 (Tape.ofList [] none)).after code.toArray (analyze tree false).program.marks
    Tape.device k).bind fun w =>
  if f.entry.map Nat.cast = some (w.machine.reg .pc).toInt then
    ((Watched.start 1000 (Tape.ofList [] none)).ledger code.toArray
      (analyze tree false).program.marks Tape.device k []).head?.map fun account =>
      (account.given, f.params.length)
  else none

theorem exists_givenAt {source name : String} {k n : Nat} {given : List Word}
    (hcompiles : (compile? source).isSome = true) (hshort : source.utf8ByteSize < 2 ^ 27)
    (hgiven : givenAt source name k = some (given, n)) :
    ∃ tree code p w entry tys account rest, Compiles source tree code ∧
      generate (analyze tree false).program = .ok (p, code) ∧
      (Watched.start 1000 (Tape.ofList [] none)).after code.toArray
        (analyze tree false).program.marks Tape.device k = some w ∧
      p.Starts entry tys ∧ (w.machine.reg .pc).toInt = entry ∧ tys.length = n ∧
      (Watched.start 1000 (Tape.ofList [] none)).ledger code.toArray
        (analyze tree false).program.marks Tape.device k []
        = account :: rest ∧ account.given = given := by
  obtain ⟨⟨tree, code⟩, hcompile⟩ := Option.isSome_iff_exists.mp hcompiles
  have h := compiles_of_compile? hshort hcompile
  obtain ⟨p, hgen⟩ := h.generated
  simp only [givenAt, h.parsed, Except.toOption, Option.bind_some, hgen,
    Option.bind_eq_some_iff] at hgiven
  obtain ⟨f, hfind, w, hafter, hgiven⟩ := hgiven
  split at hgiven
  · rename_i hentry
    obtain ⟨entry, hentry, hpc⟩ := Option.map_eq_some_iff.mp hentry
    obtain ⟨account, hhead, heq⟩ := Option.map_eq_some_iff.mp hgiven
    obtain ⟨rest, hledger⟩ := List.head?_eq_some_iff.mp hhead
    cases heq
    have hbody := List.find?_some hfind
    simp only [Bool.and_eq_true] at hbody
    have hstarts := Program.Starts.function f entry (List.mem_of_find?_eq_some hfind)
      (Option.isSome_iff_ne_none.mp hbody.2) hentry
    exact ⟨tree, code, p, w, entry, _, account, rest, h, hgen, hafter, hstarts, hpc.symm,
      List.length_map _, hledger, rfl⟩
  · cases hgiven

/-- A program that passes the result of a function to the same function. -/
def nestedSource : String :=
  "int add(int a, int b) { return a + b; } void main(void) { output(add(1, add(2, 3))); }"

/-- When the outer call of the nested program is made, the inner one has returned. -/
theorem arguments_received_nested : ∃ tree code p w entry tys a waiting,
    Compiles nestedSource tree code ∧ generate (analyze tree false).program = .ok (p, code) ∧
    (Watched.start 1000 (Tape.ofList [] none)).after code.toArray
      (analyze tree false).program.marks Tape.device 42 = some w ∧
    p.Starts entry tys ∧ (w.machine.reg .pc).toInt = entry ∧ tys.length = 2 ∧
    Received w ((Watched.start 1000 (Tape.ofList [] none)).ledger code.toArray
      (analyze tree false).program.marks Tape.device 42 []) tys a
      waiting [1, 5] := by
  have hascii : Ascii nestedSource _ := ⟨rfl, rfl⟩
  have hnested : givenAt nestedSource "add" 42 = some ([1, 5], 2) := by
    rw [givenAt, parse, hascii.scan_eq]
    decide +kernel
  have hcompiles : (compile? nestedSource).isSome = true := by
    rw [compile?, parse, hascii.scan_eq]
    decide +kernel
  have hshort : nestedSource.utf8ByteSize < 2 ^ 27 := by
    rw [hascii.utf8ByteSize_eq]
    decide +kernel
  obtain ⟨tree, code, p, w, entry, tys, account, rest, h, hgen, hafter, hstarts, hpc, hlen, hledger,
    hgiven⟩ := exists_givenAt hcompiles hshort hnested
  have hmemory : 1000 < Memory.sizeLimit := by decide
  obtain ⟨a, waiting, given, hreceived⟩ := arguments_received h hgen Tape.device hmemory
    (Tape.ofList [] none) hafter hstarts hpc
  have heq : given = [1, 5] := by
    obtain ⟨rest', hrest⟩ := hreceived.given_eq
    rw [hledger, List.cons.injEq] at hrest
    rw [← hgiven, hrest.1]
  rw [heq] at hreceived
  exact ⟨tree, code, p, w, entry, tys, a, waiting, h, hgen, hafter, hstarts, hpc, hlen, hreceived⟩

/-- A program whose `main` has a parameter. -/
def unfedSource : String :=
  "void main(int x) { output(x); }"

/-- There is a compiled program in which a function is entered that has a parameter and is given
nothing. -/
theorem not_all_arguments_given : ¬∀ (source : String) (tree p : Program) (code : List Instr),
    Compiles source tree code → generate (analyze tree false).program = .ok (p, code) →
    ∀ (k : Nat) (w : Watched Tape) (entry : Nat) (tys : List Ty),
      (Watched.start 1000 (Tape.ofList [] none)).after code.toArray
        (analyze tree false).program.marks Tape.device k = some w →
      p.Starts entry tys → (w.machine.reg .pc).toInt = entry →
      ∃ account rest, (Watched.start 1000 (Tape.ofList [] none)).ledger code.toArray
        (analyze tree false).program.marks Tape.device k []
        = account :: rest ∧ account.given.length = tys.length := by
  intro hall
  have hascii : Ascii unfedSource _ := ⟨rfl, rfl⟩
  have hunfed : givenAt unfedSource "main" 9 = some ([], 1) := by
    rw [givenAt, parse, hascii.scan_eq]
    decide +kernel
  have hcompiles : (compile? unfedSource).isSome = true := by
    rw [compile?, parse, hascii.scan_eq]
    decide +kernel
  have hshort : unfedSource.utf8ByteSize < 2 ^ 27 := by
    rw [hascii.utf8ByteSize_eq]
    decide +kernel
  obtain ⟨tree, code, p, w, entry, tys, account, rest, h, hgen, hafter, hstarts, hpc, hlen, hledger,
    hgiven⟩ := exists_givenAt hcompiles hshort hunfed
  obtain ⟨account', rest', hledger', hlength⟩ :=
    hall _ tree p code h hgen 9 w entry tys hafter hstarts hpc
  rw [hledger, List.cons.injEq] at hledger'
  rw [← hledger'.1, hgiven, hlen] at hlength
  cases hlength

end MiniC
