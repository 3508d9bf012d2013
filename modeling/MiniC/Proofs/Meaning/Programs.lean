import MiniC.Proofs.Meaning.Functions
import MiniC.Proofs.Scanning.Lexemes
import MiniC.Proofs.Steps

/-!
# Programs in runs

A new machine runs the fixed code at the start of a program, makes the global variables, which are
zero like all cells of a new memory, and calls `main`. From then on it does what the program means.

* `Runs.startup`, `Runs.declarations`, `Runs.finale`: the three parts
* `Compiles.runs`: a compiled program on a new machine
* `run_agrees`: a run has the outputs and the end of an evaluation
-/

namespace MiniC

section Programs

variable {P : Stage} {globals homes : List Home} {depth : Nat} {next : Int} {S : ScopeTable}
  {env : Env}
  {c : Core} {w : World} {α : Type}

/-! ### Global variables

Global variables are declared where the code stands between the functions. The functions are jumped
over. -/

/-- Functions that are announced change nothing for the variables. -/
theorem Prepared.announce (h : Prepared P depth homes next S env c w) {slots : List Slot}
    (hS : S.Global slots) {f : FunDecl} {S₁ : ScopeTable} (hann : f.announce? S = some S₁)
    (hgrows : S₁.Grows P.scope) : Prepared P depth homes next S₁ env c w := by
  obtain ⟨hS₁, -, -⟩ := hS.announce hann
  refine ⟨h.faithful, ⟨hS₁.valid, fun x n ty l hl => ?_, fun x n r ps d hl => ?_⟩, h.above,
    h.offset_le⟩
  · exact h.names.objects x n ty l (FunDecl.var_of_announce hS.valid hann hl)
  · exact ⟨hS₁.named x n r ps d hl, hgrows.functions x n r ps d hl⟩

/-- The declarations of a program make its global variables, and pass over its functions. -/
theorem Runs.declarations (hP : P.Fits) {pool : Entries} {start : Nat} {ds : List Decl}
    {G : ScopeTable}
    {next' : Int} {is : List Instr} (h : Laid true pool S next start ds G next' is)
    (hG : P.scope = G)
    {slots : List Slot} (hS : S.Global slots) (hcode : Holds P.code start is) (hpc : c.pc = start)
    (hprep : Prepared P depth homes next S env c w) (hfp : c.fp = P.top)
    (hzero : ∀ x, 0 < x → x ≤ P.top + next → c.mem.read x = 0) {K : Env → Eval α}
    (hnext : ∀ homes' env' c' w', c'.pc = start + is.length → c'.fp = P.top →
      Prepared P depth homes' next' G env' c' w' → Runs P c' w' (K env')) :
    Runs P c w (env.declareAll (some 0) (ds.filterMap Decl.variable?) >>= K) := by
  induction h generalizing homes env c w slots with
  | nil S next start =>
    simp only [List.filterMap_nil, Env.declareAll, pure_bind]
    exact hnext homes env c w hpc hfp hprep
  | @var S S₁ S₂ next next₂ start d l rest is hd hcheck hrest ih =>
    rw [holds_append, VarDecl.length_lengthCode hd] at hcode
    rw [List.length_append, VarDecl.length_lengthCode hd] at hnext
    simp only [List.filterMap_cons, Decl.variable?, Env.declareAll, bind_assoc]
    have hoffset : l.offset = next - d.shape.elements := by rw [hd.layout_eq]
    have horigin : P.origin c.fp l = c.fp := by
      rw [hd.layout_eq, hfp]
      rfl
    have hbase : l.base = .gp := by
      rw [hd.layout_eq]
      rfl
    rw [← hbase] at hcode
    apply Runs.declare hP hprep hd horigin hpc hcode.1
    · intro a ha
      cases ha
      exact ⟨by decide, fun x hx hle => hzero x hx (by omega)⟩
    intro homes₁ env₁ c₁ w₁ hpc₁ hfp₁ hprep₁ _ hmem₁
    rw [VarDecl.length_lengthCode hd] at hpc₁
    refine ih hG (hS.declare_var hd) hcode.2 hpc₁ hprep₁ (hfp₁.trans hfp) ?_ ?_
    · intro x hx hle
      rw [hmem₁ x (by omega), hzero x hx (by omega)]
    · intro homes₂ env₂ c₂ w₂ hpc₂
      exact hnext homes₂ env₂ c₂ w₂ (by omega)
  | prototype hbody hann hscopes hnext' hvalue hrest ih =>
    have hS₁ := (hS.announce hann).1
    have hprep₁ := hprep.announce hS hann (hG ▸ (hrest.scopes hS₁).2)
    simp only [List.filterMap_cons, Decl.variable?]
    exact ih hG hS₁ hcode hpc hprep₁ hfp hzero hnext
  | @definition S S₁ S₂ next next₂ start f body code is jump rest hdef hjump hrest ih =>
    have hS₁ := (hS.announce hdef.announced).1
    have hprep₁ := hprep.announce hS hdef.announced (hG ▸ (hrest.scopes hS₁).2)
    have hlen := hP.code_lt
    have hbound := hcode.bound (List.cons_ne_nil _ _)
    simp only [List.length_cons, List.length_append] at hbound hnext
    rw [holds_cons, holds_append] at hcode
    simp only [List.filterMap_cons, Decl.variable?]
    -- the code of a function is jumped over
    apply Runs.jump hP hjump hpc hcode.1 (by omega)
    refine ih hG hS₁ hcode.2.2 rfl (hprep₁.refl.goto _).prepared hfp hzero ?_
    intro homes₂ env₂ c₂ w₂ hpc₂
    exact hnext homes₂ env₂ c₂ w₂ (by omega)

/-! ### The fixed code and the call of `main`

What stands before the declarations and behind them. -/

/-- The fixed code sets the base registers and clears cell 0. -/
theorem Runs.startup (hP : P.Fits) {top : Nat} (htop : P.top = top)
    (hcode : Holds P.code 0 startupCode) {t : String}
    (hskip : P.code[3]? = some (.rm .lda .pc 17 .pc t)) (hcap : 2 ^ 31 * (depth + 1) ≤ P.cap)
    (hgrows : ScopeTable.initial.Grows P.scope) {input : List Word} {x : Eval α}
    (hnext : ∀ c, c.pc = bodyStart → c.fp = P.top →
      Prepared P depth [] 0 .initial [] c ⟨[], input⟩ → (∀ y, c.mem.read y = 0) →
      Runs P c ⟨[], input⟩ x) :
    Runs P (Core.mk 0 0 0 0 0 (Memory.fresh top)) ⟨[], input⟩ x := by
  have htop_lt := hP.top_lt
  simp only [startupCode, holds_cons] at hcode
  obtain ⟨h₀, h₁, h₂, -⟩ := hcode
  refine Runs.step (fun _ => Core.step_startup_gp hP.size_lt (code_at h₀)) ?_
  refine Runs.step (fun _ => Core.step_startup_fp hP.size_lt (by omega) (code_at h₁)) ?_
  refine Runs.step (fun _ => Core.step_startup_clear hP.size_lt rfl (code_at h₂)) ?_
  refine Runs.step (fun _ => Core.step_jump (n := bodyStart) (d := 17)
    (c := Core.mk 3 0 0 top top ((Memory.fresh top).write 0 0)) hP.size_lt rfl (by decide)
    (code_at hskip)) ?_
  have hread := Memory.read_fresh_clear top
  have hmild : Mild 0 := by
    unfold Mild
    decide
  -- no object exists yet, and the only names are those of the routines
  refine hnext _ rfl htop.symm ⟨⟨⟨?_, Int.le_refl _, ?_, ?_⟩, htop.symm, ?_, hmild, hread 0, ?_⟩,
    ⟨ScopeTable.valid_initial.1, ?_, ?_⟩, ?_, Int.le_refl _⟩ hread
  · show (0 : Int) ≤ top
    omega
  · show (top : Int) < 2 ^ 60
    omega
  · show ((top + 1 : Nat) : Int) = top + 1
    omega
  · show P.top + 2 ^ 31 * (depth + 1) ≤ top + P.cap
    omega
  · exact ⟨fun s hs => absurd hs List.not_mem_nil, fun s hs => absurd hs List.not_mem_nil,
      fun s hs => absurd hs List.not_mem_nil⟩
  · intro y n ty l hl
    obtain ⟨-, v, hv, -⟩ := ScopeTable.global_initial.placed y n ty l hl
    cases hv
  · intro y n r ps d hl
    exact ⟨ScopeTable.global_initial.named y n r ps d hl, hgrows.functions y n r ps d hl⟩
  · intro s hs
    cases hs

/-- The program calls `main` and halts. -/
theorem Runs.finale (hP : P.Fits) (hcalls : CallsRun P globals depth) {main : Nat} {r : BaseType}
    {tys : List Ty} (hpool : ("main", main) ∈ P.tree.pool) (hsig : P.scope.Signature "main" r tys)
    (hlow : -2 ^ 31 ≤ next - 1) {start : Nat} (hpc : c.pc = start) {t : String}
    (hcode : Holds P.code start (MiniC.callSequence next
      (.rm .lda .pc (main - (start + 4 : Nat)) .pc t) ++ [.ro .halt .unused .unused .unused ""]))
    (hprep : Prepared P (depth + 1) globals next S env c w) :
    Runs P c w (P.call (depth + 1) "main" []) := by
  rw [holds_append, holds_cons] at hcode
  obtain ⟨hsequence, hhalt, -⟩ := hcode
  rw [← bind_pure (P.call (depth + 1) "main" [])]
  have hnothing : Passed globals c.mem (c.fp + next - 2) tys [] := by simp only [Passed]
  apply Runs.callSequence hP hcalls hpool hsig
    (fun _ hs => hs) hpc hsequence hprep.faithful hprep.above
    hprep.offset_le hlow hnothing
  intro v c' w' hpc' _ hF _ _ _
  have hlen : start + (MiniC.callSequence next
    (.rm .lda .pc (main - (start + 4 : Nat)) .pc t)).length
      = c'.pc := hpc'.symm
  rw [hlen] at hhalt
  refine Runs.stops (fun _ => Core.step_halt hP.size_lt (code_at hhalt)) ?_
  rw [Core.fault_eq_none (c := c'.next) hF.clear]
  exact .halted rfl

/-- Global names mean the same wherever a function runs. -/
theorem Names.global {floor fp : Int} {mem : Memory} (h : Names P globals floor fp mem P.scope env)
    {slots : List Slot} (hG : P.scope.Global slots) (names : Env) (hsub : ∀ s ∈ globals, s ∈ homes)
    {floor' fp' : Int} {mem' : Memory} :
    Names { P with names := names } homes floor' fp' mem' P.scope env := by
  refine ⟨h.valid, fun x n ty l hl => ?_, h.functions⟩
  obtain ⟨hlevel, -⟩ := hG.placed x n ty l hl
  obtain ⟨hlow, hhigh, b, hlookup, hb⟩ := h.objects x n ty l hl
  have hglobal : l.isGlobal = true := by
    unfold Layout.isGlobal
    rw [hlevel]
    rfl
  have horigin : P.origin fp l = ({ P with names := names } : Stage).origin fp' l := by
    unfold Stage.origin
    rw [if_pos hglobal, if_pos hglobal]
  refine ⟨hlow, hhigh, b, hlookup, ?_⟩
  generalize ty.isArray = isArray at hb
  cases hb with
  | cell hs hstorage hsize hbase =>
    exact .cell (hsub _ hs) hstorage hsize (hbase.trans (by rw [horigin]))
  | array hs hstorage hsize hbase =>
    exact .array (hsub _ hs) hstorage hsize (hbase.trans (by rw [horigin]))
  | reference hs hstorage hsize hlocal =>
    rw [hglobal] at hlocal
    cases hlocal
  | unset hstorage => exact .unset hstorage

end Programs

/-! ### Compiled programs

The parts one after the other. The table of the program has the code and the body of every function,
so calls do what they mean. -/

/-- In a list of definitions with different names, the one with a name is found. -/
theorem Decl.findSome?_defines {ds : List Decl} (hnodup : (ds.filterMap Decl.defined?).Nodup)
    {f : FunDecl} (hf : .function f ∈ ds) {body : Block} (hbody : f.body = some body) :
    ds.findSome? (Decl.defines? f.name) = some (f, body) := by
  have hself : Decl.defines? f.name (.function f) = some (f, body) := by
    simp only [Decl.defines?, hbody, if_true, Option.map_some]
  cases hfound : ds.findSome? (Decl.defines? f.name) with
  | none =>
    rw [List.findSome?_eq_none_iff] at hfound
    rw [hfound _ hf] at hself
    cases hself
  | some found =>
    obtain ⟨d, hd, hdef⟩ := List.exists_of_findSome?_eq_some hfound
    -- whatever is found is defined under the same name
    have hname : d.defined? = some f.name := by
      cases d with
      | var d => cases hdef
      | function g =>
        simp only [Decl.defines?] at hdef
        split at hdef
        · rename_i heq
          obtain ⟨b, hb, -⟩ := Option.map_eq_some_iff.mp hdef
          simp only [Decl.defined?, hb, Option.isSome_some, if_true, heq]
        · cases hdef
    have hname' : (Decl.function f).defined? = some f.name := by
      simp only [Decl.defined?, hbody, Option.isSome_some, if_true]
    obtain rfl := eq_of_nodup_filterMap hnodup hd hf hname hname'
    rw [← hdef, hself]

section Compiled

variable {source : String} {tree : Program} {code : List Instr}

/-- A function with a body is what calls of its name call. -/
theorem Compiles.defines (h : Compiles source tree code) {f : FunDecl}
    (hf : .function f ∈ tree.decls)
    {body : Block} (hbody : f.body = some body) : tree.Defines f.name f body := by
  obtain ⟨G, next, is, main, himage, -⟩ := h.image
  obtain ⟨hnew, hnodup⟩ := himage.laid.nodup_table ScopeTable.global_initial
  have hname : f.name ∈ (Decl.table bodyStart tree.decls).map Prod.fst := by
    rw [Decl.map_fst_table, List.mem_filterMap]
    exact ⟨.function f, hf, by simp only [Decl.defined?, hbody, Option.isSome_some, if_true]⟩
  obtain ⟨x, hx, hxname⟩ := List.mem_map.mp hname
  have hfree := hnew x hx
  rw [hxname] at hfree
  rw [Decl.map_fst_table] at hnodup
  refine ⟨?_, ?_, Decl.findSome?_defines hnodup hf hbody⟩
  · rintro heq
    rw [heq] at hfree
    exact hfree ⟨_, _, _, rfl⟩
  · rintro heq
    rw [heq] at hfree
    exact hfree ⟨_, _, _, rfl⟩

theorem CompiledProgram.stageFits {P : Stage} {marks : List Mark} {next : Int} {is : List Instr}
    {main : Nat} {slots : List Slot}
    (h : CompiledProgram P.tree P.code marks P.scope next is main slots) (htop : 0 ≤ P.top)
    (hlt : P.top < 2 ^ 60) : P.Fits :=
  ⟨h.image.routines, h.image.size, h.pool_lt, htop, hlt, h.output_signature⟩

/-- The program and its global variables are in place. -/
theorem Compiles.loaded {P : Stage} (h : Compiles source P.tree P.code) {marks : List Mark}
    {next : Int}
    {is : List Instr} {main : Nat} {slots : List Slot}
    (hprogram : CompiledProgram P.tree P.code marks P.scope next is main slots) (hP : P.Fits)
    {globals : List Home} {floor fp : Int} {mem : Memory} {env : Env}
    (hnames : Names P globals floor fp mem P.scope env) :
    Loaded { P with names := env } globals := by
  refine ⟨⟨hP.routines, hP.code_lt, hP.pool_lt, hP.top_nonneg, hP.top_lt, hP.output⟩,
    hprogram.plain, fun hsub => hnames.global hprogram.scope env hsub, fun hmem => ?_⟩
  rcases hprogram.target hmem with hout | hin | ⟨f, hf, rfl, hentry, hcode, -⟩
  · exact Or.inl hout
  · exact Or.inr (Or.inl hin)
  · exact Or.inr (Or.inr ⟨f, hf, rfl, hentry, hcode, h.defines hf.declared hf.body_eq⟩)

/-- A compiled program on a new machine does what it means. -/
theorem Compiles.runs {P : Stage} (h : Compiles source P.tree P.code) {marks : List Mark}
    {next : Int}
    {is : List Instr} {main : Nat} {slots : List Slot}
    (hprogram : CompiledProgram P.tree P.code marks P.scope next is main slots) (hP : P.Fits)
    {top depth : Nat} (htop : P.top = top) (hcap : 2 ^ 31 * (depth + 1) ≤ P.cap)
    (input : List Word) :
    Runs P (Core.mk 0 0 0 0 0 (Memory.fresh top)) ⟨[], input⟩ (P.tree.main P.limit depth) := by
  obtain ⟨t, hskip⟩ := hprogram.image.skip
  obtain ⟨t', hfinale⟩ := hprogram.image.finale
  obtain ⟨r, tys, hsig⟩ := hprogram.main_signature
  apply Runs.startup hP htop hprogram.image.startup hskip hcap hprogram.initial
  intro c hpc hfp hprep hzero
  apply Runs.declarations hP hprogram.image.laid rfl ScopeTable.global_initial
    hprogram.image.declarations hpc hprep hfp fun x _ _ => hzero x
  intro homes env c₁ w₁ hpc₁ _ hprep₁
  cases depth with
  -- without a call there is not even one of `main`
  | zero => exact .unsettled rfl
  | succ depth =>
    have hL := h.loaded hprogram hP hprep₁.names
    have hF := hprep₁.faithful
    -- from here on the global variables have their objects, which every call refers to
    have hprep₂ : Prepared { P with names := env } (depth + 1) homes next P.scope env c₁ w₁ :=
      ⟨⟨hF.sane, hF.gp_eq, hF.deep, hF.mild, hF.clear, hF.represents⟩, hL.names fun _ hs => hs,
        hprep₁.above, hprep₁.offset_le⟩
    exact Runs.finale hL.fits (callsRun hL depth) hprogram.image.main_mem hsig
      hprogram.image.fits hpc₁
      hfinale hprep₂

end Compiled

/-! ### Runs of programs

The statement about sources, without the homes and scopes of the proof. -/

/-- A compiled program does what it means: when the evaluation of the program for some inputs comes
to an end, so does a run on these inputs, with the same outputs and for the same reason. In a memory
that is too small for calls that are nested as deep as in the evaluation, the run may instead stop
for want of cells, after it has written some of the outputs. -/
theorem run_agrees {source : String} {tree : Program} {code : List Instr}
    (h : Compiles source tree code) {memory : Nat} (hmemory : memory < Memory.sizeLimit)
    {limit depth : Nat} {input : List Word}
    (hsettled : (tree.evaluate limit depth input).settled = true) :
    ∃ n, ∀ steps ≥ n,
      let r := Machine.run code.toArray Tape.device steps (Machine.init memory)
        (Tape.ofList input none)
      Agrees (tree.evaluate limit depth input) r.outcome r.machine.fault r.io.output.toList ∨
        memory ≤ 2 ^ 31 * (depth + 1) + 1 ∧
          Overflows (tree.evaluate limit depth input) r.outcome r.io.output.toList := by
  obtain ⟨G, next, is, main, slots, hprogram, -⟩ := h.program
  unfold Memory.sizeLimit at hmemory
  -- a frame has fewer than `2 ^ 31` cells, which bounds what calls of this depth need
  let P : Stage := ⟨tree, code, G, [], limit, (memory - 1 : Nat), 2 ^ 31 * (depth + 1)⟩
  have hP : P.Fits := CompiledProgram.stageFits (P := P) hprogram (Int.natCast_nonneg _)
    (by show ((memory - 1 : Nat) : Int) < 2 ^ 60; omega)
  have hruns := Compiles.runs (P := P) h hprogram hP rfl (Int.le_refl _) input
  obtain ⟨n, o, m, t, outputs, hrun, hout, hends⟩ := hruns #[] hsettled
  refine ⟨n, fun steps hsteps => ?_⟩
  have hstopped : Machine.runFor code.toArray Tape.device steps (Machine.init memory)
      (Tape.ofList input none) = ⟨some o, m, t⟩ := by
    rw [Machine.init_eq]
    exact Machine.runFor_of_le hsteps hrun
  have houtputs : t.output.toList = outputs := hout
  simp only [Machine.run, hstopped, Option.getD_some, houtputs]
  rcases hends with hagrees | ⟨hsmall, hover⟩
  · exact Or.inl hagrees
  · have hle : ((memory - 1 : Nat) : Int) ≤ 2 ^ 31 * (depth + 1) := hsmall
    exact Or.inr ⟨by omega, hover⟩

/-- A program that reads numbers into an array, and passes it to a recursive function. -/
def summingSource : String :=
  "int total; int sum(int a[], int n) { if (n == 0) return 0; return a[n - 1] + sum(a, n - 1); }" ++
    (" void main(void) \x7b int b[3]; int i; i = 0; while (i < 3) { b[i] = input(); i = i + 1; }" ++
      " total = total + sum(b, 3); output(total); \x7d")

theorem summing_evaluates : (compile? summingSource).map (fun (tree, _) =>
    ((tree.evaluate 10 10 [4, 5, 6]).outputs, (tree.evaluate 10 10 [4, 5, 6]).settled))
      = some ([15], true) := by
  have hascii : Ascii summingSource _ := .append ⟨rfl, rfl⟩ (.append ⟨rfl, rfl⟩ ⟨rfl, rfl⟩)
  rw [compile?, parse, hascii.scan_eq]
  decide +kernel

theorem run_agrees_summing : ∃ tree code n, Compiles summingSource tree code ∧
    (tree.evaluate 10 10 [4, 5, 6]).settled = true ∧
    (tree.evaluate 10 10 [4, 5, 6]).outputs = [15] ∧ ∀ steps ≥ n,
      let r := Machine.run code.toArray Tape.device steps (Machine.init (2 ^ 40))
        (Tape.ofList [4, 5, 6] none)
      Agrees (tree.evaluate 10 10 [4, 5, 6]) r.outcome r.machine.fault r.io.output.toList := by
  obtain ⟨⟨tree, code⟩, hcompile, hvalues⟩ := Option.map_eq_some_iff.mp summing_evaluates
  obtain ⟨houtputs, hsettled⟩ := Prod.mk.inj hvalues
  have hascii : Ascii summingSource _ := .append ⟨rfl, rfl⟩ (.append ⟨rfl, rfl⟩ ⟨rfl, rfl⟩)
  have hshort : summingSource.utf8ByteSize < 2 ^ 27 := by
    rw [hascii.utf8ByteSize_eq]
    decide +kernel
  have h := compiles_of_compile? hshort hcompile
  obtain ⟨n, hn⟩ := run_agrees h (show 2 ^ 40 < Memory.sizeLimit by decide) hsettled
  refine ⟨tree, code, n, h, hsettled, houtputs, fun steps hsteps => ?_⟩
  rcases hn steps hsteps with hagrees | ⟨hsmall, -⟩
  · exact hagrees
  · exact absurd hsmall (by decide)

end MiniC
