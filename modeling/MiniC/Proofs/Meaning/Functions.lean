import MiniC.Proofs.Meaning.Statements
import MiniC.Proofs.Passes

/-!
# Functions in runs

Every function that can be called does what a call of it means: by induction on the depth of nested
calls, since the calls in its body are nested less deep. The frame of a function holds its return
address, and below it the frame base of the caller; neither belongs to an object, so both are there
when the function returns.

* `Loaded`: a compiled program with its global variables
* `Underway`: a function that was called still runs
* `callsRun`: all calls do what they mean
-/

namespace MiniC

/-! ### Input and output

The device of a run is a tape, so a word that is read or written by the machine is the one of the
world. -/

section Device

variable {P : Stage} {c : Core} {w : World} {α : Type}

/-- A word is read, unless there is none left, where both stop. -/
theorem Runs.read (hP : P.Fits) (hclear : c.mem.read 0 = 0) {t : String}
    (hi : P.code[c.pc]? = some (.ro .read .ac .unused .unused t)) {K : Word → Eval α}
    (h : ∀ a rest, w.input = a :: rest →
      Runs P { c.next with ac := a } { w with input := rest } (K a)) :
    Runs P c w (Eval.read >>= K) := by
  intro written hsettled
  have hstep : ∀ io, Machine.step P.code.toArray Tape.device c.machine io = _ :=
    fun _ => Core.step_read hP.size_lt (code_at hi)
  cases hinput : w.input with
  | nil =>
    have hread : Eval.read w = ⟨[], .stopped .noInput⟩ := by
      unfold Eval.read
      rw [hinput]
    rw [Eval.bind_stopped hread]
    have hagrees : Agrees (α := α) ⟨[], .stopped .noInput⟩ (.failed (.input "input exhausted"))
        c.next.machine.fault [] := by
      rw [Core.fault_eq_none (c := c.next) hclear]
      exact .noInput rfl
    exact .stop (hstep ⟨[], written, none⟩) (List.append_nil _).symm (Or.inl hagrees)
  | cons a rest =>
    have hread : Eval.read w = ⟨[], .done a { w with input := rest }⟩ := by
      unfold Eval.read
      rw [hinput]
    rw [Eval.bind_quiet hread] at hsettled ⊢
    exact .go (hstep ⟨a :: rest, written, none⟩) rfl (h a rest hinput written hsettled)

/-- The accumulator is written. -/
theorem Runs.write (hP : P.Fits) {t : String}
    (hi : P.code[c.pc]? = some (.ro .write .ac .unused .unused t)) {K : Unit → Eval α}
    (h : Runs P c.next w (K ())) : Runs P c w (Eval.write c.ac >>= K) := by
  intro written hsettled
  have hwrite : Eval.write c.ac w = ⟨[c.ac], .done () w⟩ := rfl
  have hstep : Machine.step P.code.toArray Tape.device c.machine ⟨w.input, written, none⟩ = _ :=
    Core.step_write hP.size_lt (code_at hi)
  rw [Eval.bind_done hwrite] at hsettled ⊢
  exact .write hstep rfl (h (written.push c.ac) hsettled)

end Device

/-! ### Frames

While a function runs, objects and cells below its frame change and the two cells at its frame base
do not. So it can return. -/

/-- The function that was called in the state `c₀` still runs, and its frame is intact. -/
structure Underway (P : Stage) (depth : Nat) (homes : List Home) (ret : Nat) (c₀ c : Core)
    (w : World) :
    Prop where
  faithful : Faithful P depth homes c w
  fp_eq : c.fp = c₀.fp
  fp_pos : 0 < c₀.fp
  returns : c.mem.read c₀.fp = Int64.ofInt ret
  spared : Spared homes c₀.fp c₀.mem c.mem
  saved : c.mem.read (c₀.fp - 1) = c₀.mem.read (c₀.fp - 1)

section Frames

variable {P : Stage} {globals : List Home} {depth : Nat} {homes : List Home} {tys : List Ty}
  {values : List Value} {ret : Nat} {c₀ c c' : Core} {w w' : World} {α : Type} {x : Eval α}

/-- A function stores its return address first. -/
theorem Runs.enter (hP : P.Fits) (h : Called P depth homes tys values ret c w) {t : String}
    (hi : P.code[c.pc]? = some (.rm .st .ac returnOffset .fp t))
    (hnext : ∀ c', c'.pc = c.pc + 1 → Underway P depth homes ret c c' w →
      Passed homes c'.mem (c.fp - 2) tys values → Runs P c' w x) : Runs P c w x := by
  apply Runs.store (g := false) hP h.faithful hi (by decide) (by decide)
  have hcell : returnOffset + c.origin false = c.fp := Int.zero_add c.fp
  rw [hcell]
  intro hpos
  have hfree : ∀ s ∈ homes, ¬s.Covers c.fp := by
    intro s hs hcovers
    have := h.above s hs
    unfold Home.Covers at hcovers
    omega
  refine hnext _ rfl ⟨?_, rfl, hpos, ?_, Spared.write hpos (Or.inl (Int.le_refl _)) _ _, ?_⟩
    (h.passed.write (by omega) _)
  · exact h.faithful.next.write hpos (h.faithful.represents.write _ hpos hfree)
  · rw [Memory.read_write_self, h.ac_eq]
  · exact Memory.read_write_of_ne hpos (by omega) _

/-- The frame stays intact as long as only objects and cells below the frame change. -/
theorem Underway.later (h : Underway P depth homes ret c₀ c w)
    (habove : ∀ s ∈ homes, c₀.fp < s.base)
    {homes' : List Home} {next : Int} (hnext : next ≤ -2)
    (hextends : Extends (c₀.fp - 2) homes homes') (hF : Faithful P depth homes' c' w')
    (hfp : c'.fp = c.fp) (hspared : Spared homes' (c₀.fp + next) c.mem c'.mem) :
    Underway P depth homes ret c₀ c' w' := by
  have hfree : ∀ x, c₀.fp - 2 < x → x ≤ c₀.fp → ∀ s ∈ homes', ¬s.Covers x := by
    intro x hlow hhigh
    refine hextends.free hlow fun s hs hcovers => ?_
    have := habove s hs
    unfold Home.Covers at hcovers
    omega
  have hpos := h.fp_pos
  refine ⟨hF.sub hextends.old, hfp.trans h.fp_eq, hpos, ?_, ?_, ?_⟩
  · rw [hspared _ hpos (by omega) (hfree _ (by omega) (by omega)), h.returns]
  · refine h.spared.trans fun x hx hfloor hold => ?_
    exact hspared x hx (by omega) (hextends.free (by omega) hold)
  · -- the cell below the frame base may be cell 0, which is always clear
    rw [← h.saved]
    by_cases hone : c₀.fp = 1
    · rw [hone]
      exact hF.clear.trans h.faithful.clear.symm
    · exact hspared _ (by omega) (by omega) (hfree _ (by omega) (by omega))

/-- Only registers have changed. -/
theorem Underway.of_eq (h : Underway P depth homes ret c₀ c w) (hfp : c'.fp = c.fp)
    (hgp : c'.gp = c.gp) (hmem : c'.mem = c.mem) (hac : Mild c'.ac)
    (hobjects : w'.objects = w.objects) : Underway P depth homes ret c₀ c' w' := by
  obtain ⟨hF, hfp₀, hpos, hreturns, hspared, hsaved⟩ := h
  rw [← hmem] at hreturns hspared hsaved
  have hF' := hF.of_eq hfp hgp hmem hac
  exact ⟨{ hF' with represents := by rw [hobjects]; exact hF'.represents }, hfp.trans hfp₀, hpos,
    hreturns, hspared, hsaved⟩

/-- A function returns. -/
theorem Runs.returns (hP : P.Fits) (h : Underway P depth homes ret c₀ c w)
    (hi : P.code[c.pc]? = some returnInstr)
    (hnext : ∀ c', Back P depth homes ret c₀ c' w → c'.ac = c.ac → Runs P c' w x) :
    Runs P c w x := by
  have hfp := h.fp_eq
  have hpos := h.fp_pos
  have hread : c.mem.read (returnOffset + c.fp) = Int64.ofInt ret := by
    rw [← h.returns, hfp]
    exact congrArg c.mem.read (Int.zero_add c₀.fp)
  refine Runs.step (fun _ => Core.step_ld_pc hP.size_lt h.faithful.sane (by decide) (by decide)
    (by show 0 < (0 : Int) + c.fp; omega) hread (code_at hi))
      (hnext _ ⟨?_, rfl, hfp, h.spared, h.saved⟩ rfl)
  exact h.faithful.of_eq rfl rfl rfl h.faithful.mild

/-! ### The routines

Both consist of one access to the device between the entry and the return. -/

/-- The routine for input reads a word. -/
theorem Runs.input (hP : P.Fits) (hpc : c.pc = inputEntry)
    (h : Called P depth homes tys values ret c w) {K : Value → Eval α}
    (hnext : ∀ a c' w', Back P depth homes ret c c' w' → c'.ac = a → InRange a →
      Runs P c' w' (K (.word a))) :
    Runs P c w (Eval.read >>= fun a => MiniC.checked a >>= K) := by
  have hcode : Holds P.code c.pc inputRoutine := by
    have hroutines := hP.routines
    simp only [routines, holds_append] at hroutines
    rw [hpc]
    exact hroutines.1.1.1
  simp only [inputRoutine, holds_cons] at hcode
  obtain ⟨h₀, h₁, h₂, -⟩ := hcode
  apply Runs.enter hP h h₀
  intro c₁ hpc₁ hunder₁ _
  rw [← hpc₁] at h₁ h₂
  apply Runs.read hP hunder₁.faithful.clear h₁
  intro a rest _
  refine Runs.checked fun hrange => ?_
  have hunder₂ : Underway P depth homes ret c { c₁.next with ac := a } { w with input := rest } :=
    hunder₁.of_eq rfl rfl rfl hrange.mild rfl
  apply Runs.returns hP hunder₂ h₂
  intro c₂ hback hac
  exact hnext a c₂ _ hback hac hrange

/-- The routine for output writes its parameter. -/
theorem Runs.output (hP : P.Fits) (hpc : c.pc = outputEntry)
    (h : Called P depth homes [.int] values ret c w) {K : Value → Eval α}
    (hnext : ∀ c', Back P depth homes ret c c' w → Runs P c' w (K .nothing)) :
    Runs P c w ((values.headD .nothing).asWord >>= fun a => Eval.write a >>= fun _ =>
      K .nothing) := by
  have hcode : Holds P.code c.pc outputRoutine := by
    have hroutines := hP.routines
    simp only [routines, holds_append] at hroutines
    rw [hpc]
    exact hroutines.1.1.2
  simp only [outputRoutine, holds_cons] at hcode
  obtain ⟨h₀, h₁, h₂, h₃, -⟩ := hcode
  cases values with
  | nil => exact Runs.undefined
  | cons v values =>
    apply Runs.enter hP h h₀
    intro c₁ hpc₁ hunder₁ hpassed
    rw [← hpc₁] at h₁ h₂ h₃
    obtain ⟨-, hv, -⟩ := hpassed
    have hfp := hunder₁.fp_eq
    apply Runs.load (g := false) hP hunder₁.faithful h₁ (Or.inl rfl) (by decide) (by decide)
    -- the first parameter of the frame that was just entered
    have hcell : firstParamOffset + c₁.origin false = c.fp - 2 := by
      show -2 + c₁.fp = _
      omega
    rw [hcell]
    intro _
    have hunder₂ : Underway P depth homes ret c { c₁.next with ac := c₁.mem.read (c.fp - 2) } w :=
      hunder₁.of_eq rfl rfl rfl (hv.mild hP hunder₁.faithful) rfl
    refine Runs.asWord (c := { c₁.next with ac := c₁.mem.read (c.fp - 2) }) hv.held hv.ofTy rfl
      fun hrange => Runs.write hP h₂ ?_
    apply Runs.returns hP (c := { c₁.next.next with ac := c₁.mem.read (c.fp - 2) })
      (hunder₂.of_eq rfl rfl rfl hrange.mild rfl) h₃
    intro c₂ hback _
    exact hnext c₂ hback

end Frames

/-! ### Functions of the program

Induction on the depth of nesting. The contract of one depth gives the bodies of the next one the
calls that they need. -/

/-- A call of this name is a call of the function with this body. -/
structure Program.Defines (p : Program) (name : String) (f : FunDecl) (body : Block) : Prop where
  not_input : name ≠ "input"
  not_output : name ≠ "output"
  found : p.decls.findSome? (Decl.defines? name) = some (f, body)

theorem Program.Defines.call_eq {p : Program} {name : String} {f : FunDecl} {body : Block}
    (h : p.Defines name f body) (names : Env) (limit depth : Nat) (values : List Value) :
    p.call names limit (depth + 1) name values = (names.bindAll f.params values >>= fun env =>
      (Stmt.block body.pos body.decls body.stmts).exec (p.call names limit depth) limit env >>=
        fun flow => pure flow.result) := by
  simp only [Program.call, if_neg h.not_input, if_neg h.not_output, h.found]

/-- The machine holds a compiled program, whose global variables have the homes `globals`. -/
structure Loaded (P : Stage) (globals : List Home) : Prop where
  fits : P.Fits
  plain : ∀ d ∈ P.tree.decls, d.Plain
  names : ∀ {homes floor fp mem}, (∀ s ∈ globals, s ∈ homes) →
    Names P homes floor fp mem P.scope P.names
  /-- The target of a call is one of the two routines, or a function of the program. -/
  target : ∀ {name entry}, (name, entry) ∈ P.tree.pool →
    (name = "output" ∧ entry = outputEntry) ∨ (name = "input" ∧ entry = inputEntry) ∨
      ∃ f : CompiledFunction, f.Valid P.tree.decls P.scope P.tree.pool ∧ f.decl.name = name ∧
        f.entry = entry ∧ Holds P.code entry (f.decl.framed f.code) ∧
        P.tree.Defines name f.decl f.body

section Functions

variable {P : Stage} {globals : List Home} {depth : Nat} {homes : List Home} {tys : List Ty}
  {values : List Value} {ret : Nat} {c : Core} {w : World} {α : Type}

/-- A function sees the global names that were declared before it. -/
theorem Names.outer {floor fp : Int} {mem : Memory} {S : ScopeTable} {env : Env}
    (h : Names P homes floor fp mem P.scope env) (hS : Scoped P.scope [] S) :
    Names P homes floor fp mem S env := by
  refine ⟨hS.valid, fun x n ty l hl => ?_, hS.functions⟩
  rcases hS.placed x n ty l hl with hl | ⟨-, v, hv, -⟩
  · exact h.objects x n ty l hl
  · cases hv

/-- A function of the program does what a call of it means, if calls in its body do. -/
theorem Runs.function (hL : Loaded P globals) (hcalls : ∀ d, depth = d + 1 → CallsRun P globals d)
    {f : CompiledFunction} (hf : f.Valid P.tree.decls P.scope P.tree.pool)
    (hcode : Holds P.code f.entry (f.decl.framed f.code)) {name : String}
    (hdef : P.tree.Defines name f.decl f.body) (hglobals : ∀ s ∈ globals, s ∈ homes)
    (hpc : c.pc = f.entry) (h : Called P depth homes (f.decl.params.map VarDecl.ty) values ret c w)
    {K : Value → Eval α}
    (hnext : ∀ v c' w', Back P depth homes ret c c' w' → v.Held homes c'.ac →
      v.OfTy (.scalar f.decl.result) → Runs P c' w' (K v)) :
    Runs P c w (P.call (depth + 1) name values >>= K) := by
  have hP := hL.fits
  obtain ⟨hlow, hend⟩ := hf.frameEnd_range
  have hle := hf.emits.tiled.le
  have hle' := hf.params.tiled.le
  unfold firstFrameOffset at hle'
  simp only [FunDecl.framed, holds_cons, holds_append] at hcode
  obtain ⟨hstore, hbody, hlast, -⟩ := hcode
  show Runs P c w (P.tree.call P.names P.limit (depth + 1) name values >>= K)
  rw [hdef.call_eq]
  simp only [bind_assoc, pure_bind]
  rw [← hpc] at hstore
  apply Runs.enter hP h hstore
  intro c₁ hpc₁ hunder₁ hpassed₁
  have hfp₁ := hunder₁.fp_eq
  -- the function begins with the global names alone
  have hprep₁ : Prepared P depth homes firstFrameOffset f.outer.enter P.names c₁ w := by
    refine ⟨hunder₁.faithful, ((hL.names hglobals).outer hf.outer).enter, ?_, by decide⟩
    intro s hs
    have := h.above s hs
    unfold firstFrameOffset
    omega
  have hcells : c₁.fp + firstFrameOffset = c.fp - 2 := by
    unfold firstFrameOffset
    omega
  rw [← hcells] at hpassed₁
  apply Runs.bindAll hf.params (hL.plain _ hf.declared).1 hprep₁ hpassed₁
  intro homes₂ env₂ w₂ hprep₂ hextends₂
  rw [hcells] at hextends₂
  have hX : Executable P globals depth homes₂ f.linker :=
    ⟨hP, hcalls, fun s hs => hextends₂.old s (hglobals s hs), hf.strict, hf.linked⟩
  -- however the body is left, the frame is intact
  have hunder : ∀ {c₃ w₃}, After P depth homes₂ f.next f.inner env₂ c₁ c₃ w₃ →
      Underway P depth homes ret c c₃ w₃ := by
    intro c₃ w₃ hafter₃
    have hspared₃ := hafter₃.spared
    rw [hfp₁] at hspared₃
    exact hunder₁.later h.above hle' hextends₂ hafter₃.prepared.faithful hafter₃.fp_eq hspared₃
  refine stmt_runs f.block hf.emits hbody (Int.le_refl _) hlow hX (by omega) hprep₂ _ ?_ ?_
  · intro c₃ w₃ hpc₃ hafter₃
    rw [← hpc₃] at hlast
    apply Runs.returns hP (hunder hafter₃) hlast
    intro c₄ hback _
    exact hnext .nothing c₄ w₃ hback trivial rfl
  · intro v c₃ w₃ hcode₃ hafter₃ hheld₃ hty₃
    apply Runs.returns hP (hunder hafter₃) hcode₃
    intro c₄ hback hac
    refine hnext v c₄ w₃ hback ?_ hty₃
    rw [hac]
    exact hheld₃.forget hty₃ rfl

/-- A call does what it means, if those in the body of the called function do. -/
theorem CallsRun.of_nested (hL : Loaded P globals)
    (hcalls : ∀ d, depth = d + 1 → CallsRun P globals d) : CallsRun P globals depth := by
  intro name entry r tys hpool hsig homes values ret c w hglobals hpc h α K hnext
  rcases hL.target hpool with ⟨rfl, rfl⟩ | ⟨rfl, rfl⟩ | ⟨f, hf, rfl, rfl, hcode, hdef⟩
  · obtain ⟨rfl, rfl⟩ := hsig.unique hL.fits.output
    have hcall : P.call (depth + 1) "output" values = ((values.headD .nothing).asWord >>= fun a =>
        Eval.write a >>= fun _ => pure .nothing) := rfl
    simp only [hcall, bind_assoc, pure_bind]
    refine Runs.output hL.fits hpc h fun c' hback => ?_
    exact hnext .nothing c' w hback trivial rfl
  · have hcall : P.call (depth + 1) "input" values = (Eval.read >>= fun a => checked a) := rfl
    simp only [hcall, bind_assoc]
    refine Runs.input hL.fits hpc h fun a c' w' hback hac hrange => ?_
    exact hnext (.word a) c' w' hback ⟨hac, hrange⟩ rfl
  · obtain ⟨rfl, rfl⟩ := hsig.unique hf.signature
    exact Runs.function hL hcalls hf hcode hdef hglobals hpc h hnext

/-- All calls do what they mean. -/
theorem callsRun (hL : Loaded P globals) (depth : Nat) : CallsRun P globals depth := by
  induction depth with
  | zero => exact CallsRun.of_nested hL fun d hd => absurd hd (Nat.succ_ne_zero d).symm
  | succ depth ih =>
    refine CallsRun.of_nested hL fun d hd => ?_
    cases hd
    exact ih

end Functions

end MiniC
