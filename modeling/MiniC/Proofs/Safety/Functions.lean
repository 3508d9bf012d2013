import MiniC.Proofs.Safety.Statements

/-!
# Safe functions

Every function that can be called keeps to its contract, for any number of steps: by induction on
the number of steps, since a call takes a step before the called function runs.

* `Entered.inFrame`: the frame of a function, with its parameters
* `function_safe`, `input_safe`, `output_safe`: one contract each
* `callsSafe`: all of them together
-/

namespace MiniC

variable {σ : Type} {P : Scene σ} {book : Book}

/-! ### References are parameters

Only parameters are references: the parser gives no such shape to a declaration in a block. -/

theorem VarDecl.checkAll_slot {role : Role} {level : Nat} {S : ScopeTable} {next : Int}
    {decls : List VarDecl} (h : ∀ d ∈ decls, d.shape ≠ .reference) :
    ∀ v ∈ (VarDecl.checkAll role level S next decls).value.map VarDecl.slot,
      v.shape ≠ .reference := by
  induction decls generalizing S next with
  | nil =>
    intro v hv
    cases hv
  | cons d rest ih =>
    intro v hv
    simp only [VarDecl.checkAll, List.map_cons, List.mem_cons] at hv
    rcases hv with rfl | hv
    · exact h d List.mem_cons_self
    · exact ih (fun d' hd' => h d' (List.mem_cons_of_mem d hd')) v hv

theorem Stmt.plain_of_mem {body : List Stmt} (h : Stmt.PlainAll body) : ∀ s ∈ body, s.Plain := by
  induction body with
  | nil =>
    intro s hs
    cases hs
  | cons s rest ih =>
    intro s' hs'
    rcases List.mem_cons.mp hs' with rfl | hs'
    · exact h.1
    · exact ih h.2 s' hs'

/-- No variable of a plain statement is a reference. -/
theorem Stmt.Plain.slots {f : Enclosing} {s : Stmt} (h : s.Plain) {S : ScopeTable} {next : Int} :
    ∀ v ∈ (s.check f S next).value.slots, v.shape ≠ .reference := by
  induction s using Stmt.induction generalizing S next with
  | exp p e =>
    intro v hv
    cases hv
  | block p decls body ih =>
    -- by induction on the statements of the block, inside the induction on the statement
    have hall : ∀ {S next}, ∀ v ∈ Stmt.slotsAll (Stmt.checkAll f S next body).value,
        v.shape ≠ .reference := by
      have hplain := Stmt.plain_of_mem h.2
      clear h
      induction body with
      | nil =>
        intro S next v hv
        cases hv
      | cons s rest ihrest =>
        intro S next v hv
        simp only [Stmt.checkAll, Stmt.slotsAll, List.mem_append] at hv
        rcases hv with hv | hv
        · exact ih s List.mem_cons_self (hplain s List.mem_cons_self) v hv
        · exact ihrest (fun s' hs' => ih s' (List.mem_cons_of_mem s hs'))
            (fun s' hs' => hplain s' (List.mem_cons_of_mem s hs')) v hv
    intro v hv
    simp only [Stmt.check, Stmt.slots, List.mem_append] at hv
    rcases hv with hv | hv
    · exact VarDecl.checkAll_slot h.1 v hv
    · exact hall v hv
  | ifThen p test a ih => exact ih h
  | ifElse p test a b iha ihb =>
    intro v hv
    simp only [Stmt.check, Stmt.slots, List.mem_append] at hv
    rcases hv with hv | hv
    · exact iha h.1 v hv
    · exact ihb h.2 v hv
  | whileDo p test b ih => exact ih h
  | ret p value =>
    intro v hv
    cases value <;> cases hv

/-- Parameters take one cell each, from the first offset downwards. -/
theorem Declares.param_slot {level : Nat} {S S' : ScopeTable} {next next' : Int}
    {decls placed : List VarDecl} (h : Declares level S next decls S' next' placed)
    (hshape : ∀ d ∈ decls, d.shape = .scalar ∨ d.shape = .reference) {v : Slot}
    (hv : v ∈ placed.map VarDecl.slot) :
    ∃ (i : Nat) (d : VarDecl), decls[i]? = some d ∧ v.offset = next - i ∧ v.shape = d.shape := by
  induction h with
  | nil S next => cases hv
  | @cons S S₁ S₂ next next₂ d rest l placed hd hrest ih =>
    have hzero : d.shape.elements = 0 := by
      rcases hshape d List.mem_cons_self with h | h <;> rw [h] <;> rfl
    have hoffset : l.offset = next := by
      rw [hd.layout_eq, hzero]
      show next - (0 : Nat) = next
      omega
    rw [List.map_cons] at hv
    rcases List.mem_cons.mp hv with rfl | hv
    · exact ⟨0, d, rfl, by show l.offset = next - (0 : Nat); omega, rfl⟩
    · obtain ⟨i, d', hi, hv', hs⟩ := ih (fun d' hd' => hshape d' (List.mem_cons_of_mem d hd')) hv
      exact ⟨i + 1, d', by simpa using hi, by omega, hs⟩

/-! ### Functions of the program

Its parameters have been passed, and its locals are not declared yet. The body is safe in that
state. -/

section Function

variable {ds : List Decl} {f : CompiledFunction} {c : Core} {io : σ} {gs : List Extent}
  {a : Activation} {stack : List Activation} {given : List Word} {n N : Nat}

/-- A reference of a function is one of its parameters. -/
theorem CompiledFunction.Valid.reference_param {G : ScopeTable} {pool : Entries}
    (hf : f.Valid ds G pool) (hplain : ∀ d ∈ ds, d.Plain) {v : Slot} (hv : v ∈ f.slots)
    (href : v.shape = .reference) :
    ∃ (i : Nat) (d : VarDecl), f.decl.params[i]? = some d ∧ v.offset = -2 - i ∧
      d.shape = .reference := by
  obtain ⟨hparams, hbody⟩ := hplain _ hf.declared
  rcases List.mem_append.mp hv with hv | hv
  · obtain ⟨i, d, hi, hoffset, hshape⟩ := hf.params.param_slot hparams hv
    exact ⟨i, d, hi, hoffset, by rw [← hshape, href]⟩
  · have hblock : f.block.Plain := hbody f.body hf.body_eq
    exact absurd href (hblock.slots v hv)

/-- A function runs in its frame when it has stored its return address. -/
theorem Entered.inFrame (hf : f.Valid ds P.scope P.pool) (hplain : ∀ d ∈ ds, d.Plain)
    (h : Entered P (f.decl.params.map VarDecl.ty) c gs a stack given) :
    InFrame P f { c.next with mem := c.mem.write a.base c.ac } gs a stack := by
  have hbase := h.base
  refine ⟨⟨h.sane.fp_nonneg, h.sane.fp_le, h.sane.gp_lt, h.sane.size_eq⟩, h.gp_eq, h.fp_eq,
    h.sound_write, h.globals, ?_, ?_⟩
  · rw [h.arrays_eq]
    intro e he
    cases he
  · intro v hv href
    obtain ⟨i, d, hi, hoffset, hshape⟩ := hf.reference_param hplain hv href
    obtain ⟨hread, hlive⟩ := h.params i d.ty (by rw [List.getElem?_map, hi]; rfl)
      (by rw [VarDecl.ty, hshape]; rfl)
    rw [hoffset]
    refine ⟨?_, hlive⟩
    show (c.mem.write a.base c.ac).read (a.base + (-2 - i)) = _
    rw [Memory.read_write_of_ne (by omega) (by omega),
      show a.base + (-2 - (i : Int)) = a.base - 2 - i by omega, hread]

/-- The function that runs returns to its caller. -/
theorem InFrame.leave (hP : P.Fits) (hf : f.Valid ds P.scope P.pool) {tys : List Ty}
    (hentered : Entered P tys c gs a stack given) {c' : Core} {arrays : List Extent}
    (hin : InFrame P f c' gs { a with arrays := arrays } stack)
    (hkept : Kept P f a stack (a.base + f.frameEnd) (c.mem.write a.base c.ac) c'.mem)
    (hleaving : Leaving P c')
    (hnext : ∀ m < n, ∀ c₁ io₁, Returned P c gs a stack c₁ →
      Safe P m ⟨c₁.machine, io₁, ⟨gs, stack⟩⟩ book) :
    Safe P n ⟨c'.machine, io, ⟨gs, { a with arrays := arrays } :: stack⟩⟩
      (⟨⟨given, []⟩, []⟩ :: book) := by
  have hbase := hentered.base
  apply hin.sound.leave hP hin.sane hin.gp_eq hin.fp_eq hleaving.1 hleaving.2
  intro m hm
  apply hnext m hm
  refine ⟨rfl, ⟨hin.sane.fp_nonneg, hin.sane.fp_le, hin.sane.gp_lt, hin.sane.size_eq⟩, hin.gp_eq,
    hin.fp_eq, hin.sound.pop, hin.sound.chain.2.1, ?_⟩
  intro x hx htop helem
  have hrange := hf.frameEnd_range
  have hown : ¬f.Owns a.base x := by
    rintro ⟨v, hv, -, -, hhigh⟩
    have hwithin := hf.tiled.within v hv
    unfold firstFrameOffset at hwithin
    omega
  rw [show ({ c' with pc := a.ret } : Core).mem.read x = c'.mem.read x from rfl,
    hkept x (by omega) htop hown helem, Memory.read_write_of_ne (by omega) (by omega)]

/-- A function of the program keeps to its contract. -/
theorem function_safe (hR : Runnable P ds f N) (hplain : ∀ d ∈ ds, d.Plain) (hn : n ≤ N)
    (hpool : (f.decl.name, f.entry) ∈ P.pool)
    (hcode : Holds P.code f.entry (f.decl.framed f.code))
    (hmarks : Holds P.marks f.entry (.entry :: (f.checked.marks ++ [.leave])))
    (hpc : c.pc = f.entry)
    (h : Entered P (f.decl.params.map VarDecl.ty) c gs a stack given)
    (hnext : ∀ m < n, ∀ c' io', Returned P c gs a stack c' →
      Safe P m ⟨c'.machine, io', ⟨gs, stack⟩⟩ book) :
    Safe P n ⟨c.machine, io, ⟨gs, a :: stack⟩⟩ (⟨⟨given, []⟩, []⟩ :: book) := by
  have hf := hR.valid
  have hlen := hf.emits.length_marks
  simp only [FunDecl.framed, holds_cons, holds_append] at hcode hmarks
  rw [show f.checked.marks.length = f.code.length from hlen] at hmarks
  obtain ⟨hstore, hbody, hret, -⟩ := hcode
  obtain ⟨hmstore, hmbody, hmret, -⟩ := hmarks
  rw [← hpc] at hstore hmstore hpool
  apply h.store hR.fits hpool hf.signature hstore f.decl.noted_store hmstore
  intro m hm
  have hready : Ready f.inner a := by
    intro x y ty l hl hlevel hstorage
    -- before the body runs, only parameters are in scope, and none is an array in place
    rcases hf.scopes.placed x y ty l hl with hl | ⟨-, v, hv, hholds⟩
    · have hglobal := (hR.fits.scope.placed x y ty l hl).1
      rw [hlevel] at hglobal
      cases hglobal
    · obtain ⟨hshapes, -⟩ := hplain _ hf.declared
      obtain ⟨i, d, hi, -, hshape⟩ := hf.params.param_slot hshapes hv
      obtain ⟨size, harray⟩ := hholds.array hstorage
      rcases hshapes d (List.mem_of_getElem? hi) with h | h
      · rw [← hshape, harray] at h
        cases h
      · rw [← hshape, harray] at h
        cases h
  apply stmt_safe hR f.block hf.emits hbody hmbody (fun v hv => List.mem_append_right _ hv)
    (hf.scopes.mono fun v hv => List.mem_append_left _ hv) (by omega) hready
      (c := { c.next with mem := c.mem.write a.base c.ac })
    (by show c.pc + 1 = _; rw [hpc]) (h.inFrame hf hplain)
  · intro m₁ hm₁ c₁ io₁ arrays hsub hpc₁ hin₁ hkept₁
    rw [← hpc₁] at hret hmret
    exact hin₁.leave hR.fits hf h hkept₁ ⟨hret, hmret⟩ fun m₂ hm₂ => hnext m₂ (by omega)
  · intro m₁ hm₁ c₁ io₁ arrays hsub hleaving hin₁ hkept₁
    exact hin₁.leave hR.fits hf h hkept₁ hleaving fun m₂ hm₂ => hnext m₂ (by omega)

end Function

/-! ### Routines

Both routines return after one access to the device. -/

section Routine

variable {tys : List Ty} {c : Core} {io : σ} {gs : List Extent} {a : Activation}
  {stack : List Activation} {given : List Word} {n : Nat}

/-- A routine has no variables that it could store to, so it returns with the memory it had when it
had stored its return address. -/
theorem Entered.leave (hP : P.Fits) (h : Entered P tys c gs a stack given) {c' : Core}
    (hmem : c'.mem = c.mem.write a.base c.ac) (hgp : c'.gp = c.gp) (hfp : c'.fp = c.fp)
    (hleaving : Leaving P c')
    (hnext : ∀ m < n, ∀ c₁ io₁, Returned P c gs a stack c₁ →
      Safe P m ⟨c₁.machine, io₁, ⟨gs, stack⟩⟩ book) :
    Safe P n ⟨c'.machine, io, ⟨gs, a :: stack⟩⟩ (⟨⟨given, []⟩, []⟩ :: book) := by
  have hbase := h.base
  have hsound : Sound P c'.mem ⟨gs, a :: stack⟩ := by
    rw [hmem]
    exact h.sound_write
  have hsane : c'.Sane := by
    obtain ⟨h1, h2, h3, h4⟩ := h.sane
    refine ⟨?_, ?_, ?_, ?_⟩
    · rw [hfp]; exact h1
    · rw [hfp, hgp]; exact h2
    · rw [hgp]; exact h3
    · rw [hmem, hgp, Memory.size_write]; exact h4
  apply hsound.leave hP hsane (hgp.trans h.gp_eq) (hfp.trans h.fp_eq) hleaving.1 hleaving.2
  intro m hm
  apply hnext m hm
  refine ⟨rfl, ⟨hsane.fp_nonneg, hsane.fp_le, hsane.gp_lt, hsane.size_eq⟩, hgp.trans h.gp_eq,
    hfp.trans h.fp_eq, hsound.pop, hsound.chain.2.1, ?_⟩
  intro x hx _ _
  show c'.mem.read x = c.mem.read x
  rw [hmem, Memory.read_write_of_ne (by omega) (by omega)]

theorem input_safe (hP : P.Fits) {name : String} {r : BaseType}
    (hpool : (name, inputEntry) ∈ P.pool)
    (hsig : P.scope.Signature name r tys) (hpc : c.pc = inputEntry)
    (h : Entered P tys c gs a stack given)
    (hnext : ∀ m < n, ∀ c' io', Returned P c gs a stack c' →
      Safe P m ⟨c'.machine, io', ⟨gs, stack⟩⟩ book) :
    Safe P n ⟨c.machine, io, ⟨gs, a :: stack⟩⟩ (⟨⟨given, []⟩, []⟩ :: book) := by
  obtain ⟨h₀, h₁, h₂⟩ :
      P.code[c.pc]? = some (.rm .st .ac returnOffset .fp "input: store return") ∧
      P.code[c.pc + 1]? = some (.ro .read .ac .unused .unused "input integer value") ∧
      P.code[c.pc + 2]? = some returnInstr := by
    rw [hpc]
    exact ⟨hP.routines 0 (by decide), hP.routines 1 (by decide), hP.routines 2 (by decide)⟩
  obtain ⟨m₀, m₁, m₂⟩ : P.marks[c.pc]? = some .entry ∧ P.marks[c.pc + 1]? = some .body ∧
      P.marks[c.pc + 2]? = some .leave := by
    rw [hpc]
    exact ⟨hP.marks 4 (by decide), hP.marks 5 (by decide), hP.marks 6 (by decide)⟩
  rw [← hpc] at hpool
  apply h.store hP hpool hsig h₀ rfl m₀
  intro n₁ hn₁
  generalize hc₁ : ({ c.next with mem := c.mem.write a.base c.ac } : Core) = c₁
  have hpc₁ : c₁.pc = c.pc + 1 := by rw [← hc₁]; rfl
  have hmem₁ : c₁.mem = c.mem.write a.base c.ac := by rw [← hc₁]
  have hgp₁ : c₁.gp = c.gp := by rw [← hc₁]; rfl
  have hfp₁ : c₁.fp = c.fp := by rw [← hc₁]; rfl
  have hstable : Stable P c₁ ⟨gs, a :: stack⟩ .body := by
    have hsound := h.sound_write
    rw [← hmem₁] at hsound
    exact hsound.stable (hgp₁.trans h.gp_eq) (hfp₁.trans h.fp_eq)
  rw [← hpc₁] at h₁ m₁
  have hread : P.step c₁.machine io = _ := Core.step_read hP.size_lt (code_at h₁)
  -- the device answers with a word, or the machine stops with its error
  cases hdev : P.device.read io with
  | mk result io' =>
    rw [hdev] at hread
    cases result with
    | error e => exact hstable.ends hP h₁ m₁ Mark.noConfusion rfl hread (.read e (by rw [hdev]))
    | ok w =>
      apply hstable.go hP h₁ m₁ (Or.inl rfl) rfl hread
      intro n₂ hn₂
      have hpc₂ : c₁.pc + 1 = c.pc + 2 := by omega
      rw [← hpc₂] at h₂ m₂
      apply h.leave hP
      · exact hmem₁
      · exact hgp₁
      · exact hfp₁
      · exact ⟨h₂, m₂⟩
      · exact fun m hm => hnext m (by omega)

theorem output_safe (hP : P.Fits) {name : String} {r : BaseType}
    (hpool : (name, outputEntry) ∈ P.pool) (hsig : P.scope.Signature name r tys)
    (hpc : c.pc = outputEntry) (h : Entered P tys c gs a stack given)
    (hnext : ∀ m < n, ∀ c' io', Returned P c gs a stack c' →
      Safe P m ⟨c'.machine, io', ⟨gs, stack⟩⟩ book) :
    Safe P n ⟨c.machine, io, ⟨gs, a :: stack⟩⟩ (⟨⟨given, []⟩, []⟩ :: book) := by
  obtain ⟨h₀, h₁, h₂, h₃⟩ :
      P.code[c.pc]? = some (.rm .st .ac returnOffset .fp "output: store return") ∧
      P.code[c.pc + 1]? = some (.rm .ld .ac firstParamOffset .fp "load output value") ∧
      P.code[c.pc + 2]? = some (.ro .write .ac .unused .unused "output integer value") ∧
      P.code[c.pc + 3]? = some returnInstr := by
    rw [hpc]
    exact ⟨hP.routines 3 (by decide), hP.routines 4 (by decide), hP.routines 5 (by decide),
      hP.routines 6 (by decide)⟩
  obtain ⟨m₀, m₁, m₂, m₃⟩ : P.marks[c.pc]? = some .entry ∧ P.marks[c.pc + 1]? = some .body ∧
      P.marks[c.pc + 2]? = some .body ∧ P.marks[c.pc + 3]? = some .leave := by
    rw [hpc]
    exact ⟨hP.marks 7 (by decide), hP.marks 8 (by decide), hP.marks 9 (by decide),
      hP.marks 10 (by decide)⟩
  rw [← hpc] at hpool
  apply h.store hP hpool hsig h₀ rfl m₀
  intro n₁ hn₁
  generalize hc₁ : ({ c.next with mem := c.mem.write a.base c.ac } : Core) = c₁
  have hpc₁ : c₁.pc = c.pc + 1 := by rw [← hc₁]; rfl
  have hmem₁ : c₁.mem = c.mem.write a.base c.ac := by rw [← hc₁]
  have hgp₁ : c₁.gp = c.gp := by rw [← hc₁]; rfl
  have hfp₁ : c₁.fp = c.fp := by rw [← hc₁]; rfl
  have hsane₁ : c₁.Sane := by
    rw [← hc₁]
    exact ⟨h.sane.fp_nonneg, h.sane.fp_le, h.sane.gp_lt, h.sane.size_eq⟩
  -- behind the first store nothing changes in the memory up to the return, so every state is stable
  have hstable : ∀ w : Word, ∀ pc : Nat, Stable P
      { c₁ with ac := w, pc := pc } ⟨gs, a :: stack⟩ .body := by
    intro w pc
    have hsound := h.sound_write
    rw [← hmem₁] at hsound
    exact Sound.stable hsound (hgp₁.trans h.gp_eq) (hfp₁.trans h.fp_eq)
  rw [← hpc₁] at h₁ m₁
  have hload : P.step c₁.machine io = _ := Core.step_ld_base (g := false) hP.size_lt hsane₁
    (Or.inl rfl) (by decide) (by decide) (code_at h₁)
  split at hload
  · apply (hstable c₁.ac c₁.pc).go hP h₁ m₁ (Or.inl rfl) rfl hload
    intro n₂ hn₂
    generalize c₁.mem.read (firstParamOffset + c₁.origin false) = w
    have hpc₂ : (c₁.next.put .ac w).pc = c.pc + 2 := by
      show c₁.pc + 1 = c.pc + 2
      omega
    rw [← hpc₂] at h₂ m₂
    have hwrite : P.step (c₁.next.put .ac w).machine io = _ :=
      Core.step_write hP.size_lt (code_at h₂)
    -- the device takes the word, or the machine stops with its error
    cases hdev : P.device.write (c₁.next.put .ac w).ac io with
    | mk result io' =>
      rw [hdev] at hwrite
      cases result with
      | error e =>
        exact (hstable w (c₁.pc + 1)).ends hP h₂ m₂ Mark.noConfusion rfl hwrite
          (.write e _ (by rw [hdev]))
      | ok u =>
        apply (hstable w (c₁.pc + 1)).go hP h₂ m₂ (Or.inl rfl) rfl hwrite
        intro n₃ hn₃
        have hpc₃ : c₁.pc + 1 + 1 = c.pc + 3 := by omega
        rw [← hpc₃] at h₃ m₃
        apply h.leave hP
        · exact hmem₁
        · exact hgp₁
        · exact hfp₁
        · exact ⟨h₃, m₃⟩
        · exact fun m hm => hnext m (by omega)
  · exact (hstable c₁.ac c₁.pc).ends hP h₁ m₁ Mark.noConfusion rfl hload (.stackOverflow _)

end Routine

/-! ### All functions

Induction on the number of steps, with the contracts for fewer steps as the assumption about calls.
-/

/-- Every function that can be called is a function of the program or one of the routines. -/
def Linked (P : Scene σ) (ds : List Decl) : Prop :=
  ∀ name entry, (name, entry) ∈ P.pool →
    (name = "output" ∧ entry = outputEntry) ∨ (name = "input" ∧ entry = inputEntry) ∨
      ∃ f : CompiledFunction, f.Valid ds P.scope P.pool ∧ f.decl.name = name ∧ f.entry = entry ∧
        Holds P.code entry (f.decl.framed f.code) ∧
        Holds P.marks entry (.entry :: (f.checked.marks ++ [.leave]))

/-- Calls are safe for any number of steps. -/
theorem callsSafe (hP : P.Fits) {ds : List Decl} (hlinked : Linked P ds)
    (hplain : ∀ d ∈ ds, d.Plain)
    (N : Nat) : CallsSafe P N := by
  induction N with
  | zero =>
    intro n hn
    exact absurd hn (Nat.not_lt_zero n)
  | succ N ih =>
    intro n hn name entry r tys hpool hsig c io gs a stack given book hpc h hnext
    rcases hlinked name entry hpool with ⟨-, rfl⟩ | ⟨-, rfl⟩ | ⟨f, hf, rfl, rfl, hcode, hmarks⟩
    · exact output_safe hP hpool hsig hpc h hnext
    · exact input_safe hP hpool hsig hpc h hnext
    · obtain ⟨-, rfl⟩ := hsig.unique hf.signature
      exact function_safe ⟨hP, hf, ih⟩ hplain (by omega) hpool hcode hmarks hpc h hnext

end MiniC
