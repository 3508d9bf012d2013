import MiniC.Proofs.Safety.Variables

/-!
# Safe calls

A call saves the frame base below the new frame, moves the frame base, and jumps. What the called
function owes its caller is that the frames and arrays of the callers are intact when it returns,
and that nothing in the cells of the callers has changed but elements of their arrays.

* `Passes`, `Gives`: the parameters of a frame hold the arrays and the values that are passed
* `Entered`, `Returned`: the states between which a called function runs
* `CallsSafe`: all functions keep to this for a number of steps
* `Entered.store`, `Sound.leave`: the first and the last instruction of a function
* `callSequence_safe`: the instructions around a call
-/

namespace MiniC

variable {σ : Type} {P : Scene σ} {book : Book}

/-- The parameters of the frame at `base` hold the arrays that are passed to them. -/
def Passes (mem : Memory) (gs : List Extent) (stack : List Activation) (base : Int)
    (tys : List Ty) (references : List (Int × Extent)) : Prop :=
  ∀ (i : Nat) ty, tys[i]? = some ty → ty.isArray = true →
    mem.read (base - 2 - i) = refWord (references.lookup (-2 - (i : Int))) ∧
    ∀ e, references.lookup (-2 - (i : Int)) = some e → e ∈ gs ++ stack.flatMap Activation.arrays

/-- The parameters of the frame at `base` hold the values that the call is given: one for each of
them, unless the call starts the program. -/
structure Gives (mem : Memory) (stack : List Activation) (base : Int) (tys : List Ty)
    (given : List Word) : Prop where
  called : stack ≠ [] → given.length = tys.length
  started : stack = [] → given = []
  cells : ∀ i < tys.length, mem.read (base - 2 - i) = given.getD i 0

/-- A function has been jumped to: `a` is its call, `stack` are the calls that wait. -/
structure Entered (P : Scene σ) (tys : List Ty) (c : Core) (gs : List Extent) (a : Activation)
    (stack : List Activation) (given : List Word) : Prop where
  sane : c.Sane
  gp_eq : c.gp = P.top
  fp_eq : c.fp = a.base
  ac_eq : c.ac = Int64.ofInt a.ret
  sound : Sound P c.mem ⟨gs, stack⟩
  globals : GlobalsExist P gs
  arrays_eq : a.arrays = []
  base : 2 ≤ a.base ∧ a.base ≤ P.base
  below : ∀ b ∈ stack, a.base + 2 ≤ b.base
  above : ∀ e ∈ stack.flatMap Activation.arrays, a.base < e.base
  first : stack = [] → a.base = P.base
  saved : c.mem.read (a.base - 1) = Int64.ofInt (Shadow.callerBase P.top stack)
  ret : a.ret < P.code.length ∧ P.marks[a.ret]? = some .resume
  params : Passes c.mem gs stack a.base tys a.references
  gives : Gives c.mem stack a.base tys given

/-- The function that was entered in the state `c` has returned. -/
structure Returned (P : Scene σ) (c : Core) (gs : List Extent) (a : Activation)
    (stack : List Activation) (c' : Core) : Prop where
  pc_eq : c'.pc = a.ret
  sane : c'.Sane
  gp_eq : c'.gp = P.top
  fp_eq : c'.fp = a.base
  sound : Sound P c'.mem ⟨gs, stack⟩
  saved : c'.mem.read (a.base - 1) = Int64.ofInt (Shadow.callerBase P.top stack)
  kept : ∀ x, a.base < x → x ≤ P.base → (∀ e ∈ stack.flatMap Activation.arrays, ¬e.Element x) →
    c'.mem.read x = c.mem.read x

/-- For fewer than `N` steps, every function is safe if what follows its return is. -/
def CallsSafe (P : Scene σ) (N : Nat) : Prop :=
  ∀ n < N, ∀ name entry r tys, (name, entry) ∈ P.pool → P.scope.Signature name r tys →
    ∀ c io gs a stack given book, c.pc = entry → Entered P tys c gs a stack given →
      (∀ m < n, ∀ c' io', Returned P c gs a stack c' →
        Safe P m ⟨c'.machine, io', ⟨gs, stack⟩⟩ book) →
      Safe P n ⟨c.machine, io, ⟨gs, a :: stack⟩⟩ (⟨⟨given, []⟩, []⟩ :: book)

/-! ### Entering a function

The first instruction stores the return address. Before it the new frame is not settled, and behind
it the function runs in a frame of its own. -/

section Enter

variable {tys : List Ty} {c : Core} {io : σ} {gs : List Extent} {a : Activation}
  {stack : List Activation} {given : List Word} {n : Nat}

/-- The return address is stored at the base of the new frame, which completes the frame. -/
theorem Entered.sound_write (h : Entered P tys c gs a stack given) :
    Sound P (c.mem.write a.base c.ac) ⟨gs, a :: stack⟩ := by
  have hbase := h.base
  -- a function that was just entered has no arrays yet
  have hlive : ∀ e, e ∈ (⟨gs, a :: stack⟩ : Shadow).live ↔ e ∈ (⟨gs, stack⟩ : Shadow).live := by
    intro e
    simp [Shadow.live, h.arrays_eq]
  have hne : ∀ e ∈ (⟨gs, stack⟩ : Shadow).live, a.base < e.base := by
    intro e he
    rcases List.mem_append.mp he with he | he
    · have := (h.sound.globals e he).2.1
      omega
    · exact h.above e he
  have hframe : ∀ b ∈ stack, a.base ≠ b.base ∧ a.base ≠ b.base - 1 := by
    intro b hb
    have := h.below b hb
    omega
  refine ⟨?_, ?_, ⟨?_, ?_, ?_, ?_⟩, ⟨hbase.1, hbase.2, h.below, ?_, h.above, h.sound.framed⟩, ?_,
    h.sound.globals, ?_⟩
  · rw [Memory.read_write_of_ne (by omega) (by omega), h.sound.zero]
  · intro e he
    have hlt := hne e ((hlive e).mp he)
    rw [Memory.read_write_of_ne (by omega) (by omega), h.sound.lengths e ((hlive e).mp he)]
  · rw [Memory.read_write_self, h.ac_eq]
  · rw [Memory.read_write_of_ne (by omega) (by omega), h.saved]
  · cases hstack : stack with
    | nil => exact h.first hstack
    | cons b below =>
      have := h.below b (by rw [hstack]; exact List.mem_cons_self)
      show a.base < b.base
      omega
  · exact h.sound.chain.write (fun b hb => (h.sound.framed.of_mem hb).1) (by omega) hframe c.ac
  · rw [h.arrays_eq]
    intro e he
    cases he
  · intro b hb
    rcases List.mem_cons.mp hb with rfl | hb
    · exact h.ret
    · exact h.sound.returns b hb
  · intro e he e' he'
    exact h.sound.apart e ((hlive e).mp he) e' ((hlive e').mp he')

/-- A function that is entered finds what it is given. -/
theorem Entered.receiving (hP : P.Fits) (h : Entered P tys c gs a stack given) {i : Instr}
    (hi : P.code[c.pc]? = some i) {name : String} {r : BaseType} (hpool : (name, c.pc) ∈ P.pool)
    (hsig : P.scope.Signature name r tys) :
    Receiving P ⟨c.machine, io, ⟨gs, a :: stack⟩⟩ (Book.accounts (⟨⟨given, []⟩, []⟩ :: book)) := by
  refine ⟨name, c.pc, r, tys, a, stack, given, hpool, hP.toInt_pc hi, hsig, rfl,
    ⟨Book.accounts book, rfl⟩, ?_,
    h.gives.called, h.gives.started, h.gives.cells, fun i ty hi hty => (h.params i ty hi hty).1⟩
  show Int64.ofInt c.fp = _
  rw [h.fp_eq]

/-- The first instruction of a function stores the return address. -/
theorem Entered.store (hP : P.Fits) (h : Entered P tys c gs a stack given) {name : String}
    {r : BaseType} (hpool : (name, c.pc) ∈ P.pool) (hsig : P.scope.Signature name r tys)
    {t : String}
    (hi : P.code[c.pc]? = some (.rm .st .ac returnOffset .fp t))
    (hnoted : Instr.noted (.rm .st .ac returnOffset .fp t) = false)
    (hmk : P.marks[c.pc]? = some .entry)
    (hnext : ∀ m < n, Safe P m ⟨{ c.next with mem := c.mem.write a.base c.ac }.machine, io,
      ⟨gs, a :: stack⟩⟩ (⟨⟨given, []⟩, []⟩ :: book)) :
    Safe P n ⟨c.machine, io, ⟨gs, a :: stack⟩⟩ (⟨⟨given, []⟩, []⟩ :: book) := by
  have hbase := h.base
  have hzero : returnOffset + c.fp = a.base := by
    rw [h.fp_eq, returnOffset, Int.zero_add]
  have hstep : P.step c.machine io = _ := Core.step_st_base (g := false) hP.size_lt h.sane
    (by decide) (by decide) (code_at hi)
  rw [show returnOffset + c.origin false = a.base from hzero, if_pos (by omega)] at hstep
  have hreg : returnOffset + (c.machine.reg .fp).toInt = a.base := by
    rw [← hzero]
    exact congrArg _ (h.sane.toInt_origin false)
  have hlive : ∀ e ∈ (⟨gs, a :: stack⟩ : Shadow).live, a.base < e.base ∧
      c.mem.read e.base = Int64.ofInt e.size := by
    intro e he
    simp only [Shadow.live, List.flatMap_cons, h.arrays_eq, List.nil_append] at he
    refine ⟨?_, h.sound.lengths e he⟩
    rcases List.mem_append.mp he with he | he
    · have := (h.sound.globals e he).2.1
      omega
    · exact h.above e he
  have hprotected : ¬(⟨c.machine, io, ⟨gs, a :: stack⟩⟩ : Watched σ).Protected P.marks a.base := by
    rintro (⟨b, hb, hor⟩ | ⟨⟨b, hb, hlt⟩, -⟩)
    · -- the new frame is not settled before this store
      simp only [Watched.settled, hP.mark_eq hi, hmk, List.tail_cons] at hb
      have := h.below b hb
      omega
    · simp only [List.head?_cons, Option.mem_def, Option.some.injEq] at hb
      subst hb
      omega
  have hrecording : Recording P ⟨c.machine, io, ⟨gs, a :: stack⟩⟩ :=
    recording_of_store hP hi hmk (by decide) hreg (fun hs => absurd hs (by decide))
      (fun _ => by omega)
  apply Safe.step_quiet hP hi hnoted hmk rfl rfl
    (good_store hP hi hmk hreg ⟨fun e he => (hlive e he).2, fun hin => by cases hin⟩
      (fun e he heq => by have := (hlive e he).1; omega) hprotected
      (fun hs => absurd hs (by decide)) hrecording (fun _ => h.receiving hP hi hpool hsig) _)
    hstep hnext
  rw [hstep]
  exact .goesOn

end Enter

/-! ### Leaving a function

The return loads the program counter from the frame base. Behind it the frame base of the caller is
restored, and the arrays of the function have ended. -/

section Leave

variable {c : Core} {io : σ} {gs : List Extent} {a : Activation} {stack : List Activation} {n : Nat}

theorem Sound.stable {mk : Mark} (h : Sound P c.mem ⟨gs, a :: stack⟩) (hgp : c.gp = P.top)
    (hfp : c.fp = a.base) : Stable P c ⟨gs, a :: stack⟩ mk := by
  have hbase := (h.framed.of_mem List.mem_cons_self).1
  exact ⟨h.lengths, fun _ => ⟨hgp, h.chain, a, stack, rfl, hfp, by omega⟩⟩

/-- What is left when the latest call has ended. -/
theorem Sound.pop {mem : Memory} (h : Sound P mem ⟨gs, a :: stack⟩) : Sound P mem ⟨gs, stack⟩ := by
  have hlive : ∀ e ∈ (⟨gs, stack⟩ : Shadow).live, e ∈ (⟨gs, a :: stack⟩ : Shadow).live := by
    intro e he
    simp only [Shadow.live, List.flatMap_cons, List.mem_append] at he ⊢
    rcases he with he | he
    · exact Or.inl he
    · exact Or.inr (Or.inr he)
  obtain ⟨-, -, -, hchain⟩ := h.chain
  obtain ⟨-, -, -, -, -, hframed⟩ := h.framed
  exact ⟨h.zero, fun e he => h.lengths e (hlive e he), hchain, hframed,
    fun b hb => h.returns b (List.mem_cons_of_mem a hb), h.globals,
    fun e he e' he' => h.apart e (hlive e he) e' (hlive e' he')⟩

/-- A load of the program counter or of the frame base is no store and no access. -/
theorem good_restore (hP : P.Fits) {g : Shadow} {mk : Mark} {r : Reg} {d : Int} {t : String}
    (hi : P.code[c.pc]? = some (.rm .ld r d .fp t)) (hr : r ≠ .ac1)
    (hmk : P.marks[c.pc]? = some mk) (hentry : mk ≠ .entry) (hstable : Stable P c g mk)
    (hstep : (P.step c.machine io).stopped = none)
    (hleave : r = .pc → ∃ a rest, g.stack = a :: rest ∧ P.marks[a.ret]? = some .resume ∧
      (P.step c.machine io).machine.reg .pc = Int64.ofInt a.ret)
    (hresume : r = .fp → (P.step c.machine io).machine.reg .fp
      = Int64.ofInt (Shadow.callerBase P.top g.stack)) :
    Good P ⟨c.machine, io, g⟩ book := by
  have hcur := hP.current_eq hi
  have hmark := (hP.mark_eq hi).trans hmk
  have hstored : c.machine.stored? P.code.toArray = none := by
    unfold Machine.stored?
    rw [hcur]
  have hquiet : (Instr.rm .ld r d .fp t).reloads = false := by simp [Instr.reloads, hr]
  refine ⟨?_, ⟨hstable.lengths, ?_, ?_⟩, ⟨hstable.frames_eq io hmark, ?_, ?_, ?_⟩,
    recording_of_plain hP hi hstored, fun hm =>
      absurd (Option.some.inj (hmark.symm.trans hm)) hentry,
    reloading_of_quiet hP hi hquiet⟩
  · show Orderly _ _ _ (P.step c.machine io).stopped
    rw [hstep]
    exact .goesOn
  · intro e he hx
    cases hstored.symm.trans hx
  · rintro x hx -
    -- the base of the address is the frame register, so no element is accessed
    have hnone : c.machine.accessed? P.code.toArray = none := by
      unfold Machine.accessed?
      rw [hcur]
      exact if_neg fun hs => absurd hs.2 (by decide)
    cases hnone.symm.trans hx
  · intro d' t' hd
    cases hcur.symm.trans hd
    obtain ⟨a, rest, hstack, hret, hpc⟩ := hleave rfl
    exact ⟨a, rest, hstack, hret, hstep, hpc⟩
  · intro d' t' hd
    cases hcur.symm.trans hd
    exact ⟨hstep, hresume rfl⟩
  · intro x hx
    cases hstored.symm.trans hx

/-- The last instruction of a function goes on behind the call. -/
theorem Sound.leave (hP : P.Fits) (h : Sound P c.mem ⟨gs, a :: stack⟩) (hsane : c.Sane)
    (hgp : c.gp = P.top) (hfp : c.fp = a.base) (hi : P.code[c.pc]? = some returnInstr)
    (hmk : P.marks[c.pc]? = some .leave)
    (hnext : ∀ m < n, Safe P m ⟨{ c with pc := a.ret }.machine, io, ⟨gs, stack⟩⟩ book)
    (page : Page) : Safe P n ⟨c.machine, io, ⟨gs, a :: stack⟩⟩ (page :: book) := by
  have hbase := (h.framed.of_mem List.mem_cons_self).1
  have hzero : returnOffset + c.fp = a.base := by
    rw [hfp, returnOffset, Int.zero_add]
  have hstep : P.step c.machine io = _ := Core.step_ld_pc hP.size_lt hsane (by decide) (by decide)
    (by omega) (by rw [hzero]; exact h.chain.1) (code_at hi)
  apply Safe.step_lt (good_restore hP hi (by decide) hmk Mark.noConfusion
    (h.stable hgp hfp) _ _ _) hstep
  · have hshadow : (⟨gs, a :: stack⟩ : Shadow).step P.code.toArray P.marks c.machine
        = ⟨gs, stack⟩ := by
      unfold Shadow.step
      rw [hP.mark_eq hi, hmk]
      rfl
    have hnote : P.note c.machine (page :: book) = book := by
      unfold Scene.note Book.step
      rw [hP.mark_eq hi, hmk]
      rfl
    rw [hshadow, hnote]
    exact hnext
  · rw [hstep]
  · intro _
    rw [hstep]
    exact ⟨a, stack, rfl, (h.returns a List.mem_cons_self).2, rfl⟩
  · intro hr
    cases hr

/-- Behind a call the frame base of the caller is restored. -/
theorem Returned.resume (hP : P.Fits) {c₀ : Core} (h : Returned P c₀ gs a stack c) {t : String}
    (hpos : 2 ≤ a.base) (hi : P.code[c.pc]? = some (.rm .ld .fp savedFrameOffset .fp t))
    (hmk : P.marks[c.pc]? = some .resume)
    (hnext : ∀ m < n, Safe P m ⟨{ c.next with fp := Shadow.callerBase P.top stack }.machine, io,
      ⟨gs, stack⟩⟩ book) :
    Safe P n ⟨c.machine, io, ⟨gs, stack⟩⟩ book := by
  have hsaved : savedFrameOffset + c.fp = a.base - 1 := by
    rw [h.fp_eq, savedFrameOffset]
    omega
  have hstep : P.step c.machine io = _ := Core.step_ld_fp hP.size_lt h.sane (by decide) (by decide)
    (by omega) (by rw [hsaved]; exact h.saved) (code_at hi)
  apply Safe.step_quiet hP hi (Instr.noted_of_load (by decide) _ _ _) hmk rfl rfl
    (good_restore hP hi (by decide) hmk Mark.noConfusion ⟨h.sound.lengths,
      fun hin => by cases hin⟩ _ _ _) hstep
    hnext
  · rw [hstep]
  · intro hr
    cases hr
  · intro _
    rw [hstep]
    rfl

end Leave

/-! ### Around a call

The five instructions of a call, with the contract of the called function between the fourth and the
fifth. -/

/-- The code of a caller runs: a function, or with no active call the code outside of functions. -/
structure Caller (P : Scene σ) (c : Core) (gs : List Extent) (stack : List Activation) : Prop where
  sane : c.Sane
  gp_eq : c.gp = P.top
  fp_eq : c.fp = Shadow.callerBase P.top stack
  sound : Sound P c.mem ⟨gs, stack⟩
  globals : GlobalsExist P gs

/-- A new frame at `base` lies below all that the callers have. -/
structure Room (P : Scene σ) (stack : List Activation) (base : Int) : Prop where
  le : base ≤ P.base
  below : ∀ b ∈ stack, base + 2 ≤ b.base
  above : ∀ e ∈ stack.flatMap Activation.arrays, base < e.base
  first : stack = [] → base = P.base

section Call

variable {tys : List Ty} {c : Core} {io : σ} {gs : List Extent} {stack : List Activation}
  {n N : Nat}

/-- Where the base of the caller's frame is saved there is nothing yet. -/
theorem Room.storable {base : Int} (h : Room P stack base) (hsound : Sound P c.mem ⟨gs, stack⟩) :
    Storable ⟨gs, stack⟩ (base - 1) := by
  have hle := h.le
  refine ⟨?_, ?_, ?_⟩
  · intro e he
    rcases List.mem_append.mp he with he | he
    · have := (hsound.globals e he).2.1
      omega
    · have := h.above e he
      omega
  · intro b hb
    have := h.below b hb
    omega
  · rintro ⟨b, hb, hlt⟩ -
    have := h.below b (List.mem_of_head? hb)
    omega

/-- The return address is loaded, and the function is jumped to. The watcher and the book take
note of the call. -/
theorem jump_safe (hP : P.Fits) {base : Int} (hsane : c.Sane) (hgp : c.gp = P.top)
    (hfp : c.fp = base) (hlengths : ∀ e ∈ (⟨gs, stack⟩ : Shadow).live,
      c.mem.read e.base = Int64.ofInt e.size) {d : Int} {entry : Nat} (hentry : entry < 2 ^ 31)
    (hd : d = entry - (c.pc + 2 : Nat)) {t t' : String}
    (h₀ : P.code[c.pc]? = some (.rm .lda .ac 1 .pc t))
    (h₁ : P.code[c.pc + 1]? = some (.rm .lda .pc d .pc t')) {mk : Mark}
    {arrays : List (Option VarUse)} (m₀ : P.marks[c.pc]? = some mk)
    (hmk : mk = .calling ∨ mk = .outside) (m₁ : P.marks[c.pc + 1]? = some (.call arrays))
    {book' : Book} (hnote : ∀ m : Machine, m.mark P.marks = some (.call arrays) →
      P.note m book = book')
    (hnext : ∀ m < n, Safe P m
      ⟨{ c with pc := entry, ac := Int64.ofInt (c.pc + 2 : Nat) }.machine, io,
        ⟨gs, ⟨base, c.pc + 2, (⟨gs, stack⟩ : Shadow).passed P.top firstParamOffset arrays, []⟩ ::
          stack⟩⟩ book') :
    Safe P n ⟨c.machine, io, ⟨gs, stack⟩⟩ book := by
  have hlen := hP.code_lt
  have hpc := (List.getElem?_eq_some_iff.mp h₁).1
  have hout : mk.inside = false := by rcases hmk with rfl | rfl <;> rfl
  -- the return address is loaded: nothing changes but the accumulator
  have hstep₀ : P.step c.machine io = _ := Core.step_lda_pc hP.size_lt (code_at h₀)
  have horderly₀ : Orderly P.code.toArray P.device ⟨c.machine, io, ⟨gs, stack⟩⟩
      (P.step c.machine io).stopped := by
    rw [hstep₀]
    exact .goesOn
  apply Safe.step_quiet hP h₀ rfl m₀ (by rcases hmk with rfl | rfl <;> rfl)
    (by rcases hmk with rfl | rfl <;> rfl)
    (good_plain hP h₀ m₀ rfl (by rcases hmk with rfl | rfl <;> exact Mark.noConfusion)
      ⟨hlengths, fun hin => by rw [hout] at hin; cases hin⟩ horderly₀) hstep₀
  intro n₁ hn₁
  generalize hc₁ : ({ c.next with ac := Int64.ofInt (c.pc + 2 : Nat) } : Core) = c₁
  have hpc₁ : c₁.pc = c.pc + 1 := by rw [← hc₁]; rfl
  have hmem₁ : c₁.mem = c.mem := by rw [← hc₁]; rfl
  have hsane₁ : c₁.Sane := by
    rw [← hc₁]
    exact ⟨hsane.fp_nonneg, hsane.fp_le, hsane.gp_lt, hsane.size_eq⟩
  rw [← hpc₁] at h₁ m₁
  have hstep₁ : P.step c₁.machine io = _ := Core.step_jump (n := entry) hP.size_lt (by omega)
    (by omega) (code_at h₁)
  -- the jump itself always goes on
  have horderly₁ : Orderly P.code.toArray P.device ⟨c₁.machine, io, ⟨gs, stack⟩⟩
      (P.step c₁.machine io).stopped := by
    rw [hstep₁]
    exact .goesOn
  -- the jump opens an activation beside the run, with this return address and these arrays
  have hshadow : (⟨gs, stack⟩ : Shadow).step P.code.toArray P.marks c₁.machine =
      ⟨gs, ⟨base, c.pc + 2, (⟨gs, stack⟩ : Shadow).passed P.top firstParamOffset arrays, []⟩ ::
        stack⟩ := by
    have hfp₁ : (c₁.machine.reg .fp).toInt = base := by
      rw [← hfp, ← hc₁]
      exact hsane.toInt_origin false
    have hgp₁ : (c₁.machine.reg .gp).toInt = P.top := by
      rw [← hgp, ← hc₁]
      exact hsane.toInt_origin true
    have hret : (c₁.machine.reg .pc).toInt.toNat + 1 = c.pc + 2 := by
      rw [Core.reg_pc, Core.toInt_pc (by omega), Int.toNat_natCast, hpc₁]
    unfold Shadow.step
    rw [hP.mark_eq h₁, m₁]
    simp only [hfp₁, hgp₁, hret]
  apply Safe.step_lt (good_plain hP h₁ m₁ rfl Mark.noConfusion
    ⟨by rw [hmem₁]; exact hlengths, fun hin => by cases hin⟩ horderly₁) hstep₁
  rw [hshadow, hnote _ ((hP.mark_eq h₁).trans m₁)]
  intro m hm
  have hsafe := hnext m (by omega)
  rw [← hc₁]
  exact hsafe

/-- When the caller has saved its frame base and the base has moved down, a jump enters the function
with what the caller passes. -/
theorem Caller.entered (h : Caller P c gs stack) (entry : Nat) {base : Int}
    (hroom : Room P stack base) (hpos : 0 < base - 1) {c' : Core} (hsane : c'.Sane)
    (hgp : c'.gp = P.top) (hfp : c'.fp = base) (hsound : Sound P c'.mem ⟨gs, stack⟩)
    (hsaved : c'.mem.read (base - 1) = Int64.ofInt (Shadow.callerBase P.top stack))
    (hread : ∀ x, x ≠ base - 1 → c'.mem.read x = c.mem.read x)
    (hret : c'.pc + 2 < P.code.length ∧ P.marks[c'.pc + 2]? = some .resume)
    {references : List (Int × Extent)} (hparams : Passes c.mem gs stack base tys references)
    {given : List Word} (hgives : Gives c.mem stack base tys given) :
    Entered P tys { c' with pc := entry, ac := Int64.ofInt (c'.pc + 2 : Nat) } gs
      ⟨base, c'.pc + 2, references, []⟩ stack given where
  sane := ⟨hsane.fp_nonneg, hsane.fp_le, hsane.gp_lt, hsane.size_eq⟩
  gp_eq := hgp
  fp_eq := hfp
  ac_eq := rfl
  sound := hsound
  globals := h.globals
  arrays_eq := rfl
  base := ⟨show 2 ≤ base by omega, hroom.le⟩
  below := hroom.below
  above := hroom.above
  first := hroom.first
  saved := hsaved
  ret := hret
  -- the parameters lie below the saved frame base, which is all that has changed
  params i ty hi hty := by
    obtain ⟨hparam, hlive⟩ := hparams i ty hi hty
    refine ⟨?_, hlive⟩
    show c'.mem.read (base - 2 - i) = _
    rw [hread _ (by omega), hparam]
  gives := by
    refine ⟨hgives.called, hgives.started, ?_⟩
    intro i hi
    show c'.mem.read (base - 2 - i) = _
    rw [hread _ (by omega), hgives.cells i hi]

/-- With its frame base restored, the caller goes on behind the call. -/
theorem Returned.caller {c₁ c' : Core} {a : Activation} (h : Caller P c gs stack)
    (hreturned : Returned P c₁ gs a stack c') :
    Caller P { c'.next with fp := Shadow.callerBase P.top stack } gs stack := by
  have hfp := h.fp_eq
  have hgp := h.gp_eq
  have hgp' := hreturned.gp_eq
  have hnonneg := h.sane.fp_nonneg
  have hfp_le := h.sane.fp_le
  have hsane : ({ c'.next with fp := Shadow.callerBase P.top stack } : Core).Sane :=
    ⟨show 0 ≤ Shadow.callerBase P.top stack by omega,
      show Shadow.callerBase P.top stack ≤ c'.gp by omega, hreturned.sane.gp_lt,
      hreturned.sane.size_eq⟩
  exact ⟨hsane, hgp', rfl, hreturned.sound, h.globals⟩

/-- The instructions around a call with the new frame at `base`. -/
theorem callSequence_safe (hP : P.Fits) (hcalls : CallsSafe P N) (hn : n ≤ N) {name : String}
    {entry : Nat} {r : BaseType} (hpool : (name, entry) ∈ P.pool) (hentry : entry < 2 ^ 31)
    (hsig : P.scope.Signature name r tys) (h : Caller P c gs stack) {frame base : Int}
    (hframe : frame ≤ 0) (hlow : -2 ^ 31 ≤ frame - 1) (hbase : frame + c.fp = base)
    (hroom : Room P stack base) {start : Nat} (hpc : c.pc = start) {d : Int} {t : String}
    (hd : d = entry - (start + 4 : Nat))
    (hcode : Holds P.code start (callSequence frame (.rm .lda .pc d .pc t))) {mk mk' : Mark}
    {arrays : List (Option VarUse)}
    (hmarks : Holds P.marks start [mk, mk, mk', .call arrays, .resume])
    (hmk : mk = .body ∧ stack ≠ [] ∨ mk = .outside) (hmk' : mk' = .calling ∨ mk' = .outside)
    (hparams : Passes c.mem gs stack base tys
      ((⟨gs, stack⟩ : Shadow).passed P.top firstParamOffset arrays))
    {given : List Word} (hgives : Gives c.mem stack base tys given) {book' : Book}
    (hnote : ∀ m : Machine, m.mark P.marks = some (.call arrays) →
      P.note m book = ⟨⟨given, []⟩, []⟩ :: book')
    (hnext : ∀ m < n, ∀ (c' : Core) (io' : σ), c'.pc = start + 5 → Caller P c' gs stack →
      (∀ x, base < x → x ≤ P.base → (∀ e ∈ stack.flatMap Activation.arrays, ¬e.Element x) →
        c'.mem.read x = c.mem.read x) → Safe P m ⟨c'.machine, io', ⟨gs, stack⟩⟩ book') :
    Safe P n ⟨c.machine, io, ⟨gs, stack⟩⟩ book := by
  subst hpc
  have hlen := hP.code_lt
  have hge := hP.globalsEnd_le
  have hbound : c.pc + 5 ≤ P.code.length := hcode.bound (List.cons_ne_nil _ _)
  simp only [callSequence, holds_cons] at hcode hmarks
  obtain ⟨h₀, h₁, h₂, h₃, h₄, -⟩ := hcode
  obtain ⟨m₀, m₁, m₂, m₃, m₄, -⟩ := hmarks
  -- before the frame base moves, the caller's frame is in place
  have hstable : ∀ c' : Core, c'.gp = P.top → c'.fp = Shadow.callerBase P.top stack →
      Sound P c'.mem ⟨gs, stack⟩ → Stable P c' ⟨gs, stack⟩ mk := by
    intro c' hgp hfp hsound
    rcases hmk with ⟨rfl, hne⟩ | rfl
    · cases stack with
      | nil => exact absurd rfl hne
      | cons a rest => exact hsound.stable hgp hfp
    · exact ⟨hsound.lengths, fun hin => by cases hin⟩
  have hbody : mk = .body ∨ mk = .outside := hmk.imp And.left id
  have hstorable := hroom.storable h.sound
  have hsaved : frame + savedFrameOffset + c.fp = base - 1 := by
    rw [savedFrameOffset]
    omega
  have hreg : frame + savedFrameOffset + (c.machine.reg .fp).toInt = base - 1 := by
    rw [← hsaved]
    exact congrArg _ (h.sane.toInt_origin false)
  have hstep₀ : P.step c.machine io = _ := Core.step_st_fp hP.size_lt h.sane
    (by rw [savedFrameOffset]; omega) (by rw [savedFrameOffset]; omega) (code_at h₀)
  have hmk₀ : mk ≠ .entry := by rcases hbody with rfl | rfl <;> exact Mark.noConfusion
  have hgood₀ : _ → _ → Good P ⟨c.machine, io, ⟨gs, stack⟩⟩ book := good_store_base hP h₀
    (by decide) m₀
    hmk₀ hreg (hstable c h.gp_eq h.fp_eq h.sound) hstorable
  rw [hsaved] at hstep₀
  by_cases hpos : 0 < base - 1
  · rw [if_pos hpos] at hstep₀
    apply Safe.step_quiet hP h₀ rfl m₀ (by rcases hbody with rfl | rfl <;> rfl)
      (by rcases hbody with rfl | rfl <;> rfl)
      (hgood₀ (fun _ => hpos) (by rw [hstep₀]; exact .goesOn)) hstep₀
    intro n₁ hn₁
    have hsound : Sound P (c.mem.write (base - 1) (Int64.ofInt c.fp)) ⟨gs, stack⟩ :=
      h.sound.write hge hpos hstorable _
    generalize hmem : c.mem.write (base - 1) (Int64.ofInt c.fp) = mem at hsound
    have hread : ∀ x, x ≠ base - 1 → mem.read x = c.mem.read x := by
      intro x hx
      rw [← hmem, Memory.read_write_of_ne hpos hx.symm]
    have hsaved : mem.read (base - 1) = Int64.ofInt (Shadow.callerBase P.top stack) := by
      rw [← hmem, Memory.read_write_self, h.fp_eq]
    have hsize : (mem.size : Int) = c.gp + 1 := by
      rw [← hmem, Memory.size_write, h.sane.size_eq]
    have hsane₁ : ({ c.next with mem := mem } : Core).Sane :=
      ⟨h.sane.fp_nonneg, h.sane.fp_le, h.sane.gp_lt, hsize⟩
    have hstep₁ : P.step ({ c.next with mem := mem } : Core).machine io = _ :=
      Core.step_lda_fp hP.size_lt hsane₁ (by omega) hframe (code_at h₁)
    apply (hstable { c.next with mem := mem } h.gp_eq h.fp_eq hsound).go hP h₁ m₁ hbody rfl hstep₁
    intro n₂ hn₂
    generalize hc₂ : ({ c with pc := c.pc + 1 + 1, mem := mem, fp := base } : Core) = c₂
    have hpc₂ : c₂.pc = c.pc + 1 + 1 := by rw [← hc₂]
    have hmem₂ : c₂.mem = mem := by rw [← hc₂]
    have hgp₂ : c₂.gp = P.top := by rw [← hc₂, h.gp_eq]
    have hfp₂ : c₂.fp = base := by rw [← hc₂]
    have hsane₂ : c₂.Sane := by
      have hgp := h.gp_eq
      have hle := hroom.le
      have hbase_le := hP.base_le
      have hlt := h.sane.gp_lt
      rw [← hc₂]
      exact ⟨show 0 ≤ base by omega, show base ≤ c.gp by omega, hlt, hsize⟩
    have hgoal : Safe P n₂ ⟨c₂.machine, io, ⟨gs, stack⟩⟩ book := by
      rw [← hpc₂] at h₂ h₃ m₂ m₃
      apply jump_safe hP hsane₂ hgp₂ hfp₂ (by rw [hmem₂]; exact hsound.lengths) hentry (by omega)
        h₂ h₃ m₂ hmk' m₃ hnote
      intro n₃ hn₃
      rw [← hmem₂] at hsound hsaved hread
      have hret : c₂.pc + 2 < P.code.length ∧ P.marks[c₂.pc + 2]? = some .resume := by
        rw [hpc₂]
        exact ⟨by omega, m₄⟩
      have hentered := h.entered entry hroom hpos hsane₂ hgp₂ hfp₂ hsound hsaved hread hret hparams
        hgives
      apply hcalls n₃ (by omega) name entry r tys hpool hsig _ io gs _ stack given book' rfl
        hentered
      intro n₄ hn₄ c₄ io₄ hreturned
      have hpc₄ : c₄.pc = c.pc + 4 := by
        rw [hreturned.pc_eq, hpc₂]
      rw [show c.pc + 1 + 1 + 1 + 1 = c₄.pc by omega] at h₄ m₄
      apply hreturned.resume hP (show 2 ≤ base by omega) h₄ m₄
      intro m hm
      apply hnext m (by omega)
      · show c₄.pc + 1 = c.pc + 5
        omega
      · exact hreturned.caller h
      · intro x hx hle helem
        show c₄.mem.read x = c.mem.read x
        rw [hreturned.kept x hx hle helem]
        exact hread x (by omega)
    rw [← hc₂, ← hbase] at hgoal
    exact hgoal
  · rw [if_neg hpos] at hstep₀
    apply Safe.stop (hgood₀ (fun hgo => by rw [hstep₀] at hgo; cases hgo) _) hstep₀
    rw [hstep₀]
    exact .stackOverflow _

end Call

end MiniC
