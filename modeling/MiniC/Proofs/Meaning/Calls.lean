import MiniC.Proofs.Meaning.Variables

/-!
# Calls in runs

A call stores its arguments from left to right, copies them below the new frame, saves the frame
base, and jumps with the return address in the accumulator. What the called function does is assumed
here: it does what a call of the function means, and comes back with the caller's cells untouched.

* `Passed`: values in the cells of parameters
* `Called`, `Back`: the states before the code of a function, and behind the jump to it
* `CallsRun`: calls that are nested at most so deep do what they mean
* `Runs.copyArguments`, `Runs.callSequence`: the code of a call
-/

namespace MiniC

/-! ### Parameters

Values and cells correspond from the first parameter downwards. An array is passed by the address of
its length cell. -/

/-- The word is passed for a value of a type. -/
structure Value.Passes (homes : List Home) (ty : Ty) (a : Word) (v : Value) : Prop where
  present : v ≠ .nothing
  held : v.Held homes a
  ofTy : v.OfTy ty

/-- The cells from `x` downwards hold values of these types. Values may be missing at the end. -/
def Passed (homes : List Home) (mem : Memory) : Int → List Ty → List Value → Prop
  | _, _, [] => True
  | x, ty :: tys, v :: values =>
    0 < x ∧ v.Passes homes ty (mem.read x) ∧ Passed homes mem (x - 1) tys values
  | _, [], _ :: _ => False

/-- The words of the values may be in other cells. -/
theorem Passed.move {homes : List Home} {mem mem' : Memory} {x x' : Int} {tys : List Ty}
    {values : List Value} (h : Passed homes mem x tys values)
    (hmem : ∀ i : Nat, i < values.length → 0 < x' - i ∧ mem'.read (x' - i) = mem.read (x - i)) :
    Passed homes mem' x' tys values := by
  induction values generalizing tys x x' with
  | nil => simp only [Passed]
  | cons v values ih =>
    cases tys with
    | nil => exact h.elim
    | cons ty tys =>
      obtain ⟨-, hv, hrest⟩ := h
      have hfirst : 0 < x' - (0 : Nat) ∧ mem'.read (x' - (0 : Nat)) = mem.read (x - (0 : Nat)) :=
        hmem 0 (by simp)
      rw [show x' - (0 : Nat) = x' by omega, show x - (0 : Nat) = x by omega] at hfirst
      refine ⟨hfirst.1, by rw [hfirst.2]; exact hv, ih hrest fun i hi => ?_⟩
      have hlater := hmem (i + 1) (by simpa using hi)
      rw [show x' - (i + 1 : Nat) = x' - 1 - i by omega, show x - (i + 1 : Nat) =
        x - 1 - i by omega]
        at hlater
      exact hlater

/-- A write above the values leaves them alone. -/
theorem Passed.write {homes : List Home} {mem : Memory} {x y : Int} {tys : List Ty}
    {values : List Value} (h : Passed homes mem x tys values) (hy : x < y) (a : Word) :
    Passed homes (mem.write y a) x tys values := by
  induction values generalizing tys x with
  | nil => simp only [Passed]
  | cons v values ih =>
    cases tys with
    | nil => exact h.elim
    | cons ty tys =>
      obtain ⟨hpos, hv, hrest⟩ := h
      refine ⟨hpos, ?_, ih hrest (by omega)⟩
      rw [Memory.read_write_of_ne (by omega) (by omega)]
      exact hv

/-! ### Contracts

What is assumed of nested calls while the body of a function is followed. The computation `K` stands
for all that the program does after the call. -/

/-- A function has been called, and will return to the address `ret`. -/
structure Called (P : Stage) (depth : Nat) (homes : List Home) (tys : List Ty) (values : List Value)
    (ret : Nat) (c : Core) (w : World) : Prop where
  faithful : Faithful P depth homes c w
  above : ∀ s ∈ homes, c.fp < s.base
  ac_eq : c.ac = Int64.ofInt ret
  passed : Passed homes c.mem (c.fp - 2) tys values

/-- The function that was called in the state `c` has returned. -/
structure Back (P : Stage) (depth : Nat) (homes : List Home) (ret : Nat) (c c' : Core)
    (w' : World) :
    Prop where
  faithful : Faithful P depth homes c' w'
  pc_eq : c'.pc = ret
  fp_eq : c'.fp = c.fp
  spared : Spared homes c.fp c.mem c'.mem
  /-- The frame base of the caller is still saved. -/
  saved : c'.mem.read (c.fp - 1) = c.mem.read (c.fp - 1)

/-- Calls in which further calls are nested at most `depth` deep do what they mean. The homes of the
global variables are `globals`. -/
def CallsRun (P : Stage) (globals : List Home) (depth : Nat) : Prop :=
  ∀ {name entry r tys}, (name, entry) ∈ P.tree.pool → P.scope.Signature name r tys →
    ∀ {homes values ret c w}, (∀ s ∈ globals, s ∈ homes) → c.pc = entry →
      Called P depth homes tys values ret c w →
      ∀ {α : Type} (K : Value → Eval α), (∀ v c' w', Back P depth homes ret c c' w' →
        v.Held homes c'.ac → v.OfTy (.scalar r) → Runs P c' w' (K v)) →
      Runs P c w (P.call (depth + 1) name values >>= K)

section Calls

variable {P : Stage} {depth : Nat} {homes : List Home} {offset : Int} {S : ScopeTable} {env : Env}
  {c : Core} {w : World} {α : Type}

/-- A word that is passed can stand beside any constant. -/
theorem Value.Passes.mild (hP : P.Fits) (hF : Faithful P depth homes c w) {ty : Ty} {a : Word}
    {v : Value} (h : v.Passes homes ty a) : Mild a := by
  have hheld := h.held
  cases v with
  | word b =>
    obtain ⟨rfl, hrange⟩ := hheld
    exact hrange.mild
  | array id =>
    obtain ⟨s, hs, -, ⟨n, hsize⟩, rfl⟩ := hheld
    obtain ⟨-, -, -, hpos, -⟩ := hF.represents.array hs hsize
    have hbelow := hF.represents.below s hs
    have hle := s.base_le_top
    have htop := hP.top_lt
    exact mild_of_nonneg (by omega) (by omega)
  | nothing => exact absurd rfl h.present

theorem Passed.mild (hP : P.Fits) (hF : Faithful P depth homes c w) {mem : Memory} {x : Int}
    {tys : List Ty} {values : List Value} (h : Passed homes mem x tys values) {i : Nat}
    (hi : i < values.length) : Mild (mem.read (x - i)) := by
  induction values generalizing tys x i with
  | nil => cases hi
  | cons v values ih =>
    cases tys with
    | nil => exact h.elim
    | cons ty tys =>
      obtain ⟨-, hv, hrest⟩ := h
      cases i with
      | zero =>
        rw [show x - (0 : Nat) = x by omega]
        exact hv.mild hP hF
      | succ i =>
        rw [show x - (i + 1 : Nat) = x - 1 - i by omega]
        exact ih hrest (by simpa using hi)

/-! ### Copying arguments

Induction on the arguments that are left. They are stored at the offset and below, and the
parameters of the new frame begin below all of them. -/

/-- The stored arguments are copied to the cells of the parameters; the first `i` already are. -/
theorem Runs.copyArguments (hP : P.Fits) {x : Eval α} {start n : Nat}
    (hcode : Holds P.code start (copyArguments offset n))
    (hlow : -2 ^ 31 ≤ offset - (2 * n + 1 : Nat))
    {i : Nat} (hi : i ≤ n) (hpc : c.pc = start + 2 * i)
    (hprep : Prepared P depth homes (offset - n) S env c w) (hoffset : offset ≤ 0)
    (hmild : ∀ j : Nat, j < n → Mild (c.mem.read (c.fp + offset - j)))
    (hcopied : ∀ j : Nat, j < i → 0 < c.fp + offset - n - 2 - j ∧
      c.mem.read (c.fp + offset - n - 2 - j) = c.mem.read (c.fp + offset - j))
    (hnext : ∀ c', c'.pc = start + 2 * n → After P depth homes (offset - n) S env c c' w →
      (∀ j : Nat, j < n → 0 < c.fp + offset - n - 2 - j ∧
        c'.mem.read (c.fp + offset - n - 2 - j) = c.mem.read (c.fp + offset - j)) →
      Runs P c' w x) : Runs P c w x := by
  induction hd : n - i generalizing i c with
  | zero =>
    obtain rfl : i = n := by omega
    exact hnext c hpc (hprep.of_eq rfl rfl rfl hprep.faithful.mild) hcopied
  | succ d ih =>
    have hpair := holds_flatMap (k := 2) (fun _ => rfl) hcode (i := i) (x := i)
      (List.getElem?_range (by omega))
    simp only [holds_cons, ← hpc] at hpair
    obtain ⟨hload, hstore, -⟩ := hpair
    apply Runs.load (g := false) hP hprep.faithful hload (Or.inl rfl) (by omega) (by omega)
    intro _
    have hcell : offset - i + c.origin false = c.fp + offset - i := by
      show offset - i + c.fp = c.fp + offset - i
      omega
    rw [hcell]
    have hloaded : After P depth homes (offset - n) S env c
        { c.next with ac := c.mem.read (c.fp + offset - i) } w :=
      hprep.of_eq rfl rfl rfl (hmild i (by omega))
    apply Runs.store (g := false) (c := { c.next with ac := c.mem.read (c.fp + offset - i) }) hP
      hloaded.prepared.faithful hstore (by omega) (by omega)
    intro hpos
    have hcell' : offset - n - 2 - i + ({ c.next with ac := c.mem.read (c.fp + offset - i) } :
      Core).origin false
        = c.fp + offset - n - 2 - i := by
      show offset - n - 2 - i + c.fp = c.fp + offset - n - 2 - i
      omega
    rw [hcell'] at hpos ⊢
    have hstored := hloaded.trans (hloaded.prepared.push hpos (by show _ ≤ c.fp + _; omega)
      (c.mem.read (c.fp + offset - i)))
    -- no other cell of the arguments or parameters is changed
    have hsame : ∀ y, y ≠ c.fp + offset - n - 2 - i →
        (c.mem.write (c.fp + offset - n - 2 - i) (c.mem.read (c.fp + offset - i))).read y
          = c.mem.read y := fun y hy => Memory.read_write_of_ne hpos (Ne.symm hy) _
    refine ih (i := i + 1) (by omega) ?_ hstored.prepared ?_ ?_ ?_ (by omega)
    · show c.pc + 1 + 1 = _
      omega
    · intro j hj
      show Mild ((c.mem.write _ _).read (c.fp + offset - j))
      rw [hsame _ (by omega)]
      exact hmild j hj
    · intro j hj
      show 0 < c.fp + offset - n - 2 - j ∧
        (c.mem.write _ _).read (c.fp + offset - n - 2 - j) =
          (c.mem.write _ _).read (c.fp + offset - j)
      rw [hsame (c.fp + offset - j) (by omega)]
      by_cases hji : j = i
      · subst hji
        exact ⟨hpos, Memory.read_write_self _ _ _⟩
      · rw [hsame _ (by omega)]
        exact hcopied j (by omega)
    · intro c' hpc' hafter hdone
      refine hnext c' hpc' (hstored.trans hafter) fun j hj => ?_
      obtain ⟨hpos', hread⟩ := hdone j hj
      refine ⟨hpos', hread.trans ?_⟩
      exact hsame (c.fp + offset - j) (by omega)

/-! ### Entering a function and coming back

The callee finds its arguments as parameters, and the caller finds its registers and cells again. -/

/-- The frame base has been saved, and the frame of a function begins there. -/
theorem Faithful.enter (hF : Faithful P (depth + 1) homes c w) (entry ret : Nat)
    (hret : ret < 2 ^ 31)
    {frame : Int} (hframe : frame ≤ 0) (hlow : -2 ^ 31 ≤ frame - 1) (hpos : 0 < frame - 1 + c.fp)
    (habove : ∀ s ∈ homes, c.fp + frame < s.base) {tys : List Ty} {values : List Value}
    (hpassed : Passed homes c.mem (c.fp + frame - 2) tys values) :
    Called P depth homes tys values ret { c with
      pc := entry, ac := Int64.ofInt ret, fp := frame + c.fp
      mem := c.mem.write (frame - 1 + c.fp) (Int64.ofInt c.fp) } w := by
  obtain ⟨⟨hfp₀, hfp_le, hgp_lt, hsize⟩, hgp, hdeep, -, hclear, hrep⟩ := hF
  -- the cell of the saved base lies below every object, so the objects keep their words
  have hfree : ∀ s ∈ homes, ¬s.Covers (frame - 1 + c.fp) := by
    intro s hs hcovers
    have := habove s hs
    unfold Home.Covers at hcovers
    omega
  refine ⟨⟨⟨?_, ?_, hgp_lt, ?_⟩, hgp, ?_, mild_of_nonneg (by omega) (by omega), ?_,
    hrep.write _ hpos hfree⟩, ?_, rfl, ?_⟩
  · show 0 ≤ frame + c.fp
    omega
  · show frame + c.fp ≤ c.gp
    omega
  · show ((c.mem.write _ _).size : Int) = c.gp + 1
    rw [Memory.size_write]
    exact hsize
  · show P.top + 2 ^ 31 * (depth + 1) ≤ frame + c.fp + P.cap
    omega
  · show (c.mem.write _ _).read 0 = 0
    rw [Memory.read_write_of_ne hpos (by omega), hclear]
  · intro s hs
    have := habove s hs
    show frame + c.fp < s.base
    omega
  · show Passed homes (c.mem.write _ _) (frame + c.fp - 2) tys values
    rw [show frame + c.fp - 2 = c.fp + frame - 2 by omega]
    exact hpassed.write (by omega) _

/-- The frame base has been restored. -/
theorem Back.faithful_caller {ret : Nat} {c₀ c' : Core} {w' : World}
    (h : Back P depth homes ret c₀ c' w') (hF : Faithful P (depth + 1) homes c w) :
    Faithful P (depth + 1) homes { c'.next with fp := c.fp } w' := by
  obtain ⟨⟨hfp₀, hfp_le, -, -⟩, hgp, hdeep, -, -, -⟩ := hF
  obtain ⟨⟨-, -, hgp_lt', hsize'⟩, hgp', -, hmild', hclear', hrep'⟩ := h.faithful
  refine ⟨⟨hfp₀, ?_, hgp_lt', hsize'⟩, hgp', hdeep, hmild', hclear', hrep'⟩
  show c.fp ≤ c'.gp
  omega

/-- The frame base is saved and moved, the function is called, and the frame base is restored. -/
theorem Runs.callSequence (hP : P.Fits) {globals : List Home} (hcalls : CallsRun P globals depth)
    {name : String} {entry : Nat} {r : BaseType} {tys : List Ty} {values : List Value}
    (hpool : (name, entry) ∈ P.tree.pool) (hsig : P.scope.Signature name r tys)
    (hglobals : ∀ s ∈ globals, s ∈ homes) {frame : Int} {start : Nat} {t : String}
    (hpc : c.pc = start)
    (hcode : Holds P.code start (callSequence frame
      (.rm .lda .pc (entry - (start + 4 : Nat)) .pc t)))
    (hF : Faithful P (depth + 1) homes c w) (habove : ∀ s ∈ homes, c.fp + frame < s.base)
    (hframe : frame ≤ 0) (hlow : -2 ^ 31 ≤ frame - 1)
    (hpassed : Passed homes c.mem (c.fp + frame - 2) tys values) {K : Value → Eval α}
    (hnext : ∀ v c' w', c'.pc = start + 5 → c'.fp = c.fp → Faithful P (depth + 1) homes c' w' →
      Spared homes (c.fp + frame) c.mem c'.mem → v.Held homes c'.ac → v.OfTy (.scalar r) →
      Runs P c' w' (K v)) :
    Runs P c w (P.call (depth + 1) name values >>= K) := by
  subst hpc
  simp only [MiniC.callSequence, holds_cons, show savedFrameOffset = -1 from rfl] at hcode
  obtain ⟨h₀, h₁, h₂, h₃, h₄, -⟩ := hcode
  obtain ⟨hfp₀, hfp_le, hgp_lt, hsize⟩ := hF.sane
  have hlen := hP.code_lt
  have hbound : c.pc + 4 < P.code.length := (List.getElem?_eq_some_iff.mp h₄).1
  have hentry := hP.pool_lt _ hpool
  have hgp := hF.gp_eq
  have hdeep := hF.deep
  have hstep₀ : ∀ t, P.step c.machine t = _ := fun _ =>
    Core.step_st_fp hP.size_lt hF.sane hlow (by omega) (code_at h₀)
  -- the first store is also the lowest, so it decides whether there is room for the frame
  by_cases hpos : 0 < frame - 1 + c.fp
  · simp only [if_pos hpos] at hstep₀
    refine Runs.step hstep₀ ?_
    have hcalled := hF.enter entry (c.pc + 4) (by omega) hframe hlow hpos habove hpassed
    have hentered := hcalled.faithful.sane
    have hsize' : ((c.mem.write (frame - 1 + c.fp) (Int64.ofInt c.fp)).size : Int) = c.gp + 1 :=
      hentered.size_eq
    have hsaved : (c.mem.write (frame - 1 + c.fp) (Int64.ofInt c.fp)).read (frame + c.fp - 1)
        = Int64.ofInt c.fp := by
      rw [show frame + c.fp - 1 = frame - 1 + c.fp by omega, Memory.read_write_self]
    have hwritten : Spared homes (c.fp + frame) c.mem
        (c.mem.write (frame - 1 + c.fp) (Int64.ofInt c.fp)) :=
      Spared.write hpos (Or.inl (by omega)) _ _
    generalize c.mem.write (frame - 1 + c.fp) (Int64.ofInt c.fp) = mem at *
    refine Runs.step (fun _ => Core.step_lda_fp (c := { c.next with mem := mem }) hP.size_lt
      ⟨hfp₀, hfp_le, hgp_lt, hsize'⟩ (by omega) hframe (code_at h₁)) ?_
    refine Runs.step (fun _ => Core.step_lda_pc
      (c := { c.next.next with fp := frame + c.fp, mem := mem }) hP.size_lt (code_at h₂)) ?_
    refine Runs.step (fun _ => Core.step_jump (n := entry) (c := { c.next.next.next with
      ac := Int64.ofInt (c.pc + 4 : Nat), fp := frame + c.fp, mem := mem }) hP.size_lt
      (by simp only [Core.next]; omega) (by omega) (code_at h₃)) ?_
    -- the callee comes back to the last instruction, which restores the frame base
    refine hcalls hpool hsig hglobals rfl hcalled K fun v c' w' hback hheld hty => ?_
    have hfp' : c'.fp = frame + c.fp := hback.fp_eq
    have hread : c'.mem.read (-1 + c'.fp) = Int64.ofInt c.fp := by
      rw [hfp', show -1 + (frame + c.fp) = frame + c.fp - 1 by omega, ← hsaved]
      exact hback.saved
    refine Runs.step (fun _ => Core.step_ld_fp (d := -1) hP.size_lt hback.faithful.sane (by decide)
      (by decide) (by omega) hread (code_at (by rw [hback.pc_eq]; exact h₄))) ?_
    refine hnext v _ w' ?_ rfl (hback.faithful_caller hF) ?_ hheld hty
    · show c'.pc + 1 = c.pc + 5
      rw [hback.pc_eq]
    · refine hwritten.trans ?_
      rw [Int.add_comm c.fp frame]
      exact hback.spared
  · simp only [if_neg hpos] at hstep₀
    exact Runs.overflow (hF.top_le_cap hlow false (by show frame - 1 + c.fp ≤ 0; omega)) hstep₀

end Calls

end MiniC
