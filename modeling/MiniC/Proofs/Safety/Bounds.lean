import MiniC.Proofs.Parts
import MiniC.Proofs.Safety.Faults

/-!
# Checks of indices

In front of each access to an element the index is compared with the length of the array, and then
with zero. An index in range becomes the address of its element; for any other index the machine
jumps to the routine of a fault.

Two kinds of very low indices are not treated as they should be. The comparison with the length
looks at a difference that wraps around, so the lowest indices pass for too large ones. And the
routine of a fault loads constants while the index is in the accumulator, so the machine stops there
if the index and the code of the fault have no sum.

* `Extent.blamed`: the bound that is reported
* `Machine.Reports`: the machine records a fault, writes it and halts
* `Core.run_length`, `Core.run_element`, `Core.run_fault`: the parts of the code
* `index_checked`: every check of an index in a run of a compiled program
* `not_bounds_exact`: a program that reports the wrong bound
-/

namespace MiniC

/-- The bound that an index outside of an array is found to have passed. It is the wrong one for an
index whose difference from the length is no word. -/
def Extent.blamed (e : Extent) (i : Int) : BoundsFault :=
  if e.size ≤ i ∨ i < Machine.minWord + e.size then .upper else .lower

/-- After `n` instructions the machine has stored the code of the fault in cell 0 and has written
it. It has halted, unless the device did not take the code. -/
def Machine.Reports {σ : Type} (code : Array Instr) (device : Device σ) (n : Nat) (m : Machine)
    (io : σ) (fault : BoundsFault) : Prop :=
  ∃ m' outcome,
    runFor code device n m io = ⟨some outcome, m', (device.write (Int64.ofInt fault.code) io).2⟩ ∧
    m'.memory = m.memory.set 0 (Int64.ofInt fault.code) ∧ m'.fault = some fault ∧
    outcome = match (device.write (Int64.ofInt fault.code) io).1 with
      | .ok _ => .halted
      | .error e => .failed e

/-- A fault is reported as well if the machine first executes `k` instructions that change no
cell. -/
theorem Machine.Reports.of_runFor {σ : Type} {code : Array Instr} {device : Device σ} {n k : Nat}
    {m m' : Machine} {io : σ} {fault : BoundsFault} (h : m'.Reports code device n io fault)
    (hrun : ∀ n, runFor code device (n + k) m io = runFor code device n m' io)
    (hmemory : m'.memory = m.memory) : m.Reports code device (n + k) io fault := by
  obtain ⟨m'', outcome, hend, hcells, hrest⟩ := h
  exact ⟨m'', outcome, (hrun n).trans hend, hcells.trans (by rw [hmemory]), hrest⟩

/-! ### The parts of the code

Runs of a few instructions, one lemma for each part that the check can go through. -/

section Parts

variable {σ : Type} {code : List Instr} (device : Device σ) (io : σ) {c : Core}

/-- The code of a fault in the accumulator is recorded and written, and the machine halts. -/
theorem Core.run_record (hsize : code.length < 2 ^ 31) (hroutines : Holds code inputEntry routines)
    (hsane : c.Sane) {fault : BoundsFault} (hpc : c.pc = recordSite fault)
    (hac : c.ac = Int64.ofInt fault.code) (hac1 : c.ac1 = Int64.ofInt 0) :
    c.machine.Reports code.toArray device 3 io fault := by
  have hroutine := holds_faultRoutine hroutines fault
  simp only [faultRoutine, holds_cons] at hroutine
  obtain ⟨-, -, h₀, h₁, h₂, -⟩ := hroutine
  rw [← show c.pc = faultEntry fault + 1 + 1 from hpc] at h₀ h₁ h₂
  have hstore : Machine.step code.toArray device c.machine io
      = ⟨none, { c.next with mem := c.mem.write 0 c.ac }.machine, io⟩ :=
    step_st_ac1 hsize hsane hac1 (Int.le_refl 0) (Int.le_trans hsane.fp_nonneg hsane.fp_le)
      (code_at h₀)
  generalize hc' : ({ c.next with mem := c.mem.write 0 c.ac } : Core) = c' at hstore
  have hpc' : c'.pc = c.pc + 1 := by rw [← hc']; rfl
  have hac' : c'.ac = Int64.ofInt fault.code := by rw [← hc']; exact hac
  have hmem' : c'.mem = c.mem.set 0 (Int64.ofInt fault.code) := by rw [← hc', ← hac]; rfl
  have hfault : ∀ m : Machine, m.memory = c'.mem → m.fault = some fault := by
    intro m hm
    rw [Machine.fault_eq_some_iff, hm, hmem', Memory.get_set, if_pos rfl]
  rw [← hpc'] at h₁ h₂
  have hhalt : ∀ io', Machine.step code.toArray device c'.next.machine io'
      = ⟨some .halted, c'.next.next.machine, io'⟩ := fun io' => step_halt hsize (code_at h₂)
  have hwrite : Machine.step code.toArray device c'.machine io = _ :=
    step_write hsize (code_at h₁)
  rw [hac'] at hwrite
  rcases hdevice : device.write (Int64.ofInt fault.code) io with ⟨e | u, io'⟩
  -- the device may refuse the code
  · rw [hdevice] at hwrite
    refine ⟨c'.next.machine, .failed e, ?_, hmem', hfault _ rfl, by rw [hdevice]⟩
    rw [Machine.runFor_of_step hstore, Machine.runFor_of_stop hwrite, hdevice]
  · rw [hdevice] at hwrite
    refine ⟨c'.next.next.machine, .halted, ?_, hmem', hfault _ rfl, by rw [hdevice]⟩
    rw [Machine.runFor_of_step hstore, Machine.runFor_of_step hwrite,
      Machine.runFor_of_stop (hhalt io'), hdevice]

/-- The routine of a fault reports it, unless its code cannot be loaded. -/
theorem Core.run_fault (hsize : code.length < 2 ^ 31) (hroutines : Holds code inputEntry routines)
    (hsane : c.Sane) {fault : BoundsFault} (hpc : c.pc = faultEntry fault) :
    if IsWord (fault.code + c.ac.toInt) then c.machine.Reports code.toArray device 5 io fault
    else (Machine.runFor code.toArray device 2 c.machine io).stopped = some .addressOverflow := by
  have hroutine := holds_faultRoutine hroutines fault
  rw [← hpc] at hroutine
  simp only [faultRoutine, holds_cons] at hroutine
  obtain ⟨h₀, h₁, -⟩ := hroutine
  have hlt := c.ac.toInt_lt
  have hle := c.ac.le_toInt
  have hzero : Machine.step code.toArray device c.machine io
      = ⟨none, (c.next.put .ac1 (Int64.ofInt 0)).machine, io⟩ := by
    rw [step_ldc hsize (Or.inr rfl) (code_at h₀), if_pos (isWord_iff.mpr ⟨by omega, by omega⟩)]
  -- the accumulator still holds the index, and the address of the constant is their sum
  have hcode : Machine.step code.toArray device (c.next.put .ac1 (Int64.ofInt 0)).machine io
      = if IsWord (fault.code + c.ac.toInt) then
          ⟨none, ((c.next.put .ac1 (Int64.ofInt 0)).next.put .ac (Int64.ofInt fault.code)).machine,
            io⟩
        else ⟨some .addressOverflow, (c.next.put .ac1 (Int64.ofInt 0)).next.machine, io⟩ :=
    step_ldc (c := c.next.put .ac1 (Int64.ofInt 0)) hsize (Or.inl rfl) (code_at h₁)
  split
  next hword =>
    rw [if_pos hword] at hcode
    generalize hc' : (c.next.put .ac1 (Int64.ofInt 0)).next.put .ac (Int64.ofInt fault.code) = c'
      at hcode
    have hsane' : c'.Sane := by
      rw [← hc']
      exact ⟨hsane.fp_nonneg, hsane.fp_le, hsane.gp_lt, hsane.size_eq⟩
    have hpc' : c'.pc = recordSite fault := by
      rw [← hc']
      exact congrArg (· + 2) hpc
    have hrecord : c'.machine.Reports code.toArray device 3 io fault :=
      run_record device io hsize hroutines hsane' hpc' (by rw [← hc']; rfl) (by rw [← hc']; rfl)
    refine hrecord.of_runFor (k := 2) (fun n => ?_) (by rw [← hc']; rfl)
    rw [Machine.runFor_of_step hzero, Machine.runFor_of_step hcode]
  next hword =>
    rw [if_neg hword] at hcode
    rw [Machine.runFor_of_step hzero, Machine.runFor_of_stop hcode]

/-- A fault is reported as well behind at most five instructions that change the second accumulator
alone. -/
theorem Core.run_to_fault (hsize : code.length < 2 ^ 31)
    (hroutines : Holds code inputEntry routines) (hsane : c.Sane) {fault : BoundsFault} {w : Word}
    {k : Nat} (hk : k ≤ 5)
    (hrun : ∀ n, Machine.runFor code.toArray device (n + k) c.machine io
      = Machine.runFor code.toArray device n
          ({ c with pc := faultEntry fault, ac1 := w } : Core).machine io) :
    if IsWord (fault.code + c.ac.toInt) then
      ∃ n ≤ 10, c.machine.Reports code.toArray device n io fault
    else ∃ n ≤ 10,
      (Machine.runFor code.toArray device n c.machine io).stopped = some .addressOverflow := by
  have hfault := run_fault (c := { c with pc := faultEntry fault, ac1 := w }) device io hsize
    hroutines ⟨hsane.fp_nonneg, hsane.fp_le, hsane.gp_lt, hsane.size_eq⟩ rfl
  split
  next hword =>
    rw [if_pos hword] at hfault
    exact ⟨5 + k, by omega, hfault.of_runFor hrun rfl⟩
  next hword =>
    rw [if_neg hword] at hfault
    exact ⟨2 + k, by omega, by rw [hrun]; exact hfault⟩

/-- The cell of a reference to an array is not cell 0, which holds no address of an array. -/
theorem Addresses.room {l : Layout} {e : Extent} (h : Addresses c l e)
    (hstorage : l.storage = .arrayRef) : 0 < l.offset + c.origin l.isGlobal := by
  by_contra hroom
  -- a negative address is read as cell 0
  have hread := h.reference hstorage
  have hzero := h.zero
  have hpos := h.base_pos
  have hend := h.end_le
  have hgp := h.sane.gp_lt
  rw [Memory.read, show (l.offset + c.origin l.isGlobal).toNat = 0 by omega] at hread
  have hbase := congrArg Int64.toInt (hread.symm.trans hzero)
  rw [Core.toInt_ofInt_of_isWord (Core.isWord_iff.mpr ⟨by omega, by omega⟩)] at hbase
  exact absurd (show e.base = 0 from hbase) (by omega)

/-- The second accumulator is loaded with the address of the length cell. -/
theorem Addresses.step_load {l : Layout} {e : Extent} (h : Addresses c l e)
    (hsize : code.length < 2 ^ 31) (hstorage : l.storage ≠ .scalar) {t : String}
    (hi : code[c.pc]? = some (.rm l.storage.loadOp .ac1 l.offset l.base t)) :
    Machine.step code.toArray device c.machine io
      = ⟨none, { c.next with ac1 := Int64.ofInt e.base }.machine, io⟩ := by
  cases hs : l.storage with
  | scalar => exact absurd hs hstorage
  | array =>
    rw [hs] at hi
    have hstep : Machine.step code.toArray device c.machine io = _ :=
      Core.step_lda_base hsize h.sane (Or.inr rfl) h.low h.high (code_at hi)
    rw [hstep, h.array hs]
    rfl
  | arrayRef =>
    rw [hs] at hi
    have hstep : Machine.step code.toArray device c.machine io = _ :=
      Core.step_ld_base hsize h.sane (Or.inr rfl) h.low h.high (code_at hi)
    rw [hstep, if_pos (h.room hs), h.reference hs]
    rfl

/-- The storage leads to the array whatever the accumulators hold. -/
theorem Addresses.of_eq {l : Layout} {e : Extent} (h : Addresses c l e) {d : Core}
    (hmem : d.mem = c.mem) (hfp : d.fp = c.fp) (hgp : d.gp = c.gp) : Addresses d l e := by
  obtain ⟨hsane, hlow, hhigh, hzero, hpos, hend, hlength, harray, href⟩ := h
  have horigin : d.origin l.isGlobal = c.origin l.isGlobal := by
    unfold Core.origin
    rw [hfp, hgp]
  refine ⟨⟨?_, ?_, ?_, ?_⟩, hlow, hhigh, ?_, hpos, ?_, ?_, ?_, ?_⟩
  · rw [hfp]; exact hsane.fp_nonneg
  · rw [hfp, hgp]; exact hsane.fp_le
  · rw [hgp]; exact hsane.gp_lt
  · rw [hmem, hgp]; exact hsane.size_eq
  · rw [hmem]; exact hzero
  · rw [hgp]; exact hend
  · rw [hmem]; exact hlength
  · rw [horigin]; exact harray
  · rw [hmem, horigin]; exact href

/-- The first three instructions of a check leave the index less the length in the second
accumulator. -/
theorem Addresses.run_length {l : Layout} {e : Extent} (h : Addresses c l e)
    (hsize : code.length < 2 ^ 31) (hstorage : l.storage ≠ .scalar) {t t' t'' : String}
    (h₀ : code[c.pc]? = some (.rm l.storage.loadOp .ac1 l.offset l.base t))
    (h₁ : code[c.pc + 1]? = some (.rm .ld .ac1 0 .ac1 t'))
    (h₂ : code[c.pc + 2]? = some (.ro .sub .ac1 .ac .ac1 t'')) (n : Nat) :
    Machine.runFor code.toArray device (n + 3) c.machine io
      = Machine.runFor code.toArray device n
          { c with pc := c.pc + 3, ac1 := c.ac - Int64.ofInt e.size }.machine io := by
  have hpos := h.base_pos
  have hend := h.end_le
  have hlength : Machine.step code.toArray device
      ({ c.next with ac1 := Int64.ofInt e.base } : Core).machine io
      = ⟨none, { c with pc := c.pc + 2, ac1 := c.mem.read e.base }.machine, io⟩ :=
    Core.step_ld_ac1 (c := { c.next with ac1 := Int64.ofInt e.base }) hsize
      ⟨h.sane.fp_nonneg, h.sane.fp_le, h.sane.gp_lt, h.sane.size_eq⟩ rfl (by omega)
      (by show e.base ≤ c.gp; omega) (code_at h₁)
  rw [h.length] at hlength
  have hsub : Machine.step code.toArray device
      ({ c with pc := c.pc + 2, ac1 := Int64.ofInt e.size } : Core).machine io
      = ⟨none, { c with pc := c.pc + 3, ac1 := c.ac - Int64.ofInt e.size }.machine, io⟩ :=
    Core.step_operation (c := { c with pc := c.pc + 2, ac1 := Int64.ofInt e.size }) hsize
      (Or.inr rfl) (Or.inl rfl) (Or.inr rfl) rfl (code_at h₂)
  rw [Machine.runFor_of_step (h.step_load device io hsize hstorage h₀),
    Machine.runFor_of_step hlength, Machine.runFor_of_step hsub]

/-- The last three leave the address of the element in the accumulator. -/
theorem Addresses.run_element {l : Layout} {e : Extent} (h : Addresses c l e)
    (hsize : code.length < 2 ^ 31) (hstorage : l.storage ≠ .scalar) {t t' : String}
    (hlow : 0 ≤ c.ac.toInt) (hhigh : c.ac.toInt < e.size)
    (h₀ : code[c.pc]? = some (.rm l.storage.loadOp .ac1 l.offset l.base t))
    (h₁ : code[c.pc + 1]? = some (.ro .add .ac .ac1 .ac t'))
    (h₂ : code[c.pc + 2]? = some (.rm .lda .ac 1 .ac "skip length cell")) :
    Machine.runFor code.toArray device 3 c.machine io
      = ⟨none, (Core.mk (c.pc + 3) (Int64.ofInt (e.base + 1 + c.ac.toInt)) (Int64.ofInt e.base) c.fp
          c.gp c.mem).machine, io⟩ := by
  have hpos := h.base_pos
  have hend := h.end_le
  have hadd : Machine.step code.toArray device
      ({ c.next with ac1 := Int64.ofInt e.base } : Core).machine io
      = ⟨none, (Core.mk (c.pc + 2) (Int64.ofInt e.base + c.ac) (Int64.ofInt e.base) c.fp c.gp
          c.mem).machine, io⟩ :=
    Core.step_operation (c := { c.next with ac1 := Int64.ofInt e.base }) hsize (Or.inl rfl)
      (Or.inr rfl) (Or.inl rfl) rfl (code_at h₁)
  have hsum : Int64.ofInt e.base + c.ac = Int64.ofInt (e.base + c.ac.toInt) := by
    rw [Int64.ofInt_add, Int64.ofInt_toInt]
  have hskip : Machine.step code.toArray device (Core.mk (c.pc + 2) (Int64.ofInt e.base + c.ac)
        (Int64.ofInt e.base) c.fp c.gp c.mem).machine io
      = ⟨none, (Core.mk (c.pc + 3) (Int64.ofInt (e.base + c.ac.toInt + 1)) (Int64.ofInt e.base) c.fp
          c.gp c.mem).machine, io⟩ :=
    Core.step_lda_ac hsize ⟨h.sane.fp_nonneg, h.sane.fp_le, h.sane.gp_lt, h.sane.size_eq⟩ hsum
      (by omega) (by show e.base + c.ac.toInt ≤ c.gp; omega) (code_at h₂)
  rw [Machine.runFor_of_step (h.step_load device io hsize hstorage h₀), Machine.runFor_of_step hadd,
    Machine.runFor_of_step hskip, Machine.runFor,
    show e.base + 1 + c.ac.toInt = e.base + c.ac.toInt + 1 by omega]

end Parts

/-! ### The check as a whole

The part of the length, the jumps, and then either the address or the routine of a fault. -/

/-- The comparison with the length blames the upper bound. -/
theorem Extent.upper_iff {e : Extent} (hsize : (e.size : Int) < 2 ^ 60) (i : Word) :
    0 ≤ i - Int64.ofInt e.size ↔ e.size ≤ i.toInt ∨ i.toInt < Machine.minWord + e.size := by
  have hi := i.toInt_lt
  have hi' := i.le_toInt
  have hlength : (Int64.ofInt e.size).toInt = e.size :=
    Core.toInt_ofInt_of_isWord (Core.isWord_iff.mpr ⟨by omega, by omega⟩)
  -- from the lowest indices the difference wraps around to a word that is not negative
  have hcases := Core.toInt_sub_cases i (Int64.ofInt e.size)
  rw [hlength, Core.isWord_iff] at hcases
  rw [Int64.le_iff_toInt_le, show (0 : Word).toInt = 0 from rfl]
  unfold Machine.minWord
  omega

section Check

variable {σ : Type} {code : List Instr} (device : Device σ) (io : σ) {c : Core} {l : Layout}
  {e : Extent} {is : List Instr}

/-- The first five instructions compare the index with both bounds. They lead on if it is in range,
and to the routine of a fault if it is not. -/
theorem Addresses.run_jumps (h : Addresses c l e) (hsize : code.length < 2 ^ 31)
    (hstorage : l.storage ≠ .scalar) (his : ElementCode l c.pc is) (hcode : Holds code c.pc is) :
    ∃ k ≤ 5, ∃ target,
      (∀ n, Machine.runFor code.toArray device (n + k) c.machine io
        = Machine.runFor code.toArray device n
            ({ c with pc := target, ac1 := c.ac - Int64.ofInt e.size } : Core).machine io) ∧
      if 0 ≤ c.ac.toInt ∧ c.ac.toInt < e.size then k = 5 ∧ target = c.pc + 5
      else target = faultEntry (e.blamed c.ac.toInt) := by
  obtain ⟨t₁, t₂, t₃, t₄, t₅, t₆, tooLarge, negative, hlarge, hneg, rfl⟩ := his.form
  have hbound : c.pc + 8 ≤ code.length := hcode.bound (List.cons_ne_nil _ _)
  obtain rfl := Instr.relative_eq_ok hlarge (by omega) (by decide)
  obtain rfl := Instr.relative_eq_ok hneg (by omega) (by decide)
  simp only [holds_cons] at hcode
  obtain ⟨h₀, h₁, h₂, h₃, h₄, -⟩ := hcode
  have hpos := h.base_pos
  have hend := h.end_le
  have hgp := h.sane.gp_lt
  have hupper := Extent.upper_iff (e := e) (by omega) c.ac
  have hlength := h.run_length device io hsize hstorage h₀ h₁ h₂
  generalize c.ac - Int64.ofInt e.size = d at hupper hlength ⊢
  -- the index less the length decides the first jump, and the sign of the index the second one
  have hjump : Machine.step code.toArray device
      (Core.mk (c.pc + 3) c.ac d c.fp c.gp c.mem).machine io
      = ⟨none, if decide (0 ≤ d) then (Core.mk (faultEntry .upper) c.ac d c.fp c.gp c.mem).machine
          else (Core.mk (c.pc + 4) c.ac d c.fp c.gp c.mem).machine, io⟩ :=
    Core.step_branch hsize (Or.inr rfl) rfl rfl (by decide) (code_at h₃)
  have hjump' : Machine.step code.toArray device
      (Core.mk (c.pc + 4) c.ac d c.fp c.gp c.mem).machine io
      = ⟨none, if decide (c.ac < 0) then
            (Core.mk (faultEntry .lower) c.ac d c.fp c.gp c.mem).machine
          else (Core.mk (c.pc + 5) c.ac d c.fp c.gp c.mem).machine, io⟩ :=
    Core.step_branch hsize (Or.inl rfl) rfl rfl (by decide) (code_at h₄)
  by_cases hlong : e.size ≤ c.ac.toInt ∨ c.ac.toInt < Machine.minWord + e.size
  · refine ⟨4, by decide, faultEntry .upper, fun n => ?_, ?_⟩
    · rw [if_pos (decide_eq_true (hupper.mpr hlong))] at hjump
      rw [show n + 4 = n + 1 + 3 from rfl, hlength, Machine.runFor_of_step hjump]
    · have hrange : ¬(0 ≤ c.ac.toInt ∧ c.ac.toInt < e.size) := by
        unfold Machine.minWord at hlong
        omega
      rw [if_neg hrange, Extent.blamed, if_pos hlong]
  rw [if_neg (mt (fun hd => hupper.mp (of_decide_eq_true hd)) hlong)] at hjump
  have hsign : c.ac < 0 ↔ c.ac.toInt < 0 := Int64.lt_iff_toInt_lt
  by_cases hnegative : c.ac.toInt < 0
  · refine ⟨5, Nat.le_refl 5, faultEntry .lower, fun n => ?_, ?_⟩
    · rw [if_pos (decide_eq_true (hsign.mpr hnegative))] at hjump'
      rw [show n + 5 = n + 1 + 1 + 3 from rfl, hlength, Machine.runFor_of_step hjump,
        Machine.runFor_of_step hjump']
    · rw [if_neg (by omega), Extent.blamed, if_neg hlong]
  · refine ⟨5, Nat.le_refl 5, c.pc + 5, fun n => ?_, ?_⟩
    · rw [if_neg (mt (fun hd => hsign.mp (of_decide_eq_true hd)) hnegative)] at hjump'
      rw [show n + 5 = n + 1 + 1 + 3 from rfl, hlength, Machine.runFor_of_step hjump,
        Machine.runFor_of_step hjump']
    · rw [if_pos (by omega)]
      exact ⟨rfl, rfl⟩

/-- An index in range becomes the address of its element; for any other one a fault is reported,
unless its code cannot be loaded. -/
theorem Addresses.run_check (h : Addresses c l e) (hsize : code.length < 2 ^ 31)
    (hroutines : Holds code inputEntry routines) (hstorage : l.storage ≠ .scalar)
    (his : ElementCode l c.pc is) (hcode : Holds code c.pc is) :
    if 0 ≤ c.ac.toInt ∧ c.ac.toInt < e.size then
      c.machine.Yields code.toArray device 8 io (c.pc + 8) (Int64.ofInt (e.base + 1 + c.ac.toInt))
    else if Core.IsWord ((e.blamed c.ac.toInt).code + c.ac.toInt) then
      ∃ n ≤ 10, c.machine.Reports code.toArray device n io (e.blamed c.ac.toInt)
    else ∃ n ≤ 10,
      (Machine.runFor code.toArray device n c.machine io).stopped = some .addressOverflow := by
  obtain ⟨k, hk, target, hrun, htarget⟩ :=
    h.run_jumps device io hsize hstorage his hcode
  by_cases hrange : 0 ≤ c.ac.toInt ∧ c.ac.toInt < e.size
  · rw [if_pos hrange] at htarget ⊢
    obtain ⟨rfl, rfl⟩ := htarget
    obtain ⟨t₁, _, _, _, _, t₆, _, _, -, -, rfl⟩ := his.form
    have hbound : c.pc + 8 ≤ code.length := hcode.bound (List.cons_ne_nil _ _)
    simp only [holds_cons] at hcode
    obtain ⟨-, -, -, -, -, h₅, h₆, h₇, -⟩ := hcode
    have helement := (h.of_eq (d := { c with pc := c.pc + 5, ac1 := c.ac - Int64.ofInt e.size })
      rfl rfl rfl).run_element device io hsize hstorage hrange.1 hrange.2 h₅ h₆ h₇
    exact Core.yields ((hrun 3).trans helement) rfl (by omega) rfl rfl rfl rfl
  · rw [if_neg hrange] at htarget ⊢
    subst htarget
    exact Core.run_to_fault device io hsize hroutines h.sane hk hrun

end Check

/-! ### Runs

In a run of a compiled program the invariant gives the array that is named, with its length cell, so
the parts apply. -/

/-- Where an expression that accesses an element starts to check the index, and the array. -/
def Part.check? : Part → Option (Nat × VarUse)
  | ⟨start, .element _ v i⟩ => some (start + i.size, v)
  | ⟨start, .assignElement _ _ v i _⟩ => some (start + i.size, v)
  | _ => none

/-- The code of the check is in its place. -/
theorem Part.Lies.check {k : Linker} {code : List Instr} {marks : List Mark} {part : Part}
    (h : part.Lies k code marks) {site : Nat} {v : VarUse} (hcheck : part.check? = some (site, v)) :
    ∃ is, v.elementAddress site = .ok is ∧ Holds code site is := by
  obtain ⟨⟨offset, is, hcode, hholds⟩, -⟩ := h
  unfold check? at hcheck
  split at hcheck
  · rename_i start t v i
    cases hcheck
    cases Exp.coded hcode with
    | element hi ha =>
      rw [Exp.length_code hi.code_eq] at ha
      rw [holds_append, holds_append, Exp.length_code hi.code_eq] at hholds
      exact ⟨_, ha, hholds.2.1⟩
  · rename_i start p t v i e
    cases hcheck
    cases Exp.coded hcode with
    | assignElement hi ha =>
      rw [Exp.length_code hi.code_eq] at ha
      rw [holds_append, holds_append, Exp.length_code hi.code_eq] at hholds
      exact ⟨_, ha, hholds.2.1⟩
  · cases hcheck

/-- A name that stands for an array has storage for one. -/
theorem Shadow.layout_of_denote {g : Shadow} {gp : Int} {v : VarUse} {e : Extent}
    (h : g.denote gp v = some e) : ∃ l, v.layout = some l ∧ l.storage ≠ .scalar := by
  unfold denote at h
  split at h
  · rename_i l a rest hl hstack
    refine ⟨l, hl, fun hstorage => ?_⟩
    simp only [hstorage] at h
    cases h
  · cases h

section Runs

variable {σ : Type}

/-- In every run of a compiled program the check of an index, once the index has been evaluated,
gives the address of the element if the index is in range. If it is not, a fault is reported, unless
the sum of its code and the index is no word, at which the machine stops. The fault is that of the
bound that the index has passed, unless the index is so low that its difference from the length is
no word. -/
theorem index_checked {source : String} {tree : Program} {code : List Instr}
    (h : Compiles source tree code) (device : Device σ) {memory : Nat}
    (hmemory : memory < Memory.sizeLimit) (io : σ) {part : Part}
    (hpart : part ∈ (analyze tree false).program.parts) {site : Nat} {v : VarUse}
    (hcheck : part.check? = some (site, v)) {k : Nat} {w : Watched σ}
    (hafter : (Watched.start memory io).after code.toArray (analyze tree false).program.marks device
      k = some w)
    (hpc : (w.machine.reg .pc).toInt = site) {e : Extent}
    (harray : w.shadow.denote (w.machine.reg .gp).toInt v = some e) :
    let i := (w.machine.reg .ac).toInt
    if 0 ≤ i ∧ i < e.size then
      w.machine.Yields code.toArray device 8 w.io (site + 8) (Int64.ofInt (e.base + 1 + i))
    else if Core.IsWord ((e.blamed i).code + i) then
      ∃ n ≤ 10, w.machine.Reports code.toArray device n w.io (e.blamed i)
    else ∃ n ≤ 10,
      (Machine.runFor code.toArray device n w.machine w.io).stopped = some .addressOverflow := by
  obtain ⟨linker, hlies⟩ := h.lies part hpart
  obtain ⟨is, his, hholds⟩ := hlies.check hcheck
  obtain ⟨l, hl, hstorage⟩ := Shadow.layout_of_denote harray
  have helement := VarUse.elementAddress_of_layout hl his
  obtain ⟨G, js, main, globals, hprogram, hsafe⟩ := h.safe device hmemory io
  have hload : ∃ t t', code[site]? = some (.rm l.storage.loadOp .ac1 l.offset l.base t) ∧
      code[site + 1]? = some (.rm .ld .ac1 0 .ac1 t') := by
    obtain ⟨t, t', _, _, _, _, _, _, -, -, rfl⟩ := helement.form
    simp only [holds_cons] at hholds
    exact ⟨t, t', hholds.1, hholds.2.1⟩
  obtain ⟨t, t', h₀, h₁⟩ := hload
  -- the invariant of the run says what the instruction at the site is about to load
  obtain ⟨c, hmachine, hsite, haddresses⟩ := (Safe.good hsafe hafter).reloading.array v l t t' e hl
    hstorage (current_of_pc hpc h₀) (by rw [hpc, Int.toNat_natCast]; exact h₁) harray
  obtain rfl : c.pc = site := by
    have := hsite.symm.trans hpc
    omega
  intro i
  have hi : i = c.ac.toInt := by
    rw [show i = (w.machine.reg .ac).toInt from rfl, hmachine, Core.reg_ac]
  rw [hi, hmachine]
  exact haddresses.run_check device w.io hprogram.image.size hprogram.image.routines hstorage
    helement
    hholds

end Runs

/-- The first check of a source: the array and the index in the run on an input that comes to it
after `k` steps, and how another nine steps end. -/
def checkedAt (source : String) (input : List Word) (k : Nat) :
    Option (Extent × Int × Option Outcome × Option BoundsFault) :=
  (compile? source).bind fun (tree, code) =>
  ((analyze tree false).program.parts.findSome? Part.check?).bind fun (site, v) =>
  ((Watched.start 4000000 (Tape.ofList input none)).after code.toArray
    (analyze tree false).program.marks Tape.device k).bind fun w =>
  (w.shadow.denote (w.machine.reg .gp).toInt v).bind fun e =>
  if (w.machine.reg .pc).toInt = site then
    let result := Machine.runFor code.toArray Tape.device 9 w.machine w.io
    some (e, (w.machine.reg .ac).toInt, result.stopped, result.machine.fault)
  else none

theorem exists_checkedAt {source : String} {input : List Word} {k : Nat} {e : Extent} {i : Int}
    {outcome : Option Outcome} {fault : Option BoundsFault}
    (hshort : source.utf8ByteSize < 2 ^ 27)
    (hchecked : checkedAt source input k = some (e, i, outcome, fault)) :
    ∃ tree code part site v w, Compiles source tree code ∧
      part ∈ (analyze tree false).program.parts ∧ part.check? = some (site, v) ∧
      (Watched.start 4000000 (Tape.ofList input none)).after code.toArray
        (analyze tree false).program.marks Tape.device k = some w ∧
      (w.machine.reg .pc).toInt = site ∧ w.shadow.denote (w.machine.reg .gp).toInt v = some e ∧
      (w.machine.reg .ac).toInt = i ∧
      (Machine.runFor code.toArray Tape.device 9 w.machine w.io).stopped = outcome ∧
      (Machine.runFor code.toArray Tape.device 9 w.machine w.io).machine.fault = fault := by
  simp only [checkedAt, Option.bind_eq_some_iff] at hchecked
  obtain ⟨⟨tree, code⟩, hcompile, ⟨site, v⟩, hfind, w, hafter, e', harray, hchecked⟩ := hchecked
  split at hchecked
  · rename_i hpc
    cases hchecked
    obtain ⟨part, hmem, hpart⟩ := List.exists_of_findSome?_eq_some hfind
    exact ⟨tree, code, part, site, v, w, compiles_of_compile? hshort hcompile, hmem, hpart, hafter,
      hpc, harray, rfl, rfl, rfl⟩
  · cases hchecked

/-- A program with a large array and an index that it reads. -/
def lookupSource : String :=
  "int a[3000000]; void main(void) { output(a[input()]); }"

theorem index_checked_lookup : ∃ tree code part site v w, Compiles lookupSource tree code ∧
    part ∈ (analyze tree false).program.parts ∧ part.check? = some (site, v) ∧
    (Watched.start 4000000 (Tape.ofList [2] none)).after code.toArray
      (analyze tree false).program.marks Tape.device 20 = some w ∧
    (w.machine.reg .pc).toInt = site ∧
    w.shadow.denote (w.machine.reg .gp).toInt v = some ⟨999999, 3000000⟩ ∧
    (w.machine.reg .ac).toInt = 2 ∧
    w.machine.Yields code.toArray Tape.device 8 w.io (site + 8) 1000002 := by
  have hascii : Ascii lookupSource _ := ⟨rfl, rfl⟩
  have hchecked : (checkedAt lookupSource [2] 20).map (fun x => (x.1, x.2.1))
      = some (⟨999999, 3000000⟩, 2) := by
    rw [checkedAt, compile?, parse, hascii.scan_eq]
    decide +kernel
  have hshort : lookupSource.utf8ByteSize < 2 ^ 27 := by
    rw [hascii.utf8ByteSize_eq]
    decide +kernel
  obtain ⟨⟨e, i, outcome, fault⟩, hchecked, heq⟩ := Option.map_eq_some_iff.mp hchecked
  obtain ⟨rfl, rfl⟩ := Prod.mk.inj heq
  obtain ⟨tree, code, part, site, v, w, h, hpart, hcheck, hafter, hpc, harray, hi, -, -⟩ :=
    exists_checkedAt hshort hchecked
  have hmemory : 4000000 < Memory.sizeLimit := by decide
  have hyields := index_checked h Tape.device hmemory _ hpart hcheck hafter hpc harray
  simp only [hi] at hyields
  rw [if_pos (by decide)] at hyields
  exact ⟨tree, code, part, site, v, w, h, hpart, hcheck, hafter, hpc, harray, hi, hyields⟩

/-- There is a compiled program that reports the upper bound for an index below the lower one. -/
theorem not_bounds_exact : ¬∀ (source : String) (tree : Program) (code : List Instr),
    Compiles source tree code → ∀ part site v, part ∈ (analyze tree false).program.parts →
      part.check? = some (site, v) → ∀ (input : List Word) k (w : Watched Tape) e,
        (Watched.start 4000000 (Tape.ofList input none)).after code.toArray
          (analyze tree false).program.marks Tape.device k = some w →
        (w.machine.reg .pc).toInt = site →
        w.shadow.denote (w.machine.reg .gp).toInt v = some e →
        (w.machine.reg .ac).toInt < 0 → ∀ limit o,
          (Machine.runFor code.toArray Tape.device limit w.machine w.io).stopped = some o →
          o = .halted ∧
            (Machine.runFor code.toArray Tape.device limit w.machine w.io).machine.fault
              = some .lower := by
  intro hall
  -- the index less the length is `-2 ^ 63 - 500000`, which wraps around
  have hascii : Ascii lookupSource _ := ⟨rfl, rfl⟩
  have hchecked : checkedAt lookupSource [-9223372036852275808] 20
      = some (⟨999999, 3000000⟩, -9223372036852275808, some .halted, some .upper) := by
    rw [checkedAt, compile?, parse, hascii.scan_eq]
    decide +kernel
  have hshort : lookupSource.utf8ByteSize < 2 ^ 27 := by
    rw [hascii.utf8ByteSize_eq]
    decide +kernel
  obtain ⟨tree, code, part, site, v, w, h, hpart, hcheck, hafter, hpc, harray, hi, hstopped,
    hfault⟩ := exists_checkedAt hshort hchecked
  obtain ⟨-, hlower⟩ := hall _ tree code h part site v hpart hcheck _ 20 w _ hafter hpc harray
    (by rw [hi]; decide) 9 .halted hstopped
  rw [hfault] at hlower
  exact absurd hlower (by decide)

end MiniC
