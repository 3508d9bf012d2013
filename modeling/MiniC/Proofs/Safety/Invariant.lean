import MiniC.Proofs.Functions
import MiniC.Proofs.Operands

/-!
# The invariant of generated code

What the memory holds while generated code runs, as far as safety depends on it: the frames of the
active calls, the length cells of the existing arrays, and cell 0, which is zero until a fault is
reported. The contents of variables do not matter, except for references to arrays. A book is kept
beside the run of what the calls are given and of the left operands that are put aside.

* `Recording`, `Receiving`: which instructions store to cell 0, and what a function starts with
* `Reloading`: what the second accumulator is loaded with
* `Good`, `Safe`: the properties of a state, and of all states of a run for a number of steps
* `Sound`: the invariant of the memory, and `Sound.write`: which stores keep it
* `InFrame`: the invariant while a function runs
-/

namespace MiniC

/-- A compiled program on a machine with a device. -/
structure Scene (σ : Type) where
  code : List Instr
  marks : List Mark
  device : Device σ
  /-- The address of the last cell. -/
  top : Int
  /-- The offset of the frame of `main`. -/
  globalsEnd : Int
  /-- The functions that can be called. -/
  pool : Entries
  /-- The global scope, and the slots of its variables. -/
  scope : ScopeTable
  globals : List Slot

variable {σ : Type} {P : Scene σ}

namespace Scene

/-- Where the frame of `main` starts. -/
def base (P : Scene σ) : Int :=
  P.top + P.globalsEnd

/-- The effect of the next instruction. -/
def step (P : Scene σ) (m : Machine) (io : σ) : Machine.StepResult σ :=
  Machine.step P.code.toArray P.device m io

/-- The code and the memory are not too large, the fixed code is there, and no two global variables
share a cell. -/
structure Fits (P : Scene σ) : Prop where
  routines : Holds P.code inputEntry MiniC.routines
  marks : Holds P.marks 0 fixedMarks
  code_lt : P.code.length < 2 ^ 31
  pool_lt : ∀ x ∈ P.pool, x.2 < 2 ^ 31
  top_nonneg : 0 ≤ P.top
  top_lt : P.top < 2 ^ 60
  scope : P.scope.Global P.globals
  output : P.scope.Signature "output" .void [.int]
  tiled : Tiled P.globalsEnd 0 P.globals
  plain : ∀ v ∈ P.globals, v.shape ≠ .reference

end Scene

/-! ### Good states

The claims about a run are claims about each of its states before the next instruction: the
instruction is harmless (`Orderly`), it leaves the arrays and the frames alone, it does not store to
cell 0 unless it is one of three, and so on. `Good` collects them. A run is safe for `n` steps if
its first `n` states are good; that a whole run is good follows by taking all `n` (`Safe.good`). -/

/-- Where cell 0 is cleared. -/
def clearSite : Nat := 2

/-- Where a fault is recorded in cell 0. -/
def recordSite (fault : BoundsFault) : Nat :=
  faultEntry fault + 2

/-- Cell 0 is stored to where it is cleared and where a fault is recorded, and nowhere else. -/
structure Recording (P : Scene σ) (w : Watched σ) : Prop where
  stores : w.machine.stored? P.code.toArray = some 0 → (P.step w.machine w.io).stopped = none →
    ((w.machine.reg .pc).toInt = clearSite ∧ w.machine.reg .ac = 0) ∨
      ∃ fault, (w.machine.reg .pc).toInt = recordSite fault ∧
        w.machine.reg .ac = Int64.ofInt fault.code
  records : ∀ fault, (w.machine.reg .pc).toInt = recordSite fault →
    w.machine.stored? P.code.toArray = some 0
  /-- No store counts its address from the program counter. -/
  base : ∀ r d s t, w.machine.current P.code.toArray = some (.rm .st r d s t) → s ≠ .pc

/-- A function that can be called starts here, and finds what it is given. -/
def Receiving (P : Scene σ) (w : Watched σ) (log : Ledger) : Prop :=
  ∃ name entry r tys a waiting given, (name, entry) ∈ P.pool ∧
    (w.machine.reg .pc).toInt = (entry : Nat) ∧ P.scope.Signature name r tys ∧
    Received w log tys a waiting given

/-- A left operand is in the cell at `offset` of the frame, and is loaded from there next. -/
structure Restores (P : Scene σ) (c : Core) (offset : Int) (o : Operand) : Prop where
  sane : c.Sane
  low : -2 ^ 31 ≤ offset
  high : offset ≤ 0
  room : 0 < offset + c.fp
  value : c.mem.read (offset + c.fp) = o.value
  spans : Spans P.code offset o.site c.pc

/-- The storage with this layout leads to an array, which lies in the memory and has its length. -/
structure Addresses (c : Core) (l : Layout) (e : Extent) : Prop where
  sane : c.Sane
  low : -2 ^ 31 ≤ l.offset
  high : l.offset ≤ 0
  zero : c.mem.read 0 = 0
  base_pos : 0 < e.base
  end_le : e.base + e.size ≤ c.gp
  length : c.mem.read e.base = Int64.ofInt e.size
  array : l.storage = .array → l.offset + c.origin l.isGlobal = e.base
  reference : l.storage = .arrayRef → c.mem.read (l.offset + c.origin l.isGlobal) =
    Int64.ofInt e.base

/-- What the second accumulator is loaded with, if it is loaded next. -/
structure Reloading (P : Scene σ) (w : Watched σ) (book : Book) : Prop where
  /-- The left operand of an operator is the latest that was put aside, and is loaded from where it
  was put. -/
  operand : ∀ offset,
    w.machine.current P.code.toArray = some (.rm .ld .ac1 offset .fp "op: load left") →
    ∃ c account o os rest, w.machine = Core.machine c ∧ (w.machine.reg .pc).toInt = c.pc ∧
      book = ⟨account, o :: os⟩ :: rest ∧ Restores P c offset o
  /-- An index is checked against the array that the name stands for. -/
  array : ∀ v l t t' e, v.layout = some l → l.storage ≠ .scalar →
    w.machine.current P.code.toArray = some (.rm l.storage.loadOp .ac1 l.offset l.base t) →
    P.code[(w.machine.reg .pc).toInt.toNat + 1]? = some (.rm .ld .ac1 0 .ac1 t') →
    w.shadow.denote (w.machine.reg .gp).toInt v = some e →
    ∃ c, w.machine = Core.machine c ∧ (w.machine.reg .pc).toInt = c.pc ∧ Addresses c l e

/-- All that is claimed of a state before its next instruction. -/
structure Good (P : Scene σ) (w : Watched σ) (book : Book) : Prop where
  orderly : Orderly P.code.toArray P.device w (P.step w.machine w.io).stopped
  arrays : ArraysIntact P.code.toArray P.marks w
  stack : StackIntact P.code.toArray P.marks P.device P.top P.globalsEnd w
  recording : Recording P w
  receiving : w.machine.mark P.marks = some .entry → Receiving P w book.accounts
  reloading : Reloading P w book

/-- The book after the next instruction. -/
def Scene.note (P : Scene σ) (m : Machine) (book : Book) : Book :=
  book.step P.code P.marks m

/-- The states of a run are good for a number of steps. -/
def Safe (P : Scene σ) : Nat → Watched σ → Book → Prop
  | 0, _, _ => True
  | n + 1, w, book => Good P w book ∧
    ∀ w', w.next P.code.toArray P.marks P.device = some w' → Safe P n w' (P.note w.machine book)

/-- Every state of a safe run is safe. -/
theorem Safe.after {w w' : Watched σ} {book : Book} (h : ∀ n, Safe P n w book) {k : Nat}
    (hafter : w.after P.code.toArray P.marks P.device k = some w') :
    ∀ n, Safe P n w' (w.book P.code P.marks P.device k book) := by
  induction k generalizing w book with
  | zero =>
    cases hafter
    exact h
  | succ k ih =>
    obtain ⟨w₁, hnext, hafter⟩ := Option.bind_eq_some_iff.mp hafter
    -- the first step is taken from both sides, and the rest is the run from there
    simp only [Watched.book, hnext]
    exact ih (fun n => (h (n + 1)).2 w₁ hnext) hafter

/-- Every state of a safe run is good. -/
theorem Safe.good {w w' : Watched σ} {book : Book} (h : ∀ n, Safe P n w book) {k : Nat}
    (hafter : w.after P.code.toArray P.marks P.device k = some w') :
    Good P w' (w.book P.code P.marks P.device k book) :=
  (Safe.after h hafter 1).1

/-- A good state from which the machine goes on to a safe state. -/
theorem Safe.step {n : Nat} {m m' : Machine} {io io' : σ} {g : Shadow} {book : Book}
    (hgood : Good P ⟨m, io, g⟩ book) (hstep : P.step m io = ⟨none, m', io'⟩)
    (hnext : Safe P n ⟨m', io', g.step P.code.toArray P.marks m⟩ (P.note m book)) :
    Safe P (n + 1) ⟨m, io, g⟩ book := by
  refine ⟨hgood, ?_⟩
  intro w' hw'
  unfold Watched.next at hw'
  unfold Scene.step at hstep
  simp only [hstep, Option.some.injEq] at hw'
  rw [← hw']
  exact hnext

/-- A good state in which the machine stops. -/
theorem Safe.stop {n : Nat} {m m' : Machine} {io io' : σ} {g : Shadow} {book : Book} {o : Outcome}
    (hgood : Good P ⟨m, io, g⟩ book) (hstep : P.step m io = ⟨some o, m', io'⟩) :
    Safe P n ⟨m, io, g⟩ book := by
  cases n with
  | zero => exact trivial
  | succ n =>
    refine ⟨hgood, ?_⟩
    intro w' hw'
    unfold Watched.next at hw'
    unfold Scene.step at hstep
    simp only [hstep] at hw'
    -- a machine that stopped has no next state
    cases hw'

/-! ### Frames and arrays

`Framed` is about the places of the frames alone and does not mention the memory, so no store can
break it. `Chained` is about the return addresses and saved frame bases that the memory holds. -/

/-- The frames of the calls lie below each other, with the arrays of a function in its frame. -/
def Framed (start : Int) : List Activation → Prop
  | [] => True
  | a :: rest =>
    2 ≤ a.base ∧ a.base ≤ start ∧ (∀ b ∈ rest, a.base + 2 ≤ b.base) ∧
    (∀ e ∈ a.arrays, 0 < e.base ∧ e.base + e.size + 2 ≤ a.base) ∧
    (∀ e ∈ rest.flatMap Activation.arrays, a.base < e.base) ∧ Framed start rest

/-- Every frame lies below the start. By induction on the calls, from the latest one outwards. -/
theorem Framed.of_mem {start : Int} {stack : List Activation} (h : Framed start stack)
    {a : Activation} (ha : a ∈ stack) : 2 ≤ a.base ∧ a.base ≤ start := by
  induction stack with
  | nil => cases ha
  | cons b rest ih =>
    obtain ⟨hpos, hle, -, -, -, hrest⟩ := h
    rcases List.mem_cons.mp ha with rfl | ha
    · exact ⟨hpos, hle⟩
    · exact ih hrest ha

/-- An array of a frame lies in the memory, below the two cells of linkage of that frame. -/
theorem Framed.array_range {start : Int} {stack : List Activation} (h : Framed start stack)
    {e : Extent} (he : e ∈ stack.flatMap Activation.arrays) :
    0 < e.base ∧ e.base + e.size + 2 ≤ start := by
  induction stack with
  | nil => cases he
  | cons b rest ih =>
    obtain ⟨hpos, hle, -, harrays, -, hrest⟩ := h
    rw [List.flatMap_cons] at he
    rcases List.mem_append.mp he with he | he
    · have := harrays e he
      exact ⟨this.1, by omega⟩
    · exact ih hrest he

/-- No element of an array lies where a frame holds a return address or a saved frame base. -/
theorem Framed.element_ne {start : Int} {stack : List Activation} (h : Framed start stack)
    {e : Extent} (he : e ∈ stack.flatMap Activation.arrays) {x : Int} (hlow : e.base < x)
    (hhigh : x ≤ e.base + e.size) {b : Activation} (hb : b ∈ stack) :
    x ≠ b.base ∧ x ≠ b.base - 1 := by
  induction stack with
  | nil => cases he
  | cons a rest ih =>
    obtain ⟨-, -, hbelow, harrays, habove, hrest⟩ := h
    rw [List.flatMap_cons] at he
    rcases List.mem_append.mp he with he | he
    · have hin := harrays e he
      rcases List.mem_cons.mp hb with rfl | hb
      · omega
      · have := hbelow b hb
        omega
    · have hover := habove e he
      rcases List.mem_cons.mp hb with rfl | hb
      · omega
      · exact ih hrest he hb

/-- The invariant of the memory. -/
structure Sound (P : Scene σ) (mem : Memory) (g : Shadow) : Prop where
  /-- Cell 0 holds no fault. -/
  zero : mem.read 0 = 0
  lengths : ∀ e ∈ g.live, mem.read e.base = Int64.ofInt e.size
  chain : Chained mem P.top P.base g.stack
  framed : Framed P.base g.stack
  returns : ∀ a ∈ g.stack, a.ret < P.code.length ∧ P.marks[a.ret]? = some .resume
  globals : ∀ e ∈ g.globals, 0 < e.base ∧ P.base < e.base ∧ e.base + e.size ≤ P.top
  apart : ∀ e ∈ g.live, ∀ e' ∈ g.live, e ≠ e' →
    e.base + e.size < e'.base ∨ e'.base + e'.size < e.base

/-- Every array lies inside the memory. -/
theorem Sound.range {mem : Memory} {g : Shadow} (h : Sound P mem g) (hge : P.globalsEnd ≤ 0)
    {e : Extent} (he : e ∈ g.live) : 0 < e.base ∧ e.base + e.size ≤ P.top := by
  rcases List.mem_append.mp he with he | he
  · exact ⟨(h.globals e he).1, (h.globals e he).2.2⟩
  · have hrange := h.framed.array_range he
    unfold Scene.base at hrange
    exact ⟨hrange.1, by omega⟩

/-- A cell that may be stored to without harm to frames and arrays. -/
structure Storable (g : Shadow) (x : Int) : Prop where
  length : ∀ e ∈ g.live, x ≠ e.base
  frame : ∀ a ∈ g.stack, x ≠ a.base ∧ x ≠ a.base - 1
  suspended : (∃ a ∈ g.stack.head?, a.base < x) → (∃ a ∈ g.stack.tail, x ≤ a.base) →
    ∃ e ∈ g.live, e.Element x

/-- A store to any other cell keeps the linkage of all frames. By induction on the calls. -/
theorem Chained.write {mem : Memory} {gp start x : Int} {stack : List Activation}
    (h : Chained mem gp start stack) (hpos : ∀ a ∈ stack, 2 ≤ a.base) (hx : 0 ≤ x)
    (hframe : ∀ a ∈ stack, x ≠ a.base ∧ x ≠ a.base - 1) (w : Word) :
    Chained (mem.write x w) gp start stack := by
  induction stack with
  | nil => exact trivial
  | cons a rest ih =>
    obtain ⟨hret, hsaved, hplace, hrest⟩ := h
    have ha := hpos a List.mem_cons_self
    have hf := hframe a List.mem_cons_self
    refine ⟨?_, ?_, hplace, ih hrest (fun b hb => hpos b (List.mem_cons_of_mem a hb))
      (fun b hb => hframe b (List.mem_cons_of_mem a hb))⟩
    · rw [Memory.read_write_ne hx (by omega) hf.1, hret]
    · rw [Memory.read_write_ne hx (by omega) hf.2, hsaved]

/-- The invariant survives stores to storable cells. -/
theorem Sound.write {mem : Memory} {g : Shadow} {x : Int} (h : Sound P mem g)
    (hge : P.globalsEnd ≤ 0) (hpos : 0 < x) (hx : Storable g x) (w : Word) :
    Sound P (mem.write x w) g := by
  refine { h with zero := ?_, lengths := ?_, chain := ?_ }
  · rw [Memory.read_write_ne (by omega) (by omega) (by omega), h.zero]
  · intro e he
    have hrange := (h.range hge he).1
    rw [Memory.read_write_ne (by omega) (by omega) (hx.length e he), h.lengths e he]
  · exact h.chain.write (fun a ha => (h.framed.of_mem ha).1) (by omega) hx.frame w

/-- Below the first cell there is nothing to harm. -/
theorem Sound.storable_of_nonpos {mem : Memory} {g : Shadow} {x : Int} (h : Sound P mem g)
    (hge : P.globalsEnd ≤ 0) (hx : x ≤ 0) : Storable g x := by
  refine ⟨?_, ?_, ?_⟩
  · intro e he
    have := (h.range hge he).1
    omega
  · intro a ha
    have := (h.framed.of_mem ha).1
    omega
  · rintro ⟨a, ha, hlt⟩ -
    have hmem : a ∈ g.stack := List.mem_of_head? ha
    have := (h.framed.of_mem hmem).1
    omega

/-! ### Instructions

Most instructions are harmless for what they are: they store nothing, touch no element and restore
no register. `Instr.passive` decides this from the form alone, so that the runs of whole expressions
need not argue about each of them. -/

/-- The instruction that is fetched is the one that the program counter points to. -/
theorem current_of_pc {code : List Instr} {m : Machine} {n : Nat} {i : Instr}
    (hpc : (m.reg .pc).toInt = n) (hi : code[n]? = some i) : m.current code.toArray = some i := by
  rw [Machine.current, hpc, Machine.fetch, if_pos (Int.natCast_nonneg n), Int.toNat_natCast,
    List.getElem?_toArray, hi]

/-- The machine and the list agree on the next instruction. -/
theorem Scene.Fits.current_eq (hP : P.Fits) {c : Core} {i : Instr} (hi : P.code[c.pc]? = some i) :
    c.machine.current P.code.toArray = some i := by
  obtain ⟨hlt, -⟩ := List.getElem?_eq_some_iff.mp hi
  have hsize := hP.code_lt
  rw [Machine.current, Core.reg_pc, Core.toInt_pc (by omega), Machine.fetch,
    if_pos (Int.natCast_nonneg _), Int.toNat_natCast, List.getElem?_toArray, hi]

/-- The marks stand beside the instructions, so the program counter finds the mark of the next one.
-/
theorem Scene.Fits.mark_eq (hP : P.Fits) {c : Core} {i : Instr} (hi : P.code[c.pc]? = some i) :
    c.machine.mark P.marks = P.marks[c.pc]? := by
  obtain ⟨hlt, -⟩ := List.getElem?_eq_some_iff.mp hi
  have hsize := hP.code_lt
  rw [Machine.mark, Core.reg_pc, Core.toInt_pc (by omega), Int.toNat_natCast]

/-- An instruction that neither stores nor accesses an element nor restores a register of a
caller. -/
def Instr.passive : Instr → Bool
  | .ro _ _ _ _ _ => true
  | .rm .st _ _ _ _ => false
  | .rm .ld r _ s _ => r != .pc && r != .fp && !(r = .ac && (s = .ac || s = .ac1))
  | .rm _ _ _ _ _ => true

/-- An instruction that loads the second accumulator with what is in the frame or among the global
cells, or with where it is. -/
def Instr.reloads : Instr → Bool
  | .ro _ _ _ _ _ => false
  | .rm op r _ s _ => (s == .fp || s == .gp) && r == .ac1 && (op == .ld || op == .lda)

/-- An instruction about which there is nothing to say. -/
def Instr.plain (i : Instr) : Bool :=
  i.passive && !i.reloads

/-- A plain instruction is passive and does not load the second accumulator from the frame. -/
theorem Instr.plain_iff {i : Instr} : i.plain = true ↔ i.passive = true ∧ i.reloads = false := by
  simp [plain]

/-- What holds before every instruction, whatever it is there for. -/
structure Stable (P : Scene σ) (c : Core) (g : Shadow) (mk : Mark) : Prop where
  lengths : ∀ e ∈ g.live, c.mem.read e.base = Int64.ofInt e.size
  frames : mk.inside = true → c.gp = P.top ∧ Chained c.mem P.top P.base g.stack ∧
    ∃ a rest, g.stack = a :: rest ∧ c.fp = a.base ∧ 0 < a.base

/-- What `StackIntact` asks of the frames, in the registers of the machine instead of the fields of
the core. -/
theorem Stable.frames_eq {c : Core} {g : Shadow} {mk : Mark} (h : Stable P c g mk) (io : σ)
    (hmark : c.machine.mark P.marks = some mk) :
    ∀ mk', (⟨c.machine, io, g⟩ : Watched σ).machine.mark P.marks = some mk' → mk'.inside = true →
      c.machine.reg .gp = Int64.ofInt P.top ∧
      Chained c.machine.memory P.top (P.top + P.globalsEnd) g.stack ∧
      ∃ a rest, g.stack = a :: rest ∧ c.machine.reg .fp = Int64.ofInt a.base ∧ 0 < a.base := by
  intro mk' hmk' hin
  have heq : mk' = mk := Option.some.inj (hmk'.symm.trans hmark)
  rw [heq] at hin
  obtain ⟨hgp, hchain, a, rest, hstack, hfp, hpos⟩ := h.frames hin
  exact ⟨by rw [Core.reg_gp, hgp], hchain, a, rest, hstack, by rw [Core.reg_fp, hfp], hpos⟩

/-- Where the next instruction stores to, if it is a store. -/
theorem Scene.Fits.stored_eq (hP : P.Fits) {c : Core} {r s : Reg} {d : Int} {t : String}
    (hi : P.code[c.pc]? = some (.rm .st r d s t)) :
    c.machine.stored? P.code.toArray = some (d + (c.machine.reg s).toInt) := by
  rw [Machine.stored?, hP.current_eq hi]

/-! ### Cell 0

Only the prelude and the two stubs store to cell 0. Inside a function a store to an address below 1
would have to get past the checks of the machine, and does not. -/

/-- The stub of a fault stores to cell 0. -/
theorem Scene.Fits.record_instr (hP : P.Fits) (fault : BoundsFault) :
    P.code[recordSite fault]? = some (.rm .st .ac 0 .ac1 "record fault in location 0") := by
  cases fault
  · exact hP.routines 9 (by decide)
  · exact hP.routines 14 (by decide)

/-- The stores of the stubs have no mark: they are the one place where cell 0 may be written. -/
theorem Scene.Fits.record_mark (hP : P.Fits) (fault : BoundsFault) :
    P.marks[recordSite fault]? = some .outside := by
  cases fault
  · exact hP.marks 13 (by decide)
  · exact hP.marks 18 (by decide)

/-- The program counter is far below the limit of a word, so it is read back as it is. -/
theorem Scene.Fits.toInt_pc (hP : P.Fits) {c : Core} {i : Instr} (hi : P.code[c.pc]? = some i) :
    (c.machine.reg .pc).toInt = c.pc := by
  obtain ⟨hlt, -⟩ := List.getElem?_eq_some_iff.mp hi
  have hsize := hP.code_lt
  rw [Core.reg_pc, Core.toInt_pc (by omega)]

/-- What does not store leaves cell 0 alone. -/
theorem recording_of_plain (hP : P.Fits) {c : Core} {io : σ} {g : Shadow} {i : Instr}
    (hi : P.code[c.pc]? = some i) (hstored : c.machine.stored? P.code.toArray = none) :
    Recording P ⟨c.machine, io, g⟩ := by
  refine ⟨fun hzero => ?_, fun fault hpc => ?_, fun r d s t hcur => ?_⟩
  · cases hstored.symm.trans hzero
  · have hsite : c.pc = recordSite fault := by
      have := hP.toInt_pc hi
      simp only at hpc
      omega
    cases hstored.symm.trans (hP.stored_eq (c := c) (hsite ▸ hP.record_instr fault))
  · simp only [Machine.stored?, hcur] at hstored
    cases hstored

/-- A store inside a function, or through a base register, does not reach cell 0: the machine stops
first. -/
theorem recording_of_store (hP : P.Fits) {c : Core} {io : σ} {g : Shadow} {r s : Reg} {d x : Int}
    {t : String} {mk : Mark} (hi : P.code[c.pc]? = some (.rm .st r d s t))
    (hmk : P.marks[c.pc]? = some mk) (hbase : s ≠ .pc) (hreg : d + (c.machine.reg s).toInt = x)
    (hs : s = .ac1 → mk ≠ .outside) (hpos : (P.step c.machine io).stopped = none → 0 < x) :
    Recording P ⟨c.machine, io, g⟩ := by
  refine ⟨fun hzero hgo => ?_, fun fault hpc => ?_, fun r' d' s' t' hcur => ?_⟩
  · have hx := Option.some.inj ((hP.stored_eq hi).symm.trans hzero)
    have := hpos hgo
    omega
  · have hsite : c.pc = recordSite fault := by
      have := hP.toInt_pc hi
      simp only at hpc
      omega
    have hinstr := hP.record_instr fault
    have hmark := hP.record_mark fault
    rw [← hsite, hi] at hinstr
    rw [← hsite, hmk] at hmark
    cases hinstr
    exact absurd (Option.some.inj hmark) (hs rfl)
  · cases (hP.current_eq hi).symm.trans hcur
    exact hbase

/-! ### Good instructions

One lemma for each way in which an instruction can be good: it is passive, it stores through a base
register, or it loads or stores an element of an array that exists. -/

/-- Nothing is claimed of an instruction that does not load the second accumulator. -/
theorem reloading_of_quiet (hP : P.Fits) {c : Core} {io : σ} {g : Shadow} {i : Instr} {book : Book}
    (hi : P.code[c.pc]? = some i) (hquiet : i.reloads = false) :
    Reloading P ⟨c.machine, io, g⟩ book := by
  have hcur := hP.current_eq hi
  constructor
  · intro offset hload
    cases hcur.symm.trans hload
    cases hquiet
  · intro v l t t' e _ hstorage hload
    cases hcur.symm.trans hload
    -- a variable is counted from the frame or from the globals, so its load would be counted as one
    have hbase : l.base = .fp ∨ l.base = .gp := by
      unfold Layout.base
      split
      · exact Or.inr rfl
      · exact Or.inl rfl
    cases hs : l.storage with
    | scalar => exact absurd hs hstorage
    | array => rcases hbase with hb | hb <;> simp [Instr.reloads, hs, hb, Storage.loadOp] at hquiet
    | arrayRef =>
      rcases hbase with hb | hb <;> simp [Instr.reloads, hs, hb, Storage.loadOp] at hquiet

/-- A step that does not touch the memory is good, whatever the state. -/
theorem good_passive (hP : P.Fits) {c : Core} {io : σ} {g : Shadow} {i : Instr} {mk : Mark}
    {book : Book} (hi : P.code[c.pc]? = some i) (hmk : P.marks[c.pc]? = some mk)
    (hpassive : i.passive = true) (hreload : Reloading P ⟨c.machine, io, g⟩ book)
    (hentry : mk ≠ .entry) (hstable : Stable P c g mk)
    (horderly : Orderly P.code.toArray P.device ⟨c.machine, io, g⟩ (P.step c.machine io).stopped) :
    Good P ⟨c.machine, io, g⟩ book := by
  have hcur := hP.current_eq hi
  have hmark := (hP.mark_eq hi).trans hmk
  have hstored : c.machine.stored? P.code.toArray = none := by
    unfold Machine.stored?
    rw [hcur]
    cases i with
    | ro op r s q t => rfl
    | rm op r d s t =>
      cases op
      case st => cases hpassive
      all_goals rfl
  refine ⟨horderly, ⟨hstable.lengths, ?_, ?_⟩, ⟨hstable.frames_eq io hmark, ?_, ?_, ?_⟩,
    recording_of_plain hP hi hstored, fun hm =>
      absurd (Option.some.inj (hmark.symm.trans hm)) hentry,
    hreload⟩
  · intro e he hx
    cases hstored.symm.trans hx
  · intro x hx
    -- an element is accessed by a store or by a load through an accumulator
    have hnone : c.machine.accessed? P.code.toArray = none := by
      unfold Machine.accessed?
      rw [hcur]
      cases i with
      | ro op r s q t => rfl
      | rm op r d s t =>
        cases op
        case st => cases hpassive
        case ld =>
          simp only [Instr.passive, Bool.and_eq_true, Bool.not_eq_true', Bool.and_eq_false_iff,
            decide_eq_false_iff_not, Bool.or_eq_false_iff] at hpassive
          simp only
          rw [if_neg]
          rintro ⟨hr, hs⟩
          rcases hpassive.2 with h | ⟨h₁, h₂⟩
          · exact h hr
          · rcases hs with hs | hs
            · exact h₁ hs
            · exact h₂ hs
        all_goals rfl
    cases hnone.symm.trans hx
  · intro d t hd
    cases hcur.symm.trans hd
    cases hpassive
  · intro d t hd
    cases hcur.symm.trans hd
    cases hpassive
  · intro x hx
    cases hstored.symm.trans hx

/-- A step that neither touches the memory nor loads the second accumulator is good, whatever the
state. -/
theorem good_plain (hP : P.Fits) {c : Core} {io : σ} {g : Shadow} {i : Instr} {mk : Mark}
    {book : Book} (hi : P.code[c.pc]? = some i) (hmk : P.marks[c.pc]? = some mk)
    (hplain : i.plain = true) (hentry : mk ≠ .entry) (hstable : Stable P c g mk)
    (horderly : Orderly P.code.toArray P.device ⟨c.machine, io, g⟩ (P.step c.machine io).stopped) :
    Good P ⟨c.machine, io, g⟩ book := by
  obtain ⟨hpassive, hquiet⟩ := Instr.plain_iff.mp hplain
  exact good_passive hP hi hmk hpassive (reloading_of_quiet hP hi hquiet) hentry hstable horderly

/-- What may be stored to is no linkage and no cell of a suspended frame. -/
theorem not_protected {c : Core} {io : σ} {g : Shadow} {x : Int} (hx : Storable g x) :
    ¬(⟨c.machine, io, g⟩ : Watched σ).Protected P.marks x := by
  rintro (⟨a, ha, hor⟩ | ⟨hhead, htail, hnone⟩)
  · have hmem : a ∈ g.stack := by
      unfold Watched.settled at ha
      split at ha
      · exact List.mem_of_mem_tail ha
      · exact ha
    rcases hor with h | h
    · exact (hx.frame a hmem).1 h
    · exact (hx.frame a hmem).2 h
  · exact hnone (hx.suspended hhead htail)

/-- A store that changes length cells only as a declaration, and no protected cell. -/
theorem good_store (hP : P.Fits) {c : Core} {io : σ} {g : Shadow} {mk : Mark} {r s : Reg}
    {d x : Int}
    {t : String} {book : Book} (hi : P.code[c.pc]? = some (.rm .st r d s t))
    (hmk : P.marks[c.pc]? = some mk)
    (hreg : d + (c.machine.reg s).toInt = x) (hstable : Stable P c g mk)
    (hlength : ∀ e ∈ g.live, x = e.base → g.Redeclares mk e)
    (hprotected : ¬(⟨c.machine, io, g⟩ : Watched σ).Protected P.marks x)
    (haccess : s = .ac ∨ s = .ac1 → bodyStart ≤ c.pc →
      ∃ v e, mk = .access v ∧ g.denote (c.machine.reg .gp).toInt v = some e ∧ e ∈ g.live ∧
        e.Element x)
    (hrecording : Recording P ⟨c.machine, io, g⟩)
    (hreceiving : mk = .entry → Receiving P ⟨c.machine, io, g⟩ book.accounts)
    (horderly : Orderly P.code.toArray P.device ⟨c.machine, io, g⟩ (P.step c.machine io).stopped) :
    Good P ⟨c.machine, io, g⟩ book := by
  have hcur := hP.current_eq hi
  have hmark := (hP.mark_eq hi).trans hmk
  have hstored : c.machine.stored? P.code.toArray = some x := by
    unfold Machine.stored?
    rw [hcur, ← hreg]
  have hquiet : (Instr.rm .st r d s t).reloads = false := by simp [Instr.reloads]
  refine ⟨horderly, ⟨hstable.lengths, ?_, ?_⟩, ⟨hstable.frames_eq io hmark, ?_, ?_, ?_⟩,
    hrecording, fun hm => hreceiving (Option.some.inj (hmark.symm.trans hm)),
    reloading_of_quiet hP hi hquiet⟩
  -- a length cell is stored by the declaration of its array only
  · intro e he hx'
    have heq := Option.some.inj (hstored.symm.trans hx')
    exact ⟨mk, hmark, hlength e he heq⟩
  -- a store through an accumulator is an access, once the prelude is over
  · intro y hy hpc
    unfold Machine.accessed? at hy
    rw [hcur] at hy
    simp only at hy
    split at hy
    · rename_i hs
      cases hy
      have hpc' : bodyStart ≤ c.pc := by
        rw [Core.reg_pc, Core.toInt_pc (by
          obtain ⟨hlt, -⟩ := List.getElem?_eq_some_iff.mp hi
          have hsize := hP.code_lt
          omega)] at hpc
        omega
      obtain ⟨v, e, hv, hdenote, hlive, helem⟩ := haccess hs hpc'
      rw [← hreg] at helem
      exact ⟨v, e, by rw [hmark, hv], hdenote, hlive, helem⟩
    · cases hy
  -- a store neither enters nor leaves a function
  · intro d t hd
    cases hcur.symm.trans hd
  · intro d t hd
    cases hcur.symm.trans hd
  · intro y hy
    cases hstored.symm.trans hy
    exact hprotected

/-- A store through a base register to a storable cell. -/
theorem good_store_base (hP : P.Fits) {c : Core} {io : σ} {g : Shadow} {mk : Mark} {r s : Reg}
    {d x : Int} {t : String} {book : Book} (hi : P.code[c.pc]? = some (.rm .st r d s t))
    (hs : s = .fp ∨ s = .gp) (hmk : P.marks[c.pc]? = some mk) (hentry : mk ≠ .entry)
    (hreg : d + (c.machine.reg s).toInt = x) (hstable : Stable P c g mk) (hx : Storable g x)
    (hpos : (P.step c.machine io).stopped = none → 0 < x)
    (horderly : Orderly P.code.toArray P.device ⟨c.machine, io, g⟩ (P.step c.machine io).stopped) :
    Good P ⟨c.machine, io, g⟩ book := by
  have haccumulator : ¬(s = .ac ∨ s = .ac1) := by
    rcases hs with rfl | rfl <;> decide
  have hbase : s ≠ .pc := by
    rcases hs with rfl | rfl <;> decide
  have hrecording : Recording P ⟨c.machine, io, g⟩ :=
    recording_of_store hP hi hmk hbase hreg (fun h => absurd (Or.inr h) haccumulator) hpos
  exact good_store hP hi hmk hreg hstable (fun e he heq => absurd heq (hx.length e he))
    (not_protected hx) (fun h => absurd h haccumulator) hrecording
      (fun h => absurd h hentry) horderly

/-- A load through an accumulator of an element of the array that is named. -/
theorem good_access (hP : P.Fits) {c : Core} {io : σ} {g : Shadow} {v : VarUse} {e : Extent}
    {x : Int} {t : String} {book : Book} (hi : P.code[c.pc]? = some (.rm .ld .ac 0 .ac t))
    (hmk : P.marks[c.pc]? = some (.access v)) (hreg : c.ac.toInt = x)
    (hstable : Stable P c g (.access v))
    (hdenote : g.denote (c.machine.reg .gp).toInt v = some e) (he : e ∈ g.live) (hx : e.Element x)
    (horderly : Orderly P.code.toArray P.device ⟨c.machine, io, g⟩ (P.step c.machine io).stopped) :
    Good P ⟨c.machine, io, g⟩ book := by
  have hcur := hP.current_eq hi
  have hmark := (hP.mark_eq hi).trans hmk
  have hstored : c.machine.stored? P.code.toArray = none := by
    unfold Machine.stored?
    rw [hcur]
  refine ⟨horderly, ⟨hstable.lengths, ?_, ?_⟩, ⟨hstable.frames_eq io hmark, ?_, ?_, ?_⟩,
    recording_of_plain hP hi hstored, fun hm =>
      Mark.noConfusion (Option.some.inj (hmark.symm.trans hm)),
    reloading_of_quiet hP hi rfl⟩
  -- a load stores nothing
  · intro e he hx
    cases hstored.symm.trans hx
  -- the cell it reads is the element that the access names
  · rintro y hy -
    unfold Machine.accessed? at hy
    rw [hcur] at hy
    have heq : y = x := by
      rw [← hreg]
      simpa using hy.symm
    rw [heq]
    exact ⟨v, e, hmark, hdenote, he, hx⟩
  · intro d t hd
    cases hcur.symm.trans hd
  · intro d t hd
    cases hcur.symm.trans hd
  · intro x hx
    cases hstored.symm.trans hx

/-! ### Running functions

`InFrame` is the invariant that the induction over the code of a function carries. `Kept` says which
cells a stretch of code leaves as they are, and is what a caller knows of a callee. -/

/-- The global arrays of the program, and no others, exist. -/
structure GlobalsExist (P : Scene σ) (gs : List Extent) : Prop where
  exist : ∀ v ∈ P.globals, ∀ n, v.shape = .array n → (⟨P.top + v.offset, n⟩ : Extent) ∈ gs
  only : ∀ e ∈ gs, ∃ v ∈ P.globals, v.shape = .array e.size ∧ e.base = P.top + v.offset

/-- A function runs: `a` is its call, `rest` are the calls that wait for it. -/
structure InFrame (P : Scene σ) (f : CompiledFunction) (c : Core) (gs : List Extent)
    (a : Activation) (rest : List Activation) : Prop where
  sane : c.Sane
  gp_eq : c.gp = P.top
  fp_eq : c.fp = a.base
  sound : Sound P c.mem ⟨gs, a :: rest⟩
  globals : GlobalsExist P gs
  arrays : ∀ e ∈ a.arrays, ∃ v ∈ f.slots, v.shape = .array e.size ∧ e.base = a.base + v.offset
  references : ∀ v ∈ f.slots, v.shape = .reference →
    c.mem.read (a.base + v.offset) = refWord (a.references.lookup v.offset) ∧
    ∀ e, a.references.lookup v.offset = some e → e ∈ gs ++ rest.flatMap Activation.arrays

/-- The cells of a function's variables, except for its references. -/
def CompiledFunction.Owns (f : CompiledFunction) (base x : Int) : Prop :=
  ∃ v ∈ f.slots, v.shape ≠ .reference ∧ base + v.offset ≤ x ∧ x ≤ base + v.top

/-- The cells above `floor` are unchanged, except for variables of the running function, elements of
arrays of waiting functions, and global variables. -/
def Kept (P : Scene σ) (f : CompiledFunction) (a : Activation) (rest : List Activation)
    (floor : Int)
    (mem mem' : Memory) : Prop :=
  ∀ x, floor < x → x ≤ P.base → ¬f.Owns a.base x →
    (∀ e ∈ rest.flatMap Activation.arrays, ¬e.Element x) → mem'.read x = mem.read x

/-- Nothing has changed yet. -/
theorem Kept.refl {f : CompiledFunction} {a : Activation} {rest : List Activation} {floor : Int}
    {mem : Memory} : Kept P f a rest floor mem mem :=
  fun _ _ _ _ _ => rfl

/-- What two stretches of a run keep, both together keep. -/
theorem Kept.trans {f : CompiledFunction} {a : Activation} {rest : List Activation}
    {floor floor' : Int} {mem mem' mem'' : Memory} (h : Kept P f a rest floor mem mem')
    (h' : Kept P f a rest floor' mem' mem'') (hle : floor' ≤ floor) :
    Kept P f a rest floor mem mem'' := by
  intro x hx htop hown helem
  rw [h' x (by omega) htop hown helem, h x hx htop hown helem]

/-- What is kept up to a floor is kept up to a higher one. -/
theorem Kept.raise {f : CompiledFunction} {a : Activation} {rest : List Activation}
    {floor floor' : Int} {mem mem' : Memory} (h : Kept P f a rest floor mem mem')
    (hle : floor ≤ floor') : Kept P f a rest floor' mem mem' :=
  fun x hx => h x (by omega)

section Frame

variable {ds : List Decl} {f : CompiledFunction} {c : Core} {gs : List Extent} {a : Activation}
  {rest : List Activation}

/-- The frame of a running function lies in the memory. -/
theorem InFrame.base_range (h : InFrame P f c gs a rest) : 2 ≤ a.base ∧ a.base ≤ P.base :=
  h.sound.framed.of_mem List.mem_cons_self

/-- What `Stable` asks of a state is part of the invariant, so it holds beside every mark. -/
theorem InFrame.stable (h : InFrame P f c gs a rest) (mk : Mark) :
    Stable P c ⟨gs, a :: rest⟩ mk := by
  have hbase := h.base_range
  exact ⟨h.sound.lengths, fun _ => ⟨h.gp_eq, h.sound.chain, a, rest, rfl, h.fp_eq, by omega⟩⟩

/-- Slots of references are not owned. -/
theorem CompiledFunction.Valid.not_owns_reference (hf : f.Valid ds P.scope P.pool) {v : Slot}
    (hv : v ∈ f.slots) (href : v.shape = .reference) (base : Int) :
    ¬f.Owns base (base + v.offset) := by
  rintro ⟨w, hw, hne, hlow, hhigh⟩
  have hvw : v ≠ w := by
    rintro rfl
    exact hne href
  have htop : v.top = v.offset := by
    simp [Slot.top, href, Shape.elements]
  rcases hf.tiled.apart_of_ne hv hw hvw with h | h
  · omega
  · omega

/-- The frame invariant goes over to a state with the same frame and kept cells. -/
theorem InFrame.of_kept (hf : f.Valid ds P.scope P.pool) (h : InFrame P f c gs a rest) {c' : Core}
    (hsane : c'.Sane) (hgp : c'.gp = P.top) (hfp : c'.fp = a.base)
    (hsound : Sound P c'.mem ⟨gs, a :: rest⟩) {floor : Int} (hfloor : floor ≤ a.base + f.frameEnd)
    (hkept : Kept P f a rest floor c.mem c'.mem) : InFrame P f c' gs a rest := by
  refine ⟨hsane, hgp, hfp, hsound, h.globals, h.arrays, ?_⟩
  intro v hv href
  obtain ⟨hread, hlive⟩ := h.references v hv href
  refine ⟨?_, hlive⟩
  have hwithin := hf.tiled.within v hv
  have hbase := h.base_range
  have hle := v.offset_le_top
  unfold firstFrameOffset at hwithin
  rw [← hread]
  apply hkept
  · omega
  · omega
  · exact hf.not_owns_reference hv href a.base
  · rintro e he ⟨hlow, -⟩
    obtain ⟨-, -, -, -, habove, -⟩ := h.sound.framed
    have := habove e he
    omega

/-- A state that differs in the accumulators and the program counter alone. -/
theorem InFrame.of_eq (h : InFrame P f c gs a rest) {c' : Core} (hmem : c'.mem = c.mem)
    (hgp : c'.gp = c.gp) (hfp : c'.fp = c.fp) : InFrame P f c' gs a rest := by
  obtain ⟨⟨h1, h2, h3, h4⟩, hgp', hfp', hsound, hglobals, harrays, hrefs⟩ := h
  refine ⟨⟨?_, ?_, ?_, ?_⟩, hgp.trans hgp', hfp.trans hfp', ?_, hglobals, harrays, ?_⟩
  · rw [hfp]; exact h1
  · rw [hfp, hgp]; exact h2
  · rw [hgp]; exact h3
  · rw [hmem, hgp]; exact h4
  · rw [hmem]; exact hsound
  · rw [hmem]; exact hrefs

/-- A cell of the own frame below the saved frame base that is no length cell. -/
theorem InFrame.storable_frame (h : InFrame P f c gs a rest) {x : Int} (hx : x + 2 ≤ a.base)
    (hlength : ∀ e ∈ a.arrays, x ≠ e.base) : Storable ⟨gs, a :: rest⟩ x := by
  obtain ⟨hpos, hle, hbelow, -, habove, hframed⟩ := h.sound.framed
  refine ⟨?_, ?_, ?_⟩
  · intro e he
    simp only [Shadow.live, List.flatMap_cons, List.mem_append] at he
    rcases he with he | he | he
    · have := (h.sound.globals e he).2.1
      omega
    · exact hlength e he
    · have := habove e he
      omega
  · intro b hb
    rcases List.mem_cons.mp hb with rfl | hb
    · omega
    · have := hbelow b hb
      omega
  · rintro ⟨b, hb, hlt⟩ -
    simp only [List.head?_cons, Option.mem_def, Option.some.injEq] at hb
    subst hb
    omega

/-- A cell above all frames that is no length cell. -/
theorem InFrame.storable_global (h : InFrame P f c gs a rest) {x : Int} (hx : P.base < x)
    (hlength : ∀ e ∈ gs, x ≠ e.base) : Storable ⟨gs, a :: rest⟩ x := by
  refine ⟨?_, ?_, ?_⟩
  · intro e he
    rcases List.mem_append.mp he with he | he
    · exact hlength e he
    · have := h.sound.framed.array_range he
      omega
  · intro b hb
    have := h.sound.framed.of_mem hb
    omega
  · rintro - ⟨b, hb, hle⟩
    have := h.sound.framed.of_mem (List.mem_of_mem_tail hb)
    omega

/-- An element of an array. -/
theorem InFrame.storable_element (h : InFrame P f c gs a rest) {x : Int} {e : Extent}
    (he : e ∈ (⟨gs, a :: rest⟩ : Shadow).live) (hx : e.Element x) : Storable ⟨gs, a :: rest⟩ x := by
  obtain ⟨hlow, hhigh⟩ := hx
  refine ⟨?_, ?_, fun _ _ => ⟨e, he, hlow, hhigh⟩⟩
  · intro e' he' heq
    by_cases hsame : e = e'
    · subst hsame
      omega
    · rcases h.sound.apart e he e' he' hsame with hap | hap
      · omega
      · omega
  · intro b hb
    rcases List.mem_append.mp he with he | he
    · have hglobal := (h.sound.globals e he).2.1
      have hbase := (h.sound.framed.of_mem hb).2
      omega
    · exact h.sound.framed.element_ne he hlow hhigh hb

end Frame

end MiniC
