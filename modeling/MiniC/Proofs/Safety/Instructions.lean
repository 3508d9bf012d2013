import MiniC.Proofs.Safety.Invariant

/-!
# Safe instructions

One statement for each kind of instruction in the code of a function: a state in which it is next
is safe if the states that it leads to are. Each takes the invariant of the running function, and
what it leads to is safe for fewer steps. The book stays as it is, but for the stores that put the
value of an argument or a left operand aside, and for the load of a left operand.

* `InFrame.go`, `InFrame.constant`, `InFrame.load_base`, `InFrame.store_base`, `InFrame.branch`
* `InFrame.fault`: the report of a fault
* `InFrame.load_element`, `InFrame.store_element`: accesses to elements
-/

namespace MiniC

variable {σ : Type} {P : Scene σ} {book : Book}

theorem Scene.Fits.size_lt (hP : P.Fits) : P.code.toArray.size < 2 ^ 31 := by
  rw [List.size_toArray]
  exact hP.code_lt

theorem Scene.Fits.globalsEnd_le (hP : P.Fits) : P.globalsEnd ≤ 0 :=
  hP.tiled.le

theorem Scene.Fits.base_le (hP : P.Fits) : P.base ≤ P.top := by
  have := hP.globalsEnd_le
  unfold Scene.base
  omega

theorem Safe.step_lt {n : Nat} {m m' : Machine} {io io' : σ} {g : Shadow}
    (hgood : Good P ⟨m, io, g⟩ book) (hstep : P.step m io = ⟨none, m', io'⟩)
    (hnext : ∀ k < n, Safe P k ⟨m', io', g.step P.code.toArray P.marks m⟩ (P.note m book)) :
    Safe P n ⟨m, io, g⟩ book := by
  cases n with
  | zero => exact trivial
  | succ n => exact Safe.step hgood hstep (hnext n (Nat.lt_succ_self n))

/-- Most instructions do not concern the watcher. -/
theorem Shadow.step_of_not_watched (hP : P.Fits) {c : Core} {i : Instr} {g : Shadow}
    (hi : P.code[c.pc]? = some i) {mk : Mark} (hmk : P.marks[c.pc]? = some mk)
    (hwatched : mk.watched = false) : g.step P.code.toArray P.marks c.machine = g := by
  unfold Shadow.step
  rw [hP.mark_eq hi, hmk]
  cases mk with
  | declare | declareGlobal | call | leave => cases hwatched
  | _ => rfl

/-- The book takes note of calls, of returns, and of what is put aside and loaded again. -/
theorem Scene.Fits.note_eq (hP : P.Fits) {c : Core} {i : Instr} (hi : P.code[c.pc]? = some i)
    (hnoted : i.noted = false) {mk : Mark} (hmk : P.marks[c.pc]? = some mk)
    (hbooked : mk.booked = false) : P.note c.machine book = book := by
  have hsame : ∀ page : Page, page.after P.code c.machine = page := by
    intro page
    unfold Page.after
    rw [hP.toInt_pc hi, Int.toNat_natCast, hi]
    exact page.note_of_not_noted hnoted _ _
  unfold Scene.note Book.step
  rw [hP.mark_eq hi, hmk]
  cases mk with
  | call | leave | aside => cases hbooked
  | _ => cases book <;> simp only [hsame]

/-- The book after an instruction of a function that is noted. -/
theorem Scene.Fits.note_body (hP : P.Fits) {c : Core} {i : Instr} (hi : P.code[c.pc]? = some i)
    (hmk : P.marks[c.pc]? = some .body) (page : Page) :
    P.note c.machine (page :: book) = page.note c.pc i c.ac :: book := by
  unfold Scene.note Book.step Page.after
  rw [hP.mark_eq hi, hmk, hP.toInt_pc hi, Int.toNat_natCast, hi]
  rfl

/-- The book after the value of an argument has been put aside. -/
theorem Scene.Fits.note_aside (hP : P.Fits) {c : Core} {i : Instr} (hi : P.code[c.pc]? = some i)
    (hmk : P.marks[c.pc]? = some .aside) (page : Page) :
    P.note c.machine (page :: book) =
      { page with account := { page.account with aside := c.ac :: page.account.aside } } ::
        book := by
  unfold Scene.note Book.step
  rw [hP.mark_eq hi, hmk]
  rfl

/-- An instruction that concerns neither the watcher nor the book. -/
theorem Safe.step_quiet (hP : P.Fits) {c : Core} {i : Instr} {g : Shadow} {m' : Machine}
    {io io' : σ}
    {n : Nat} (hi : P.code[c.pc]? = some i) (hnoted : i.noted = false) {mk : Mark}
    (hmk : P.marks[c.pc]? = some mk)
    (hwatched : mk.watched = false) (hbooked : mk.booked = false)
    (hgood : Good P ⟨c.machine, io, g⟩ book) (hstep : P.step c.machine io = ⟨none, m', io'⟩)
    (hnext : ∀ k < n, Safe P k ⟨m', io', g⟩ book) : Safe P n ⟨c.machine, io, g⟩ book := by
  apply Safe.step_lt hgood hstep
  rw [Shadow.step_of_not_watched hP hi hmk hwatched, hP.note_eq hi hnoted hmk hbooked]
  exact hnext

/-- An instruction about which there is nothing to say is not noted. -/
theorem Instr.plain_noted {i : Instr} (h : i.plain = true) : i.noted = false := by
  obtain ⟨hpassive, hquiet⟩ := Instr.plain_iff.mp h
  cases i with
  | ro op r s q t => rfl
  | rm op r d s t =>
    cases op
    case st => cases hpassive
    case ld =>
      by_cases hr : r = .ac1
      · apply Instr.noted_of_base
        rintro rfl
        simp [Instr.reloads, hr] at hquiet
      · exact Instr.noted_of_load hr s d t
    all_goals simp [Instr.noted, Instr.pushesLeft, Instr.loadsLeft]

/-- An instruction that has an effect on registers alone, and on the book. -/
theorem Stable.run (hP : P.Fits) {c c' : Core} {g : Shadow} {mk : Mark} (h : Stable P c g mk)
    {i : Instr} {io io' : σ} {n : Nat} (hi : P.code[c.pc]? = some i)
    (hmk : P.marks[c.pc]? = some mk) (hbody : mk = .body ∨ mk = .outside)
    (hpassive : i.passive = true) (hreload : Reloading P ⟨c.machine, io, g⟩ book) {book' : Book}
    (hnote : P.note c.machine book = book') (hstep : P.step c.machine io = ⟨none, c'.machine, io'⟩)
    (hnext : ∀ m < n, Safe P m ⟨c'.machine, io', g⟩ book') : Safe P n ⟨c.machine, io, g⟩ book := by
  have horderly : Orderly P.code.toArray P.device ⟨c.machine, io, g⟩
      (P.step c.machine io).stopped := by
    rw [hstep]
    exact .goesOn
  have hentry : mk ≠ .entry := by rcases hbody with rfl | rfl <;> exact Mark.noConfusion
  have hwatched : mk.watched = false := by rcases hbody with rfl | rfl <;> rfl
  apply Safe.step_lt (good_passive hP hi hmk hpassive hreload hentry h horderly) hstep
  rw [Shadow.step_of_not_watched hP hi hmk hwatched, hnote]
  exact hnext

/-- An instruction that has an effect on registers alone. -/
theorem Stable.go (hP : P.Fits) {c c' : Core} {g : Shadow} {mk : Mark} (h : Stable P c g mk)
    {i : Instr} {io io' : σ} {n : Nat} (hi : P.code[c.pc]? = some i)
    (hmk : P.marks[c.pc]? = some mk) (hbody : mk = .body ∨ mk = .outside) (hplain : i.plain = true)
    (hstep : P.step c.machine io = ⟨none, c'.machine, io'⟩)
    (hnext : ∀ m < n, Safe P m ⟨c'.machine, io', g⟩ book) : Safe P n ⟨c.machine, io, g⟩ book := by
  obtain ⟨hpassive, hquiet⟩ := Instr.plain_iff.mp hplain
  have hbooked : mk.booked = false := by rcases hbody with rfl | rfl <;> rfl
  exact h.run hP hi hmk hbody hpassive (reloading_of_quiet hP hi hquiet)
    (hP.note_eq hi (Instr.plain_noted hplain) hmk hbooked) hstep hnext

/-- An instruction that stops the machine in an orderly way. -/
theorem Stable.stops (hP : P.Fits) {c : Core} {g : Shadow} {mk : Mark} (h : Stable P c g mk)
    {i : Instr} {io io' : σ} {n : Nat} {o : Outcome} {m' : Machine} (hi : P.code[c.pc]? = some i)
    (hmk : P.marks[c.pc]? = some mk) (hentry : mk ≠ .entry) (hpassive : i.passive = true)
    (hreload : Reloading P ⟨c.machine, io, g⟩ book)
    (hstep : P.step c.machine io = ⟨some o, m', io'⟩)
    (horderly : Orderly P.code.toArray P.device ⟨c.machine, io, g⟩ (some o)) :
    Safe P n ⟨c.machine, io, g⟩ book := by
  apply Safe.stop (good_passive hP hi hmk hpassive hreload hentry h _) hstep
  rw [hstep]
  exact horderly

/-- An instruction about which there is nothing to say stops the machine. -/
theorem Stable.ends (hP : P.Fits) {c : Core} {g : Shadow} {mk : Mark} (h : Stable P c g mk)
    {i : Instr} {io io' : σ} {n : Nat} {o : Outcome} {m' : Machine} (hi : P.code[c.pc]? = some i)
    (hmk : P.marks[c.pc]? = some mk) (hentry : mk ≠ .entry) (hplain : i.plain = true)
    (hstep : P.step c.machine io = ⟨some o, m', io'⟩)
    (horderly : Orderly P.code.toArray P.device ⟨c.machine, io, g⟩ (some o)) :
    Safe P n ⟨c.machine, io, g⟩ book := by
  obtain ⟨hpassive, hquiet⟩ := Instr.plain_iff.mp hplain
  exact h.stops hP hi hmk hentry hpassive (reloading_of_quiet hP hi hquiet) hstep horderly

section Frame

variable {ds : List Decl} {f : CompiledFunction} {c : Core} {io : σ} {gs : List Extent}
  {a : Activation} {rest : List Activation} {n : Nat}

/-! ### Registers

Instructions without an effect on memory or device. Every state is stable under them. -/

/-- An instruction that has an effect on registers alone. -/
theorem InFrame.go (hP : P.Fits) (h : InFrame P f c gs a rest) {i : Instr} {c' : Core} {io' : σ}
    (hi : P.code[c.pc]? = some i) (hmk : P.marks[c.pc]? = some .body) (hplain : i.plain = true)
    (hstep : P.step c.machine io = ⟨none, c'.machine, io'⟩)
    (hnext : ∀ m < n, Safe P m ⟨c'.machine, io', ⟨gs, a :: rest⟩⟩ book) :
    Safe P n ⟨c.machine, io, ⟨gs, a :: rest⟩⟩ book := by
  exact (h.stable .body).go hP hi hmk (Or.inl rfl) hplain hstep hnext

/-- An instruction that stops the machine in an orderly way. -/
theorem InFrame.ends (hP : P.Fits) (h : InFrame P f c gs a rest) {i : Instr} {o : Outcome}
    {m' : Machine} {io' : σ} (hi : P.code[c.pc]? = some i) (hmk : P.marks[c.pc]? = some .body)
    (hplain : i.plain = true) (hstep : P.step c.machine io = ⟨some o, m', io'⟩)
    (horderly : Orderly P.code.toArray P.device ⟨c.machine, io, ⟨gs, a :: rest⟩⟩ (some o)) :
    Safe P n ⟨c.machine, io, ⟨gs, a :: rest⟩⟩ book := by
  exact (h.stable .body).ends hP hi hmk Mark.noConfusion hplain hstep horderly

/-- A constant is loaded, or the machine stops at the instruction that loads it. -/
theorem InFrame.constant (hP : P.Fits) (h : InFrame P f c gs a rest) {r : Reg} {d : Int}
    {t : String}
    (hi : P.code[c.pc]? = some (.rm .ldc r d .ac t)) (hr : r = .ac ∨ r = .ac1)
    (hmk : P.marks[c.pc]? = some .body)
    (hnext : ∀ m < n, Safe P m ⟨(c.next.put r (Int64.ofInt d)).machine, io, ⟨gs, a :: rest⟩⟩ book) :
    Safe P n ⟨c.machine, io, ⟨gs, a :: rest⟩⟩ book := by
  have hstep : P.step c.machine io = _ := Core.step_ldc hP.size_lt hr (code_at hi)
  split at hstep
  · exact h.go hP hi hmk rfl hstep hnext
  · exact h.ends hP hi hmk rfl hstep (.overflow r .ac d t (hP.current_eq hi))

/-- A conditional jump inside the code. -/
theorem InFrame.branch (hP : P.Fits) (h : InFrame P f c gs a rest) {op : Opcode} {r : Reg} {d : Int}
    {k : Nat} {taken : Bool} {t : String} (hi : P.code[c.pc]? = some (.rm op r d .pc t))
    (hr : r = .ac ∨ r = .ac1) (hmk : P.marks[c.pc]? = some .body)
    (hop : Machine.jumps? op (c.machine.reg r) = some taken) (hd : d = k - (c.pc + 1))
    (hk : k < 2 ^ 31)
    (hjump : taken = true → ∀ m < n, Safe P m ⟨{ c with pc := k }.machine, io,
      ⟨gs, a :: rest⟩⟩ book)
    (hnext : taken = false → ∀ m < n, Safe P m ⟨c.next.machine, io, ⟨gs, a :: rest⟩⟩ book) :
    Safe P n ⟨c.machine, io, ⟨gs, a :: rest⟩⟩ book := by
  have hplain : (Instr.rm op r d .pc t).plain = true := by
    cases op
    case ld => simp [Machine.jumps?] at hop
    case st => simp [Machine.jumps?] at hop
    all_goals rfl
  have hstep : P.step c.machine io = _ := Core.step_branch hP.size_lt hr hop hd (by omega)
    (code_at hi)
  cases taken with
  | true => exact h.go hP hi hmk hplain hstep (hjump rfl)
  | false => exact h.go hP hi hmk hplain hstep (hnext rfl)

/-- An unconditional jump inside the code. -/
theorem InFrame.jump (hP : P.Fits) (h : InFrame P f c gs a rest) {d : Int} {k : Nat} {t : String}
    (hi : P.code[c.pc]? = some (.rm .lda .pc d .pc t)) (hmk : P.marks[c.pc]? = some .body)
    (hd : d = k - (c.pc + 1)) (hk : k < 2 ^ 31)
    (hnext : ∀ m < n, Safe P m ⟨{ c with pc := k }.machine, io, ⟨gs, a :: rest⟩⟩ book) :
    Safe P n ⟨c.machine, io, ⟨gs, a :: rest⟩⟩ book := by
  have hstep : P.step c.machine io = _ := Core.step_jump hP.size_lt hd (by omega) (code_at hi)
  exact h.go hP hi hmk rfl hstep hnext

/-- A sum, difference or product of the accumulators. -/
theorem InFrame.arithmetic (hP : P.Fits) (h : InFrame P f c gs a rest) {op : Opcode} {r s q : Reg}
    {t : String} {w : Word} (hi : P.code[c.pc]? = some (.ro op r s q t)) (hr : r = .ac ∨ r = .ac1)
    (hs : s = .ac ∨ s = .ac1) (hq : q = .ac ∨ q = .ac1) (hmk : P.marks[c.pc]? = some .body)
    (hop : Core.arithmetic? op (c.machine.reg s) (c.machine.reg q) = some w)
    (hnext : ∀ m < n, Safe P m ⟨(c.next.put r w).machine, io, ⟨gs, a :: rest⟩⟩ book) :
    Safe P n ⟨c.machine, io, ⟨gs, a :: rest⟩⟩ book := by
  have hstep : P.step c.machine io = _ := Core.step_operation hP.size_lt hr hs hq hop
    (code_at hi)
  exact h.go hP hi hmk rfl hstep hnext

/-- A quotient of the accumulators, or a division by zero. -/
theorem InFrame.divide (hP : P.Fits) (h : InFrame P f c gs a rest) {t : String}
    (hi : P.code[c.pc]? = some (.ro .div .ac .ac1 .ac t)) (hmk : P.marks[c.pc]? = some .body)
    (hnext : ∀ w, ∀ m < n, Safe P m ⟨{ c.next with ac := w }.machine, io, ⟨gs, a :: rest⟩⟩ book) :
    Safe P n ⟨c.machine, io, ⟨gs, a :: rest⟩⟩ book := by
  have hstep : P.step c.machine io = _ := Core.step_div hP.size_lt (code_at hi)
  split at hstep
  · exact h.ends hP hi hmk rfl hstep (.zeroDivide _)
  · exact h.go hP hi hmk rfl hstep (hnext _)

/-! ### Cells of frames

A cell that is named by a base and an offset may lie below the memory, and then the machine stops in
an orderly way. -/

/-- A cell that is named relative to a base is loaded, unless there is no room for it. -/
theorem InFrame.load_base (hP : P.Fits) (h : InFrame P f c gs a rest) {g : Bool} {r : Reg} {d : Int}
    {t : String} (hi : P.code[c.pc]? = some (.rm .ld r d (if g then .gp else .fp) t))
    (hr : r = .ac ∨ r = .ac1) (hreload : Reloading P ⟨c.machine, io, ⟨gs, a :: rest⟩⟩ book)
    {book' : Book} (hnote : P.note c.machine book = book') (hd : -2 ^ 31 ≤ d) (hd' : d ≤ 0)
    (hmk : P.marks[c.pc]? = some .body)
    (hnext : 0 < d + c.origin g → ∀ m < n, Safe P m
      ⟨(c.next.put r (c.mem.read (d + c.origin g))).machine, io, ⟨gs, a :: rest⟩⟩ book') :
    Safe P n ⟨c.machine, io, ⟨gs, a :: rest⟩⟩ book := by
  have hpassive : (Instr.rm .ld r d (if g then .gp else .fp) t).passive = true := by
    rcases hr with rfl | rfl <;> cases g <;> rfl
  have hstep : P.step c.machine io = _ := Core.step_ld_base hP.size_lt h.sane hr hd hd'
    (code_at hi)
  split at hstep
  · rename_i hpos
    exact (h.stable .body).run hP hi hmk (Or.inl rfl) hpassive hreload hnote hstep (hnext hpos)
  · exact (h.stable .body).stops hP hi hmk Mark.noConfusion hpassive hreload hstep
      (.stackOverflow _)

/-- The address of a cell that is named relative to a base is loaded. -/
theorem InFrame.address_base (hP : P.Fits) (h : InFrame P f c gs a rest) {g : Bool} {r : Reg}
    {d : Int} {t : String} (hi : P.code[c.pc]? = some (.rm .lda r d (if g then .gp else .fp) t))
    (hr : r = .ac ∨ r = .ac1) (hreload : Reloading P ⟨c.machine, io, ⟨gs, a :: rest⟩⟩ book)
    (hd : -2 ^ 31 ≤ d) (hd' : d ≤ 0) (hmk : P.marks[c.pc]? = some .body)
    (hnext : ∀ m < n, Safe P m
      ⟨(c.next.put r (Int64.ofInt (d + c.origin g))).machine, io, ⟨gs, a :: rest⟩⟩ book) :
    Safe P n ⟨c.machine, io, ⟨gs, a :: rest⟩⟩ book := by
  have hstep : P.step c.machine io = _ := Core.step_lda_base hP.size_lt h.sane hr hd hd'
    (code_at hi)
  have hnoted : (Instr.rm .lda r d (if g then .gp else .fp) t).noted = false := by
    simp [Instr.noted, Instr.pushesLeft, Instr.loadsLeft]
  exact (h.stable .body).run hP hi hmk (Or.inl rfl) rfl hreload (hP.note_eq hi hnoted hmk rfl)
    hstep hnext

theorem InFrame.toInt_base (h : InFrame P f c gs a rest) (g : Bool) :
    (c.machine.reg (if g then .gp else .fp)).toInt = c.origin g := by
  rw [Core.reg_origin, h.sane.toInt_origin]

/-- The accumulator is stored in a storable cell, unless there is no room for it. -/
theorem InFrame.store_base (hP : P.Fits) (h : InFrame P f c gs a rest) {g : Bool} {d : Int}
    {t : String} (hi : P.code[c.pc]? = some (.rm .st .ac d (if g then .gp else .fp) t))
    {book' : Book} (hnote : P.note c.machine book = book') (hd : -2 ^ 31 ≤ d) (hd' : d ≤ 0)
    {mk : Mark} (hmk : P.marks[c.pc]? = some mk) (hbody : mk = .body ∨ mk = .aside)
    (hx : 0 < d + c.origin g → Storable ⟨gs, a :: rest⟩ (d + c.origin g))
    (hnext : 0 < d + c.origin g → ∀ m < n, Safe P m
      ⟨{ c.next with mem := c.mem.write (d + c.origin g) c.ac }.machine, io, ⟨gs, a :: rest⟩⟩
        book') :
    Safe P n ⟨c.machine, io, ⟨gs, a :: rest⟩⟩ book := by
  have hbase : (if g then Reg.gp else Reg.fp) = .fp ∨ (if g then Reg.gp else Reg.fp) = .gp := by
    cases g <;> decide
  have hreg : d + (c.machine.reg (if g then .gp else .fp)).toInt = d + c.origin g := by
    rw [h.toInt_base]
  have hentry : mk ≠ .entry := by rcases hbody with rfl | rfl <;> exact Mark.noConfusion
  have hwatched : mk.watched = false := by rcases hbody with rfl | rfl <;> rfl
  have hstep : P.step c.machine io = _ := Core.step_st_base hP.size_lt h.sane hd hd'
    (code_at hi)
  split at hstep
  · rename_i hpos
    apply Safe.step_lt (good_store_base hP hi hbase hmk hentry hreg (h.stable _) (hx hpos)
      (fun _ => hpos) _) hstep
    · rw [Shadow.step_of_not_watched hP hi hmk hwatched, hnote]
      exact hnext hpos
    · rw [hstep]
      exact .goesOn
  · rename_i hpos
    have hnone := h.sound.storable_of_nonpos hP.globalsEnd_le (show d + c.origin g ≤ 0 by omega)
    apply Safe.stop (good_store_base hP hi hbase hmk hentry hreg (h.stable _) hnone
      (fun hgo => by rw [hstep] at hgo; cases hgo) _) hstep
    rw [hstep]
    exact .stackOverflow _

/-! ### Addresses in accumulators

Length cells and elements are reached through an accumulator. That the address is one of the array
that is named has been checked by the instructions before. -/

/-- The length cell of an array is loaded. -/
theorem InFrame.loadLength (hP : P.Fits) (h : InFrame P f c gs a rest) {x : Int} {t : String}
    (hi : P.code[c.pc]? = some (.rm .ld .ac1 0 .ac1 t)) (hmk : P.marks[c.pc]? = some .body)
    (hx : c.ac1 = Int64.ofInt x) (hpos : 0 ≤ x) (hle : x ≤ P.top)
    (hnext : ∀ m < n,
      Safe P m ⟨{ c.next with ac1 := c.mem.read x }.machine, io, ⟨gs, a :: rest⟩⟩ book) :
    Safe P n ⟨c.machine, io, ⟨gs, a :: rest⟩⟩ book := by
  have hstep : P.step c.machine io = _ := Core.step_ld_ac1 hP.size_lt h.sane hx hpos
    (by rw [h.gp_eq]; exact hle) (code_at hi)
  exact h.go hP hi hmk rfl hstep hnext

/-- The address moves past the length cell. -/
theorem InFrame.skipLength (hP : P.Fits) (h : InFrame P f c gs a rest) {x : Int} {t : String}
    (hi : P.code[c.pc]? = some (.rm .lda .ac 1 .ac t)) (hmk : P.marks[c.pc]? = some .body)
    (hx : c.ac = Int64.ofInt x) (hpos : 0 ≤ x) (hle : x ≤ P.top)
    (hnext : ∀ m < n, Safe P m ⟨{ c.next with ac := Int64.ofInt (x + 1) }.machine, io,
      ⟨gs, a :: rest⟩⟩ book) :
    Safe P n ⟨c.machine, io, ⟨gs, a :: rest⟩⟩ book := by
  have hstep : P.step c.machine io = _ := Core.step_lda_ac hP.size_lt h.sane hx hpos
    (by rw [h.gp_eq]; exact hle) (code_at hi)
  exact h.go hP hi hmk rfl hstep hnext

/-- An element of the array that is named is loaded. -/
theorem InFrame.loadElement (hP : P.Fits) (h : InFrame P f c gs a rest) {v : VarUse} {e : Extent}
    {x : Int} {t : String} (hi : P.code[c.pc]? = some (.rm .ld .ac 0 .ac t))
    (hmk : P.marks[c.pc]? = some (.access v)) (hx : c.ac = Int64.ofInt x)
    (hdenote : (⟨gs, a :: rest⟩ : Shadow).denote P.top v = some e)
    (he : e ∈ (⟨gs, a :: rest⟩ : Shadow).live) (helem : e.Element x)
    (hnext : ∀ m < n,
      Safe P m ⟨{ c.next with ac := c.mem.read x }.machine, io, ⟨gs, a :: rest⟩⟩ book) :
    Safe P n ⟨c.machine, io, ⟨gs, a :: rest⟩⟩ book := by
  have hrange := h.sound.range hP.globalsEnd_le he
  have htop := hP.top_lt
  have hlow := helem.1
  have hhigh := helem.2
  have hstep : P.step c.machine io = _ := Core.step_ld_ac hP.size_lt h.sane hx (by omega)
    (by rw [h.gp_eq]; omega) (code_at hi)
  have hgp : (c.machine.reg .gp).toInt = P.top := by
    rw [← h.gp_eq]
    exact h.sane.toInt_origin true
  have hac : c.ac.toInt = x := by
    rw [hx]
    exact Core.toInt_ofInt_of_isWord (Core.isWord_iff.mpr ⟨by omega, by omega⟩)
  apply Safe.step_quiet hP hi rfl hmk rfl rfl
    (good_access hP hi hmk hac (h.stable _) (by rw [hgp]; exact hdenote) he helem _) hstep hnext
  rw [hstep]
  exact .goesOn

/-- The accumulator is stored in an element of the array that is named. -/
theorem InFrame.storeElement (hP : P.Fits) (h : InFrame P f c gs a rest) {v : VarUse} {e : Extent}
    {x : Int} {t : String} (hi : P.code[c.pc]? = some (.rm .st .ac 0 .ac1 t))
    (hmk : P.marks[c.pc]? = some (.access v)) (hx : c.ac1 = Int64.ofInt x)
    (hdenote : (⟨gs, a :: rest⟩ : Shadow).denote P.top v = some e)
    (he : e ∈ (⟨gs, a :: rest⟩ : Shadow).live) (helem : e.Element x)
    (hnext : ∀ m < n, Safe P m ⟨{ c.next with mem := c.mem.write x c.ac }.machine, io,
      ⟨gs, a :: rest⟩⟩ book) :
    Safe P n ⟨c.machine, io, ⟨gs, a :: rest⟩⟩ book := by
  have hrange := h.sound.range hP.globalsEnd_le he
  have htop := hP.top_lt
  have hlow := helem.1
  have hhigh := helem.2
  have hstep : P.step c.machine io = _ := Core.step_st_ac1 hP.size_lt h.sane hx (by omega)
    (by rw [h.gp_eq]; omega) (code_at hi)
  have hgp : (c.machine.reg .gp).toInt = P.top := by
    rw [← h.gp_eq]
    exact h.sane.toInt_origin true
  have hac : 0 + (c.machine.reg .ac1).toInt = x := by
    rw [Core.reg_ac1, hx, Int.zero_add]
    exact Core.toInt_ofInt_of_isWord (Core.isWord_iff.mpr ⟨by omega, by omega⟩)
  have hstorable := h.storable_element he helem
  have hrecording : Recording P ⟨c.machine, io, ⟨gs, a :: rest⟩⟩ :=
    recording_of_store hP hi hmk (by decide) hac (fun _ => Mark.noConfusion) (fun _ => by omega)
  apply Safe.step_quiet hP hi (Instr.noted_of_base (by decide) _ _ _ _) hmk rfl rfl
    (good_store hP hi hmk hac (h.stable _)
      (fun e he heq => absurd heq (hstorable.length e he)) (not_protected hstorable)
      (fun _ _ => ⟨v, e, rfl, by rw [hgp]; exact hdenote, he, helem⟩) hrecording Mark.noConfusion _)
    hstep hnext
  rw [hstep]
  exact .goesOn

/-! ### Truth values

Four instructions, the second of which is a jump. -/

/-- The accumulator is replaced by a truth value. -/
theorem InFrame.truthValue (hP : P.Fits) (h : InFrame P f c gs a rest) {jump : Opcode}
    {what : String} {taken : Bool} {start : Nat} (hpc : c.pc = start)
    (hcode : Holds P.code start (truthValue jump what))
    (hmarks : Holds P.marks start (List.replicate 4 .body))
    (hop : Machine.jumps? jump c.ac = some taken)
    (hnext : ∀ m < n, ∀ c', c'.pc = start + 4 → c'.mem = c.mem → InFrame P f c' gs a rest →
      Safe P m ⟨c'.machine, io, ⟨gs, a :: rest⟩⟩ book) :
    Safe P n ⟨c.machine, io, ⟨gs, a :: rest⟩⟩ book := by
  subst hpc
  have hlen := hP.code_lt
  have hbound : c.pc + 4 ≤ P.code.length := hcode.bound (List.cons_ne_nil _ _)
  simp only [MiniC.truthValue, holds_cons, List.replicate_succ, List.replicate_zero] at hcode hmarks
  obtain ⟨h₀, h₁, h₂, h₃, -⟩ := hcode
  obtain ⟨m₀, m₁, m₂, m₃, -⟩ := hmarks
  apply h.branch hP h₀ (Or.inl rfl) m₀ hop (k := c.pc + 3) (by omega) (by omega)
  · intro _ m hm
    have hin : InFrame P f { c with pc := c.pc + 3 } gs a rest := h.of_eq rfl rfl rfl
    apply hin.constant hP h₃ (Or.inl rfl) m₃
    intro m' hm'
    exact hnext m' (by omega) _ rfl rfl (h.of_eq rfl rfl rfl)
  · intro _ m hm
    have hin : InFrame P f c.next gs a rest := h.of_eq rfl rfl rfl
    apply hin.constant hP h₁ (Or.inl rfl) m₁
    intro m₁ hm₁
    have hin₂ : InFrame P f (c.next.put .ac (Int64.ofInt 0)).next gs a rest := h.of_eq rfl rfl rfl
    apply hin₂.jump hP h₂ m₂ (k := c.pc + 4) (by show (1 : Int) = _; simp [Core.next]; omega)
      (by omega)
    intro m₂ hm₂
    exact hnext m₂ (by omega) _ rfl rfl (h.of_eq rfl rfl rfl)

/-! ### Faults

The routine of a fault belongs to no function, but the function that was running is still the active
one. -/

theorem Stable.constant (hP : P.Fits) {g : Shadow} {mk : Mark} (h : Stable P c g mk) {r : Reg}
    {d : Int} {t : String} (hi : P.code[c.pc]? = some (.rm .ldc r d .ac t))
    (hr : r = .ac ∨ r = .ac1) (hmk : P.marks[c.pc]? = some mk) (hbody : mk = .body ∨ mk = .outside)
    (hnext : ∀ m < n, Safe P m ⟨(c.next.put r (Int64.ofInt d)).machine, io, g⟩ book) :
    Safe P n ⟨c.machine, io, g⟩ book := by
  have hstep : P.step c.machine io = _ := Core.step_ldc hP.size_lt hr (code_at hi)
  split at hstep
  · exact h.go hP hi hmk hbody rfl hstep hnext
  · exact h.ends hP hi hmk (by rcases hbody with rfl | rfl <;> exact Mark.noConfusion) rfl hstep
      (.overflow r .ac d t (hP.current_eq hi))

/-- A fault is recorded in cell 0 and reported, and the machine halts. -/
theorem InFrame.fault (hP : P.Fits) (h : InFrame P f c gs a rest) (fault : BoundsFault)
    (hpc : c.pc = faultEntry fault) : Safe P n ⟨c.machine, io, ⟨gs, a :: rest⟩⟩ book := by
  have hroutine := holds_faultRoutine hP.routines fault
  rw [← hpc] at hroutine
  simp only [faultRoutine, holds_cons] at hroutine
  obtain ⟨h₀, h₁, h₂, h₃, h₄, -⟩ := hroutine
  obtain ⟨m₀, m₁, m₂, m₃, m₄⟩ : P.marks[c.pc]? = some .outside ∧
      P.marks[c.pc + 1]? = some .outside ∧ P.marks[c.pc + 2]? = some .outside ∧
      P.marks[c.pc + 3]? = some .outside ∧ P.marks[c.pc + 4]? = some .outside := by
    have hmarks := hP.marks
    rw [hpc]
    cases fault
    · exact ⟨hmarks 11 (by decide), hmarks 12 (by decide), hmarks 13 (by decide),
        hmarks 14 (by decide), hmarks 15 (by decide)⟩
    · exact ⟨hmarks 16 (by decide), hmarks 17 (by decide), hmarks 18 (by decide),
        hmarks 19 (by decide), hmarks 20 (by decide)⟩
  have hlow : c.pc + 2 < bodyStart := by
    rw [hpc]
    cases fault <;> decide
  -- none of the instructions belongs to a function, so only the lengths of arrays matter
  have hstable : ∀ c' : Core, (∀ e ∈ (⟨gs, a :: rest⟩ : Shadow).live,
      c'.mem.read e.base = Int64.ofInt e.size) → Stable P c' ⟨gs, a :: rest⟩ .outside :=
    fun c' hc' => ⟨hc', fun hin => by cases hin⟩
  have hlengths := h.sound.lengths
  apply (hstable c hlengths).constant hP h₀ (Or.inr rfl) m₀ (Or.inr rfl)
  intro _ _
  apply (hstable (c.next.put .ac1 (Int64.ofInt 0)) hlengths).constant hP h₁ (Or.inl rfl) m₁
    (Or.inr rfl)
  intro _ _
  generalize hc₂ : ((c.next.put .ac1 (Int64.ofInt 0)).next.put .ac (Int64.ofInt fault.code)) = c₂
  have hpc₂ : c₂.pc = c.pc + 2 := by rw [← hc₂]; rfl
  have hmem₂ : c₂.mem = c.mem := by rw [← hc₂]; rfl
  have hac1 : c₂.ac1 = Int64.ofInt 0 := by rw [← hc₂]; rfl
  have hin₂ : InFrame P f c₂ gs a rest := h.of_eq hmem₂ (by rw [← hc₂]; rfl) (by rw [← hc₂]; rfl)
  rw [← hpc₂] at h₂ m₂ hlow
  have hstep : P.step c₂.machine io = _ := Core.step_st_ac1 hP.size_lt hin₂.sane hac1
    (Int.le_refl 0) (by rw [hin₂.gp_eq]; exact hP.top_nonneg) (code_at h₂)
  have hzero : Storable ⟨gs, a :: rest⟩ 0 :=
    h.sound.storable_of_nonpos hP.globalsEnd_le (Int.le_refl 0)
  have hreg : 0 + (c₂.machine.reg .ac1).toInt = 0 := by
    rw [Core.reg_ac1, hac1]
    decide
  have hsite : (c₂.machine.reg .pc).toInt = recordSite fault := by
    rw [hP.toInt_pc h₂, hpc₂, hpc, recordSite]
  have hrecording : Recording P ⟨c₂.machine, io, ⟨gs, a :: rest⟩⟩ := by
    refine ⟨fun _ _ => Or.inr ⟨fault, hsite, ?_⟩, fun _ _ => ?_, fun r d s t hcur => ?_⟩
    · rw [← hc₂]
      rfl
    · exact (hP.stored_eq h₂).trans (congrArg some hreg)
    · cases (hP.current_eq h₂).symm.trans hcur
      decide
  have hgood : Good P ⟨c₂.machine, io, ⟨gs, a :: rest⟩⟩ book := by
    apply good_store hP h₂ m₂ hreg (hstable c₂ hin₂.sound.lengths)
      (fun e he heq => absurd heq (hzero.length e he)) (not_protected hzero) _ hrecording
      Mark.noConfusion
    · rw [hstep]
      exact .goesOn
    · intro _ hpc'
      omega
  apply Safe.step_quiet hP h₂ (Instr.noted_of_base (by decide) _ _ _ _) m₂ rfl rfl hgood hstep
  intro _ _
  generalize hc₃ : { c₂.next with mem := c₂.mem.write 0 c₂.ac } = c₃
  have hpc₃ : c₃.pc = c.pc + 3 := by rw [← hc₃, ← hc₂]; rfl
  have hlengths₃ : ∀ e ∈ (⟨gs, a :: rest⟩ : Shadow).live,
      c₃.mem.read e.base = Int64.ofInt e.size := by
    intro e he
    have hrange := (h.sound.range hP.globalsEnd_le he).1
    rw [← hc₃]
    show (c₂.mem.write 0 c₂.ac).read e.base = _
    rw [Memory.read_write_ne (Int.le_refl 0) (by omega) (by omega)]
    exact hin₂.sound.lengths e he
  rw [← hpc₃] at h₃ m₃
  have hwrite : P.step c₃.machine io = _ := Core.step_write hP.size_lt (code_at h₃)
  cases hdev : P.device.write c₃.ac io with
  | mk result io' =>
    rw [hdev] at hwrite
    cases result with
    | error e =>
      exact (hstable c₃ hlengths₃).ends hP h₃ m₃ Mark.noConfusion rfl hwrite
        (.write e c₃.ac (by rw [hdev]))
    | ok u =>
      apply (hstable c₃ hlengths₃).go hP h₃ m₃ (Or.inr rfl) rfl hwrite
      intro _ _
      have hpc₄ : c₃.next.pc = c.pc + 4 := by
        show c₃.pc + 1 = c.pc + 4
        omega
      rw [← hpc₄] at h₄ m₄
      have hhalt : P.step c₃.next.machine io' = _ := Core.step_halt hP.size_lt (code_at h₄)
      exact (hstable c₃.next hlengths₃).ends hP h₄ m₄ Mark.noConfusion rfl hhalt .halted

end Frame

end MiniC
