import MiniC.Proofs.Parts
import MiniC.Proofs.Safety.Programs

/-!
# Operands that are put aside

What happens to a left operand while the right one is evaluated. The call that has put it aside may
make other calls, and may put aside and load operands of its own, but the operand stays on the page
of the call until the instruction is reached that loads it. There the memory holds the operand.

* `Leads`, `Passage`: a run that leads a call from one address to another one
* `Book.Keeps`, `Safe.keeps`: an operand stays on its page during a passage
* `Compiles.restores`: it is found in the frame at the end of the passage
-/

namespace MiniC

section Passages

variable {σ : Type} (code : Array Instr) (marks : List Mark) (device : Device σ) (n : Nat)
  (w w' : Watched σ) (left right : Nat)

/-- The running call comes from the address `left` to the address `right` by `n` instructions. In
between it has not ended, and has not come to either address. -/
structure Leads : Prop where
  start : (w.machine.reg .pc).toInt = left
  arrival : (w'.machine.reg .pc).toInt = right
  depth : w'.shadow.stack.length = w.shadow.stack.length
  between : ∀ i < n, 0 < i → ∀ v ∈ w.after code marks device i,
    w.shadow.stack.length ≤ v.shadow.stack.length ∧
      (v.shadow.stack.length = w.shadow.stack.length →
        (v.machine.reg .pc).toInt ≠ left ∧ (v.machine.reg .pc).toInt ≠ right)

/-- A run of `n` instructions that leads the running call from one address to another one. -/
structure Passage : Prop extends Leads code marks device n w w' left right where
  run : w.after code marks device n = some w'

instance : Decidable (Leads code marks device n w w' left right) :=
  decidable_of_iff ((w.machine.reg .pc).toInt = left ∧ (w'.machine.reg .pc).toInt = right ∧
    w'.shadow.stack.length = w.shadow.stack.length ∧
    ∀ i < n, 0 < i → ∀ v ∈ w.after code marks device i,
      w.shadow.stack.length ≤ v.shadow.stack.length ∧
        (v.shadow.stack.length = w.shadow.stack.length →
          (v.machine.reg .pc).toInt ≠ left ∧ (v.machine.reg .pc).toInt ≠ right))
    ⟨fun ⟨hstart, harrival, hdepth, hbetween⟩ => ⟨hstart, harrival, hdepth, hbetween⟩,
      fun h => ⟨h.start, h.arrival, h.depth, h.between⟩⟩

end Passages

theorem Instr.loadsLeft_iff {i : Instr} :
    i.loadsLeft = true ↔ ∃ d, i = .rm .ld .ac1 d .fp "op: load left" := by
  cases i with
  | ro op r s q t => simp [loadsLeft]
  | rm op r d s t =>
    simp only [loadsLeft, decide_eq_true_eq, Instr.rm.injEq]
    constructor
    · rintro ⟨rfl, rfl, rfl, rfl⟩
      exact ⟨d, rfl, rfl, rfl, rfl, rfl⟩
    · rintro ⟨_, rfl, rfl, -, rfl, rfl⟩
      exact ⟨rfl, rfl, rfl, rfl⟩

/-- A machine that goes on has executed the instruction at its program counter. -/
theorem Watched.current_of_next {σ : Type} {code : List Instr} {marks : List Mark}
    {device : Device σ} {w w' : Watched σ} (h : w.next code.toArray marks device = some w') :
    ∃ i, w.machine.current code.toArray = some i ∧ 0 ≤ (w.machine.reg .pc).toInt ∧
      code[(w.machine.reg .pc).toInt.toNat]? = some i := by
  unfold Watched.next Machine.step at h
  cases hfetch : Machine.fetch code.toArray (w.machine.reg .pc).toInt with
  | none =>
    simp only [hfetch] at h
    cases h
  | some i =>
    refine ⟨i, hfetch, ?_⟩
    unfold Machine.fetch at hfetch
    split at hfetch
    · rename_i hpos
      rw [List.getElem?_toArray] at hfetch
      exact ⟨hpos, hfetch⟩
    · cases hfetch

/-! ### One step

A step of a deeper call changes other pages only, and a step of the call itself adds operands or
takes the latest one. The one in question would be taken by its own load alone. -/

/-- What an instruction does to the pages of a book, of which there is at least one. -/
theorem Book.step_cons (code : List Instr) (marks : List Mark) (m : Machine) (p : Page)
    (rest : Book) :
    (∃ new account,
        Book.step code marks m (p :: rest) = new :: { p with account := account } :: rest) ∨
      (∃ account, Book.step code marks m (p :: rest) = { p with account := account } :: rest) ∨
      Book.step code marks m (p :: rest) = rest ∨
      Book.step code marks m (p :: rest) = p.after code m :: rest := by
  unfold Book.step
  cases m.mark marks with
  | none => exact Or.inr (Or.inr (Or.inr rfl))
  | some mk =>
    cases mk with
    | call arrays => exact Or.inl ⟨_, _, rfl⟩
    | aside => exact Or.inr (Or.inl ⟨_, rfl⟩)
    | leave => exact Or.inr (Or.inr (Or.inl rfl))
    | _ => exact Or.inr (Or.inr (Or.inr rfl))

/-- What an instruction does to the operands on the page of its call. -/
theorem Page.operands_after {code : List Instr} {m : Machine} {i : Instr}
    (hi : code[(m.reg .pc).toInt.toNat]? = some i) (p : Page) :
    (p.after code m).operands = p.operands ∨
      (p.after code m).operands = ⟨(m.reg .pc).toInt.toNat, m.reg .ac⟩ :: p.operands ∨
      (i.loadsLeft = true ∧ (p.after code m).operands = p.operands.tail) := by
  simp only [Page.after, hi, Page.note]
  split
  · exact Or.inr (Or.inl rfl)
  · split
    · exact Or.inr (Or.inr ⟨by assumption, rfl⟩)
    · exact Or.inl rfl

/-- The call at this depth has put the operand aside, and what it has put aside since comes from
other instructions. -/
def Book.Keeps (b : Book) (depth : Nat) (o : Operand) : Prop :=
  ∃ above page rest newer older, b = above ++ page :: rest ∧ rest.length + 1 = depth ∧
    page.operands = newer ++ o :: older ∧ ∀ x ∈ newer, x.site ≠ o.site

section Keeping

variable {σ : Type} {P : Scene σ} {w w' : Watched σ} {b : Book} {depth right : Nat} {o : Operand}

/-- An operand stays on its page unless its call ends, or is about to load it. -/
theorem Good.keeps_step (hgood : Good P w b) (hkeeps : b.Keeps depth o)
    (hnext : w.next P.code.toArray P.marks P.device = some w')
    {offset : Int} (hspans : Spans P.code offset o.site right)
    (hsites : b.length = depth →
      (w.machine.reg .pc).toInt ≠ o.site ∧ (w.machine.reg .pc).toInt ≠ right)
    (hdepth : depth ≤ (b.step P.code P.marks w.machine).length) :
    (b.step P.code P.marks w.machine).Keeps depth o := by
  obtain ⟨above, page, rest, newer, older, rfl, hlen, hoperands, hnewer⟩ := hkeeps
  obtain ⟨i, hcur, hpos, hi⟩ := Watched.current_of_next hnext
  cases above with
  | cons p above =>
    -- another call is running
    rw [List.cons_append]
    rcases Book.step_cons P.code P.marks w.machine p (above ++ page :: rest) with
      ⟨new, account, hstep⟩ | ⟨account, hstep⟩ | hstep | hstep
    · exact ⟨new :: { p with account := account } :: above, page, rest, newer, older, hstep, hlen,
        hoperands, hnewer⟩
    · exact ⟨{ p with account := account } :: above, page, rest, newer, older, hstep, hlen,
        hoperands, hnewer⟩
    · exact ⟨above, page, rest, newer, older, hstep, hlen, hoperands, hnewer⟩
    · exact ⟨p.after P.code w.machine :: above, page, rest, newer, older, hstep, hlen, hoperands,
        hnewer⟩
  | nil =>
    obtain ⟨hleft, hright⟩ := hsites hlen
    rw [List.nil_append] at hgood hdepth ⊢
    rcases Book.step_cons P.code P.marks w.machine page rest with
      ⟨new, account, hstep⟩ | ⟨account, hstep⟩ | hstep | hstep
    · exact ⟨[new], { page with account := account }, rest, newer, older, hstep, hlen, hoperands,
        hnewer⟩
    · exact ⟨[], { page with account := account }, rest, newer, older, hstep, hlen, hoperands,
        hnewer⟩
    · rw [hstep] at hdepth
      omega
    · rcases page.operands_after hi with hafter | hafter | ⟨hload, hafter⟩
      · exact ⟨[], _, rest, newer, older, hstep, hlen, hafter.trans hoperands, hnewer⟩
      · refine ⟨[], _, rest, _ :: newer, older, hstep, hlen, by rw [hafter, hoperands]; rfl, ?_⟩
        refine List.forall_mem_cons.mpr ⟨?_, hnewer⟩
        show (w.machine.reg .pc).toInt.toNat ≠ o.site
        omega
      · obtain ⟨d, rfl⟩ := Instr.loadsLeft_iff.mp hload
        cases newer with
        | cons x newer =>
          refine ⟨[], _, rest, newer, older, hstep, hlen, by rw [hafter, hoperands]; rfl, ?_⟩
          exact fun y hy => hnewer y (List.mem_cons_of_mem x hy)
        | nil =>
          -- only the load that belongs to the operand could take it from the page
          obtain ⟨c, account, o', os, rest', -, hpc, hbook, hrestores⟩ :=
            hgood.reloading.operand d hcur
          rw [List.cons.injEq] at hbook
          rw [hbook.1, List.nil_append, List.cons.injEq] at hoperands
          have hsite := hspans.right_unique (hoperands.1 ▸ hrestores.spans)
          exact absurd (hpc.trans (congrArg Nat.cast hsite.symm)) hright

/-- An operand stays on its page while its call neither ends nor comes to one of the two
instructions that belong to it. -/
theorem Safe.keeps (hsafe : ∀ n, Safe P n w b) (hlen : b.length = w.shadow.stack.length)
    (hkeeps : b.Keeps depth o) {offset : Int} (hspans : Spans P.code offset o.site right) {n : Nat}
    (hrun : w.after P.code.toArray P.marks P.device n = some w')
    (hbetween : ∀ i < n, ∀ v ∈ w.after P.code.toArray P.marks P.device i,
      depth ≤ v.shadow.stack.length ∧ (v.shadow.stack.length = depth →
        (v.machine.reg .pc).toInt ≠ o.site ∧ (v.machine.reg .pc).toInt ≠ right))
    (hlast : depth ≤ w'.shadow.stack.length) :
    (w.book P.code P.marks P.device n b).Keeps depth o := by
  induction n generalizing w b with
  | zero => exact hkeeps
  | succ n ih =>
    obtain ⟨w₁, hnext, hafter⟩ := Option.bind_eq_some_iff.mp hrun
    have hone : w.after P.code.toArray P.marks P.device 1 = some w₁ := by
      simp only [Watched.after, hnext, Option.bind_some]
    have hlen₁ := Watched.length_book hlen hone
    simp only [Watched.book, hnext] at hlen₁ ⊢
    have hdepth : depth ≤ w₁.shadow.stack.length := by
      cases n with
      | zero =>
        cases hafter
        exact hlast
      | succ n => exact (hbetween 1 (by omega) w₁ hone).1
    have hstep := (hsafe 1).1.keeps_step hkeeps hnext hspans
      (fun h => (hbetween 0 (Nat.succ_pos n) w rfl).2 (hlen.symm.trans h)) (hlen₁ ▸ hdepth)
    refine ih (fun n => (hsafe (n + 1)).2 w₁ hnext) hlen₁ hstep hafter ?_
    intro i hi v hv
    apply hbetween (i + 1) (by omega) v
    simpa only [Watched.after, hnext, Option.bind_some] using hv

/-! ### Passages

A passage begins with the store of the operand and ends in front of its load, so the step lemma
applies to all that lies between. -/

/-- An instruction that puts an operand aside adds it to the page of the running call. -/
theorem Book.step_push {code : List Instr} {marks : List Mark} {m : Machine} {site : Nat}
    {offset : Int} (hpc : (m.reg .pc).toInt = site)
    (hpush : code[site]? = some (.rm .st .ac offset .fp "op: push left"))
    (hmark : marks[site]? = some .body) (p : Page) (rest : Book) :
    Book.step code marks m (p :: rest)
      = { p with operands := ⟨site, m.reg .ac⟩ :: p.operands } :: rest := by
  have hm : m.mark marks = some .body := by rw [Machine.mark, hpc, Int.toNat_natCast, hmark]
  have hpushes : Instr.pushesLeft (.rm .st .ac offset .fp "op: push left") = true := rfl
  simp only [Book.step, hm, Page.after, hpc, Int.toNat_natCast, hpush, Page.note, hpushes, if_true]

/-- At the end of a passage from the instruction that puts an operand aside to the one that loads
it, the frame holds the operand. -/
theorem Passage.restores (hsafe : ∀ n, Safe P n w b) (hlen : b.length = w.shadow.stack.length)
    {n left : Nat} (hpass : Passage P.code.toArray P.marks P.device n w w' left right)
    {offset : Int} (hspans : Spans P.code offset left right)
    (hmark : P.marks[left]? = some .body) :
    ∃ c, w'.machine = Core.machine c ∧ c.pc = right ∧
      Restores P c offset ⟨left, w.machine.reg .ac⟩ := by
  cases n with
  | zero =>
    cases hpass.run
    have hlt := hspans.left_lt
    have hsame := hpass.start.symm.trans hpass.arrival
    omega
  | succ n =>
    obtain ⟨w₁, hnext, hafter⟩ := Option.bind_eq_some_iff.mp hpass.run
    have hone : w.after P.code.toArray P.marks P.device 1 = some w₁ := by
      simp only [Watched.after, hnext, Option.bind_some]
    have hm : w.machine.mark P.marks = some .body := by
      rw [Machine.mark, hpass.start, Int.toNat_natCast, hmark]
    -- the call that puts the operand aside has a page
    obtain ⟨-, -, a, calls, hstack, -⟩ := (hsafe 1).1.stack.frames _ hm rfl
    obtain ⟨page, rest, rfl⟩ : ∃ page rest, b = page :: rest := by
      cases b with
      | nil =>
        rw [hstack] at hlen
        cases hlen
      | cons page rest => exact ⟨page, rest, rfl⟩
    have hlen₁ := Watched.length_book hlen hone
    have hpush := Book.step_push hpass.start hspans.push hmark page rest
    simp only [Watched.book, hnext] at hlen₁
    have hkeeps : (Book.step P.code P.marks w.machine (page :: rest)).Keeps w.shadow.stack.length
        ⟨left, w.machine.reg .ac⟩ :=
      ⟨[], _, rest, [], page.operands, hpush, hlen, rfl, fun x hx => absurd hx List.not_mem_nil⟩
    have hsafe₁ : ∀ n, Safe P n w₁ (Book.step P.code P.marks w.machine (page :: rest)) :=
      fun n => (hsafe (n + 1)).2 w₁ hnext
    have hend := Safe.keeps hsafe₁ hlen₁ hkeeps hspans hafter
      (fun i hi v hv => hpass.between (i + 1) (by omega) (Nat.succ_pos i) v
        (by simpa only [Watched.after, hnext, Option.bind_some] using hv))
      (Nat.le_of_eq hpass.depth.symm)
    have hlen₂ := Watched.length_book hlen₁ hafter
    have hgood := Safe.good hsafe₁ hafter
    obtain ⟨c, account, o, os, rest', hmachine, hpc, hbook, hrestores⟩ :=
      hgood.reloading.operand offset (current_of_pc hpass.arrival hspans.pull)
    obtain rfl : c.pc = right := by
      have := hpc.symm.trans hpass.arrival
      omega
    -- no call is above the one that has put the operand aside, and nothing above the operand
    obtain ⟨above, page', below, newer, older, hkept, hdepth, hoperands, hnewer⟩ := hend
    rw [hkept, hpass.depth, List.length_append, List.length_cons] at hlen₂
    obtain rfl : above = [] := List.eq_nil_of_length_eq_zero (by omega)
    rw [hkept, List.nil_append, List.cons.injEq] at hbook
    rw [hbook.1] at hoperands
    have hsite := hspans.left_unique hrestores.spans
    obtain ⟨rfl, -⟩ : o = ⟨left, w.machine.reg .ac⟩ ∧ os = older := by
      cases newer with
      | nil => simpa using hoperands
      | cons x newer =>
        rw [List.cons_append, List.cons.injEq] at hoperands
        exact absurd (hoperands.1 ▸ hsite.symm) (hnewer x List.mem_cons_self)
    exact ⟨c, hmachine, rfl, hrestores⟩

end Keeping

/-- In a run of a compiled program an operand that is put aside is found where it is loaded. -/
theorem Compiles.restores {σ : Type} {source : String} {tree : Program} {code : List Instr}
    (h : Compiles source tree code) (device : Device σ) {memory : Nat}
    (hmemory : memory < Memory.sizeLimit) (io : σ) {k n left right : Nat} {w w' : Watched σ}
    (hafter : (Watched.start memory io).after code.toArray (analyze tree false).program.marks device
      k = some w)
    (hpass : Passage code.toArray (analyze tree false).program.marks device n w w' left right)
    {offset : Int} (hspans : Spans code offset left right)
    (hmark : (analyze tree false).program.marks[left]? = some .body) :
    ∃ c : Core, w'.machine = c.machine ∧ c.pc = right ∧ c.Sane ∧ -2 ^ 31 ≤ offset ∧ offset ≤ 0 ∧
      0 < offset + c.fp ∧ c.mem.read (offset + c.fp) = w.machine.reg .ac := by
  obtain ⟨G, is, main, globals, -, hsafe⟩ := h.safe device hmemory io
  have hlen := Watched.length_book (b := []) rfl hafter
  obtain ⟨c, hmachine, hpc, hrestores⟩ := hpass.restores (Safe.after hsafe hafter) hlen hspans hmark
  exact ⟨c, hmachine, hpc, hrestores.sane, hrestores.low, hrestores.high, hrestores.room,
    hrestores.value⟩

end MiniC
