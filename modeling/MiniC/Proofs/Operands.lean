import MiniC.Proofs.Inventory
import MiniC.Proofs.Ledger

/-!
# The left operands of operators

The left operand of an operator is put aside while the right one is evaluated, and is loaded again
behind it. A book follows the run beside the watcher. It has a page for each active call: the
account of its arguments, and the left operands that it has put aside.

Each operand is put aside in a cell above those that the code up to its load makes use of. So an
instruction that puts one aside belongs to one instruction that loads it, and the other way round.

* `Book`, `Book.step`: the pages of the active calls
* `Watched.book_accounts`: the accounts in a book are the ledger
* `Spans`: which instructions put the same operand aside and load it
* `Spans.right_unique`, `Spans.left_unique`: the other one is known from either
-/

namespace MiniC

/-! ### Instructions that a book takes note of

These are told by their form: only operators have these two remarks. What puts an argument aside is
told by its mark. -/

/-- The instruction behind the code of a left operand. No other instruction has its remark. -/
def Instr.pushesLeft : Instr → Bool
  | .rm op _ _ s t => op = .st ∧ s = .fp ∧ t = "op: push left"
  | .ro _ _ _ _ _ => false

/-- The instruction behind the code of a right operand, which loads the left one. -/
def Instr.loadsLeft : Instr → Bool
  | .rm op r _ s t => op = .ld ∧ r = .ac1 ∧ s = .fp ∧ t = "op: load left"
  | .ro _ _ _ _ _ => false

/-- The instruction changes the page of the call that executes it. -/
def Instr.noted (i : Instr) : Bool :=
  i.pushesLeft || i.loadsLeft

namespace Instr

@[simp]
theorem noted_ro (op : Opcode) (r s q : Reg) (t : String) : noted (.ro op r s q t) = false := rfl

theorem noted_eq_false_iff {i : Instr} :
    i.noted = false ↔ i.pushesLeft = false ∧ i.loadsLeft = false := by
  simp [noted]

/-- Only instructions that name a cell of the frame are noted. -/
theorem noted_of_base {s : Reg} (hs : s ≠ .fp) (op : Opcode) (r : Reg) (d : Int) (t : String) :
    noted (.rm op r d s t) = false := by
  simp [noted, pushesLeft, loadsLeft, hs]

/-- Only instructions with one of two remarks are noted. -/
theorem noted_of_text {t : String} (hpush : t ≠ "op: push left") (hload : t ≠ "op: load left")
    (op : Opcode) (r s : Reg) (d : Int) : noted (.rm op r d s t) = false := by
  simp [noted, pushesLeft, loadsLeft, hpush, hload]

/-- A load is noted only if it is one into the second accumulator. -/
theorem noted_of_load {r : Reg} (hr : r ≠ .ac1) (s : Reg) (d : Int) (t : String) :
    noted (.rm .ld r d s t) = false := by
  simp [noted, pushesLeft, loadsLeft, hr]

end Instr

theorem String.ne_of_head {s t : String} (h : s.toList.head? ≠ t.toList.head?) : s ≠ t := by
  rintro rfl
  exact h rfl

/-- The remark of an assignment starts with another letter. -/
theorem VarUse.noted_store {v : VarUse} {i : Instr} (h : v.store = .ok i) : i.noted = false := by
  simp only [VarUse.store, Except.bind_eq_ok_iff, Except.pure_eq_ok_iff] at h
  obtain ⟨_, -, rfl⟩ := h
  apply Instr.noted_of_text <;> exact String.ne_of_head (by simp [toString])

/-- The remark of the store of a return address ends with another letter. -/
theorem FunDecl.noted_store (f : FunDecl) :
    Instr.noted (.rm .st .ac returnOffset .fp s!"{f.name}: store return") = false := by
  have hne : ∀ t : String, t.toList.getLast? ≠ some 'n' → s!"{f.name}: store return" ≠ t := by
    rintro t ht rfl
    exact ht (by simp [toString])
  exact Instr.noted_of_text (hne _ (by decide)) (hne _ (by decide)) _ _ _ _

/-! ### Books

A page has the account of its call and the operands that are waiting, the latest first. What a book
says about accounts is what the ledger says. -/

/-- A left operand that is put aside: where, and the value that it has. -/
structure Operand where
  /-- The address of the instruction that put it aside. -/
  site : Nat
  value : Word
deriving DecidableEq, Repr

/-- What an active call was given and has put aside, the latest first. -/
structure Page where
  account : Account
  operands : List Operand

/-- The pages of the active calls, the latest first. -/
abbrev Book := List Page

/-- The page after an instruction of its call at the address `site`, when the accumulator holds
`w`. -/
def Page.note (p : Page) (site : Nat) (i : Instr) (w : Word) : Page :=
  if i.pushesLeft then { p with operands := ⟨site, w⟩ :: p.operands }
  else if i.loadsLeft then { p with operands := p.operands.tail }
  else p

/-- The page of the latest call after the next instruction. -/
def Page.after (code : List Instr) (m : Machine) (p : Page) : Page :=
  match code[(m.reg .pc).toInt.toNat]? with
  | some i => p.note (m.reg .pc).toInt.toNat i (m.reg .ac)
  | none => p

/-- The book after the machine has executed its next instruction. -/
def Book.step (code : List Instr) (marks : List Mark) (m : Machine) (b : Book) : Book :=
  match m.mark marks, b with
  -- the callee is given the words that were put aside last, in the order of its parameters
  | some (.call arrays), p :: rest =>
    ⟨⟨(p.account.aside.take arrays.length).reverse, []⟩, []⟩ ::
      { p with account := { p.account with aside := p.account.aside.drop arrays.length } } :: rest
  | some (.call _), [] => [⟨⟨[], []⟩, []⟩]
  | some .leave, b => b.tail
  | some .aside, p :: rest =>
    { p with account := { p.account with aside := m.reg .ac :: p.account.aside } } :: rest
  | _, [] => []
  | _, p :: rest => p.after code m :: rest

/-- Whether the book takes note of an instruction because of its mark. -/
def Mark.booked : Mark → Bool
  | .call _ | .leave | .aside => true
  | _ => false

/-- The book after `n` instructions. -/
def Watched.book {σ : Type} (code : List Instr) (marks : List Mark) (device : Device σ) :
    Nat → Watched σ → Book → Book
  | 0, _, b => b
  | n + 1, w, b =>
    match w.next code.toArray marks device with
    | some w' => book code marks device n w' (b.step code marks w.machine)
    | none => b

/-- The accounts of the active calls. -/
def Book.accounts (b : Book) : Ledger :=
  b.map Page.account

theorem Page.note_of_not_noted {i : Instr} (h : i.noted = false) (p : Page) (site : Nat)
    (w : Word) : p.note site i w = p := by
  obtain ⟨hpush, hload⟩ := Instr.noted_eq_false_iff.mp h
  simp [Page.note, hpush, hload]

/-- An operator changes nothing in the account of its call. -/
theorem Page.account_after (code : List Instr) (m : Machine) (p : Page) :
    (p.after code m).account = p.account := by
  unfold Page.after Page.note
  repeat' split
  all_goals rfl

/-- The accounts in a book are kept as in the ledger. -/
theorem Book.accounts_step (code : List Instr) (marks : List Mark) (m : Machine) (b : Book) :
    (b.step code marks m).accounts = b.accounts.step marks m := by
  have hafter : ∀ p rest, ((p : Page).after code m :: rest).map Page.account
      = p.account :: rest.map Page.account := by
    intro p rest
    rw [List.map_cons, p.account_after]
  unfold Book.step Ledger.step Book.accounts
  cases m.mark marks with
  | none =>
    cases b with
    | nil => rfl
    | cons p rest => exact hafter p rest
  | some mk =>
    cases mk with
    | call arrays => cases b <;> rfl
    | leave => cases b <;> rfl
    | aside => cases b <;> rfl
    | _ =>
      cases b with
      | nil => rfl
      | cons p rest => exact hafter p rest

/-- The accounts in the book of a run are its ledger. -/
theorem Watched.book_accounts {σ : Type} (code : List Instr) (marks : List Mark) (device : Device σ)
    (n : Nat) (w : Watched σ) (b : Book) :
    (w.book code marks device n b).accounts
      = w.ledger code.toArray marks device n b.accounts := by
  induction n generalizing w b with
  | zero => rfl
  | succ n ih =>
    unfold Watched.book Watched.ledger
    cases w.next code.toArray marks device with
    | none => rfl
    | some w' => rw [ih, Book.accounts_step]

/-- There is a page for each active call. -/
theorem Book.length_step (code : List Instr) (marks : List Mark) (m : Machine) {b : Book}
    {g : Shadow} (h : b.length = g.stack.length) :
    (b.step code marks m).length = (g.step code.toArray marks m).stack.length := by
  have hkeep : ∀ p rest, b = p :: rest →
      ((p : Page).after code m :: rest).length = g.stack.length := by
    rintro p rest rfl
    exact h
  unfold Book.step Shadow.step
  -- only a call and a return change the number of either
  cases m.mark marks with
  | none => cases b <;> exact h
  | some mk =>
    cases mk with
    | call arrays => cases b <;> exact congrArg (· + 1) h
    | leave => simp [h]
    | declare size =>
      have hsame : (g.declare ⟨(m.stored? code.toArray).getD 0, size⟩).stack.length
          = g.stack.length := by
        unfold Shadow.declare
        split
        · rfl
        · rename_i hstack
          rw [hstack]
          rfl
      cases b with
      | nil => exact h.trans hsame.symm
      | cons p rest => exact h.trans hsame.symm
    | _ => cases b <;> exact h

/-- There is a page for each active call throughout a run. -/
theorem Watched.length_book {σ : Type} {code : List Instr} {marks : List Mark} {device : Device σ}
    {n : Nat} {w w' : Watched σ} {b : Book} (h : b.length = w.shadow.stack.length)
    (hafter : w.after code.toArray marks device n = some w') :
    (w.book code marks device n b).length = w'.shadow.stack.length := by
  induction n generalizing w b with
  | zero =>
    cases hafter
    exact h
  | succ n ih =>
    obtain ⟨w₁, hnext, hafter⟩ := Option.bind_eq_some_iff.mp hafter
    simp only [Watched.book, hnext]
    apply ih _ hafter
    unfold Watched.next at hnext
    dsimp only at hnext
    split at hnext
    · cases hnext
    · cases hnext
      exact Book.length_step code marks w.machine h

/-! ### Which instructions belong together

The cell of an operand lies above all cells that the code of the right operand uses, by induction on
how that code is made. So no other load of an operand from this cell stands between the two. -/

/-- An instruction that puts a left operand aside or loads it names a cell at `offset` or below. -/
def Instr.LeftBelow (offset : Int) (i : Instr) : Prop :=
  ∀ d, i = .rm .st .ac d .fp "op: push left" ∨ i = .rm .ld .ac1 d .fp "op: load left" → d ≤ offset

namespace Instr

variable {offset : Int}

theorem leftBelow_of_not_noted {i : Instr} (h : i.noted = false) : i.LeftBelow offset := by
  rintro d (rfl | rfl) <;> simp [noted, pushesLeft, loadsLeft] at h

theorem LeftBelow.raise {i : Instr} (h : i.LeftBelow offset) {offset' : Int}
    (hle : offset ≤ offset') : i.LeftBelow offset' :=
  fun d hi => Int.le_trans (h d hi) hle

theorem leftBelow_cell (offset : Int) (op : Opcode) (r : Reg) (t : String) :
    LeftBelow offset (.rm op r offset .fp t) := by
  rintro d (heq | heq) <;> cases heq <;> exact Int.le_refl _

end Instr

/-- The remark of a load of a variable starts with another letter. -/
theorem VarUse.leftBelow_load {v : VarUse} {offset : Int} {r : Reg} {i : Instr}
    (h : v.load r = .ok i) : i.LeftBelow offset := by
  simp only [VarUse.load, Except.bind_eq_ok_iff] at h
  obtain ⟨⟨layout, base⟩, -, h⟩ := h
  apply Instr.leftBelow_of_not_noted
  cases hs : layout.storage <;> simp only [hs, Except.pure_eq_ok_iff] at h <;> rw [← h] <;>
    apply Instr.noted_of_text <;> exact String.ne_of_head (by simp [toString])

theorem Instr.common_leftBelow : Instr.Common Instr.LeftBelow where
  raise h hle := h.raise hle
  operation _ _ _ _ _ _ := leftBelow_of_not_noted rfl
  constant _ _ _ _ := leftBelow_of_not_noted (noted_of_base (by decide) _ _ _ _)
  based _ _ _ _ hs _ _ _ := leftBelow_of_not_noted (noted_of_base hs _ _ _ _)
  cell offset op _ r t := leftBelow_cell offset op r t
  load _ _ _ _ h := VarUse.leftBelow_load h
  store _ _ _ h := leftBelow_of_not_noted (VarUse.noted_store h)
  restore _ := leftBelow_of_not_noted rfl

/-- The code of an expression puts left operands aside in the cells that it may use. -/
theorem Exp.leftBelow {k : Linker} {e : Exp} {offset : Int} {start : Nat} {is : List Instr}
    (h : e.code k offset start = .ok is) : ∀ i ∈ is, i.LeftBelow offset :=
  Exp.forall_code Instr.common_leftBelow h

/-- A left operand is put aside at `left`, in the cell at `offset`, and loaded at `right`. Between
the two lies the code of an expression that works below this cell. -/
structure Spans (code : List Instr) (offset : Int) (left right : Nat) : Prop where
  push : code[left]? = some (.rm .st .ac offset .fp "op: push left")
  pull : code[right]? = some (.rm .ld .ac1 offset .fp "op: load left")
  between : ∃ k e is, Exp.code k (offset - 1) (left + 1) e = .ok is ∧ Holds code (left + 1) is ∧
    right = left + 1 + is.length

namespace Spans

variable {code : List Instr} {offset offset' : Int} {left left' right right' : Nat}

theorem left_lt (h : Spans code offset left right) : left < right := by
  obtain ⟨k, e, is, -, -, rfl⟩ := h.between
  omega

/-- What lies between the two instructions names cells below theirs. -/
theorem lt_of_between (h : Spans code offset left right) {x : Nat} (hleft : left < x)
    (hright : x < right) {i : Instr} (hi : code[x]? = some i) : i.LeftBelow (offset - 1) := by
  obtain ⟨k, e, is, hcode, hholds, rfl⟩ := h.between
  have hget := hholds (x - (left + 1)) (by omega)
  rw [show left + 1 + (x - (left + 1)) = x by omega, hi, Option.some.injEq] at hget
  rw [hget]
  exact Exp.leftBelow hcode _ (List.getElem_mem _)

/-- The load belongs to one instruction that puts the operand aside. -/
theorem right_unique (h : Spans code offset left right) (h' : Spans code offset' left right') :
    right = right' := by
  obtain rfl : offset = offset' := by
    have heq := h.push.symm.trans h'.push
    simpa using heq
  have hlt := h.left_lt
  have hlt' := h'.left_lt
  -- the nearer load is between the other two instructions, but names the same cell
  rcases Nat.lt_trichotomy right right' with hne | heq | hne
  · have := h'.lt_of_between hlt hne h.pull offset (Or.inr rfl)
    omega
  · exact heq
  · have := h.lt_of_between hlt' hne h'.pull offset (Or.inr rfl)
    omega

/-- And the other way round. -/
theorem left_unique (h : Spans code offset left right) (h' : Spans code offset' left' right) :
    left = left' := by
  obtain rfl : offset = offset' := by
    have heq := h.pull.symm.trans h'.pull
    simpa using heq
  have hlt := h.left_lt
  have hlt' := h'.left_lt
  rcases Nat.lt_trichotomy left left' with hne | heq | hne
  · have := h.lt_of_between hne hlt' h'.push offset (Or.inl rfl)
    omega
  · exact heq
  · have := h'.lt_of_between hne hlt h.push offset (Or.inl rfl)
    omega

end Spans

end MiniC
