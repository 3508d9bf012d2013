import MiniC.Proofs.Watch

/-!
# The arguments of calls

A call evaluates its arguments one after the other. Each leaves its value in the accumulator, and
the instruction behind the code of the argument puts the value aside; once all are evaluated they
are copied to the parameters of the new frame. A ledger follows the run beside the watcher. It
takes note of the values that are put aside, and of those among them that a call is given. The
marks say which instructions these are.

* `Ledger`, `Ledger.step`: what the active calls were given and have put aside
* `Received`: what a function finds when it is entered
-/

namespace MiniC

/-! ### The ledger

Each active call has an account: what it was given, and what it has put aside for calls of its own
since. A call takes the last values of its caller's account. -/

/-- What an active call was given, and what it has put aside. -/
structure Account where
  /-- The values of the arguments of the call, in order. -/
  given : List Word
  /-- The values that the called function has put aside for calls of its own, the latest first. -/
  aside : List Word

/-- The accounts of the active calls, the latest first. -/
abbrev Ledger := List Account

/-- The ledger after the machine has executed its next instruction. A call with `n` arguments is
given the last `n` values that its caller has put aside; outside of functions there are none. -/
def Ledger.step (marks : List Mark) (m : Machine) (l : Ledger) : Ledger :=
  match m.mark marks, l with
  | some (.call arrays), a :: rest =>
    ⟨(a.aside.take arrays.length).reverse, []⟩ ::
      { a with aside := a.aside.drop arrays.length } :: rest
  | some (.call _), [] => [⟨[], []⟩]
  | some .leave, l => l.tail
  | some .aside, a :: rest => { a with aside := m.reg .ac :: a.aside } :: rest
  | _, l => l

/-- The ledger after `n` instructions. -/
def Watched.ledger {σ : Type} (code : Array Instr) (marks : List Mark) (device : Device σ) :
    Nat → Watched σ → Ledger → Ledger
  | 0, _, l => l
  | n + 1, w, l =>
    match w.next code marks device with
    | some w' => ledger code marks device n w' (l.step marks w.machine)
    | none => l

/-- The word that stands for an array: the address of its length cell, or zero for no array. Cell 0
holds zero, so no array has no elements. -/
def refWord : Option Extent → Word
  | some e => Int64.ofInt e.base
  | none => 0

/-- What a function finds when it is entered whose parameters have the types `tys`. The parameters
lie below the saved frame base. -/
structure Received {σ : Type} (w : Watched σ) (l : Ledger) (tys : List Ty) (a : Activation)
    (waiting : List Activation) (given : List Word) : Prop where
  stack_eq : w.shadow.stack = a :: waiting
  given_eq : ∃ rest, l = ⟨given, []⟩ :: rest
  fp_eq : w.machine.reg .fp = Int64.ofInt a.base
  /-- A call in a function gives a value for each parameter. -/
  called : waiting ≠ [] → given.length = tys.length
  /-- The call that starts the program gives nothing. -/
  started : waiting = [] → given = []
  /-- The parameters hold what was given, and zero where nothing was. -/
  cells : ∀ i < tys.length, w.machine.memory.read (a.base - 2 - i) = given.getD i 0
  /-- An array is given by the address of its length cell. -/
  arrays : ∀ (i : Nat) ty, tys[i]? = some ty → ty.isArray = true →
    w.machine.memory.read (a.base - 2 - i) = refWord (a.references.lookup (-2 - (i : Int)))

end MiniC
