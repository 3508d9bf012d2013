import MiniC.Proofs.Outcomes

/-!
# The computations of code generation

Code is generated with 32-bit numbers: the offsets of temporary cells, the numbers of arguments, and
the displacements of jumps. Here they are listed one by one, with what they are computed from, for
each phrase in the order in which its code is written. A list says nothing about results, so it goes
on behind a computation that overflows, or a call that cannot be linked.

Offsets start at the end of a frame and fall by one for each value that is kept; a phrase keeps
fewer values than it has instructions. So if there is room below an offset for as many cells as a
phrase has instructions, no computation of the phrase overflows.

* `Exp.computations`, `Stmt.computations`: the computations of phrases
* `Exp.exact`, `Stmt.exact`: none of them overflows if there is room
-/

namespace MiniC

/-- A computation with 32-bit numbers. -/
inductive Computation where
  /-- A count, taken as a number. -/
  | count (n : Nat)
  | sub (a b : Int)
  | add (a b : Int)
  /-- The displacement of the jump at an address: both addresses are taken as numbers, one is added
  to that of the jump, and the sum is subtracted from the target. -/
  | jump (address target : Nat)
deriving DecidableEq, Repr

namespace Computation

/-- The result is that of the same computation with unbounded numbers, and no step of it
overflows. -/
def Exact : Computation → Prop
  | .count n => low32 n = n
  | .sub a b => fit32 (a - b) = .ok (a - b)
  | .add a b => fit32 (a + b) = .ok (a + b)
  | .jump address target => low32 address = address ∧ low32 target = target ∧
      displacement address target = .ok (target - (address + 1))

theorem Exact.count {n : Nat} (h : n < 2 ^ 31) : (Computation.count n).Exact :=
  low32_eq h

theorem Exact.sub {a b : Int} (hlow : -2 ^ 31 ≤ a - b) (hhigh : a - b < 2 ^ 31) :
    (Computation.sub a b).Exact :=
  fit32_of_le hlow hhigh

theorem Exact.add {a b : Int} (hlow : -2 ^ 31 ≤ a + b) (hhigh : a + b < 2 ^ 31) :
    (Computation.add a b).Exact :=
  fit32_of_le hlow hhigh

theorem Exact.jump {address target : Nat} (ha : address + 1 < 2 ^ 31) (ht : target < 2 ^ 31) :
    (Computation.jump address target).Exact := by
  have ha' := low32_eq (n := address) (by omega)
  have ht' := low32_eq ht
  refine ⟨ha', ht', ?_⟩
  rw [displacement, ha', ht', fit32_of_le (n := address + 1) (by omega) (by omega)]
  exact fit32_of_le (by omega) (by omega)

end Computation

/-- The computations of the check of an index. -/
def VarUse.computations (start : Nat) : List Computation :=
  [.jump (start + 3) (faultEntry .upper), .jump (start + 4) (faultEntry .lower)]

/-- The computations of a call behind its arguments: `here` is the address of the sequence that
enters the function. -/
def Linker.computations (k : Linker) (offset : Int) (n here : Nat) (callee : String) :
    List Computation :=
  (List.range n).flatMap (fun (i : Nat) =>
    [.sub offset i, .sub offset n, .sub (offset - n) 2, .sub (offset - n - 2) i]) ++
  [.sub offset n, .add (offset - n) savedFrameOffset, .sub offset n] ++
  (k.entry callee here).toOption.toList.map (.jump (here + 3))

mutual

/-- The computations for the code of an expression. -/
def Exp.computations (k : Linker) (offset : Int) (start : Nat) : Exp → List Computation
  | .int _ _ | .bool _ _ | .nil _ | .var _ _ => []
  | .unary _ _ _ e => e.computations k offset start
  | .binary _ _ op l r =>
    l.computations k offset start ++
    match op.combination with
    | .shortCircuit _ _ =>
      r.computations k offset (start + l.size + 1) ++
        [.jump (start + l.size) (start + l.size + 1 + r.size)]
    | _ => .sub offset 1 :: r.computations k (offset - 1) (start + l.size + 1)
  | .element _ _ i => i.computations k offset start ++ VarUse.computations (start + i.size)
  | .assign _ _ _ e => e.computations k offset start
  | .assignElement _ _ _ i e =>
    i.computations k offset start ++ VarUse.computations (start + i.size) ++
      -- eight instructions check the index, and one keeps the address
      .sub offset 1 :: e.computations k (offset - 1) (start + i.size + 9)
  | .call _ _ f args =>
    .count args.length :: Exp.argumentComputations k offset 0 start args ++
      k.computations offset args.length (start + Exp.argumentSize args + 2 * args.length) f

/-- The computations for the code of arguments, of which the first has the number `i`. -/
def Exp.argumentComputations (k : Linker) (offset : Int) (i start : Nat) :
    List Exp → List Computation
  | [] => []
  | e :: rest =>
    [.count i, .sub offset i, .sub (offset - i) 1] ++ e.computations k (offset - i - 1) start ++
      .sub offset i :: Exp.argumentComputations k offset (i + 1) (start + e.size + 1) rest

end

mutual

/-- The computations for the code of a statement. -/
def Stmt.computations (k : Linker) (offset : Int) (start : Nat) : Stmt → List Computation
  | .exp _ e => e.computations k offset start
  | .block _ ds body => Stmt.computationsAll k offset (start + VarDecl.sizes ds) body
  | .ifThen _ t a =>
    let slot := start + t.size
    t.computations k offset start ++ a.computations k offset (slot + 1) ++
      [.jump slot (slot + 1 + a.size)]
  | .ifElse _ t a b =>
    let slot := start + t.size
    let exit := slot + 1 + a.size
    t.computations k offset start ++ a.computations k offset (slot + 1) ++
      .jump slot (exit + 1) :: b.computations k offset (exit + 1) ++
      [.jump exit (exit + 1 + b.size)]
  | .whileDo _ t b =>
    let slot := start + t.size
    let back := slot + 1 + b.size
    t.computations k offset start ++ b.computations k offset (slot + 1) ++
      [.jump back start, .jump slot (back + 1)]
  | .ret _ none => []
  | .ret _ (some e) => e.computations k offset start

/-- The computations for the code of statements in order. -/
def Stmt.computationsAll (k : Linker) (offset : Int) (start : Nat) : List Stmt → List Computation
  | [] => []
  | s :: rest =>
    s.computations k offset start ++ Stmt.computationsAll k offset (start + s.size) rest

end

/-! ### Room

By induction on the phrases. A part starts as many addresses further on as the code before it has
instructions, and as many cells further down at most, so it has room if the whole has. -/

section Room

variable {k : Linker} {offset : Int} {start : Nat}

theorem VarUse.exact (hstart : start + 5 < 2 ^ 31) :
    ∀ c ∈ VarUse.computations start, c.Exact := by
  have hupper : faultEntry .upper < 2 ^ 31 := by decide
  have hlower : faultEntry .lower < 2 ^ 31 := by decide
  simp only [VarUse.computations, List.forall_mem_cons]
  exact ⟨.jump (by omega) hupper, .jump (by omega) hlower, List.forall_mem_nil _⟩

theorem Linker.entry_lt (hk : k.Short) {callee : String} {here target : Nat} (hhere : here < 2 ^ 31)
    (h : k.entry callee here = .ok target) : target < 2 ^ 31 := by
  unfold Linker.entry at h
  split at h
  · rename_i entry hlookup
    cases h
    exact hk _ (mem_of_lookup hlookup)
  · split_ifs at h
    cases h
    exact hhere

/-- The lowest cell of a call is that of its last parameter. -/
theorem Linker.exact (hk : k.Short) {n here : Nat} {callee : String} (hhigh : offset ≤ 0)
    (hlow : -2 ^ 31 ≤ offset - 2 * n - 2) (hhere : here + 4 < 2 ^ 31) :
    ∀ c ∈ k.computations offset n here callee, c.Exact := by
  unfold Linker.computations
  simp only [List.forall_mem_append, List.forall_mem_cons]
  refine ⟨⟨?_, ?_⟩, ?_⟩
  · intro c hc
    obtain ⟨i, hi, hc⟩ := List.mem_flatMap.mp hc
    have hlt := List.mem_range.mp hi
    simp only [List.mem_cons, List.not_mem_nil, or_false] at hc
    rcases hc with rfl | rfl | rfl | rfl <;> exact .sub (by omega) (by omega)
  · have hsaved : savedFrameOffset = -1 := rfl
    exact ⟨.sub (by omega) (by omega), .add (by omega) (by omega), .sub (by omega) (by omega),
      List.forall_mem_nil _⟩
  · intro c hc
    obtain ⟨target, htarget, rfl⟩ := List.mem_map.mp hc
    have hentry : k.entry callee here = .ok target := by
      cases hx : k.entry callee here <;> simp_all [Except.toOption]
    exact .jump (by omega) (k.entry_lt hk (by omega) hentry)

theorem Exp.exact_arguments {args : List Exp}
    (ih : ∀ a ∈ args, ∀ {offset start}, CodeRoom offset start a.size →
      ∀ c ∈ a.computations k offset start, c.Exact) {i : Nat} (hhigh : offset ≤ 0)
    (hlow : -2 ^ 31 ≤ offset - i - Exp.argumentSize args)
    (hshort : start + Exp.argumentSize args < 2 ^ 31) :
    ∀ c ∈ Exp.argumentComputations k offset i start args, c.Exact := by
  induction args generalizing i start with
  | nil => exact List.forall_mem_nil _
  | cons e rest hrest =>
    simp only [Exp.argumentSize] at hlow hshort
    simp only [Exp.argumentComputations, List.forall_mem_append, List.forall_mem_cons]
    refine ⟨⟨⟨.count (by omega), .sub (by omega) (by omega), .sub (by omega) (by omega),
      List.forall_mem_nil _⟩, ?_⟩, .sub (by omega) (by omega), ?_⟩
    · exact ih e List.mem_cons_self ⟨by omega, by omega, by omega⟩
    · exact hrest (fun a ha => ih a (List.mem_cons_of_mem e ha)) (by omega) (by omega)

/-- No computation of an expression overflows if there is room for its code. -/
theorem Exp.exact (hk : k.Short) {e : Exp} (hroom : CodeRoom offset start e.size) :
    ∀ c ∈ e.computations k offset start, c.Exact := by
  induction e using Exp.induction generalizing offset start with
  | int p n => exact List.forall_mem_nil _
  | bool p b => exact List.forall_mem_nil _
  | nil p => exact List.forall_mem_nil _
  | var t v => exact List.forall_mem_nil _
  | unary p t op e ih =>
    obtain ⟨hhigh, hlow, hshort⟩ := hroom
    have hsize : e.size ≤ (Exp.unary p t op e).size := by cases op <;> simp [Exp.size]
    exact ih ⟨hhigh, by omega, by omega⟩
  | binary p t op l r ihl ihr =>
    obtain ⟨hhigh, hlow, hshort⟩ := hroom
    -- every combination has room for both operands and the instruction between them
    have hsize : l.size + r.size + 1 ≤ (Exp.binary p t op l r).size := by
      simp only [Exp.size]
      split <;> omega
    have hl : ∀ c ∈ l.computations k offset start, c.Exact := ihl ⟨hhigh, by omega, by omega⟩
    simp only [Exp.computations, List.forall_mem_append]
    refine ⟨hl, ?_⟩
    split
    · rw [List.forall_mem_append]
      exact ⟨ihr ⟨hhigh, by omega, by omega⟩,
        List.forall_mem_singleton.mpr (.jump (by omega) (by omega))⟩
    · rw [List.forall_mem_cons]
      exact ⟨.sub (by omega) (by omega), ihr ⟨by omega, by omega, by omega⟩⟩
  | element t v i ih =>
    obtain ⟨hhigh, hlow, hshort⟩ := hroom
    simp only [Exp.size] at hlow hshort
    simp only [Exp.computations, List.forall_mem_append]
    exact ⟨ih ⟨hhigh, by omega, by omega⟩, VarUse.exact (by omega)⟩
  | assign p t v e ih =>
    obtain ⟨hhigh, hlow, hshort⟩ := hroom
    simp only [Exp.size] at hlow hshort
    exact ih ⟨hhigh, by omega, by omega⟩
  | assignElement p t v i e ihi ihe =>
    obtain ⟨hhigh, hlow, hshort⟩ := hroom
    simp only [Exp.size] at hlow hshort
    simp only [Exp.computations, List.forall_mem_append, List.forall_mem_cons]
    exact ⟨⟨ihi ⟨hhigh, by omega, by omega⟩, VarUse.exact (by omega)⟩,
      .sub (by omega) (by omega), ihe ⟨by omega, by omega, by omega⟩⟩
  | call p t f args ih =>
    obtain ⟨hhigh, hlow, hshort⟩ := hroom
    simp only [Exp.size] at hlow hshort
    simp only [Exp.computations, List.cons_append, List.forall_mem_cons, List.forall_mem_append]
    exact ⟨.count (by omega), Exp.exact_arguments ih hhigh (by omega) (by omega),
      k.exact hk hhigh (by omega) (by omega)⟩

theorem Stmt.exactAll {body : List Stmt}
    (ih : ∀ s ∈ body, ∀ {start}, CodeRoom offset start s.size →
      ∀ c ∈ s.computations k offset start, c.Exact)
    (hroom : CodeRoom offset start (Stmt.sizeAll body)) :
    ∀ c ∈ Stmt.computationsAll k offset start body, c.Exact := by
  induction body generalizing start with
  | nil => exact List.forall_mem_nil _
  | cons s rest hrest =>
    obtain ⟨hhigh, hlow, hshort⟩ := hroom
    simp only [Stmt.sizeAll] at hlow hshort
    simp only [Stmt.computationsAll, List.forall_mem_append]
    exact ⟨ih s List.mem_cons_self ⟨hhigh, by omega, by omega⟩,
      hrest (fun a ha => ih a (List.mem_cons_of_mem s ha)) ⟨hhigh, by omega, by omega⟩⟩

/-- No computation of a statement overflows if there is room for its code. -/
theorem Stmt.exact (hk : k.Short) {s : Stmt} (hroom : CodeRoom offset start s.size) :
    ∀ c ∈ s.computations k offset start, c.Exact := by
  -- every part has its own room within that of the whole, so only the jumps are new
  induction s using Stmt.induction generalizing start with
  | exp p e => exact Exp.exact hk hroom
  | block p ds body ih =>
    obtain ⟨hhigh, hlow, hshort⟩ := hroom
    simp only [Stmt.size] at hlow hshort
    exact Stmt.exactAll ih ⟨hhigh, by omega, by omega⟩
  | ifThen p t a ih =>
    obtain ⟨hhigh, hlow, hshort⟩ := hroom
    simp only [Stmt.size] at hlow hshort
    simp only [Stmt.computations, List.forall_mem_append, List.forall_mem_singleton]
    exact ⟨⟨Exp.exact hk ⟨hhigh, by omega, by omega⟩, ih ⟨hhigh, by omega, by omega⟩⟩,
      .jump (by omega) (by omega)⟩
  | ifElse p t a b iha ihb =>
    obtain ⟨hhigh, hlow, hshort⟩ := hroom
    simp only [Stmt.size] at hlow hshort
    simp only [Stmt.computations, List.forall_mem_append, List.forall_mem_cons]
    exact ⟨⟨⟨Exp.exact hk ⟨hhigh, by omega, by omega⟩, iha ⟨hhigh, by omega, by omega⟩⟩,
      .jump (by omega) (by omega), ihb ⟨hhigh, by omega, by omega⟩⟩, .jump (by omega) (by omega),
      List.forall_mem_nil _⟩
  | whileDo p t b ih =>
    obtain ⟨hhigh, hlow, hshort⟩ := hroom
    simp only [Stmt.size] at hlow hshort
    simp only [Stmt.computations, List.forall_mem_append, List.forall_mem_cons]
    exact ⟨⟨Exp.exact hk ⟨hhigh, by omega, by omega⟩, ih ⟨hhigh, by omega, by omega⟩⟩,
      .jump (by omega) (by omega), .jump (by omega) (by omega), List.forall_mem_nil _⟩
  | ret p v =>
    cases v with
    | none => exact List.forall_mem_nil _
    | some e =>
      obtain ⟨hhigh, hlow, hshort⟩ := hroom
      simp only [Stmt.size] at hlow hshort
      exact Exp.exact hk ⟨hhigh, by omega, by omega⟩

end Room

end MiniC
