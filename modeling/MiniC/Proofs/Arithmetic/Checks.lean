import MiniC.Proofs.Arithmetic.Computations

/-!
# Numbers out of range

Code generation stops where a number does not fit its field. The listed computations are all that it
checks: where it stops for this reason, one of them overflows.

* `NoOverflow`: an answer that is not about a number out of range
* `Exp.noOverflow`, `Stmt.noOverflow`: phrases whose computations are exact
-/

namespace MiniC

variable {α β : Type}

/-- The answer is not that a number is out of range. -/
def NoOverflow (x : Except CodeFault α) : Prop :=
  x ≠ .error .outOfRange

/-- Code is no overflow. -/
theorem NoOverflow.ok (a : α) : NoOverflow (.ok a) := by
  simp [NoOverflow]

/-- Two computations, one after the other. -/
theorem NoOverflow.bind {x : Except CodeFault α} {f : α → Except CodeFault β} (hx : NoOverflow x)
    (hf : ∀ a, x = .ok a → NoOverflow (f a)) : NoOverflow (x >>= f) := by
  cases x with
  | error e => exact fun h => hx (congrArg Except.error (Except.error.inj h))
  | ok a => exact hf a rfl

/-- What goes before has an answer. -/
theorem NoOverflow.after {x : Except CodeFault α} {f : α → Except CodeFault β} {a : α}
    (hx : x = .ok a) (hf : NoOverflow (f a)) : NoOverflow (x >>= f) := by
  rw [hx]
  exact hf

/-- An offset is lowered exactly. -/
theorem NoOverflow.lowered {offset : Int} {f : Int → Except CodeFault α}
    (h : (Computation.sub offset 1).Exact) (hf : NoOverflow (f (offset - 1))) :
    NoOverflow (lowered offset 1 >>= f) :=
  .after h hf

/-- A displacement is exact. -/
theorem NoOverflow.relative {op : Opcode} {r : Reg} {address target : Nat} {comment : String}
    {f : Instr → Except CodeFault α} (h : (Computation.jump address target).Exact)
    (hf : ∀ i, NoOverflow (f i)) :
    NoOverflow (Instr.relative op r address target comment >>= f) :=
  .after (Except.bind_eq_ok_iff.mpr ⟨_, h.2.2, rfl⟩) (hf _)

/-- The storage of a variable is looked up, and not computed. -/
theorem VarUse.noOverflow_storage (v : VarUse) : NoOverflow v.storage := by
  unfold VarUse.storage
  cases v.layout <;> simp [NoOverflow]

/-- A load takes the offset of the variable as it is. -/
theorem VarUse.noOverflow_load (v : VarUse) (r : Reg) : NoOverflow (v.load r) :=
  v.noOverflow_storage.bind fun ⟨l, base⟩ _ => by
    cases hs : l.storage <;> simp only [hs] <;> exact .ok _

/-- A store does too. -/
theorem VarUse.noOverflow_store (v : VarUse) : NoOverflow v.store :=
  v.noOverflow_storage.bind fun _ _ => .ok _

/-- The address of an element has two displacements. -/
theorem VarUse.noOverflow_elementAddress {v : VarUse} {start : Nat}
    (h : ∀ c ∈ VarUse.computations start, c.Exact) : NoOverflow (v.elementAddress start) := by
  simp only [VarUse.computations, List.forall_mem_cons] at h
  obtain ⟨hupper, hlower, -⟩ := h
  exact (v.noOverflow_load .ac1).bind fun _ _ =>
    .relative hupper fun _ => .relative hlower fun _ => .ok _

/-- The address of a function is looked up, and not computed. -/
theorem Linker.noOverflow_entry (k : Linker) (callee : String) (here : Nat) :
    NoOverflow (k.entry callee here) := by
  unfold Linker.entry
  split
  · exact .ok _
  · split_ifs <;> simp [NoOverflow]

variable {k : Linker} {offset : Int} {start : Nat}

/-- The one check for the cells of a call is that of the lowest of them. -/
theorem Linker.exact_lowest {n here : Nat} {callee : String}
    (h : ∀ c ∈ k.computations offset n here callee, c.Exact) :
    lowered offset (2 * n + 1) = .ok (offset - (2 * n + 1 : Nat)) := by
  unfold Linker.computations at h
  simp only [List.forall_mem_append, List.forall_mem_cons] at h
  obtain ⟨⟨hparameters, -, hframe, -⟩, -⟩ := h
  cases n with
  | zero =>
    have hlow : fit32 (offset - (0 : Nat) + savedFrameOffset) = _ := hframe
    rwa [show offset - (0 : Nat) + savedFrameOffset = offset - (2 * 0 + 1 : Nat) by
      simp [savedFrameOffset, Int.sub_eq_add_neg]] at hlow
  | succ n =>
    have hmem : Computation.sub (offset - (n + 1 : Nat) - 2) n ∈
        (List.range (n + 1)).flatMap fun (i : Nat) =>
          [Computation.sub offset i, .sub offset (n + 1 : Nat), .sub (offset - (n + 1 : Nat)) 2,
            .sub (offset - (n + 1 : Nat) - 2) i] :=
      List.mem_flatMap.mpr ⟨n, List.mem_range.mpr n.lt_succ_self, by simp⟩
    have hlow : fit32 (offset - (n + 1 : Nat) - 2 - n) = _ := hparameters _ hmem
    rwa [show offset - (n + 1 : Nat) - 2 - n = offset - (2 * (n + 1) + 1 : Nat) by omega] at hlow

/-- The arguments of a call, if it is so for each of them. -/
theorem Exp.noOverflow_arguments {args : List Exp}
    (ih : ∀ a ∈ args, ∀ {offset start}, (∀ c ∈ a.computations k offset start, c.Exact) →
      NoOverflow (a.code k offset start)) {i : Nat}
    (h : ∀ c ∈ Exp.argumentComputations k offset i start args, c.Exact) :
    NoOverflow (Exp.argumentCode k (offset - i) start args) := by
  induction args generalizing i start with
  | nil => exact .ok _
  | cons e rest hrest =>
    simp only [Exp.argumentComputations, List.forall_mem_append, List.forall_mem_cons] at h
    obtain ⟨⟨⟨-, -, hlower, -⟩, he⟩, -, hothers⟩ := h
    rw [Exp.argumentCode]
    refine .lowered hlower ((ih e List.mem_cons_self he).bind fun is his => ?_)
    rw [Exp.length_code his, show offset - i - 1 = offset - (i + 1 : Nat) by omega]
    exact (hrest (fun a ha => ih a (List.mem_cons_of_mem e ha)) hothers).bind fun _ _ => .ok _

/-- If no computation of an expression overflows, no number in its code is out of range. -/
theorem Exp.noOverflow {e : Exp} (h : ∀ c ∈ e.computations k offset start, c.Exact) :
    NoOverflow (e.code k offset start) := by
  induction e using Exp.induction generalizing offset start with
  | int p n => exact .ok _
  | bool p b => exact .ok _
  | nil p => exact .ok _
  | var t v =>
    rw [Exp.code]
    exact (v.noOverflow_load .ac).bind fun _ _ => .ok _
  | unary p t op e ih =>
    rw [Exp.code]
    refine (ih h).bind fun i _ => ?_
    cases op <;> exact .ok _
  | binary p t op l r ihl ihr =>
    simp only [Exp.computations, List.forall_mem_append] at h
    obtain ⟨hl, hrest⟩ := h
    rw [Exp.code]
    refine (ihl hl).bind fun i hi => ?_
    have hlen := Exp.length_code hi
    cases hop : op.combination with
    -- the jump over the right operand is computed from the size of its code
    | shortCircuit jump comment =>
      simp only [hop, List.forall_mem_append, List.forall_mem_cons, ← hlen] at hrest
      refine (ihr hrest.1).bind fun j hj => ?_
      rw [Exp.length_code hj]
      exact .relative hrest.2.1 fun _ => .ok _
    | operation operation =>
      simp only [hop, List.forall_mem_cons, ← hlen] at hrest
      exact .lowered hrest.1 ((ihr hrest.2).bind fun _ _ => .ok _)
    | comparison jump =>
      simp only [hop, List.forall_mem_cons, ← hlen] at hrest
      exact .lowered hrest.1 ((ihr hrest.2).bind fun _ _ => .ok _)
  | element t v i ih =>
    simp only [Exp.computations, List.forall_mem_append] at h
    rw [Exp.code]
    refine (ih h.1).bind fun is his => ?_
    rw [Exp.length_code his]
    exact (VarUse.noOverflow_elementAddress h.2).bind fun _ _ => .ok _
  | assign p t v e ih =>
    rw [Exp.code]
    exact (ih h).bind fun _ _ => v.noOverflow_store.bind fun _ _ => .ok _
  | assignElement p t v i e ihi ihe =>
    simp only [Exp.computations, List.forall_mem_append, List.forall_mem_cons] at h
    obtain ⟨⟨hi, hv⟩, hlower, he⟩ := h
    rw [Exp.code]
    refine (ihi hi).bind fun is his => ?_
    rw [Exp.length_code his]
    refine (VarUse.noOverflow_elementAddress hv).bind fun js hjs => ?_
    rw [VarUse.length_elementAddress hjs]
    exact .lowered hlower ((ihe he).bind fun _ _ => .ok _)
  | call p t f args ih =>
    simp only [Exp.computations, List.cons_append, List.forall_mem_cons,
      List.forall_mem_append] at h
    -- the computations of the arguments, and of the call behind them
    obtain ⟨-, hargs, hcall⟩ := h
    rw [Exp.code]
    have harguments := Exp.noOverflow_arguments (i := 0) ih hargs
    rw [Int.ofNat_zero, Int.sub_zero] at harguments
    refine harguments.bind fun a ha => ?_
    have hlen := Exp.length_argumentCode (fun _ _ => Exp.length_code) ha
    dsimp only
    rw [hlen]
    refine .after (Linker.exact_lowest hcall) ?_
    refine (k.noOverflow_entry f _).bind fun target htarget => ?_
    refine .relative (hcall _ (List.mem_append_right _ ?_)) fun _ => .ok _
    rw [htarget]
    exact List.mem_singleton_self _

variable {f : Enclosing} {S : ScopeTable} {next : Int}

/-- The code of an accepted statement has the size that was counted. -/
theorem Stmt.length_code_check {s : Stmt} {is : List Instr} (hok : (s.check f S next).errors = [])
    (h : (s.check f S next).value.code k offset start = .ok is) :
    is.length = (s.check f S next).value.size := by
  rw [Stmt.size_check]
  exact Stmt.Emits.length_eq ⟨hok, rfl, h⟩

/-- Statements that follow each other, if it is so for each of them. -/
theorem Stmt.noOverflowAll {body : List Stmt}
    (ih : ∀ s ∈ body, ∀ {next}, (s.check f S next).errors = [] → ∀ {start},
      (∀ c ∈ (s.check f S next).value.computations k offset start, c.Exact) →
        NoOverflow ((s.check f S next).value.code k offset start))
    (hok : (Stmt.checkAll f S next body).errors = [])
    (h : ∀ c ∈ Stmt.computationsAll k offset start (Stmt.checkAll f S next body).value, c.Exact) :
    NoOverflow (Stmt.codeAll k offset start (Stmt.checkAll f S next body).value) := by
  induction body generalizing next start with
  | nil => exact .ok _
  | cons s rest hrest =>
    simp only [Stmt.checkAll, List.append_eq_nil_iff] at hok h ⊢
    simp only [Stmt.computationsAll, List.forall_mem_append] at h
    rw [Stmt.codeAll]
    refine (ih s List.mem_cons_self hok.1 h.1).bind fun i hi => ?_
    rw [Stmt.length_code_check hok.1 hi]
    exact (hrest (fun a ha => ih a (List.mem_cons_of_mem s ha)) hok.2 h.2).bind fun _ _ => .ok _

/-- If no computation of an accepted statement overflows, no number in its code is out of range. -/
theorem Stmt.noOverflow {s : Stmt} (hok : (s.check f S next).errors = [])
    (h : ∀ c ∈ (s.check f S next).value.computations k offset start, c.Exact) :
    NoOverflow ((s.check f S next).value.code k offset start) := by
  induction s using Stmt.induction generalizing S next start with
  | exp p e => exact Exp.noOverflow h
  | block p ds body ih =>
    simp only [Stmt.check, List.append_eq_nil_iff] at hok h ⊢
    have hlen := (declares_of_checkAll hok.1).length_eq .fp
    simp only [Stmt.computations, VarDecl.sizes_checkAll, ← hlen] at h
    rw [Stmt.code]
    exact (Stmt.noOverflowAll (fun s hs _ hok _ => ih s hs hok) hok.2 h).bind fun _ _ => .ok _
  | ifThen p t a ih =>
    simp only [Stmt.check, List.append_eq_nil_iff] at hok h ⊢
    simp only [Stmt.computations, List.forall_mem_append, List.forall_mem_singleton] at h
    rw [Stmt.code]
    refine (Exp.noOverflow h.1.1).bind fun i hi => ?_
    dsimp only
    rw [Exp.length_code hi]
    refine (ih hok.2 h.1.2).bind fun j hj => ?_
    rw [Stmt.length_code_check hok.2 hj]
    exact .relative h.2 fun _ => .ok _
  | ifElse p t a b iha ihb =>
    simp only [Stmt.check, List.append_eq_nil_iff] at hok h ⊢
    obtain ⟨⟨⟨-, -⟩, ha⟩, hb⟩ := hok
    simp only [Stmt.computations, List.forall_mem_append, List.forall_mem_cons] at h
    obtain ⟨⟨⟨ht, ha'⟩, helse, hb'⟩, hend, -⟩ := h
    rw [Stmt.code]
    refine (Exp.noOverflow ht).bind fun i hi => ?_
    dsimp only
    rw [Exp.length_code hi]
    refine (iha ha ha').bind fun j hj => ?_
    rw [Stmt.length_code_check ha hj]
    refine .relative helse fun _ => (ihb hb hb').bind fun l hl => ?_
    rw [Stmt.length_code_check hb hl]
    exact .relative hend fun _ => .ok _
  -- both the jump out of the loop and the one back to the test are computed behind the body
  | whileDo p t b ih =>
    simp only [Stmt.check, List.append_eq_nil_iff] at hok h ⊢
    simp only [Stmt.computations, List.forall_mem_append, List.forall_mem_cons] at h
    obtain ⟨⟨ht, hb⟩, hback, hend, -⟩ := h
    rw [Stmt.code]
    refine (Exp.noOverflow ht).bind fun i hi => ?_
    dsimp only
    rw [Exp.length_code hi]
    refine (ih hok.2 hb).bind fun j hj => ?_
    rw [Stmt.length_code_check hok.2 hj]
    exact .relative hback fun _ => .relative hend fun _ => .ok _
  | ret p v =>
    cases v with
    | none => exact .ok _
    | some e => exact (Exp.noOverflow h).bind fun _ _ => .ok _

end MiniC
