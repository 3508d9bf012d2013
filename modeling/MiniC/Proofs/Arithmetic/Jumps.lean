import MiniC.Proofs.Arithmetic.Computations

/-!
# The jumps in the code

The listed jumps are those of the code: each of them is found at its address, with the displacement
that is computed for it, and every other instruction has a displacement that is fixed, if it has one
at all.

* `Jumps`: the jumps of code are those among some computations
* `Exp.jumps`, `Stmt.jumps`: phrases
-/

namespace MiniC

/-- The instruction counts from its own address. -/
def Instr.isRelative : Instr → Bool
  | .rm _ _ _ s _ => s == .pc
  | .ro .. => false

/-- No displacement is computed for the instruction. If it counts from its own address, it is in the
code of a truth value, or it loads the address behind a call. -/
def Instr.Fixed (i : Instr) : Prop :=
  i.isRelative = false ∨ i = .rm .lda .ac 1 .pc "load ac with ret ptr" ∨
    ∃ jump what, i ∈ truthValue jump what

/-- The return address is counted from the program counter by a fixed displacement. -/
theorem Instr.Fixed.link : Instr.Fixed (.rm .lda .ac 1 .pc "load ac with ret ptr") :=
  .inr (.inl rfl)

/-- The two jumps of a truth value have fixed displacements. -/
theorem Instr.Fixed.truthValue (jump : Opcode) (what : String) :
    ∀ i ∈ MiniC.truthValue jump what, i.Fixed :=
  fun _ hi => .inr (.inr ⟨jump, what, hi⟩)

/-- The jumps of the code at an address are those among the computations, with the displacements
that are computed. -/
structure Jumps (start : Nat) (is : List Instr) (cs : List Computation) : Prop where
  listed : ∀ n i, is[n]? = some i → i.Fixed ∨ ∃ op r target comment,
    .jump (start + n) target ∈ cs ∧ Instr.relative op r (start + n) target comment = .ok i
  carried : ∀ address target, .jump address target ∈ cs → ∃ n i op r comment,
    address = start + n ∧ is[n]? = some i ∧ Instr.relative op r address target comment = .ok i

namespace Jumps

variable {start mid : Nat} {is js : List Instr} {cs ds : List Computation}

/-- Code without computed jumps. -/
theorem fixed (h : ∀ i ∈ is, i.Fixed) : Jumps start is [] :=
  ⟨fun _ i hi => .inl (h i (List.mem_of_getElem? hi)), fun _ _ h => absurd h List.not_mem_nil⟩

/-- No code. -/
theorem nil : Jumps start [] [] :=
  fixed (List.forall_mem_nil _)

/-- One computed jump. -/
theorem relative {op : Opcode} {r : Reg} {target : Nat} {comment : String} {i : Instr}
    (h : Instr.relative op r start target comment = .ok i) :
    Jumps start [i] [.jump start target] := by
  constructor
  · intro n j hj
    cases n with
    | zero =>
      cases hj
      exact .inr ⟨op, r, target, comment, List.mem_singleton_self _, h⟩
    | succ n => cases hj
  · intro address target' hmem
    cases List.mem_singleton.mp hmem
    exact ⟨0, i, op, r, comment, rfl, rfl, h⟩

/-- Stretches of code one behind the other. -/
theorem append (h : Jumps start is cs) (h' : Jumps mid js ds) (hmid : mid = start + is.length) :
    Jumps start (is ++ js) (cs ++ ds) := by
  subst hmid
  constructor
  · intro n i hi
    -- the instruction is in the first stretch or in the second one
    rcases Nat.lt_or_ge n is.length with hlt | hge
    · rw [List.getElem?_append_left hlt] at hi
      refine (h.listed n i hi).imp_right ?_
      rintro ⟨op, r, target, comment, hmem, hrel⟩
      exact ⟨op, r, target, comment, List.mem_append_left _ hmem, hrel⟩
    · rw [List.getElem?_append_right hge] at hi
      refine (h'.listed _ i hi).imp_right ?_
      rw [show start + is.length + (n - is.length) = start + n by omega]
      rintro ⟨op, r, target, comment, hmem, hrel⟩
      exact ⟨op, r, target, comment, List.mem_append_right _ hmem, hrel⟩
  · intro address target hmem
    rcases List.mem_append.mp hmem with hmem | hmem
    · obtain ⟨n, i, op, r, comment, rfl, hi, hrel⟩ := h.carried address target hmem
      refine ⟨n, i, op, r, comment, rfl, ?_, hrel⟩
      rw [List.getElem?_append_left (List.getElem?_eq_some_iff.mp hi).1, hi]
    · obtain ⟨n, i, op, r, comment, rfl, hi, hrel⟩ := h'.carried address target hmem
      refine ⟨is.length + n, i, op, r, comment, Nat.add_assoc .., ?_, hrel⟩
      rw [List.getElem?_append_right (Nat.le_add_right ..), Nat.add_sub_cancel_left, hi]

/-- An instruction that is no computed jump, in front. -/
theorem cons_fixed {i : Instr} (hi : i.Fixed) (h : Jumps (start + 1) is cs) :
    Jumps start (i :: is) cs :=
  (fixed (List.forall_mem_singleton.mpr hi)).append h rfl

/-- A computed jump in front. -/
theorem cons_relative {op : Opcode} {r : Reg} {target : Nat} {comment : String} {i : Instr}
    (hi : Instr.relative op r start target comment = .ok i) (h : Jumps (start + 1) is cs) :
    Jumps start (i :: is) (.jump start target :: cs) :=
  (relative hi).append h rfl

/-- Code without computed jumps behind. -/
theorem append_fixed (h : Jumps start is cs) (hjs : ∀ j ∈ js, j.Fixed) :
    Jumps start (is ++ js) cs := by
  rw [← List.append_nil cs]
  exact h.append (fixed hjs) rfl

/-- Only the jumps among the computations matter, and not their order. -/
theorem congr (h : Jumps start is cs)
    (hcs : ∀ address target, .jump address target ∈ ds ↔ .jump address target ∈ cs) :
    Jumps start is ds := by
  obtain ⟨hlisted, hcarried⟩ := h
  simp only [← hcs] at hlisted hcarried
  exact ⟨hlisted, hcarried⟩

end Jumps

/-! ### Phrases

By induction on how the code is made. Each production puts stretches one behind the other, and its
computations are listed in another order at times, which makes no difference (`Jumps.congr`). -/

section Phrases

variable {k : Linker} {offset : Int} {start : Nat} {is : List Instr}

/-- Variables lie in global cells or in a frame. -/
theorem VarUse.base_of_storage {v : VarUse} {l : Layout} {base : Reg}
    (h : v.storage = .ok (l, base)) : base = .gp ∨ base = .fp := by
  unfold VarUse.storage at h
  cases hl : v.layout with
  | none => simp [hl] at h
  | some layout =>
    simp only [hl, Except.ok.injEq, Prod.mk.injEq] at h
    rw [← h.2]
    exact ite_eq_or_eq ..

/-- The load of a variable counts from the frame or from the globals. -/
theorem VarUse.fixed_load {v : VarUse} {r : Reg} {i : Instr} (h : v.load r = .ok i) : i.Fixed := by
  simp only [VarUse.load, Except.bind_eq_ok_iff, Prod.exists] at h
  obtain ⟨l, base, hstorage, hi⟩ := h
  refine .inl ?_
  rcases VarUse.base_of_storage hstorage with rfl | rfl <;> cases hs : l.storage <;>
    simp only [hs, Except.pure_eq_ok_iff] at hi <;> subst hi <;> rfl

/-- The store of a variable counts from the frame or from the globals. -/
theorem VarUse.fixed_store {v : VarUse} {i : Instr} (h : v.store = .ok i) : i.Fixed := by
  simp only [VarUse.store, Except.bind_eq_ok_iff, Except.pure_eq_ok_iff, Prod.exists] at h
  obtain ⟨l, base, hstorage, rfl⟩ := h
  refine .inl ?_
  rcases VarUse.base_of_storage hstorage with rfl | rfl <;> rfl

/-- The address of an element has two jumps, one to each stub. -/
theorem VarUse.jumps {v : VarUse} (h : v.elementAddress start = .ok is) :
    Jumps start is (VarUse.computations start) := by
  simp only [VarUse.elementAddress, Except.bind_eq_ok_iff, Except.pure_eq_ok_iff] at h
  obtain ⟨load, hload, upper, hupper, lower, hlower, rfl⟩ := h
  have hfixed := VarUse.fixed_load hload
  exact .cons_fixed hfixed (.cons_fixed (.inl rfl) (.cons_fixed (.inl rfl)
    (.cons_relative hupper (.cons_relative hlower
      (.cons_fixed hfixed (.cons_fixed (.inl rfl) (.cons_fixed (.inl rfl) .nil)))))))

/-- Arguments are copied without jumps. -/
theorem fixed_copyArguments (offset : Int) (n : Nat) : ∀ i ∈ copyArguments offset n, i.Fixed := by
  intro i hi
  obtain ⟨m, -, hi⟩ := List.mem_flatMap.mp hi
  simp only [List.mem_cons, List.not_mem_nil, or_false] at hi
  rcases hi with rfl | rfl <;> exact .inl rfl

/-- A call has one computed jump, to the entry of the callee. -/
theorem jumps_callSequence {frame : Int} {target : Nat} {comment : String} {jump : Instr}
    (hjump : Instr.relative .lda .pc (start + 3) target comment = .ok jump) :
    Jumps start (callSequence frame jump) [.jump (start + 3) target] :=
  .cons_fixed (.inl rfl) (.cons_fixed (.inl rfl) (.cons_fixed .link
    (.cons_relative hjump (.cons_fixed (.inl rfl) .nil))))

/-- The jump of a call behind the arguments, which are copied first. -/
theorem Linker.jumps {n target : Nat} {callee : String} {jump : Instr}
    (htarget : k.entry callee (start + 2 * n) = .ok target)
    (hjump : Instr.relative .lda .pc (start + 2 * n + 3) target s!"jump to {callee}" = .ok jump) :
    Jumps start (copyArguments offset n ++ callSequence (offset - n) jump)
      (k.computations offset n (start + 2 * n) callee) := by
  have hcopy : Jumps start (copyArguments offset n) [] := .fixed (fixed_copyArguments offset n)
  refine (hcopy.append (jumps_callSequence hjump) (by rw [length_copyArguments])).congr
    fun address target' => ?_
  simp [Linker.computations, htarget, Except.toOption]

/-- The arguments of a call, if it is so for each of them. -/
theorem Exp.jumps_arguments {args : List Exp}
    (ih : ∀ a ∈ args, ∀ {offset start is}, a.code k offset start = .ok is →
      Jumps start is (a.computations k offset start)) {i : Nat}
    (h : Exp.argumentCode k (offset - i) start args = .ok is) :
    Jumps start is (Exp.argumentComputations k offset i start args) := by
  induction args generalizing i start is with
  | nil =>
    cases h
    exact .nil
  | cons e rest hrest =>
    obtain ⟨js, ks, -, hjs, hks, rfl⟩ := Exp.argumentCode_cons h
    have hlen := Exp.length_code hjs
    rw [hlen, show offset - i - 1 = offset - (i + 1 : Nat) by omega] at hks
    have hothers := hrest (fun a ha => ih a (List.mem_cons_of_mem e ha)) hks
    refine ((ih e List.mem_cons_self hjs).append (hothers.cons_fixed (.inl rfl))
      (by rw [hlen])).congr fun address target => ?_
    simp [Exp.argumentComputations]

/-- The jumps of an expression. -/
theorem Exp.jumps {e : Exp} (h : e.code k offset start = .ok is) :
    Jumps start is (e.computations k offset start) := by
  replace h := Exp.coded h
  induction h with
  | int p n => exact .fixed (List.forall_mem_singleton.mpr (.inl rfl))
  | bool p b => exact .fixed (List.forall_mem_singleton.mpr (.inl rfl))
  | nil p => exact .nil
  | var hload => exact .fixed (List.forall_mem_singleton.mpr (VarUse.fixed_load hload))
  | @unary _ _ _ _ op _ _ _ ih =>
    refine ih.append_fixed ?_
    cases op with
    | neg =>
      simp only [unaryTail, List.forall_mem_cons]
      exact ⟨.inl rfl, .inl rfl, List.forall_mem_nil _⟩
    | not => exact .truthValue _ _
  -- the jump stands between the operands, and is listed behind them
  | shortCircuit hop hl hr hskip ihl ihr =>
    refine (ihl.append (ihr.cons_relative hskip) rfl).congr fun address target => ?_
    simp [Exp.computations, hop, Exp.length_code hl.code_eq, Exp.length_code hr.code_eq, or_comm]
  | operation hop hl _ _ ihl ihr =>
    refine (ihl.append ((ihr.append_fixed ?_).cons_fixed (.inl rfl)) rfl).congr
      fun address target => ?_
    · simp only [List.forall_mem_cons]
      exact ⟨.inl rfl, .inl rfl, List.forall_mem_nil _⟩
    · simp [Exp.computations, hop, Exp.length_code hl.code_eq]
  | comparison hop hl _ _ ihl ihr =>
    refine (ihl.append ((ihr.append_fixed ?_).cons_fixed (.inl rfl)) rfl).congr
      fun address target => ?_
    · simp only [List.forall_mem_cons]
      exact ⟨.inl rfl, .inl rfl, .truthValue _ _⟩
    · simp [Exp.computations, hop, Exp.length_code hl.code_eq]
  | element hi ha ih =>
    rw [Exp.computations, ← Exp.length_code hi.code_eq]
    exact ih.append ((VarUse.jumps ha).append_fixed (List.forall_mem_singleton.mpr (.inl rfl))) rfl
  | assign _ hstore ih =>
    exact ih.append_fixed (List.forall_mem_singleton.mpr (VarUse.fixed_store hstore))
  | assignElement hi ha _ _ ihi ihe =>
    refine (ihi.append ((VarUse.jumps ha).append ((ihe.append_fixed ?_).cons_fixed (.inl rfl)) rfl)
      rfl).congr fun address target => ?_
    · simp only [List.forall_mem_cons]
      exact ⟨.inl rfl, .inl rfl, List.forall_mem_nil _⟩
    · simp [Exp.computations, Exp.length_code hi.code_eq, VarUse.length_elementAddress ha]
  | @call offset _ _ _ _ _ _ _ _ hargs _ _ htarget hjump ih =>
    have hlen := Exp.length_argumentCode (fun _ _ => Exp.length_code) hargs
    rw [← Int.sub_zero offset, ← Int.ofNat_zero] at hargs
    refine ((Exp.jumps_arguments ih hargs).append (Linker.jumps htarget hjump) rfl).congr
      fun address target' => ?_
    simp [Exp.computations, hlen]

variable {f : Enclosing} {S : ScopeTable} {next next' : Int}

/-- The length of an array is stored without jumps. -/
theorem VarDecl.fixed_lengthCode (d : VarDecl) {base : Reg} (hbase : base = .gp ∨ base = .fp) :
    ∀ i ∈ d.lengthCode base, i.Fixed := by
  unfold VarDecl.lengthCode
  split
  · simp only [List.forall_mem_cons]
    rcases hbase with rfl | rfl <;> exact ⟨.inl rfl, .inl rfl, List.forall_mem_nil _⟩
  · exact List.forall_mem_nil _

/-- Statements that follow each other, if it is so for each of them. -/
theorem Stmt.jumpsAll {body : List Stmt}
    (ih : ∀ s ∈ body, ∀ {start is S next next'}, s.Emits f S next k offset start next' is →
      Jumps start is ((s.check f S next).value.computations k offset start))
    (h : Stmt.EmitsAll f S next k offset start body next' is) :
    Jumps start is (Stmt.computationsAll k offset start (Stmt.checkAll f S next body).value) := by
  induction body generalizing next start is with
  | nil =>
    rw [(Stmt.emitsAll_nil h).2]
    exact .nil
  | cons s rest hrest =>
    obtain ⟨next₁, i, j, hi, hj, rfl⟩ := Stmt.emitsAll_cons h
    have hothers := hrest (fun a ha => ih a (List.mem_cons_of_mem s ha)) hj
    simp only [Stmt.checkAll, Stmt.computationsAll, Stmt.size_check, ← hi.length_eq, hi.next_eq]
    exact (ih s List.mem_cons_self hi).append hothers rfl

/-- The jumps of an accepted statement. -/
theorem Stmt.jumps {s : Stmt} (h : s.Emits f S next k offset start next' is) :
    Jumps start is ((s.check f S next).value.computations k offset start) := by
  induction s using Stmt.induction generalizing S next start next' is with
  | exp p e =>
    obtain ⟨-, ty, he⟩ := Stmt.emits_exp h
    exact Exp.jumps he.code_eq
  | block p ds body ih =>
    obtain ⟨S₁, next₁, placed, j, hcheck, hdecls, hbody, rfl⟩ := Stmt.emits_block h
    have hsizes := VarDecl.sizes_checkAll .var frameLevel S.enter next ds
    rw [hcheck] at hsizes
    -- the lengths of the arrays come first, and have no jumps
    have hlengths : Jumps start (placed.flatMap (VarDecl.lengthCode · .fp)) [] :=
      .fixed fun i hi => by
        obtain ⟨d, -, hi⟩ := List.mem_flatMap.mp hi
        exact d.fixed_lengthCode (.inr rfl) i hi
    have hstmts := Stmt.jumpsAll ih hbody
    rw [hdecls.length_eq] at hstmts
    simp only [Stmt.check, hcheck, Stmt.computations, hsizes]
    exact hlengths.append hstmts (by rw [hdecls.length_eq])
  | ifThen p t a ih =>
    obtain ⟨ty, i, j, skip, -, hi, hj, hskip, rfl⟩ := Stmt.emits_ifThen h
    simp only [Stmt.check, Stmt.computations, Exp.size_check, Stmt.size_check, ← hi.length_eq,
      ← hj.length_eq]
    refine ((Exp.jumps hi.code_eq).append ((ih hj).cons_relative hskip) rfl).congr
      fun address target => ?_
    simp [or_comm]
  | ifElse p t a b iha ihb =>
    obtain ⟨ty, next₁, i, j, l, toElse, toEnd, -, hi, hj, hl, helse, hend, rfl⟩ :=
      Stmt.emits_ifElse h
    simp only [Stmt.check, Stmt.computations, Exp.size_check, Stmt.size_check, ← hi.length_eq,
      ← hj.length_eq, ← hl.length_eq, hj.next_eq]
    have hbranches := (iha hj).append ((ihb hl).cons_relative hend) rfl
    refine ((Exp.jumps hi.code_eq).append (hbranches.cons_relative helse) rfl).congr
      fun address target => ?_
    simp [or_comm, or_left_comm]
  -- the jump back is made behind the body, but listed before the jump out of the loop
  | whileDo p t b ih =>
    obtain ⟨ty, i, j, skip, back, -, hi, hj, hback, hskip, rfl⟩ := Stmt.emits_whileDo h
    simp only [Stmt.check, Stmt.computations, Exp.size_check, Stmt.size_check, ← hi.length_eq,
      ← hj.length_eq]
    have hbody := (ih hj).append (Jumps.relative hback) rfl
    refine ((Exp.jumps hi.code_eq).append (hbody.cons_relative hskip) rfl).congr
      fun address target => ?_
    simp [or_assoc, or_comm, or_left_comm]
  | ret p v =>
    cases v with
    | none =>
      rw [(Stmt.emits_ret_none h).2]
      exact .fixed (List.forall_mem_singleton.mpr (.inl rfl))
    | some e =>
      obtain ⟨-, ty, i, -, hi, rfl⟩ := Stmt.emits_ret_some h
      exact (Exp.jumps hi.code_eq).append_fixed (List.forall_mem_singleton.mpr (.inl rfl))

end Phrases

end MiniC
