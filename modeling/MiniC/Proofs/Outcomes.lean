import MiniC.Proofs.Layout

/-!
# What code generation answers

Code generation has two faults to report about an accepted program: there is no `main` with a body,
or a function is called that has none. Everything else that it checks is in order from the start.
Variables have storage, offsets and displacements fit their fields, and each slot that is kept free
is filled. The first layout leaves calls alone, so a missing `main` is noticed before a missing
callee; the second one stops at the first callee without an address, in the order of the jumps.

* `Meets`: an answer is the first of some missing names, or no fault at all
* `Exp.meets`, `Stmt.meets`: the code of accepted phrases
* `Assembly.meets_program`: a layout of an accepted program
* `generate_outcome`: both layouts
-/

namespace MiniC

/-! ### Callees

The functions that a phrase calls, in the order in which the generator meets the calls. It is the
order of their places in the code, as listed by `Exp.calls` and `Stmt.calls`. -/

mutual

/-- The functions that an expression calls, in the order of their jumps: arguments are evaluated
before the call that they belong to. -/
def Exp.callees : Exp → List String
  | .int _ _ | .bool _ _ | .nil _ | .var _ _ => []
  | .unary _ _ _ e => e.callees
  | .binary _ _ _ l r => l.callees ++ r.callees
  | .element _ _ i => i.callees
  | .assign _ _ _ e => e.callees
  | .assignElement _ _ _ i e => i.callees ++ e.callees
  | .call _ _ f args => Exp.calleesAll args ++ [f]

/-- The functions that expressions call. -/
def Exp.calleesAll : List Exp → List String
  | [] => []
  | e :: rest => e.callees ++ Exp.calleesAll rest

end

mutual

/-- The functions that a statement calls. -/
def Stmt.callees : Stmt → List String
  | .exp _ e => e.callees
  | .block _ _ body => Stmt.calleesAll body
  | .ifThen _ t a => t.callees ++ a.callees
  | .ifElse _ t a b => t.callees ++ (a.callees ++ b.callees)
  | .whileDo _ t b => t.callees ++ b.callees
  | .ret _ none => []
  | .ret _ (some e) => e.callees

/-- The functions that statements call. -/
def Stmt.calleesAll : List Stmt → List String
  | [] => []
  | s :: rest => s.callees ++ Stmt.calleesAll rest

end

/-- The calls in arguments, if the calls in each of them are its callees. Induction on the list. -/
theorem Exp.map_callee_arguments {args : List Exp}
    (ih : ∀ a ∈ args, ∀ start, (a.calls start).map CallSite.callee = a.callees) (start : Nat) :
    ((Exp.argumentParts start args).filterMap Part.call?).map CallSite.callee =
      Exp.calleesAll args := by
  induction args generalizing start with
  | nil => rfl
  | cons e rest hrest =>
    have hfirst := ih e List.mem_cons_self start
    rw [Exp.argumentParts, List.filterMap_append, List.map_append, Exp.calleesAll, ← hfirst,
      hrest fun a ha => ih a (List.mem_cons_of_mem e ha)]
    rfl

/-- The order is that of the places of the calls in the code. Induction on the structure; of the
expression itself only a call is one. -/
theorem Exp.map_callee_calls (e : Exp) (start : Nat) :
    (e.calls start).map CallSite.callee = e.callees := by
  unfold Exp.calls
  induction e using Exp.induction generalizing start with
  | int | bool | nil | var => rfl
  | unary p t op e ih => simp [Exp.parts, Exp.callees, ih, Part.call?]
  | binary p t op l r ihl ihr => simp [Exp.parts, Exp.callees, ihl, ihr, Part.call?]
  | element t v i ih => simp [Exp.parts, Exp.callees, ih, Part.call?]
  | assign p t v e ih => simp [Exp.parts, Exp.callees, ih, Part.call?]
  | assignElement p t v i e ihi ihe => simp [Exp.parts, Exp.callees, ihi, ihe, Part.call?]
  | call p t f args ih =>
    simp [Exp.parts, Exp.callees, Exp.map_callee_arguments ih, Part.call?]

/-- The calls in statements, if the calls in each of them are its callees. Induction on the list. -/
theorem Stmt.map_callee_all {body : List Stmt}
    (ih : ∀ s ∈ body, ∀ start, (s.calls start).map CallSite.callee = s.callees) (start : Nat) :
    ((Stmt.partsAll start body).filterMap Part.call?).map CallSite.callee =
      Stmt.calleesAll body := by
  induction body generalizing start with
  | nil => rfl
  | cons s rest hrest =>
    have hfirst := ih s List.mem_cons_self start
    rw [Stmt.partsAll, List.filterMap_append, List.map_append, Stmt.calleesAll, ← hfirst,
      hrest fun a ha => ih a (List.mem_cons_of_mem s ha)]
    rfl

/-- The calls in a statement, wherever its code starts. Induction on its structure. -/
theorem Stmt.map_callee_calls (s : Stmt) (start : Nat) :
    (s.calls start).map CallSite.callee = s.callees := by
  have hexp := fun (e : Exp) start => e.map_callee_calls start
  unfold Stmt.calls
  unfold Exp.calls at hexp
  induction s using Stmt.induction generalizing start with
  | exp p e => exact hexp e start
  | block p ds body ih => exact Stmt.map_callee_all ih _
  | ifThen p t a ih => simp [Stmt.parts, Stmt.callees, hexp, ih]
  | ifElse p t a b iha ihb => simp [Stmt.parts, Stmt.callees, hexp, iha, ihb]
  | whileDo p t b ih => simp [Stmt.parts, Stmt.callees, hexp, ih]
  | ret p v =>
    cases v with
    | none => rfl
    | some e => exact hexp e start

/-- The functions that a declaration calls, which is one with a body. -/
def Decl.callees : Decl → List String
  | .var _ => []
  | .function f => (f.body.map fun b => b.toStmt.callees).getD []

/-! ### Answers

Faults are compared with a list of names, so that the answer for a sequence is read off the lists of
its parts: the first name in the first list that is not empty. -/

section Meets

variable {α β : Type} {us vs : List String}

/-- The answer is the fault that the first of the names has no address. If there are no names, there
is no fault. -/
def Meets (missing : List String) (x : Except CodeFault α) : Prop :=
  match missing with
  | [] => ∃ a, x = .ok a
  | f :: _ => x = .error (.neverDefined f)

/-- An answer has no fault. -/
theorem Meets.ok (a : α) : Meets [] (.ok a) :=
  ⟨a, rfl⟩

/-- In a sequence the first fault of either part counts. -/
theorem Meets.bind {x : Except CodeFault α} {f : α → Except CodeFault β} (hx : Meets us x)
    (hf : ∀ a, x = .ok a → Meets vs (f a)) : Meets (us ++ vs) (x >>= f) := by
  cases us with
  | nil =>
    obtain ⟨a, rfl⟩ := hx
    exact hf a rfl
  | cons u us =>
    obtain rfl := hx
    rfl

/-- What follows has no fault. -/
theorem Meets.last {x : Except CodeFault α} {f : α → Except CodeFault β} (hx : Meets us x)
    (hf : ∀ a, x = .ok a → Meets [] (f a)) : Meets us (x >>= f) := by
  rw [← List.append_nil us]
  exact hx.bind hf

/-- What goes before has no fault. -/
theorem Meets.after {x : Except CodeFault α} {f : α → Except CodeFault β} {a : α} (hx : x = .ok a)
    (hf : Meets us (f a)) : Meets us (x >>= f) := by
  rw [hx]
  exact hf

end Meets

/-! ### Numbers that fit

Offsets and addresses are far from the limits of 32 bits if a phrase has room for its code: an
instruction uses at most one temporary cell. -/

/-- A number of 32 bits fits. -/
theorem fit32_of_le {n : Int} (hlow : -2 ^ 31 ≤ n) (hhigh : n < 2 ^ 31) : fit32 n = .ok n := by
  unfold fit32 minInt32 maxInt32
  rw [if_pos ⟨by omega, by omega⟩]

/-- There is room for more temporary cells. -/
theorem lowered_of_le {offset : Int} {n : Nat} (hlow : -2 ^ 31 ≤ offset - n) (hhigh : offset ≤ 0) :
    lowered offset n = .ok (offset - n) :=
  fit32_of_le hlow (by omega)

/-- Between addresses in range there is a displacement. -/
theorem exists_displacement {address target : Nat} (ha : address + 1 < 2 ^ 31)
    (ht : target < 2 ^ 31) : ∃ d, displacement address target = .ok d := by
  unfold displacement
  rw [low32_eq (Nat.lt_of_succ_lt ha), low32_eq ht, fit32_of_le (by omega) (by omega)]
  exact ⟨_, fit32_of_le (by omega) (by omega)⟩

/-- A relative instruction between addresses in range goes well. -/
theorem Meets.relative {α : Type} {us : List String} {op : Opcode} {r : Reg} {address target : Nat}
    {comment : String} {f : Instr → Except CodeFault α} (ha : address + 1 < 2 ^ 31)
    (ht : target < 2 ^ 31) (hf : ∀ i, Meets us (f i)) :
    Meets us (Instr.relative op r address target comment >>= f) := by
  obtain ⟨d, hd⟩ := exists_displacement ha ht
  exact .after (Except.bind_eq_ok_iff.mpr ⟨d, hd, rfl⟩) (hf _)

/-- Temporary cells below an offset, and code behind an address, have room for this many
instructions. -/
structure CodeRoom (offset : Int) (start size : Nat) : Prop where
  high : offset ≤ 0
  low : -2 ^ 31 ≤ offset - size
  short : start + size < 2 ^ 31

/-! ### Phrases

Induction over the tree: every step but the look-up of a callee goes well. -/

namespace Linker

/-- Calls of the function are at fault. -/
def misses (k : Linker) (f : String) : Bool :=
  k.strict && (k.entries.lookup f).isNone

/-- The known addresses are in range. -/
def Short (k : Linker) : Prop :=
  ∀ x ∈ k.entries, x.2 < 2 ^ 31

/-- A call of a missing function is a fault. -/
theorem entry_of_misses {k : Linker} {f : String} {here : Nat} (h : k.misses f = true) :
    k.entry f here = .error (.neverDefined f) := by
  obtain ⟨hstrict, hnone⟩ := Bool.and_eq_true_iff.mp h
  rw [entry, Option.isNone_iff_eq_none.mp hnone]
  exact if_pos hstrict

/-- Any other call has a target: the known address, or the call itself in a layout that does not
look. -/
theorem exists_entry {k : Linker} (hk : k.Short) {f : String} (here : Nat) (hhere : here < 2 ^ 31)
    (h : k.misses f = false) : ∃ target, k.entry f here = .ok target ∧ target < 2 ^ 31 := by
  unfold entry
  cases hl : k.entries.lookup f with
  | some target => exact ⟨target, rfl, hk _ (mem_of_lookup hl)⟩
  | none =>
    have hstrict : k.strict = false := by simpa [misses, hl] using h
    exact ⟨here, if_neg (by simp [hstrict]), hhere⟩

end Linker

section Phrases

variable {k : Linker}

/-- An accepted variable has storage. -/
theorem VarUse.exists_layout_check {S : ScopeTable} {v : VarUse} (h : (v.check S).errors = []) :
    ∃ l, (v.check S).var.layout = some l := by
  unfold VarUse.check at h ⊢
  split at h
  · exact ⟨_, rfl⟩
  · cases h
  · cases h

/-- An accepted array has storage. -/
theorem VarUse.exists_layout_checkIndexed {S : ScopeTable} {v : VarUse} {index : Ty}
    (h : (v.checkIndexed S index).errors = []) :
    ∃ l, (v.checkIndexed S index).var.layout = some l := by
  unfold VarUse.checkIndexed at h ⊢
  split at h
  · exact ⟨_, rfl⟩
  · cases h
  · cases h

/-- The address of an element of a variable with storage goes well. -/
theorem VarUse.meets_elementAddress {v : VarUse} {l : Layout} {start : Nat}
    (h : v.layout = some l) (hstart : start + 8 < 2 ^ 31) : Meets [] (v.elementAddress start) := by
  obtain ⟨t, ht⟩ := v.load_of_layout h .ac1
  exact .after ht (.relative (by omega) (by decide) fun _ =>
    .relative (by omega) (by decide) fun _ => .ok _)

/-- Analysed expressions have code of the same length. -/
theorem Exp.length_code_check {S : ScopeTable} {offset : Int} {start : Nat} {e : Exp}
    {is : List Instr} (h : (e.check S).exp.code k offset start = .ok is) : is.length = e.size := by
  rw [Exp.length_code h, Exp.size_check]

/-- The code of accepted arguments, if it is so for each of them. Induction on the list. -/
theorem Exp.meets_arguments {S : ScopeTable} {args : List Exp}
    (ih : ∀ a ∈ args, (a.check S).errors = [] → ∀ {offset start}, CodeRoom offset start a.size →
      Meets (a.callees.filter k.misses) ((a.check S).exp.code k offset start))
    (hok : (Exp.checkAll S args).flatMap TypedExp.errors = []) {offset : Int} {start : Nat}
    (hroom : CodeRoom offset start (Exp.argumentSize args)) :
    Meets ((Exp.calleesAll args).filter k.misses)
      (Exp.argumentCode k offset start ((Exp.checkAll S args).map TypedExp.exp)) := by
  induction args generalizing offset start with
  | nil => exact .ok _
  | cons e rest hrest =>
    obtain ⟨hhigh, hlow, hshort⟩ := hroom
    simp only [Exp.checkAll, List.flatMap_cons, List.append_eq_nil_iff] at hok
    simp only [Exp.argumentSize] at hlow hshort
    simp only [Exp.checkAll, List.map_cons, Exp.argumentCode, Exp.calleesAll, List.filter_append]
    refine .after (lowered_of_le (by omega) hhigh) ?_
    refine (ih e List.mem_cons_self hok.1 ⟨by omega, by omega, by omega⟩).bind fun i hi => ?_
    have hlen := Exp.length_code_check hi
    refine Meets.last (hrest (fun a ha => ih a (List.mem_cons_of_mem e ha)) hok.2
      ⟨by omega, by omega, by omega⟩) fun j _ => .ok _

/-- The code of an accepted expression. -/
theorem Exp.meets (hk : k.Short) {S : ScopeTable} {e : Exp} (hok : (e.check S).errors = [])
    {offset : Int} {start : Nat} (hroom : CodeRoom offset start e.size) :
    Meets (e.callees.filter k.misses) ((e.check S).exp.code k offset start) := by
  induction e using Exp.induction generalizing offset start with
  | int p n => exact .ok _
  | bool p b => exact .ok _
  | nil p => exact .ok _
  | unary p t op e ih =>
    simp only [Exp.check, List.append_eq_nil_iff] at hok
    obtain ⟨hhigh, hlow, hshort⟩ := hroom
    have hsize : e.size ≤ (Exp.unary p t op e).size := by cases op <;> simp [Exp.size]
    refine Meets.last (ih hok.1 ⟨hhigh, by omega, by omega⟩) fun i _ => ?_
    cases op <;> exact .ok _
  | binary p t op l r ihl ihr =>
    obtain ⟨hl, hr, -⟩ := Exp.check_binary hok
    obtain ⟨hhigh, hlow, hshort⟩ := hroom
    simp only [Exp.check, Exp.code, Exp.callees, List.filter_append]
    -- every combination has room for both operands and the instruction between them
    have hsize : l.size + r.size + 1 ≤ (Exp.binary p t op l r).size := by
      simp only [Exp.size]
      split <;> omega
    refine (ihl hl ⟨hhigh, by omega, by omega⟩).bind fun i hi => ?_
    have hlen := Exp.length_code_check hi
    cases hop : op.combination with
    | shortCircuit jump comment =>
      refine Meets.last (ihr hr ⟨hhigh, by omega, by omega⟩) fun j hj => ?_
      have hlen' := Exp.length_code_check hj
      exact .relative (by omega) (by omega) fun _ => .ok _
    | operation operation =>
      refine .after (lowered_of_le (by omega) hhigh) ?_
      exact Meets.last (ihr hr ⟨by omega, by omega, by omega⟩) fun j _ => .ok _
    | comparison jump =>
      refine .after (lowered_of_le (by omega) hhigh) ?_
      exact Meets.last (ihr hr ⟨by omega, by omega, by omega⟩) fun j _ => .ok _
  | var t v =>
    obtain ⟨l, hl⟩ := VarUse.exists_layout_check hok
    obtain ⟨i, hi⟩ := VarUse.load_of_layout hl .ac
    exact .after hi (.ok _)
  | element t v i ih =>
    simp only [Exp.check, List.append_eq_nil_iff] at hok
    obtain ⟨hhigh, hlow, hshort⟩ := hroom
    simp only [Exp.size] at hlow hshort
    obtain ⟨l, hl⟩ := VarUse.exists_layout_checkIndexed hok.2
    refine Meets.last (ih hok.1 ⟨hhigh, by omega, by omega⟩) fun i' hi => ?_
    have hlen := Exp.length_code_check hi
    exact (VarUse.meets_elementAddress hl (by omega)).bind fun a _ => .ok _
  | assign p t v e ih =>
    simp only [Exp.check, List.append_eq_nil_iff] at hok
    obtain ⟨hhigh, hlow, hshort⟩ := hroom
    simp only [Exp.size] at hlow hshort
    obtain ⟨l, hl⟩ := VarUse.exists_layout_check hok.1.1
    obtain ⟨t, ht⟩ := VarUse.store_of_layout hl
    exact Meets.last (ih hok.1.2 ⟨hhigh, by omega, by omega⟩) fun i _ => .after ht (.ok _)
  | assignElement p t v i e ihi ihe =>
    simp only [Exp.check, List.append_eq_nil_iff] at hok
    obtain ⟨⟨⟨hi, hv⟩, he⟩, -⟩ := hok
    obtain ⟨hhigh, hlow, hshort⟩ := hroom
    simp only [Exp.size] at hlow hshort
    obtain ⟨l, hl⟩ := VarUse.exists_layout_checkIndexed hv
    simp only [Exp.check, Exp.code, Exp.callees, List.filter_append]
    refine (ihi hi ⟨hhigh, by omega, by omega⟩).bind fun i' hi' => ?_
    have hlen := Exp.length_code_check hi'
    refine Meets.bind (VarUse.meets_elementAddress hl (by omega)) fun a ha => ?_
    have hlen' := VarUse.length_elementAddress ha
    refine .after (lowered_of_le (by omega) hhigh) ?_
    exact Meets.last (ihe he ⟨by omega, by omega, by omega⟩) fun j _ => .ok _
  | call p t f args ih =>
    simp only [Exp.check, List.append_eq_nil_iff] at hok
    obtain ⟨hhigh, hlow, hshort⟩ := hroom
    simp only [Exp.size] at hlow hshort
    simp only [Exp.check, Exp.code, Exp.callees, List.filter_append, List.length_map,
      Exp.length_checkAll]
    refine (Exp.meets_arguments ih hok.1 ⟨hhigh, by omega, by omega⟩).bind fun a ha => ?_
    have hlen := Exp.length_argumentCode (fun _ _ => Exp.length_code) ha
    rw [Exp.argumentSize_check fun a _ => Exp.size_check S a] at hlen
    refine .after (lowered_of_le (by omega) hhigh) ?_
    -- looking up the callee is the only step that can be at fault
    cases hf : k.misses f with
    | true =>
      rw [List.filter_cons_of_pos hf, Linker.entry_of_misses hf]
      rfl
    | false =>
      obtain ⟨target, htarget, hlt⟩ := Linker.exists_entry hk
        (start + a.length + 2 * args.length) (by omega) hf
      rw [List.filter_cons_of_neg (by simp [hf])]
      exact .after htarget (.relative (by omega) hlt fun _ => .ok _)

/-- The code of accepted statements, if it is so for each of them. Induction on the list. -/
theorem Stmt.meetsAll {f : Enclosing} {S : ScopeTable} {body : List Stmt} {offset : Int}
    (ih : ∀ s ∈ body, ∀ {next}, (s.check f S next).errors = [] → ∀ {start},
      CodeRoom offset start s.size →
        Meets (s.callees.filter k.misses) ((s.check f S next).value.code k offset start))
    {next : Int} (hok : (Stmt.checkAll f S next body).errors = []) {start : Nat}
    (hroom : CodeRoom offset start (Stmt.sizeAll body)) :
    Meets ((Stmt.calleesAll body).filter k.misses)
      (Stmt.codeAll k offset start (Stmt.checkAll f S next body).value) := by
  induction body generalizing next start with
  | nil => exact .ok _
  | cons s rest hrest =>
    obtain ⟨hhigh, hlow, hshort⟩ := hroom
    simp only [Stmt.checkAll, List.append_eq_nil_iff] at hok
    simp only [Stmt.sizeAll] at hlow hshort
    simp only [Stmt.checkAll, Stmt.codeAll, Stmt.calleesAll, List.filter_append]
    refine (ih s List.mem_cons_self hok.1 ⟨hhigh, by omega, by omega⟩).bind fun i hi => ?_
    have hlen := Stmt.Emits.length_eq ⟨hok.1, rfl, hi⟩
    exact Meets.last (hrest (fun a ha => ih a (List.mem_cons_of_mem s ha)) hok.2
      ⟨hhigh, by omega, by omega⟩) fun j _ => .ok _

/-- The code of an accepted statement. -/
theorem Stmt.meets (hk : k.Short) {f : Enclosing} {S : ScopeTable} {next : Int} {s : Stmt}
    (hok : (s.check f S next).errors = []) {offset : Int} {start : Nat}
    (hroom : CodeRoom offset start s.size) :
    Meets (s.callees.filter k.misses) ((s.check f S next).value.code k offset start) := by
  induction s using Stmt.induction generalizing S next start with
  | exp p e => exact Exp.meets hk hok hroom
  | block p ds body ih =>
    simp only [Stmt.check, List.append_eq_nil_iff] at hok
    have hlen := (declares_of_checkAll hok.1).length_eq .fp
    obtain ⟨hhigh, hlow, hshort⟩ := hroom
    simp only [Stmt.size] at hlow hshort
    refine Meets.last (Stmt.meetsAll (fun s hs _ hok _ => ih s hs hok) hok.2
      ⟨hhigh, by omega, by omega⟩) fun j _ => .ok _
  | ifThen p t a ih =>
    simp only [Stmt.check, List.append_eq_nil_iff] at hok
    obtain ⟨hhigh, hlow, hshort⟩ := hroom
    simp only [Stmt.size] at hlow hshort
    simp only [Stmt.check, Stmt.code, Stmt.callees, List.filter_append]
    refine (Exp.meets hk hok.1.1 ⟨hhigh, by omega, by omega⟩).bind fun i hi => ?_
    have hlen := Exp.length_code_check hi
    refine Meets.last (ih hok.2 ⟨hhigh, by omega, by omega⟩) fun j hj => ?_
    have hlen' := Stmt.Emits.length_eq ⟨hok.2, rfl, hj⟩
    exact .relative (by omega) (by omega) fun _ => .ok _
  -- both jumps are as long as the code they skip, which is no longer than was counted
  | ifElse p t a b iha ihb =>
    simp only [Stmt.check, List.append_eq_nil_iff] at hok
    obtain ⟨⟨⟨ht, -⟩, ha⟩, hb⟩ := hok
    obtain ⟨hhigh, hlow, hshort⟩ := hroom
    simp only [Stmt.size] at hlow hshort
    simp only [Stmt.check, Stmt.code, Stmt.callees, List.filter_append]
    refine (Exp.meets hk ht ⟨hhigh, by omega, by omega⟩).bind fun i hi => ?_
    have hlen := Exp.length_code_check hi
    refine (iha ha ⟨hhigh, by omega, by omega⟩).bind fun j hj => ?_
    have hlen' := Stmt.Emits.length_eq ⟨ha, rfl, hj⟩
    refine .relative (by omega) (by omega) fun _ =>
      Meets.last (ihb hb ⟨hhigh, by omega, by omega⟩) fun l hl => ?_
    have hlen'' := Stmt.Emits.length_eq ⟨hb, rfl, hl⟩
    exact .relative (by omega) (by omega) fun _ => .ok _
  | whileDo p t b ih =>
    simp only [Stmt.check, List.append_eq_nil_iff] at hok
    obtain ⟨hhigh, hlow, hshort⟩ := hroom
    simp only [Stmt.size] at hlow hshort
    simp only [Stmt.check, Stmt.code, Stmt.callees, List.filter_append]
    refine (Exp.meets hk hok.1.1 ⟨hhigh, by omega, by omega⟩).bind fun i hi => ?_
    have hlen := Exp.length_code_check hi
    refine Meets.last (ih hok.2 ⟨hhigh, by omega, by omega⟩) fun j hj => ?_
    have hlen' := Stmt.Emits.length_eq ⟨hok.2, rfl, hj⟩
    exact .relative (by omega) (by omega) fun _ => .relative (by omega) (by omega) fun _ => .ok _
  | ret p v =>
    cases v with
    | none => exact .ok _
    | some e =>
      simp only [Stmt.check, List.append_eq_nil_iff] at hok
      obtain ⟨hhigh, hlow, hshort⟩ := hroom
      simp only [Stmt.size] at hlow hshort
      exact Meets.last (Exp.meets hk hok.1 ⟨hhigh, by omega, by omega⟩) fun i _ => .ok _

end Phrases

/-! ### Layouts

A layout is a sequence of declarations behind the fixed code. While a function is laid out its own
address is known, and afterwards that of every function with a body before it. -/

namespace Assembly

/-- The fixed code goes well. -/
theorem exists_start (known : Entries) : ∃ a, Assembly.start known = .ok a := by
  obtain ⟨d, hd⟩ : ∃ d, displacement startupCode.length
      (startupCode.length + 1 + MiniC.routines.length) = .ok d :=
    exists_displacement (by decide) (by decide)
  rw [start_eq, Instr.relative, hd]
  exact ⟨_, rfl⟩

variable {linked : Bool} {missing : String → Bool} {S : ScopeTable} {next : Int} {a : Assembly}
  {l : List Instr}

/-- One more address in range. -/
theorem short_cons {entries : Entries} {name : String} {address : Nat}
    (h : Linker.Short ⟨entries, linked⟩) (ha : address < 2 ^ 31) :
    Linker.Short ⟨(name, address) :: entries, linked⟩ :=
  List.forall_mem_cons.mpr ⟨ha, h⟩

/-- A function is not missing in its own body. -/
theorem misses_cons {entries : Entries} {name : String} {address : Nat}
    (h : ∀ x, Linker.misses ⟨entries, linked⟩ x = missing x) (hself : missing name = false) :
    Linker.misses ⟨(name, address) :: entries, linked⟩ = missing := by
  funext x
  rw [← h x]
  unfold Linker.misses
  by_cases hx : x = name
  · subst hx
    rw [← h x, Linker.misses] at hself
    simp [hself]
  · rw [List.lookup_cons, beq_eq_false_iff_ne.mpr hx]

/-- A function with a body. While the function is laid out its own address is known already. -/
theorem meets_function {f : FunDecl} {body : Block} (hbody : f.body = some body)
    (hok : (f.check S next).errors = []) (hfull : a.buffer.Full l)
    (hentries : Linker.Short ⟨a.entries, linked⟩)
    (hmissing : ∀ x, Linker.misses ⟨a.entries, linked⟩ x = missing x)
    (hself : missing f.name = false) (hsize : (Decl.function f).size ≤ 2 ^ 30)
    (hlen : l.length + (Decl.function f).size < 2 ^ 31) :
    Meets ((Decl.function f).callees.filter missing)
      (declaration linked a (.function (f.check S next).value)) := by
  obtain ⟨large, hstacked, -⟩ := f.stacks_check S next
  obtain ⟨hlow, hhigh⟩ := hstacked.bounds (by decide)
  have hmin : minOffset = -2 ^ 30 := rfl
  have hfirst : firstFrameOffset = -2 := rfl
  have hsizes : (Decl.function f).size = body.toStmt.size + 3 := by
    simp only [Decl.size, hbody, Block.toStmt, Stmt.size]
  have hcallees : (Decl.function f).callees = body.toStmt.callees := by
    simp only [Decl.callees, hbody, Option.map_some, Option.getD_some]
  -- storage stays above its limit, which leaves room for the temporary cells of the body
  have hroom : CodeRoom (f.check S next).value.frameEnd (l.length + 1 + 1) body.toStmt.size :=
    ⟨by omega, by omega, by omega⟩
  have hk : Linker.Short ⟨(f.name, l.length + 1) :: a.entries, linked⟩ :=
    short_cons hentries (by omega)
  have hmisses : Linker.misses ⟨(f.name, l.length + 1) :: a.entries, linked⟩ = missing :=
    misses_cons hmissing hself
  simp only [FunDecl.check, hbody, List.append_eq_nil_iff] at hok hroom ⊢
  obtain ⟨⟨-, hblock⟩, -⟩ := hok
  rw [Block.errors_check] at hblock
  have hcode := Stmt.meets hk hblock hroom
  rw [hmisses] at hcode
  rw [hcallees]
  rw [declaration_eq hfull.atEnd rfl]
  simp only [hfull.cursor_eq]
  refine Meets.last (Meets.last hcode fun b hb => .ok _) fun is his => ?_
  obtain ⟨b, hb, heq⟩ := Except.bind_eq_ok_iff.mp his
  cases heq
  have hlength := Stmt.Emits.length_eq ⟨hblock, rfl, hb⟩
  refine .relative (by omega) ?_ fun _ => .ok _
  simp only [List.cons_append, List.length_cons, List.length_append, List.length_nil]
  omega

/-- A layout stops at the first call of a function that is missing. -/
theorem meets_declarations {ds : List Decl} (hok : (Decl.checkAll S next ds).errors = [])
    (hfull : a.buffer.Full l) (hentries : Linker.Short ⟨a.entries, linked⟩)
    (hmissing : ∀ x, Linker.misses ⟨a.entries, linked⟩ x = missing x)
    (hdefined : ∀ name ∈ ds.filterMap Decl.defined?, missing name = false)
    (hsize : Decl.sizes ds ≤ 2 ^ 30) (hlen : l.length + Decl.sizes ds < 2 ^ 31) :
    Meets ((ds.flatMap Decl.callees).filter missing)
      (declarations linked a (Decl.checkAll S next ds).value) := by
  induction ds generalizing S next a l with
  | nil => exact .ok _
  | cons d rest ih =>
    simp only [Decl.checkAll, List.append_eq_nil_iff] at hok ⊢
    simp only [Decl.sizes, List.map_cons, List.sum_cons] at hsize hlen ih
    rw [List.flatMap_cons, List.filter_append]
    cases d with
    | var d =>
      obtain ⟨hacc, -, hvalue⟩ := VarDecl.accepted_of_check hok.1
      have hlength : (VarDecl.lengthCode (d.check .var globalLevel S next).value .gp).length =
          d.shape.size := by
        rw [hvalue, VarDecl.length_lengthCode hacc]
      refine Meets.after rfl (Meets.last (ih hok.2 (hfull.emitAll _) hentries hmissing hdefined
        (by omega) ?_) fun _ _ => .ok _)
      rw [List.length_append, hlength]
      simp only [Decl.size] at hlen
      omega
    | function f =>
      cases hbody : f.body with
      | none =>
        -- a prototype has no code and calls nothing
        have hcallees : (Decl.function f).callees = [] := by simp [Decl.callees, hbody]
        have hplaced : declaration linked a (.function (f.check S next).value) =
            .ok (.function (f.check S next).value, a) := by
          simp [declaration, FunDecl.check, hbody, pure, Except.pure]
        have hnames : (Decl.function f :: rest).filterMap Decl.defined? =
            rest.filterMap Decl.defined? := by
          simp [Decl.defined?, hbody]
        rw [hnames] at hdefined
        rw [hcallees]
        exact Meets.after hplaced (Meets.last (ih hok.2 hfull hentries hmissing hdefined
          (by omega) (by omega)) fun _ _ => .ok _)
      | some body =>
        have hnames : (Decl.function f :: rest).filterMap Decl.defined? =
            f.name :: rest.filterMap Decl.defined? := by
          simp [Decl.defined?, hbody]
        rw [hnames] at hdefined
        -- behind a definition its name is no longer missing, and it was not meant to be
        obtain ⟨hself, hdefined⟩ := List.forall_mem_cons.mp hdefined
        refine (meets_function hbody hok.1 hfull hentries hmissing hself (by omega)
          (by omega)).bind fun x hx => ?_
        obtain ⟨d', a'⟩ := x
        obtain ⟨S₁, code, jump, hdef, -, hfull', hentries'⟩ :=
          laid_definition hbody hok.1 hx hfull
            (fun _ hx => List.mem_cons_of_mem (f.name, l.length + 1) hx) List.mem_cons_self
        have hlength := hdef.length_framed
        refine Meets.last (ih hok.2 hfull' ?_ ?_ hdefined (by omega) ?_) fun _ _ => .ok _
        · rw [hentries']
          exact short_cons hentries (by omega)
        · rw [hentries']
          intro y
          rw [misses_cons hmissing hself]
        · rw [List.length_append, List.length_cons]
          omega

/-- The call of `main` goes well if it has an address. -/
theorem meets_finale {globalsEnd : Int} {main : Nat} (hfull : a.buffer.Full l)
    (hmain : a.entries.lookup "main" = some main) (hlt : main < 2 ^ 31)
    (hlen : l.length + 4 < 2 ^ 31) (hlow : minOffset ≤ globalsEnd) (hhigh : globalsEnd ≤ 0) :
    Meets [] (a.finale globalsEnd) := by
  have hmin : minOffset = -2 ^ 30 := rfl
  have hcursor := hfull.cursor_eq
  unfold finale
  rw [hmain]
  exact .after (lowered_of_le (by omega) hhigh) (.relative (by omega) hlt fun _ => .ok _)

end Assembly

/-! ### Declared functions

A callee is declared, by the typing rules, so if it is not a routine it is declared by prototypes
alone or it has a body. This is what `Program.leftOpen` tells apart. -/

section Callees

variable {Γ : TypeContext} {x : String}

/-- The names of variables hide functions and add none. -/
theorem TypeContext.find_function {ds : List VarDecl} {r : BaseType} {params : List Ty}
    (h : TypeContext.find (ds.map VarDecl.binding :: Γ) x = some (.function r params)) :
    Γ.find x = some (.function r params) := by
  rw [TypeContext.find_cons, Option.or_eq_some_iff] at h
  rcases h with h | ⟨-, h⟩
  · obtain ⟨before, after, hsplit, -⟩ := List.lookup_eq_some_iff.mp h
    have hmem : (x, Entity.function r params) ∈ ds.map VarDecl.binding := by
      rw [hsplit]
      simp
    obtain ⟨d, -, heq⟩ := List.mem_map.mp hmem
    cases heq
  · exact h

/-- What is called in arguments is called in one of them. -/
theorem Exp.mem_calleesAll {args : List Exp} (hx : x ∈ Exp.calleesAll args) :
    ∃ a ∈ args, x ∈ a.callees := by
  induction args with
  | nil => cases hx
  | cons e rest ih =>
    rcases List.mem_append.mp hx with hx | hx
    · exact ⟨e, List.mem_cons_self, hx⟩
    · obtain ⟨a, ha, hx⟩ := ih hx
      exact ⟨a, List.mem_cons_of_mem e ha, hx⟩

/-- What is called in statements is called in one of them. -/
theorem Stmt.mem_calleesAll {body : List Stmt} (hx : x ∈ Stmt.calleesAll body) :
    ∃ s ∈ body, x ∈ s.callees := by
  induction body with
  | nil => cases hx
  | cons s rest ih =>
    rcases List.mem_append.mp hx with hx | hx
    · exact ⟨s, List.mem_cons_self, hx⟩
    · obtain ⟨t, ht, hx⟩ := ih hx
      exact ⟨t, List.mem_cons_of_mem s ht, hx⟩

/-- Every item of the first list is related to one. -/
theorem exists_of_mem_forall₂ {α β : Type} {R : α → β → Prop} {as : List α} {bs : List β}
    (h : List.Forall₂ R as bs) {a : α} (ha : a ∈ as) : ∃ b, R a b := by
  induction h with
  | nil => cases ha
  | cons hab hrest ih =>
    rcases List.mem_cons.mp ha with rfl | ha
    · exact ⟨_, hab⟩
    · exact ih ha

/-- The functions that a well-typed expression calls are declared where it stands. -/
theorem HasType.find_callee {e : Exp} {ty : Ty} (h : HasType Γ e ty) (hx : x ∈ e.callees) :
    ∃ r params, Γ.find x = some (.function r params) := by
  induction e using Exp.induction generalizing ty with
  | int p n => cases hx
  | bool p b => cases hx
  | nil p => cases hx
  | unary p t op e ih =>
    obtain ⟨he, -⟩ := HasType.unary_iff.mp h
    exact ih he hx
  | binary p t op l r ihl ihr =>
    obtain ⟨_, _, hl, hr, -, -⟩ := HasType.binary_iff.mp h
    rcases List.mem_append.mp hx with hx | hx
    · exact ihl hl hx
    · exact ihr hr hx
  | var t v => cases hx
  | element t v i ih =>
    cases h with
    | element hv hi => exact ih hi hx
  | assign p t v e ih =>
    cases h with
    | assign hv hbase he => exact ih he hx
  | assignElement p t v i e ihi ihe =>
    cases h with
    | assignElement hv hi hbase he =>
      rcases List.mem_append.mp hx with hx | hx
      · exact ihi hi hx
      · exact ihe he hx
  | call p t f args ih =>
    cases h with
    | call hf hargs =>
      rcases List.mem_append.mp hx with hx | hx
      · -- in an argument, or the callee itself
        obtain ⟨a, ha, hx⟩ := Exp.mem_calleesAll hx
        obtain ⟨_, hty⟩ := exists_of_mem_forall₂ hargs ha
        exact ih a ha hty hx
      · rw [List.mem_singleton.mp hx]
        exact ⟨_, _, hf⟩

/-- The functions that a well-typed statement calls are declared where it stands: its own variables
may hide functions, but declare none. -/
theorem Stmt.WellTyped.find_callee {result : BaseType} {s : Stmt} (h : s.WellTyped result Γ)
    (hx : x ∈ s.callees) : ∃ r params, Γ.find x = some (.function r params) := by
  induction h with
  | exp he => exact he.find_callee hx
  | block hds hbody ih =>
    obtain ⟨s, hs, hx⟩ := Stmt.mem_calleesAll hx
    obtain ⟨r, params, hfind⟩ := ih s hs hx
    exact ⟨r, params, TypeContext.find_function hfind⟩
  | ifThen ht hty ha ih =>
    rcases List.mem_append.mp hx with hx | hx
    · exact ht.find_callee hx
    · exact ih hx
  | ifElse ht hty ha hb iha ihb =>
    rcases List.mem_append.mp hx with hx | hx
    · exact ht.find_callee hx
    · exact (List.mem_append.mp hx).elim iha ihb
  | whileDo ht hty hb ih =>
    rcases List.mem_append.mp hx with hx | hx
    · exact ht.find_callee hx
    · exact ih hx
  | bareReturn hvoid => cases hx
  | valueReturn hvoid he => exact he.find_callee hx

end Callees

/-- What well-typed declarations call is declared before them, or is a routine, or is the calling
function. -/
theorem Decl.declared_of_callees {H : List Header} {ds : List Decl}
    (h : ∀ y ∈ Decl.inContext H ds, y.2.WellTyped y.1) {x : String}
    (hx : x ∈ ds.flatMap Decl.callees) :
    ∃ a ∈ H ++ ds.map Decl.header, a.name = x ∧ ∃ r params, a.entity = .function r params := by
  induction ds generalizing H with
  | nil => cases hx
  | cons d rest ih =>
    simp only [Decl.inContext, List.forall_mem_cons] at h
    obtain ⟨hd, hrest⟩ := h
    rcases List.mem_append.mp hx with hx | hx
    · cases d with
      | var d => cases hx
      | function f =>
        have hf : f.WellTyped _ := hd
        cases hbody : f.body with
        | none => simp [Decl.callees, hbody] at hx
        | some body =>
          simp only [Decl.callees, hbody, Option.map_some, Option.getD_some] at hx
          obtain ⟨r, params, hfind⟩ := (hf.body body hbody).find_callee hx
          have hlookup := TypeContext.find_function hfind
          rw [TypeContext.find_cons, show TypeContext.find [] x = none from rfl,
            Option.or_none] at hlookup
          obtain ⟨a, ha, hname, hentity⟩ := Header.exists_of_lookup hlookup
          rw [List.map_cons, List.append_cons]
          exact ⟨a, List.mem_append_left _ ha, hname, r, params, hentity⟩
    · obtain ⟨a, ha, hname⟩ := ih hrest hx
      rw [List.append_assoc] at ha
      exact ⟨a, ha, hname⟩

/-- The function is declared, but only by prototypes. -/
def Program.leftOpen (p : Program) (f : String) : Bool :=
  f ∉ ["input", "output"] && p.functions.any (fun g => g.name = f) &&
    p.functions.all (fun g => g.name = f → g.body.isNone)

/-- The calls of functions that are declared by prototypes alone, in the order of their jumps. -/
def Program.openCalls (p : Program) : List String :=
  (p.decls.flatMap Decl.callees).filter p.leftOpen

/-- A function of this name has a body. -/
def Program.HasBody (p : Program) (name : String) : Prop :=
  ∃ f ∈ p.functions, f.name = name ∧ f.body ≠ none

/-- The functions that are defined are those with a body. -/
theorem Program.mem_defined_iff {p : Program} {name : String} :
    name ∈ p.decls.filterMap Decl.defined? ↔ p.HasBody name := by
  rw [List.mem_filterMap]
  constructor
  · rintro ⟨d, hd, hname⟩
    cases d with
    | var d => cases hname
    | function f =>
      simp only [Decl.defined?, Option.ite_none_right_eq_some, Option.some.injEq] at hname
      exact ⟨f, Program.mem_functions.mpr hd, hname.2, Option.isSome_iff_ne_none.mp hname.1⟩
  · rintro ⟨f, hf, rfl, hbody⟩
    refine ⟨_, Program.mem_functions.mp hf, ?_⟩
    rw [Decl.defined?, if_pos (Option.isSome_iff_ne_none.mpr hbody)]

/-- Among the functions that an accepted program calls, those without an address are left open. -/
theorem Program.leftOpen_eq {p : Program} (hok : (analyze p false).errors = []) {x : String}
    (hx : x ∈ p.decls.flatMap Decl.callees) :
    p.leftOpen x = true ↔ x ∉ ["input", "output"] ∧ ¬p.HasBody x := by
  rw [errors_analyze] at hok
  have hdecls := ((Decl.checkAll_eq_nil_iff ScopeTable.outermost_initial (by decide)).mp hok).2.2
  obtain ⟨a, ha, hname, r, params, hentity⟩ := Decl.declared_of_callees hdecls hx
  simp only [Program.leftOpen, Program.HasBody, Bool.and_eq_true, decide_eq_true_eq,
    List.any_eq_true, List.all_eq_true, and_assoc, not_exists, not_and, not_not,
    Option.isNone_iff_eq_none]
  refine and_congr_right fun hroutine => and_iff_right ?_
  rcases List.mem_append.mp ha with ha | ha
  · -- the routines have the names that are excluded
    have hnames : ∀ b ∈ routineHeaders, b.name ∈ ["input", "output"] := by decide
    exact absurd (hname ▸ hnames a ha) hroutine
  · obtain ⟨d, hd, rfl⟩ := List.mem_map.mp ha
    cases d with
    | var d => cases hentity
    | function g => exact ⟨g, Program.mem_functions.mpr hd, hname⟩

/-! ### Both layouts

The first layout does not look at callees, and can fail for want of a `main` only. The second one
starts with the addresses of all functions with a body, and is at fault at the first call of another
one. -/

namespace Assembly

section

variable {source : String} {tree : Program} {linked : Bool} {known : Entries} {a₀ : Assembly}

/-- The functions with a body have addresses, and no others. -/
theorem lookup_table {start : Nat} {ds : List Decl} {name : String} :
    (Decl.table start ds).reverse.lookup name = none ↔ name ∉ ds.filterMap Decl.defined? := by
  rw [← Decl.map_fst_table start, List.lookup_eq_none_iff]
  simp only [List.mem_reverse, bne_iff_ne, List.mem_map, not_exists, not_and]
  exact forall₂_congr fun _ _ => ne_comm

/-- The fixed code knows the routines and what it was given. -/
theorem start_pool (hstart : start known = .ok a₀) (hknown : ∀ x ∈ known, x ∈ tree.pool) :
    ∀ x ∈ a₀.entries, x ∈ tree.pool := by
  obtain ⟨t, -, hentries⟩ := full_start hstart
  rw [hentries]
  simpa [Program.pool] using fun name address h => hknown (name, address) h

/-- The state of a layout behind all declarations. -/
theorem laid_behind (hok : (analyze tree false).errors = []) (hstart : start known = .ok a₀)
    (hknown : ∀ x ∈ known, x ∈ tree.pool) {ds : List Decl} {a : Assembly}
    (hrun : declarations linked a₀ (analyze tree false).program.decls = .ok (ds, a)) :
    ∃ l, a.buffer.Full l ∧ l.length = bodyStart + Decl.sizes tree.decls ∧
      (∀ x ∈ a.entries, x ∈ tree.pool) ∧
      a.entries = (Decl.table bodyStart tree.decls).reverse ++ a₀.entries := by
  obtain ⟨t, hfull, -⟩ := full_start hstart
  have hpool := start_pool hstart hknown
  rw [errors_analyze] at hok
  rw [decls_analyze] at hrun
  obtain ⟨is, hlaid, hfull', hentries⟩ := laid_declarations hok hrun hfull hpool
    (fun x hx => List.mem_append_left _ hx)
  refine ⟨_, hfull', ?_, ?_, hentries⟩
  · rw [List.length_append, hlaid.length_eq]
    rfl
  · rw [hentries]
    intro x hx
    rcases List.mem_append.mp hx with hx | hx
    · exact List.mem_append_left _ (List.mem_reverse.mp hx)
    · exact hpool x hx

/-- The declarations of a short accepted program behind the fixed code. -/
theorem meets_behind (hshort : source.utf8ByteSize < 2 ^ 27) (hparse : parse source = .ok tree)
    (hok : (analyze tree false).errors = []) (hstart : start known = .ok a₀)
    (hknown : ∀ x ∈ known, x ∈ tree.pool) {missing : String → Bool}
    (hmissing : ∀ x, Linker.misses ⟨a₀.entries, linked⟩ x = missing x)
    (hdefined : ∀ name ∈ tree.decls.filterMap Decl.defined?, missing name = false) :
    Meets ((tree.decls.flatMap Decl.callees).filter missing)
      (declarations linked a₀ (analyze tree false).program.decls) := by
  obtain ⟨t, hfull, -⟩ := full_start hstart
  have hsizes := (parse_size hparse).1
  have hstart' : bodyStart = 21 := rfl
  have hentries : Linker.Short ⟨a₀.entries, linked⟩ := by
    intro x hx
    have := Program.pool_lt (start_pool hstart hknown x hx)
    omega
  rw [errors_analyze] at hok
  rw [decls_analyze]
  refine meets_declarations hok hfull hentries hmissing hdefined (by omega) ?_
  show bodyStart + Decl.sizes tree.decls < 2 ^ 31
  omega

/-- A layout of a program with a `main`. -/
theorem meets_program (hshort : source.utf8ByteSize < 2 ^ 27) (hparse : parse source = .ok tree)
    (hok : (analyze tree false).errors = []) (hmain : tree.HasBody "main")
    (hstart : start known = .ok a₀) (hknown : ∀ x ∈ known, x ∈ tree.pool)
    {missing : String → Bool} (hmissing : ∀ x, Linker.misses ⟨a₀.entries, linked⟩ x = missing x)
    (hdefined : ∀ name ∈ tree.decls.filterMap Decl.defined?, missing name = false) :
    Meets ((tree.decls.flatMap Decl.callees).filter missing)
      (Assembly.program linked known (analyze tree false).program) := by
  unfold Assembly.program
  refine .after hstart (Meets.last (meets_behind hshort hparse hok hstart hknown hmissing hdefined)
    fun x hx => ?_)
  obtain ⟨ds, a⟩ := x
  obtain ⟨l, hfull, hlen, hpool, hentries⟩ := laid_behind hok hstart hknown hx
  have hsizes := (parse_size hparse).1
  have hstart' : bodyStart = 21 := rfl
  obtain ⟨main, hlookup⟩ : ∃ main, a.entries.lookup "main" = some main := by
    rw [← Option.isSome_iff_exists, Option.isSome_iff_ne_none, hentries, List.lookup_append]
    intro hnone
    exact lookup_table.mp (Option.or_eq_none_iff.mp hnone).1 (Program.mem_defined_iff.mpr hmain)
  have hlt : main < _ := Program.pool_lt (hpool _ (mem_of_lookup hlookup))
  obtain ⟨large, hstacked, -⟩ := stacked_analyze tree false
  obtain ⟨hlow, hhigh⟩ := hstacked.bounds (by decide)
  exact Meets.bind (meets_finale hfull hlookup (by omega) (by omega) hlow hhigh) fun _ _ => .ok _

/-- Without a `main` the first layout fails, at its end. -/
theorem program_noMain (hshort : source.utf8ByteSize < 2 ^ 27) (hparse : parse source = .ok tree)
    (hok : (analyze tree false).errors = []) (hmain : ¬tree.HasBody "main") :
    Assembly.program false [] (analyze tree false).program = .error .noMain := by
  obtain ⟨a₀, hstart⟩ := exists_start []
  have hnone : ∀ x ∈ ([] : Entries), x ∈ tree.pool := fun x hx => absurd hx List.not_mem_nil
  have hdecls : Meets ((tree.decls.flatMap Decl.callees).filter fun _ => false)
      (declarations false a₀ (analyze tree false).program.decls) :=
    meets_behind hshort hparse hok hstart hnone (fun _ => rfl) (fun _ _ => rfl)
  rw [List.filter_false] at hdecls
  obtain ⟨⟨ds, a⟩, hrun⟩ := hdecls
  obtain ⟨l, -, -, -, hentries⟩ := laid_behind hok hstart hnone hrun
  obtain ⟨t, -, hentries₀⟩ := full_start hstart
  have hlookup : a.entries.lookup "main" = none := by
    rw [hentries, hentries₀, List.lookup_append,
      lookup_table.mpr (mt Program.mem_defined_iff.mp hmain)]
    rfl
  have hfinale : a.finale (analyze tree false).program.globalsEnd = .error .noMain := by
    rw [finale, hlookup]
  unfold Assembly.program
  rw [hstart]
  simp only [bind, Except.bind, hrun, hfinale]

/-- With the addresses of the first layout, calls miss what is neither a routine nor has a body. -/
theorem misses_second (hok : (analyze tree false).errors = []) {q : Program} {first : Assembly}
    (hfirst : Assembly.program false [] (analyze tree false).program = .ok (q, first))
    (hstart : start first.entries = .ok a₀) (x : String) :
    Linker.misses ⟨a₀.entries, true⟩ x = true ↔ x ∉ ["input", "output"] ∧ ¬tree.HasBody x := by
  obtain ⟨t, -, hentries⟩ := full_start hstart
  have hnone : ∀ x ∈ ([] : Entries), x ∈ tree.pool := fun x hx => absurd hx List.not_mem_nil
  rw [entries_program hok hnone hfirst] at hentries
  have htable : (∀ y ∈ (Decl.table bodyStart tree.decls).reverse, (x != y.1) = true) ↔
      ¬tree.HasBody x := by
    rw [← List.lookup_eq_none_iff, lookup_table, Program.mem_defined_iff]
  rw [Linker.misses, Bool.true_and, Option.isNone_iff_eq_none, hentries, List.lookup_eq_none_iff,
    List.forall_mem_cons, List.forall_mem_cons, List.forall_mem_append, htable]
  simp
  tauto

end

end Assembly

section Outcome

variable {source : String} {tree : Program}

/-- Without a `main` there is no code, and this is the fault. -/
theorem generate_noMain (hshort : source.utf8ByteSize < 2 ^ 27) (hparse : parse source = .ok tree)
    (hok : (analyze tree false).errors = []) (hmain : ¬tree.HasBody "main") :
    generate (analyze tree false).program = .error .noMain := by
  unfold generate
  rw [Assembly.program_noMain hshort hparse hok hmain]
  rfl

/-- With a `main`, code generation stops at the first call that is left open. -/
theorem meets_generate (hshort : source.utf8ByteSize < 2 ^ 27) (hparse : parse source = .ok tree)
    (hok : (analyze tree false).errors = []) (hmain : tree.HasBody "main") :
    Meets tree.openCalls (generate (analyze tree false).program) := by
  have hnone : ∀ x ∈ ([] : Entries), x ∈ tree.pool := fun x hx => absurd hx List.not_mem_nil
  obtain ⟨a₀, hstart⟩ := Assembly.exists_start []
  have hfirst : Meets ((tree.decls.flatMap Decl.callees).filter fun _ => false)
      (Assembly.program false [] (analyze tree false).program) :=
    Assembly.meets_program hshort hparse hok hmain hstart hnone (fun _ => rfl) (fun _ _ => rfl)
  rw [List.filter_false] at hfirst
  unfold generate
  refine Meets.bind hfirst fun x hx => ?_
  obtain ⟨q, first⟩ := x
  have hknown : ∀ x ∈ first.entries, x ∈ tree.pool := fun x hx' =>
    (Assembly.mem_entries_iff hok hnone hx).mp hx'
  obtain ⟨a₁, hstart'⟩ := Assembly.exists_start first.entries
  have hmisses := Assembly.misses_second hok hx hstart'
  have hopen : (tree.decls.flatMap Decl.callees).filter tree.leftOpen =
      (tree.decls.flatMap Decl.callees).filter (Linker.misses ⟨a₁.entries, true⟩) := by
    refine List.filter_congr fun x hx => ?_
    rw [Bool.eq_iff_iff, Program.leftOpen_eq hok hx, hmisses]
  rw [hopen]
  refine Meets.last (Assembly.meets_program hshort hparse hok hmain hstart' hknown (fun _ => rfl)
    fun name hname => ?_) fun y hy => ?_
  · rw [← Bool.not_eq_true, hmisses]
    exact fun h => h.2 (Program.mem_defined_iff.mp hname)
  · obtain ⟨p, a⟩ := y
    obtain ⟨_, _, _, _, -, -, -, -, hfull, -⟩ := Assembly.laid_program hok hknown hy
    exact .after hfull.finish (.ok _)

/-- No slot of the finished code is free. -/
theorem slots_generate (hok : (analyze tree false).errors = []) {q : Program} {code : List Instr}
    (h : generate (analyze tree false).program = .ok (q, code)) :
    ∃ known a, Assembly.program true known (analyze tree false).program = .ok (q, a) ∧
      a.buffer.slots.toList = code.map some := by
  have hnone : ∀ x ∈ ([] : Entries), x ∈ tree.pool := fun x hx => absurd hx List.not_mem_nil
  simp only [generate, Except.bind_eq_ok_iff, Except.pure_eq_ok_iff, Prod.exists] at h
  obtain ⟨p₁, first, hfirst, p₂, a, hsecond, code', hfinish, heq⟩ := h
  cases heq
  obtain ⟨_, _, _, _, -, -, -, -, hfull, -⟩ := Assembly.laid_program hok
    (fun x hx => (Assembly.mem_entries_iff hok hnone hfirst).mp hx) hsecond
  rw [hfull.finish] at hfinish
  rw [← Except.ok.inj hfinish]
  exact ⟨first.entries, a, hsecond, hfull.slots_eq⟩

/-- Code generation for a program that the analysis accepts. Without a body for `main` this is what
it reports, and nothing else. Otherwise it reports the first call of a function that is declared by
prototypes alone. If there is none, it gives code, in which no slot is left free: what a phrase
reserves it patches itself, and what `start` reserves the program patches at its end. It has no
other fault. The generator drives the buffer, whose faults `Exp.emit_eq` and `Stmt.emit_eq` rule
out, so the rest is about the lists that the passes lay out. -/
theorem generate_outcome (hshort : source.utf8ByteSize < 2 ^ 27) (hparse : parse source = .ok tree)
    {trace : Bool} (hok : (analyze tree trace).errors = []) :
    (generate (analyze tree trace).program = .error .noMain ↔ ¬tree.HasBody "main") ∧
      (∀ f, generate (analyze tree trace).program = .error (.neverDefined f) ↔
        tree.HasBody "main" ∧ tree.openCalls.head? = some f) ∧
      ((∃ r, generate (analyze tree trace).program = .ok r) ↔
        tree.HasBody "main" ∧ tree.openCalls = []) ∧
      (∀ fault, generate (analyze tree trace).program = .error fault →
        fault = .noMain ∨ ∃ f, fault = .neverDefined f) ∧
      ∀ q code, generate (analyze tree trace).program = .ok (q, code) → ∃ known a,
        Assembly.program true known (analyze tree trace).program = .ok (q, a) ∧
          a.buffer.slots.toList = code.map some := by
  -- only the dump depends on whether it is asked for
  change (analyze tree false).errors = [] at hok
  rw [show (analyze tree trace).program = (analyze tree false).program from rfl]
  have hslots : ∀ q code, generate (analyze tree false).program = .ok (q, code) → _ :=
    fun _ _ => slots_generate hok
  by_cases hmain : tree.HasBody "main"
  · have hmeets := meets_generate hshort hparse hok hmain
    cases hopen : tree.openCalls with
    | nil =>
      rw [hopen] at hmeets
      obtain ⟨r, hr⟩ := hmeets
      exact ⟨by simp [hr, hmain], by simp [hr], by simp [hr, hmain], by simp [hr], hslots⟩
    | cons f rest =>
      rw [hopen] at hmeets
      have hr : generate (analyze tree false).program = .error (.neverDefined f) := hmeets
      exact ⟨by simp [hr, hmain], by simp [hr, hmain], by simp [hr], by simp [hr], hslots⟩
  · have hr := generate_noMain hshort hparse hok hmain
    exact ⟨by simp [hr, hmain], by simp [hr, hmain], by simp [hr, hmain], by simp [hr], hslots⟩

end Outcome

/-- Two functions without bodies, one called in an argument of the other. -/
def prototypesSource : String :=
  "int g(int x); int h(void); void main(void) \x7b output(g(h())); \x7d"

/-- The diagnostics of a program, its functions with a body, and the calls that are left open. -/
def openCallsOf? (source : String) : Option (List Diagnostic × List String × List String) :=
  (parse source).toOption.map fun tree =>
    ((analyze tree false).errors, tree.decls.filterMap Decl.defined?, tree.openCalls)

/-- The call in the argument comes first, though its name comes second. -/
theorem generate_outcome_prototypes : ∃ tree, prototypesSource.utf8ByteSize < 2 ^ 27 ∧
    parse prototypesSource = .ok tree ∧ (analyze tree false).errors = [] ∧
    tree.openCalls = ["h", "g"] ∧
    generate (analyze tree false).program = .error (.neverDefined "h") := by
  have hascii : Ascii prototypesSource _ := ⟨rfl, rfl⟩
  have hopen : openCallsOf? prototypesSource = some ([], ["main"], ["h", "g"]) := by
    rw [openCallsOf?, parse, hascii.scan_eq]
    decide +kernel
  have hshort : prototypesSource.utf8ByteSize < 2 ^ 27 := by
    rw [hascii.utf8ByteSize_eq]
    decide +kernel
  obtain ⟨tree, hparse, hopen⟩ := Option.map_eq_some_iff.mp hopen
  have hparse := Except.eq_ok_of_toOption hparse
  simp only [Prod.mk.injEq] at hopen
  obtain ⟨hok, hdefined, hcalls⟩ := hopen
  have hmain : tree.HasBody "main" := Program.mem_defined_iff.mp (by simp [hdefined])
  obtain ⟨-, hcallee, -⟩ := generate_outcome hshort hparse hok
  exact ⟨tree, hshort, hparse, hok, hcalls, (hcallee "h").mpr ⟨hmain, by simp [hcalls]⟩⟩

end MiniC
