import MiniC.Proofs.Arithmetic.Checks
import MiniC.Proofs.Frames
import MiniC.Proofs.Inventory

/-!
# Values that are put aside

The code of an expression puts a value that it needs later in a cell of the frame, and loads it from
there again: the left operand of an operator, the address of an element, the arguments of a call.
What is evaluated in the meantime keeps its own values in the cells below this one, and a frame that
it opens lies below it too. The variables of the function are above all these cells. So the value is
still there when it is loaded.

* `Exp.spills`: the values that the code of an expression puts aside
* `Spill.Spared`: no instruction between the two stores in the cell
* `Tidy`: a stretch of code whose values are spared, and that loads no others
* `Exp.tidy`: the code of an expression
* `Exp.meets_code`: whether an expression has code
* `spills_spared`: the functions of accepted programs
-/

namespace MiniC

/-! ### Values that are put aside

They are listed by the tree, with the addresses of the store and of the load. That the code has them
there, and leaves them alone in between, is what is to be shown. -/

/-- A value that is stored in a cell of the frame and loaded again: the cell, and the places of the
two instructions. -/
structure Spill where
  cell : Int
  stored : Nat
  loaded : Nat
deriving DecidableEq, Repr

mutual

/-- The values that the code of an expression puts aside. The code keeps them from `offset` down,
and its first instruction is at the place `start`. -/
def Exp.spills (offset : Int) (start : Nat) : Exp → List Spill
  | .int _ _ | .bool _ _ | .nil _ | .var _ _ => []
  | .unary _ _ _ e => e.spills offset start
  | .binary _ _ op l r =>
    l.spills offset start ++
    match op.combination with
    | .shortCircuit _ _ => r.spills offset (start + l.size + 1)
    | _ => ⟨offset, start + l.size, start + l.size + 1 + r.size⟩ ::
        r.spills (offset - 1) (start + l.size + 1)
  | .element _ _ i => i.spills offset start
  | .assign _ _ _ e => e.spills offset start
  | .assignElement _ _ _ i e =>
    -- eight instructions turn the index into an address
    i.spills offset start ++
      ⟨offset, start + i.size + 8, start + i.size + 8 + 1 + e.size⟩ ::
        e.spills (offset - 1) (start + i.size + 8 + 1)
  | .call _ _ _ args => Exp.argumentSpills offset start (start + Exp.argumentSize args) args

/-- The same for arguments, the first of which is loaded again at the place `load`. -/
def Exp.argumentSpills (offset : Int) (start load : Nat) : List Exp → List Spill
  | [] => []
  | e :: rest =>
    e.spills (offset - 1) start ++ ⟨offset, start + e.size, load⟩ ::
      -- each argument is stored for the callee before the next one is loaded
      Exp.argumentSpills (offset - 1) (start + e.size + 1) (load + 2) rest

end

/-- An instruction does not touch the cells of the frame from `cell` up to `limit`: it stores in no
such cell, and opens no frame that has one. -/
structure Instr.Spares (limit cell : Int) (i : Instr) : Prop where
  store : ∀ r d t, i = .rm .st r d .fp t → limit < d ∨ d < cell
  enter : ∀ d t, i = .rm .lda .fp d .fp t → d < cell

/-- A value is put aside in a cell that is no variable's, and no instruction touches the cell before
the value is loaded. The variables lie above `limit`. -/
structure Spill.Spared (limit : Int) (code : List Instr) (s : Spill) : Prop where
  below : s.cell ≤ limit
  order : s.stored < s.loaded
  store : ∃ t, code[s.stored]? = some (.rm .st .ac s.cell .fp t)
  load : ∃ r t, code[s.loaded]? = some (.rm .ld r s.cell .fp t)
  between : ∀ x i, s.stored < x → x < s.loaded → code[x]? = some i → i.Spares limit s.cell

/-! ### Instructions that name a cell of the frame

Which cells an instruction may touch follows from the form of the expression it comes from
(`Instr.Kind`). It may store at the offset of the phrase or below it, or in a variable that is
assigned; and it may load a variable, or a value that was put aside. -/

/-- A variable is global, or lies above `limit`. -/
def VarUse.Above (limit : Int) (v : VarUse) : Prop :=
  ∀ l, v.layout = some l → l.isGlobal = true ∨ limit < l.offset

/-- The same for every variable in an expression. -/
def Exp.Above (limit : Int) (e : Exp) : Prop :=
  ∀ a ∈ e.nodes, ∀ v, a.use? = some v → v.Above limit

/-- An instruction loads no temporary value from the frame. -/
def Instr.Quiet (limit : Int) (i : Instr) : Prop :=
  ∀ r d t, i = .rm .ld r d .fp t → limit < d

/-- A variable is in the frame if it is not global. -/
theorem Layout.base_eq_fp_iff {l : Layout} : l.base = .fp ↔ l.isGlobal = false := by
  unfold Layout.base
  cases l.isGlobal <;> decide

namespace VarUse

variable {v : VarUse} {i : Instr} {limit : Int}

/-- A variable whose storage is found has a layout. -/
theorem layout_of_storage {l : Layout} {base : Reg} (h : v.storage = .ok (l, base)) :
    v.layout = some l := by
  unfold storage at h
  split at h
  · rename_i hl
    cases h
    exact hl
  · cases h

/-- A store to the frame is one to the cell of the variable. -/
theorem eq_of_store (h : v.store = .ok i) :
    ∃ l t, v.layout = some l ∧ i = .rm .st .ac l.offset l.base t := by
  obtain ⟨⟨l, base⟩, hstorage, -⟩ := Except.bind_eq_ok_iff.mp h
  have hl := layout_of_storage hstorage
  obtain ⟨t, ht⟩ := v.store_of_layout hl
  exact ⟨l, t, hl, Except.ok.inj (h.symm.trans ht)⟩

/-- A load from the frame is one of the cell of the variable. -/
theorem eq_of_load {r : Reg} (h : v.load r = .ok i) :
    ∃ l t, v.layout = some l ∧ i = .rm l.storage.loadOp r l.offset l.base t := by
  obtain ⟨⟨l, base⟩, hstorage, -⟩ := Except.bind_eq_ok_iff.mp h
  have hl := layout_of_storage hstorage
  obtain ⟨t, ht⟩ := v.load_of_layout hl r
  exact ⟨l, t, hl, Except.ok.inj (h.symm.trans ht)⟩

/-- A variable in the frame lies above the limit. -/
theorem Above.lt {l : Layout} (h : v.Above limit) (hl : v.layout = some l) (hbase : l.base = .fp) :
    limit < l.offset := by
  have hframe := Layout.base_eq_fp_iff.mp hbase
  rcases h l hl with hglobal | hlt
  · rw [hframe] at hglobal
    cases hglobal
  · exact hlt

end VarUse

namespace Instr

variable {limit : Int}

/-- What spares a cell spares those above it. -/
theorem Spares.mono {cell cell' : Int} {i : Instr} (h : i.Spares limit cell)
    (hle : cell ≤ cell') : i.Spares limit cell' :=
  ⟨fun r d t hi => (h.store r d t hi).imp_right fun hlt => by omega,
    fun d t hi => by have := h.enter d t hi; omega⟩

/-- Where the code of an expression stores in the frame. -/
theorem Kind.store_le {nodes : List Exp} {offset d : Int} {r : Reg} {t : String}
    (h : Kind nodes offset (.rm .st r d .fp t)) :
    d ≤ offset ∨ ∃ p ty v e l, .assign p ty v e ∈ nodes ∧ v.layout = some l ∧ l.base = .fp ∧
      l.offset = d := by
  generalize hi : Instr.rm .st r d .fp t = i at h
  cases h with
  | operation | constant | enter | restore => cases hi
  | based hop hs => cases hi; exact absurd rfl hs
  | cell hop hd => cases hi; exact Or.inl hd
  | load hr hload =>
    obtain ⟨l, t, -, rfl⟩ := VarUse.eq_of_load hload
    cases hs : l.storage <;> rw [hs] at hi <;> cases hi
  | store hv hstore =>
    obtain ⟨l, t, hl, rfl⟩ := VarUse.eq_of_store hstore
    obtain ⟨-, -, hoffset, hbase, -⟩ := Instr.rm.inj hi
    exact Or.inr ⟨_, _, _, _, l, hv, hl, hbase.symm, hoffset.symm⟩

/-- Where the code of an expression opens frames. -/
theorem Kind.enter_le {nodes : List Exp} {offset d : Int} {t : String}
    (h : Kind nodes offset (.rm .lda .fp d .fp t)) : d ≤ offset := by
  generalize hi : Instr.rm .lda .fp d .fp t = i at h
  cases h with
  | operation | constant | restore => cases hi
  | based hop hs => cases hi; exact absurd rfl hs
  | cell hop hd => cases hi; exact hd
  | enter hd => cases hi; exact hd
  | load hr hload =>
    obtain ⟨l, t, -, rfl⟩ := VarUse.eq_of_load hload
    exact absurd (Instr.rm.inj hi).2.1.symm hr
  | store hv hstore =>
    obtain ⟨l, t, -, rfl⟩ := VarUse.eq_of_store hstore
    cases hi

/-- The code of an expression touches no cell above those that it keeps temporary values in. -/
theorem Kind.spares {nodes : List Exp} {offset cell : Int} {i : Instr} (h : i.Kind nodes offset)
    (hnodes : ∀ a ∈ nodes, ∀ v, a.use? = some v → v.Above limit) (hcell : offset < cell) :
    i.Spares limit cell := by
  refine ⟨?_, ?_⟩
  · rintro r d t rfl
    rcases h.store_le with hd | ⟨p, ty, v, a, l, hmem, hl, hbase, rfl⟩
    · exact Or.inr (by omega)
    · exact Or.inl ((hnodes _ hmem v rfl).lt hl hbase)
  · rintro d t rfl
    have := h.enter_le
    omega

/-- Register-only instructions load nothing. -/
theorem quiet_ro (op : Opcode) (r s q : Reg) (t : String) : Quiet limit (.ro op r s q t) := by
  rintro _ _ _ ⟨⟩

/-- What is not relative to the frame loads nothing from it. -/
theorem quiet_of_base {s : Reg} (hs : s ≠ .fp) (op : Opcode) (r : Reg) (d : Int) (t : String) :
    Quiet limit (.rm op r d s t) := by
  rintro _ _ _ ⟨⟩
  exact absurd rfl hs

/-- Only a load loads. -/
theorem quiet_of_op {op : Opcode} (hop : op ≠ .ld) (r s : Reg) (d : Int) (t : String) :
    Quiet limit (.rm op r d s t) := by
  rintro _ _ _ ⟨⟩
  exact absurd rfl hop

/-- Jumps load nothing. -/
theorem quiet_relative {op : Opcode} {r : Reg} {address target : Nat} {t : String} {i : Instr}
    (h : Instr.relative op r address target t = .ok i) : i.Quiet limit := by
  obtain ⟨d, -, hi⟩ := Except.bind_eq_ok_iff.mp h
  rw [← Except.pure_eq_ok_iff.mp hi]
  exact quiet_of_base (by decide) _ _ _ _

/-- The variables lie above all temporary values. -/
theorem quiet_load {v : VarUse} {r : Reg} {i : Instr} (hv : v.Above limit)
    (h : v.load r = .ok i) : i.Quiet limit := by
  obtain ⟨l, t, hl, rfl⟩ := VarUse.eq_of_load h
  intro r' d t' hi
  obtain ⟨-, -, rfl, hbase, -⟩ := Instr.rm.inj hi
  exact hv.lt hl hbase

/-- A store loads nothing. -/
theorem quiet_store {v : VarUse} {i : Instr} (h : v.store = .ok i) : i.Quiet limit := by
  obtain ⟨l, t, -, rfl⟩ := VarUse.eq_of_store h
  exact quiet_of_op (by decide) _ _ _ _

/-- Making a truth value loads nothing. -/
theorem quiet_truthValue (jump : Opcode) (what : String) :
    ∀ i ∈ truthValue jump what, i.Quiet limit := by
  simp only [truthValue, List.forall_mem_cons]
  exact ⟨quiet_of_base (by decide) _ _ _ _, quiet_of_base (by decide) _ _ _ _,
    quiet_of_base (by decide) _ _ _ _, quiet_of_base (by decide) _ _ _ _, List.forall_mem_nil _⟩

/-- The address of an element loads its array alone. -/
theorem quiet_elementAddress {v : VarUse} {start : Nat} {is : List Instr} (hv : v.Above limit)
    (h : v.elementAddress start = .ok is) : ∀ i ∈ is, i.Quiet limit := by
  simp only [VarUse.elementAddress, Except.bind_eq_ok_iff, Except.pure_eq_ok_iff] at h
  obtain ⟨load, hload, tooLarge, hlarge, negative, hneg, rfl⟩ := h
  simp only [List.forall_mem_cons]
  exact ⟨quiet_load hv hload, quiet_of_base (by decide) _ _ _ _, quiet_ro _ _ _ _ _,
    quiet_relative hlarge, quiet_relative hneg, quiet_load hv hload, quiet_ro _ _ _ _ _,
    quiet_of_base (by decide) _ _ _ _, List.forall_mem_nil _⟩

/-- The caller's frame base is loaded from a cell above all temporary ones. -/
theorem quiet_callSequence (hlimit : limit < savedFrameOffset) {frame : Int} {jump : Instr}
    (hjump : jump.Quiet limit) : ∀ i ∈ callSequence frame jump, i.Quiet limit := by
  simp only [callSequence, List.forall_mem_cons]
  refine ⟨quiet_of_op (by decide) _ _ _ _, quiet_of_op (by decide) _ _ _ _,
    quiet_of_base (by decide) _ _ _ _, hjump, ?_, List.forall_mem_nil _⟩
  rintro _ _ _ ⟨⟩
  exact hlimit

/-- Arguments are copied to cells below those that they are put aside in. -/
theorem spares_copyArguments {offset : Int} {n : Nat} :
    ∀ i ∈ copyArguments offset n, i.Spares limit (offset - n + 1) := by
  intro i hi
  simp only [copyArguments, List.mem_flatMap, List.mem_cons, List.not_mem_nil, or_false] at hi
  obtain ⟨j, -, rfl | rfl⟩ := hi
  · exact ⟨by rintro _ _ _ ⟨⟩, by rintro _ _ ⟨⟩⟩
  · refine ⟨?_, by rintro _ _ ⟨⟩⟩
    rintro _ _ _ ⟨⟩
    exact Or.inr (by omega)

end Instr

/-! ### Stretches of code

`Tidy` is a statement about a stretch of code and its list of values. Stretches are put together one
behind the other, and a stretch during which a value is put aside is enclosed by its store and its
load. -/

/-- What stands inside a segment is one of its items. -/
theorem Holds.mem {α : Type} {whole segment : List α} {start x : Nat} {a : α}
    (h : Holds whole start segment) (hlo : start ≤ x) (hhi : x < start + segment.length)
    (hx : whole[x]? = some a) : a ∈ segment := by
  have hget := h (x - start) (by omega)
  rw [show start + (x - start) = x by omega, hx] at hget
  rw [Option.some.inj hget]
  exact List.getElem_mem _

/-- The values that are put aside in a stretch of code, from `lo` up to `hi`, are spared, and it
loads no other temporary values. -/
structure Tidy (limit : Int) (whole : List Instr) (lo hi : Nat) (ss : List Spill) : Prop where
  spared : ∀ s ∈ ss, s.Spared limit whole
  loads : ∀ x r d t, lo ≤ x → x < hi → whole[x]? = some (.rm .ld r d .fp t) →
    limit < d ∨ ∃ s ∈ ss, s.loaded = x

namespace Tidy

variable {limit : Int} {whole : List Instr} {lo mid hi : Nat} {ss ss' : List Spill}

/-- No code puts nothing aside. -/
theorem nil (limit : Int) (whole : List Instr) (lo : Nat) : Tidy limit whole lo lo [] :=
  ⟨List.forall_mem_nil _, fun _ _ _ _ _ _ _ => by omega⟩

/-- Stretches one behind the other. -/
theorem append (h : Tidy limit whole lo mid ss) (h' : Tidy limit whole mid hi ss') :
    Tidy limit whole lo hi (ss ++ ss') := by
  refine ⟨List.forall_mem_append.mpr ⟨h.spared, h'.spared⟩, ?_⟩
  intro x r d t hlo hhi hx
  rcases Nat.lt_or_ge x mid with hmid | hmid
  · refine (h.loads x r d t hlo hmid hx).imp_right ?_
    rintro ⟨s, hs, heq⟩
    exact ⟨s, List.mem_append_left _ hs, heq⟩
  · refine (h'.loads x r d t hmid hhi hx).imp_right ?_
    rintro ⟨s, hs, heq⟩
    exact ⟨s, List.mem_append_right _ hs, heq⟩

/-- Behind a stretch, instructions that load no temporary value. -/
theorem quiet (h : Tidy limit whole lo mid ss) {is : List Instr} (his : Holds whole mid is)
    (hquiet : ∀ i ∈ is, i.Quiet limit) : Tidy limit whole lo (mid + is.length) ss := by
  have hrest : Tidy limit whole mid (mid + is.length) [] :=
    ⟨List.forall_mem_nil _, fun x r d t hlo hhi hx =>
      Or.inl (hquiet _ (his.mem hlo hhi hx) r d t rfl)⟩
  have happend := h.append hrest
  rwa [List.append_nil] at happend

/-- Behind a stretch, code that is executed while a value is put aside, then the load of this value
and instructions that load no temporary value. -/
theorem spill (h : Tidy limit whole lo mid ss) {cell : Int} {r : Reg} {t t' : String}
    {is tail : List Instr} (hcell : cell ≤ limit)
    (hholds : Holds whole mid (.rm .st .ac cell .fp t :: (is ++ .rm .ld r cell .fp t' :: tail)))
    (hspares : ∀ i ∈ is, i.Spares limit cell)
    (his : Tidy limit whole (mid + 1) (mid + 1 + is.length) ss')
    (hquiet : ∀ i ∈ tail, i.Quiet limit) :
    Tidy limit whole lo (mid + 1 + is.length + 1 + tail.length)
      (ss ++ ⟨cell, mid, mid + 1 + is.length⟩ :: ss') := by
  simp only [holds_append, holds_cons] at hholds
  obtain ⟨hstore, hmem, hload, htail⟩ := hholds
  refine (h.append ⟨List.forall_mem_cons.mpr ⟨?_, his.spared⟩, ?_⟩).quiet htail hquiet
  · exact ⟨hcell, by dsimp only; omega, ⟨t, hstore⟩, ⟨r, t', hload⟩,
      fun x i hlo hhi hx => hspares i (hmem.mem hlo hhi hx)⟩
  · intro x r' d t'' hlo hhi hx
    rcases Nat.lt_trichotomy x (mid + 1 + is.length) with hlt | rfl | hgt
    · rcases Nat.eq_or_lt_of_le hlo with rfl | hlo
      · rw [hstore] at hx
        cases hx
      · refine (his.loads x r' d t'' hlo hlt hx).imp_right ?_
        rintro ⟨s, hs, heq⟩
        exact ⟨s, List.mem_cons_of_mem _ hs, heq⟩
    · exact Or.inr ⟨_, List.mem_cons_self, rfl⟩
    · omega

end Tidy

/-! ### Expressions

By induction on how the code is made, with one of the combinations of stretches for each production.
-/

namespace Exp

variable {limit : Int} {k : Linker} {whole : List Instr}

/-- The variables of a part of an expression. -/
theorem Above.part {e a : Exp} (h : e.Above limit) (ha : a ∈ e.nodes) : a.Above limit :=
  fun b hb => h b (nodes_subset ha hb)

/-- The arguments of a call. Behind their code they are loaded one after the other, the first at
the place `load`, and nothing before the last load touches the cell of any of them. -/
theorem tidy_arguments {args : List Exp}
    (ih : ∀ a ∈ args, ∀ {offset start place is}, offset ≤ limit → a.code k offset start = .ok is →
      Holds whole place is → Tidy limit whole place (place + is.length) (a.spills offset place))
    (habove : ∀ a ∈ args, a.Above limit) {offset : Int} (hoffset : offset ≤ limit)
    {start place : Nat} (load : Nat) {is : List Instr}
    (hcode : Exp.argumentCode k offset start args = .ok is) (hholds : Holds whole place is)
    (hload : place + is.length ≤ load)
    (hloads : ∀ j < args.length, ∃ t,
      whole[load + 2 * j]? = some (.rm .ld .ac (offset - j) .fp t))
    (hcopies : ∀ x i, place + is.length ≤ x → x < load + 2 * args.length → whole[x]? = some i →
      i.Spares limit (offset - args.length + 1)) :
    Tidy limit whole place (place + is.length) (Exp.argumentSpills offset place load args) ∧
      ∀ j < args.length, ∃ s ∈ Exp.argumentSpills offset place load args,
        s.loaded = load + 2 * j := by
  induction args generalizing offset start place load is with
  | nil =>
    rw [argumentCode_nil hcode]
    exact ⟨.nil limit whole place, fun j hj => absurd hj (Nat.not_lt_zero j)⟩
  | cons e rest hrest =>
    obtain ⟨i, j, -, hi, hj, rfl⟩ := argumentCode_cons hcode
    simp only [holds_append, holds_cons] at hholds
    obtain ⟨hfirst, hstore, hothers⟩ := hholds
    simp only [List.length_append, List.length_cons] at hload hloads hcopies ⊢
    have hlower : offset - 1 ≤ limit := by omega
    have hsize := Exp.length_code hi
    have hargs : ∀ a ∈ Exp.nodesAll rest, ∀ v, a.use? = some v → v.Above limit := by
      intro a ha
      obtain ⟨b, hb, ha⟩ := mem_nodesAll.mp ha
      exact habove b (List.mem_cons_of_mem e hb) a ha
    have he := ih e List.mem_cons_self hlower hi hfirst
    obtain ⟨hrestTidy, hrestLoads⟩ := hrest
      (fun a ha => ih a (List.mem_cons_of_mem e ha))
      (fun a ha => habove a (List.mem_cons_of_mem e ha)) hlower (load + 2) hj hothers (by omega)
      (fun n hn => by
        obtain ⟨t, ht⟩ := hloads (n + 1) (by omega)
        rw [show load + 2 * (n + 1) = load + 2 + 2 * n by omega,
          show offset - ((n + 1 : Nat) : Int) = offset - 1 - n by omega] at ht
        exact ⟨t, ht⟩)
      (fun x i hlo hhi hx => (hcopies x i (by omega) (by omega) hx).mono (by omega))
    -- until it is loaded, the other arguments are evaluated and those before it are copied
    have hspared : Spill.Spared limit whole ⟨offset, place + i.length, load⟩ := by
      refine ⟨hoffset, by dsimp only; omega, ⟨_, hstore⟩, ?_, ?_⟩
      · obtain ⟨t, ht⟩ := hloads 0 (by omega)
        rw [Nat.mul_zero, Nat.add_zero, Nat.cast_zero, Int.sub_zero] at ht
        exact ⟨_, t, ht⟩
      · intro x instr hlo hhi hx
        rcases Nat.lt_or_ge x (place + i.length + 1 + j.length) with hlt | hge
        · have hmem := hothers.mem hlo hlt hx
          exact ((kind_of_argumentCode (fun _ _ => kind_of_code) hj) _ hmem).spares hargs
            (by dsimp only; omega)
        · dsimp only at hhi ⊢
          exact (hcopies x instr (by omega) (by omega) hx).mono (by omega)
    have hput : Tidy limit whole (place + i.length) (place + i.length + 1)
        [⟨offset, place + i.length, load⟩] := by
      refine ⟨List.forall_mem_singleton.mpr hspared, fun x r d t hlo hhi hx => ?_⟩
      rw [show x = place + i.length by omega, hstore] at hx
      cases hx
    rw [Exp.argumentSpills, ← hsize]
    constructor
    · rw [show place + (i.length + (j.length + 1)) = place + i.length + 1 + j.length by omega]
      exact he.append (hput.append hrestTidy)
    · intro n hn
      cases n with
      | zero => exact ⟨_, List.mem_append_right _ List.mem_cons_self, rfl⟩
      | succ n =>
        obtain ⟨s, hs, heq⟩ := hrestLoads n (by omega)
        refine ⟨s, List.mem_append_right _ (List.mem_cons_of_mem _ hs), ?_⟩
        rw [heq]
        omega

/-- Code that puts a value aside while it evaluates an expression, and then loads the value. -/
theorem tidy_aside {e : Exp} (habove : e.Above limit) {lo mid start : Nat} {ss : List Spill}
    (h : Tidy limit whole lo mid ss) {offset : Int} (hoffset : offset ≤ limit)
    {is tail : List Instr}
    {r : Reg} {t t' : String} (hcode : e.Coded k (offset - 1) start is)
    (his : Holds whole (mid + 1) is →
      Tidy limit whole (mid + 1) (mid + 1 + is.length) (e.spills (offset - 1) (mid + 1)))
    (hholds : Holds whole mid
      (.rm .st .ac offset .fp t :: (is ++ .rm .ld r offset .fp t' :: tail)))
    (hquiet : ∀ i ∈ tail, i.Quiet limit) :
    Tidy limit whole lo (mid + 1 + is.length + 1 + tail.length)
      (ss ++ ⟨offset, mid, mid + 1 + e.size⟩ :: e.spills (offset - 1) (mid + 1)) := by
  rw [← length_code hcode.code_eq]
  exact h.spill hoffset hholds
    (fun x hx => (kind_of_code hcode.code_eq x hx).spares habove (by omega))
    (his (holds_append.mp (holds_cons.mp hholds).2).1) hquiet

/-- The code of an expression whose variables lie above the temporary cells, at any place in a list
of instructions. -/
theorem tidy (hlimit : limit < savedFrameOffset) {e : Exp} (habove : e.Above limit) {offset : Int}
    (hoffset : offset ≤ limit) {start place : Nat} {is : List Instr}
    (hcode : e.code k offset start = .ok is) (hholds : Holds whole place is) :
    Tidy limit whole place (place + is.length) (e.spills offset place) := by
  -- induction on how the code is made; `start` matters only to its jumps, so the place is free
  replace hcode := coded hcode
  induction hcode generalizing place with
  | int p n =>
    exact (Tidy.nil limit whole place).quiet hholds
      (List.forall_mem_singleton.mpr (Instr.quiet_of_base (by decide) _ _ _ _))
  | bool p b =>
    exact (Tidy.nil limit whole place).quiet hholds
      (List.forall_mem_singleton.mpr (Instr.quiet_of_base (by decide) _ _ _ _))
  | nil p => exact .nil limit whole place
  | @unary _ _ _ _ op e _ _ ih =>
    have he : e.Above limit := habove.part (List.mem_cons_of_mem _ e.self_mem_nodes)
    have hq : ∀ x ∈ unaryTail op, x.Quiet limit := by
      cases op with
      | neg =>
        simp only [unaryTail, List.forall_mem_cons]
        exact ⟨Instr.quiet_of_base (by decide) _ _ _ _, Instr.quiet_ro _ _ _ _ _,
          List.forall_mem_nil _⟩
      | not => exact Instr.quiet_truthValue _ _
    rw [holds_append] at hholds
    rw [List.length_append, ← Nat.add_assoc]
    exact (ih he hoffset hholds.1).quiet hholds.2 hq
  | @shortCircuit _ _ _ _ _ l r _ _ i j _ hop hi _ hskip ihl ihr =>
    have hl : l.Above limit := habove.part (by simp [Exp.nodes, Exp.self_mem_nodes])
    have hr : r.Above limit := habove.part (by simp [Exp.nodes, Exp.self_mem_nodes])
    simp only [holds_append, holds_cons] at hholds
    obtain ⟨hleft, hslot, hright⟩ := hholds
    -- no cell is kept across the right operand: the parts and the jump just follow each other
    simp only [Exp.spills, hop, ← Exp.length_code hi.code_eq, List.length_append, List.length_cons]
    have hjump := (ihl hl hoffset hleft).quiet (holds_cons.mpr ⟨hslot, holds_nil _ _⟩)
      (List.forall_mem_singleton.mpr (Instr.quiet_relative hskip))
    rw [show place + (i.length + (j.length + 1)) = place + i.length + 1 + j.length by omega]
    exact hjump.append (ihr hr hoffset hright)
  | @operation _ _ _ _ _ l r _ _ _ hop hi _ hj ihl ihr =>
    have hl : l.Above limit := habove.part (by simp [Exp.nodes, Exp.self_mem_nodes])
    have hr : r.Above limit := habove.part (by simp [Exp.nodes, Exp.self_mem_nodes])
    rw [holds_append] at hholds
    simp only [Exp.spills, hop, ← Exp.length_code hi.code_eq]
    -- the left value is set aside at `offset`, so the right operand has the cells below it
    have haside := tidy_aside hr (ihl hl hoffset hholds.1) hoffset hj (ihr hr (by omega)) hholds.2
      (List.forall_mem_singleton.mpr (Instr.quiet_ro _ _ _ _ _))
    convert haside using 1
    simp only [List.length_append, List.length_cons]
    omega
  | @comparison _ _ _ _ _ l r _ _ _ hop hi _ hj ihl ihr =>
    have hl : l.Above limit := habove.part (by simp [Exp.nodes, Exp.self_mem_nodes])
    have hr : r.Above limit := habove.part (by simp [Exp.nodes, Exp.self_mem_nodes])
    rw [holds_append] at hholds
    simp only [Exp.spills, hop, ← Exp.length_code hi.code_eq]
    have haside := tidy_aside hr (ihl hl hoffset hholds.1) hoffset hj (ihr hr (by omega)) hholds.2
      (List.forall_mem_cons.mpr ⟨Instr.quiet_ro _ _ _ _ _, Instr.quiet_truthValue _ _⟩)
    convert haside using 1
    simp only [List.length_append, List.length_cons]
    omega
  | @var _ _ _ v _ hload =>
    have hv := habove _ List.mem_cons_self v rfl
    exact (Tidy.nil limit whole place).quiet hholds
      (List.forall_mem_singleton.mpr (Instr.quiet_load hv hload))
  | @element _ _ _ v index _ _ _ ha ih =>
    have hv := habove _ List.mem_cons_self v rfl
    have hindex : index.Above limit :=
      habove.part (List.mem_cons_of_mem _ index.self_mem_nodes)
    simp only [holds_append, List.length_append, ← Nat.add_assoc] at hholds ⊢
    exact ((ih hindex hoffset hholds.1).quiet hholds.2.1
      (Instr.quiet_elementAddress hv ha)).quiet hholds.2.2
      (List.forall_mem_singleton.mpr (Instr.quiet_of_base (by decide) _ _ _ _))
  | @assign _ _ _ _ _ e _ _ _ hstore ih =>
    have he : e.Above limit := habove.part (List.mem_cons_of_mem _ e.self_mem_nodes)
    simp only [holds_append, List.length_append, ← Nat.add_assoc] at hholds ⊢
    exact (ih he hoffset hholds.1).quiet hholds.2
      (List.forall_mem_singleton.mpr (Instr.quiet_store hstore))
  | @assignElement _ _ _ _ v index e _ _ _ hi ha _ he ihi ihe =>
    have hv := habove _ List.mem_cons_self v rfl
    have hindex : index.Above limit := habove.part (by simp [Exp.nodes, Exp.self_mem_nodes])
    have hvalue : e.Above limit := habove.part (by simp [Exp.nodes, Exp.self_mem_nodes])
    rw [holds_append, holds_append] at hholds
    obtain ⟨hplace, haddress, hrest⟩ := hholds
    rw [Exp.spills, ← Exp.length_code hi.code_eq, ← VarUse.length_elementAddress ha]
    -- the address of the element is what is set aside here
    have haside := tidy_aside hvalue
      ((ihi hindex hoffset hplace).quiet haddress (Instr.quiet_elementAddress hv ha)) hoffset he
      (ihe hvalue (by omega)) hrest
      (List.forall_mem_singleton.mpr (Instr.quiet_of_base (by decide) _ _ _ _))
    convert haside using 1
    simp only [List.length_append, List.length_cons]
    omega
  | @call offset _ _ _ _ args a _ _ ha _ _ _ hjump ih =>
    have hargs : ∀ b ∈ args, b.Above limit := fun b hb =>
      habove.part (List.mem_cons_of_mem _ (mem_nodesAll.mpr ⟨b, hb, b.self_mem_nodes⟩))
    simp only [holds_append, List.length_append, ← Nat.add_assoc] at hholds ⊢
    obtain ⟨hput, hcopy, hcall⟩ := hholds
    have hpair : ∀ n < args.length, Holds whole (place + a.length + 2 * n)
        [.rm .ld .ac (offset - n) .fp "call: load argument",
         .rm .st .ac (offset - args.length - 2 - n) .fp "call: store parameter"] := fun n hn =>
      holds_flatMap (k := 2) (fun _ => rfl) hcopy (List.getElem?_range hn)
    obtain ⟨hputs, hloads⟩ := tidy_arguments
      (fun b hb _ _ _ _ ho hc hh => ih b hb hc (hargs b hb) ho hh) hargs hoffset
      (place + a.length) ha hput (Nat.le_refl _) (fun n hn => ⟨_, (holds_cons.mp (hpair n hn)).1⟩)
      (fun x i hlo hhi hx => Instr.spares_copyArguments i
        (hcopy.mem hlo (by rw [length_copyArguments]; omega) hx))
    rw [Exp.spills, ← length_argumentCode (fun _ _ => length_code) ha]
    refine Tidy.quiet ⟨hputs.spared, fun x r d t hlo hhi hx => ?_⟩ hcall
      (Instr.quiet_callSequence hlimit (Instr.quiet_relative hjump))
    rcases Nat.lt_or_ge x (place + a.length) with hlt | hge
    · exact hputs.loads x r d t hlo hlt hx
    · -- each argument is loaded by the first of the two instructions that copy it
      rw [length_copyArguments] at hhi
      obtain ⟨n, hn, rfl | rfl⟩ : ∃ n < args.length,
          x = place + a.length + 2 * n ∨ x = place + a.length + 2 * n + 1 :=
        ⟨(x - (place + a.length)) / 2, by omega, by omega⟩
      · exact Or.inr (hloads n hn)
      · rw [(holds_cons.mp (holds_cons.mp (hpair n hn)).2).1] at hx
        cases hx

end Exp

/-! ### Whether there is code

Offsets and jumps are listed as computations of the expression. As long as they come out exactly,
the generator can only be at fault because of a callee. -/

section Answers

variable {k : Linker} {ds : List VarDecl} {us : List String}

/-- Taking one more temporary cell goes well if the offset is exact. -/
theorem Meets.lowered {α : Type} {offset : Int} {f : Int → Except CodeFault α}
    (h : (Computation.sub offset 1).Exact) (hf : Meets us (f (offset - 1))) :
    Meets us (lowered offset 1 >>= f) :=
  .after h hf

/-- A jump goes well if its displacement is exact. -/
theorem Meets.jump {α : Type} {op : Opcode} {r : Reg} {address target : Nat} {comment : String}
    {f : Instr → Except CodeFault α} (h : (Computation.jump address target).Exact)
    (hf : ∀ i, Meets us (f i)) : Meets us (Instr.relative op r address target comment >>= f) :=
  .after (Except.bind_eq_ok_iff.mpr ⟨_, h.2.2, rfl⟩) (hf _)

/-- The address of an element goes well if its two jumps are exact. -/
theorem VarUse.PlacedIn.meets_elementAddress {v : VarUse} (hv : v.PlacedIn ds) {start : Nat}
    (h : ∀ c ∈ VarUse.computations start, c.Exact) : Meets [] (v.elementAddress start) := by
  obtain ⟨l, hl, -⟩ := hv
  obtain ⟨t, ht⟩ := v.load_of_layout hl .ac1
  simp only [VarUse.computations, List.forall_mem_cons] at h
  exact .after ht (.jump h.1 fun _ => .jump h.2.1 fun _ => .ok _)

/-- A callee that is not missing has an address, known or not. -/
theorem Linker.entry_of_not_misses {f : String} {here : Nat} (h : k.misses f = false) :
    ∃ target, k.entry f here = .ok target := by
  unfold Linker.entry
  cases hl : k.entries.lookup f with
  | some target => exact ⟨target, rfl⟩
  | none =>
    have hstrict : k.strict = false := by simpa [Linker.misses, hl] using h
    exact ⟨here, if_neg (by simp [hstrict])⟩

/-- The variables of a part of an expression are declared too. -/
theorem Exp.PlacedIn.part {e a : Exp} (h : e.PlacedIn ds) (ha : a ∈ e.nodes) : a.PlacedIn ds :=
  fun b hb => h b (Exp.nodes_subset ha hb)

/-- Arguments have code, if it is so for each of them. Induction on the list; the offset of the next
one is one below. -/
theorem Exp.meets_argumentCode {args : List Exp}
    (ih : ∀ a ∈ args, ∀ {offset start}, (∀ c ∈ a.computations k offset start, c.Exact) →
      Meets (a.callees.filter k.misses) (a.code k offset start)) {offset : Int} {i start : Nat}
    (h : ∀ c ∈ Exp.argumentComputations k offset i start args, c.Exact) :
    Meets ((Exp.calleesAll args).filter k.misses)
      (Exp.argumentCode k (offset - i) start args) := by
  induction args generalizing i start with
  | nil => exact .ok _
  | cons e rest hrest =>
    simp only [Exp.argumentComputations, List.forall_mem_append, List.forall_mem_cons] at h
    obtain ⟨⟨⟨-, -, hlower, -⟩, he⟩, -, hothers⟩ := h
    rw [Exp.argumentCode, Exp.calleesAll, List.filter_append]
    refine .lowered hlower ((ih e List.mem_cons_self he).bind fun is his => ?_)
    rw [Exp.length_code his, show offset - i - 1 = offset - (i + 1 : Nat) by omega]
    exact Meets.last (hrest (fun a ha => ih a (List.mem_cons_of_mem e ha)) hothers) fun _ _ => .ok _

/-- If no computation overflows, an expression has code unless it calls a function that has no
address. -/
theorem Exp.meets_code {e : Exp} (hplaced : e.PlacedIn ds) {offset : Int} {start : Nat}
    (h : ∀ c ∈ e.computations k offset start, c.Exact) :
    Meets (e.callees.filter k.misses) (e.code k offset start) := by
  induction e using Exp.induction generalizing offset start with
  | int p n => exact .ok _
  | bool p b => exact .ok _
  | nil p => exact .ok _
  | unary p t op e ih =>
    have he : e.PlacedIn ds := hplaced.part (List.mem_cons_of_mem _ e.self_mem_nodes)
    rw [Exp.code]
    refine Meets.last (ih he h) fun i _ => ?_
    cases op <;> exact .ok _
  | binary p t op l r ihl ihr =>
    have hl : l.PlacedIn ds := hplaced.part (by simp [Exp.nodes, Exp.self_mem_nodes])
    have hr : r.PlacedIn ds := hplaced.part (by simp [Exp.nodes, Exp.self_mem_nodes])
    simp only [Exp.computations, List.forall_mem_append] at h
    obtain ⟨hleft, hrest⟩ := h
    rw [Exp.code, Exp.callees, List.filter_append]
    refine (ihl hl hleft).bind fun i hi => ?_
    have hlen := Exp.length_code hi
    cases hop : op.combination with
    -- the right operand starts behind the slot of the jump, which is one more instruction
    | shortCircuit jump comment =>
      simp only [hop, List.forall_mem_append, List.forall_mem_cons, ← hlen] at hrest
      refine Meets.last (ihr hr hrest.1) fun j hj => ?_
      rw [Exp.length_code hj]
      exact .jump hrest.2.1 fun _ => .ok _
    | operation operation =>
      simp only [hop, List.forall_mem_cons, ← hlen] at hrest
      exact .lowered hrest.1 (Meets.last (ihr hr hrest.2) fun _ _ => .ok _)
    | comparison jump =>
      simp only [hop, List.forall_mem_cons, ← hlen] at hrest
      exact .lowered hrest.1 (Meets.last (ihr hr hrest.2) fun _ _ => .ok _)
  | var t v =>
    obtain ⟨l, hl, -⟩ := hplaced _ List.mem_cons_self v rfl
    obtain ⟨t, ht⟩ := v.load_of_layout hl .ac
    exact .after ht (.ok _)
  | element t v i ih =>
    have hv := hplaced _ List.mem_cons_self v rfl
    have hi : i.PlacedIn ds := hplaced.part (List.mem_cons_of_mem _ i.self_mem_nodes)
    simp only [Exp.computations, List.forall_mem_append] at h
    rw [Exp.code]
    refine Meets.last (ih hi h.1) fun is his => ?_
    rw [Exp.length_code his]
    exact (hv.meets_elementAddress h.2).bind fun _ _ => .ok _
  | assign p t v e ih =>
    obtain ⟨l, hl, -⟩ := hplaced _ List.mem_cons_self v rfl
    obtain ⟨t, ht⟩ := v.store_of_layout hl
    have he : e.PlacedIn ds := hplaced.part (List.mem_cons_of_mem _ e.self_mem_nodes)
    rw [Exp.code]
    exact Meets.last (ih he h) fun _ _ => .after ht (.ok _)
  | assignElement p t v i e ihi ihe =>
    have hv := hplaced _ List.mem_cons_self v rfl
    have hindex : i.PlacedIn ds := hplaced.part (by simp [Exp.nodes, Exp.self_mem_nodes])
    have hvalue : e.PlacedIn ds := hplaced.part (by simp [Exp.nodes, Exp.self_mem_nodes])
    simp only [Exp.computations, List.forall_mem_append, List.forall_mem_cons] at h
    obtain ⟨⟨hi, haddress⟩, hlower, he⟩ := h
    rw [Exp.code, Exp.callees, List.filter_append]
    refine (ihi hindex hi).bind fun is his => ?_
    rw [Exp.length_code his]
    refine Meets.bind (hv.meets_elementAddress haddress) fun js hjs => ?_
    rw [VarUse.length_elementAddress hjs]
    exact .lowered hlower (Meets.last (ihe hvalue he) fun _ _ => .ok _)
  | call p t f args ih =>
    have hargs : ∀ b ∈ args, b.PlacedIn ds := fun b hb =>
      hplaced.part (List.mem_cons_of_mem _ (Exp.mem_nodesAll.mpr ⟨b, hb, b.self_mem_nodes⟩))
    simp only [Exp.computations, List.cons_append, List.forall_mem_cons,
      List.forall_mem_append] at h
    obtain ⟨-, hput, hcall⟩ := h
    rw [Exp.code, Exp.callees, List.filter_append]
    have hcode := Exp.meets_argumentCode (i := 0) (fun b hb => ih b hb (hargs b hb)) hput
    rw [Int.ofNat_zero, Int.sub_zero] at hcode
    refine hcode.bind fun a ha => ?_
    dsimp only
    rw [Exp.length_argumentCode (fun _ _ => Exp.length_code) ha]
    refine .after (Linker.exact_lowest hcall) ?_
    -- a callee without an entry is what the generator reports; otherwise the jump is the last thing
    -- that can fail
    cases hf : k.misses f with
    | true =>
      rw [List.filter_cons_of_pos hf, Linker.entry_of_misses hf]
      rfl
    | false =>
      obtain ⟨target, htarget⟩ := Linker.entry_of_not_misses hf
      rw [List.filter_cons_of_neg (by simp [hf])]
      refine .after htarget (.jump (hcall _ (List.mem_append_right _ ?_)) fun _ => .ok _)
      rw [htarget]
      exact List.mem_singleton_self _

end Answers

/-! ### Functions of accepted programs

In a function the limit is the end of its frame: the variables lie above it. -/

/-- An expression assigns the variable that a declaration declares. -/
def Exp.Assigns (e : Exp) (d : VarDecl) : Prop :=
  ∃ p t v value, .assign p t v value ∈ e.nodes ∧ v.name = d.name ∧ v.layout = d.layout

/-- The code of an expression in a function keeps temporary values from `offset` down, and keeps
them until they are loaded. -/
structure FunDecl.Keeps (f : FunDecl) (offset : Int) (e : Exp) (is : List Instr) : Prop where
  /-- It stores in the frame at `offset` and below, and in parameters and locals that the expression
  assigns, which lie above the end of the frame. -/
  stores : ∀ r d t, .rm .st r d .fp t ∈ is → d ≤ offset ∨ f.frameEnd < d ∧
    ∃ v ∈ f.variables, e.Assigns v ∧ v.layout = some ⟨frameLevel, d, v.shape.storage⟩
  spared : ∀ s ∈ e.spills offset 0, s.Spared f.frameEnd is
  /-- What it loads from below the variables was put aside. -/
  loads : ∀ x r d t, is[x]? = some (.rm .ld r d .fp t) →
    f.frameEnd < d ∨ ∃ s ∈ e.spills offset 0, s.loaded = x

/-- The variables of a function lie above the end of its frame. -/
theorem FunDecl.Framed.above {f : FunDecl} (hf : f.Framed) {e : Exp} (he : e ∈ f.expressions) :
    e.Above f.frameEnd := by
  intro a ha v hv l hl
  obtain ⟨l', hl', hplaced⟩ := hf.named e he a ha v hv
  obtain rfl := Option.some.inj (hl.symm.trans hl')
  refine hplaced.imp_right ?_
  rintro ⟨d, hd, -, hlayout⟩
  obtain ⟨offset, hoffset, hlt⟩ := hf.placed d hd
  obtain rfl := Option.some.inj (hlayout.symm.trans hoffset)
  exact hlt

/-- Every expression in a function of an accepted program, with temporary values from any offset
down that is not above the end of the frame. If no computation of offsets or jumps overflows, it has
code unless it calls a function that has no address. Each value that the code puts aside, be it the
left operand of an operator, the address of an element or an argument, stays in its cell until it is
loaded: stores in between go to variables or to cells below it, and calls in between open frames
that lie below it. -/
theorem spills_spared {tree : Program} {trace : Bool} (hok : (analyze tree trace).errors = [])
    {f : FunDecl} (hf : f ∈ (analyze tree trace).program.functions) {e : Exp}
    (he : e ∈ f.expressions) {offset : Int} (hoffset : offset ≤ f.frameEnd) (k : Linker)
    (start : Nat) :
    ((∀ c ∈ e.computations k offset start, c.Exact) →
        Meets (e.callees.filter k.misses) (e.code k offset start)) ∧
      ∀ is, e.code k offset start = .ok is → f.Keeps offset e is := by
  have hframed := analyze_framed hok f hf
  have hplaced := hframed.named e he
  refine ⟨Exp.meets_code hplaced, fun is hcode => ?_⟩
  have hlimit : f.frameEnd < savedFrameOffset := Int.lt_of_le_of_lt hframed.below (by decide)
  have htidy := Exp.tidy hlimit (hframed.above he) hoffset hcode (holds_self is)
  refine ⟨?_, htidy.spared, ?_⟩
  · intro r d t hmem
    refine (Exp.kind_of_code hcode _ hmem).store_le.imp_right ?_
    rintro ⟨p, ty, v, a, l, hassign, hl, hbase, rfl⟩
    obtain ⟨l', hl', hhome⟩ := hplaced _ hassign v rfl
    obtain rfl := Option.some.inj (hl.symm.trans hl')
    rcases hhome with hglobal | ⟨x, hx, hname, hlayout⟩
    · rw [Layout.base_eq_fp_iff.mp hbase] at hglobal
      cases hglobal
    · obtain ⟨offset', hoffset', hlt⟩ := hframed.placed x hx
      obtain rfl := Option.some.inj (hlayout.symm.trans hoffset')
      exact ⟨hlt, x, hx, ⟨p, ty, v, a, hassign, hname.symm, hl.trans hlayout.symm⟩, hlayout⟩
  · intro x r d t hx
    have hlt := (List.getElem?_eq_some_iff.mp hx).1
    exact htidy.loads x r d t (Nat.zero_le x) (by omega) hx

/-- An assignment to an element, with an assignment and nested calls on its right side. -/
def layeredSource : String :=
  "int g(int a, int b) \x7b return a + b; \x7d int f(int x) \x7b int y[3]; int z; " ++
    ("y[x] = (z = 1) + g(x * 2, y[0] - g(x, z)); return z; \x7d " ++
      "void main(void) \x7b output(f(1)); \x7d")

/-- The first expression of the second function of an accepted program, with its code. -/
def secondOf? (source : String) : Option (Program × FunDecl × Exp × List Instr) :=
  (parse source).toOption.bind fun tree =>
    if (analyze tree false).errors = [] then
      ((analyze tree false).program.functions[1]?).bind fun f =>
        f.expressions.head?.bind fun e =>
          (e.code ⟨[], false⟩ f.frameEnd 0).toOption.map fun is => (tree, f, e, is)
    else none

/-- The values of the assignment in the order of the code, with their cells and places. -/
theorem spills_spared_layered : ∃ tree f e is, parse layeredSource = .ok tree ∧
    (analyze tree false).errors = [] ∧ f ∈ (analyze tree false).program.functions ∧
    e ∈ f.expressions ∧ f.frameEnd = -8 ∧ e.code ⟨[], false⟩ f.frameEnd 0 = .ok is ∧
    e.spills f.frameEnd 0 = [⟨-8, 9, 57⟩, ⟨-9, 12, 55⟩, ⟨-11, 14, 16⟩, ⟨-10, 18, 46⟩,
      ⟨-12, 29, 43⟩, ⟨-13, 31, 34⟩, ⟨-14, 33, 36⟩, ⟨-11, 45, 48⟩] ∧
    f.Keeps f.frameEnd e is := by
  have hsome : ((secondOf? layeredSource).map fun (_, f, e, _) =>
      (f.frameEnd, e.spills f.frameEnd 0)) =
        some (-8, [⟨-8, 9, 57⟩, ⟨-9, 12, 55⟩, ⟨-11, 14, 16⟩, ⟨-10, 18, 46⟩, ⟨-12, 29, 43⟩,
          ⟨-13, 31, 34⟩, ⟨-14, 33, 36⟩, ⟨-11, 45, 48⟩]) := by
    have hascii : Ascii layeredSource _ := .append ⟨rfl, rfl⟩ (.append ⟨rfl, rfl⟩ ⟨rfl, rfl⟩)
    rw [secondOf?, parse, hascii.scan_eq]
    decide +kernel
  obtain ⟨⟨tree, f, e, is⟩, hsecond, hspills⟩ := Option.map_eq_some_iff.mp hsome
  obtain ⟨hend, hspills⟩ := Prod.mk.inj hspills
  obtain ⟨tree', hparse, hsecond⟩ := Option.bind_eq_some_iff.mp hsecond
  rw [Option.ite_none_right_eq_some] at hsecond
  obtain ⟨hok, hsecond⟩ := hsecond
  obtain ⟨f', hf, hsecond⟩ := Option.bind_eq_some_iff.mp hsecond
  obtain ⟨e', he, hsecond⟩ := Option.bind_eq_some_iff.mp hsecond
  obtain ⟨is', hcode, hsecond⟩ := Option.map_eq_some_iff.mp hsecond
  cases hsecond
  have hf := List.mem_of_getElem? hf
  have he := List.mem_of_head? he
  have hcode := Except.eq_ok_of_toOption hcode
  exact ⟨tree, f, e, is, Except.eq_ok_of_toOption hparse, hok, hf, he, hend, hcode, hspills,
    (spills_spared hok hf he (Int.le_refl _) ⟨[], false⟩ 0).2 is hcode⟩

end MiniC
