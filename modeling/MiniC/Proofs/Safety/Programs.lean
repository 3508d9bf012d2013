import MiniC.Machine.Tape
import MiniC.Proofs.Safety.Functions
import MiniC.Proofs.Scanning.Lexemes
import MiniC.Proofs.Steps

/-!
# Safe programs

A new machine runs the fixed code at the start of a program, brings the global arrays into
existence, and calls `main`. Every state on the way is good, whatever the program does.

* `startup_safe`, `laid_safe`, `finale_safe`: the three parts
* `Compiles.safe`: a new machine is safe for any number of steps
* `run_orderly`: how a run can end
* `arrays_intact`: arrays keep their lengths, and accesses stay inside them
* `stack_intact`: frames are chained, and nothing damages them
-/

namespace MiniC

variable {σ : Type} {P : Scene σ} {book : Book}

/-! ### Global declarations

Induction on the layout. Before `main` is called only the lengths of global arrays are stored. -/

/-- The code outside of functions runs before the call of `main`. -/
structure Starting (P : Scene σ) (c : Core) (gs : List Extent) : Prop where
  sane : c.Sane
  gp_eq : c.gp = P.top
  fp_eq : c.fp = P.top
  sound : Sound P c.mem ⟨gs, []⟩
  /-- Nothing was stored below the global cells. -/
  zeros : ∀ x ≤ P.base, c.mem.read x = 0

/-- The arrays among these global variables exist, and no others. -/
structure Existing (P : Scene σ) (slots : List Slot) (gs : List Extent) : Prop where
  exist : ∀ v ∈ slots, ∀ n, v.shape = .array n → (⟨P.top + v.offset, n⟩ : Extent) ∈ gs
  only : ∀ e ∈ gs, ∃ v ∈ slots, v.shape = .array e.size ∧ e.base = P.top + v.offset

section Globals

variable {c : Core} {io : σ} {gs : List Extent} {n : Nat}

/-- An existing global array that shares a cell with a slot belongs to the slot. -/
theorem Existing.extent_of_slot (hP : P.Fits) {slots : List Slot} (h : Existing P slots gs)
    (hslots : ∀ v ∈ slots, v ∈ P.globals) {v : Slot} (hv : v ∈ P.globals) {size : Nat}
    (hshape : v.shape = .array size) {e : Extent} (he : e ∈ gs) :
    e = ⟨P.top + v.offset, size⟩ ∨ e.base + e.size < P.top + v.offset ∨
      P.top + v.offset + size < e.base := by
  have htop : v.top = v.offset + size := by simp [Slot.top, hshape, Shape.elements]
  obtain ⟨w, hw, hw', hbase⟩ := h.only e he
  by_cases hvw : v = w
  · subst hvw
    rw [hshape] at hw'
    cases hw'
    left
    cases e
    simp_all
  · have htop' : w.top = w.offset + e.size := by simp [Slot.top, hw', Shape.elements]
    rcases hP.tiled.apart_of_ne hv (hslots w hw) hvw with hap | hap
    · exact Or.inr (Or.inr (by omega))
    · exact Or.inr (Or.inl (by omega))

/-- The invariant when the length of a global array has been stored. -/
theorem Starting.sound_declare (hP : P.Fits) {slots : List Slot} (h : Starting P c gs)
    (hgs : Existing P slots gs) (hslots : ∀ v ∈ slots, v ∈ P.globals) {v : Slot}
    (hv : v ∈ P.globals) {size : Nat} (hshape : v.shape = .array size)
    (hpos : 0 < P.top + v.offset) :
    Sound P (c.mem.write (P.top + v.offset) (Int64.ofInt size))
      ⟨gs.insert ⟨P.top + v.offset, size⟩, []⟩ := by
  have hwithin := hP.tiled.within v hv
  have htop : v.top = v.offset + size := by simp [Slot.top, hshape, Shape.elements]
  have hlive : ∀ e, e ∈ (⟨gs.insert ⟨P.top + v.offset, size⟩, []⟩ : Shadow).live →
      e = ⟨P.top + v.offset, size⟩ ∨ e ∈ gs := by
    intro e he
    simpa [Shadow.live, List.mem_insert_iff] using he
  have hmem : ∀ e ∈ gs, e ∈ (⟨gs, []⟩ : Shadow).live := by
    intro e he
    simpa [Shadow.live] using he
  -- as in `InFrame.sound_declare`, but no function runs yet, so there are no frames
  have hslot : ∀ e ∈ gs, _ := fun e he => hgs.extent_of_slot hP hslots hv hshape he
  refine ⟨?_, ?_, trivial, trivial, ?_, ?_, ?_⟩
  · rw [Memory.read_write_of_ne hpos (by omega), h.sound.zero]
  · intro e he
    rcases hlive e he with rfl | he
    · exact Memory.read_write_self _ _ _
    · rcases hslot e he with rfl | hap | hap
      · exact Memory.read_write_self _ _ _
      · rw [Memory.read_write_of_ne hpos (by omega), h.sound.lengths e (hmem e he)]
      · rw [Memory.read_write_of_ne hpos (by omega), h.sound.lengths e (hmem e he)]
  · intro b hb
    cases hb
  · intro e he
    rcases List.mem_insert_iff.mp he with rfl | he
    · unfold Scene.base
      exact ⟨hpos, by show P.top + P.globalsEnd < P.top + v.offset; omega,
        by show P.top + v.offset + size ≤ P.top; omega⟩
    · exact h.sound.globals e he
  · intro e he e' he' hne
    rcases hlive e he with rfl | he
    · rcases hlive e' he' with rfl | he'
      · exact absurd rfl hne
      · rcases hslot e' he' with rfl | hap | hap
        · exact absurd rfl hne
        · exact Or.inr hap
        · exact Or.inl hap
    · rcases hlive e' he' with rfl | he'
      · rcases hslot e he with rfl | hap | hap
        · exact absurd rfl hne
        · exact Or.inl hap
        · exact Or.inr hap
      · exact h.sound.apart e (hmem e he) e' (hmem e' he') hne

theorem Starting.stable (h : Starting P c gs) {mk : Mark} (hmk : mk.inside = false) :
    Stable P c ⟨gs, []⟩ mk :=
  ⟨h.sound.lengths, fun hin => by rw [hmk] at hin; cases hin⟩

/-- The length of a global array is stored, and the array exists from then on. -/
theorem Starting.declare (hP : P.Fits) {slots : List Slot} (h : Starting P c gs)
    (hgs : Existing P slots gs) (hslots : ∀ v ∈ slots, v ∈ P.globals) {v : Slot}
    (hv : v ∈ P.globals) {size : Nat} (hshape : v.shape = .array size)
    (hac : c.ac = Int64.ofInt size) {t : String}
    (hi : P.code[c.pc]? = some (.rm .st .ac v.offset .gp t))
    (hmk : P.marks[c.pc]? = some (.declareGlobal size))
    (hnext : ∀ m < n, ∀ c', c'.pc = c.pc + 1 →
      Starting P c' (gs.insert ⟨P.top + v.offset, size⟩) →
      Existing P (slots ++ [v]) (gs.insert ⟨P.top + v.offset, size⟩) →
      Safe P m ⟨c'.machine, io, ⟨gs.insert ⟨P.top + v.offset, size⟩, []⟩⟩ book) :
    Safe P n ⟨c.machine, io, ⟨gs, []⟩⟩ book := by
  have hwithin := hP.tiled.within v hv
  have hfits := hP.tiled.fits (by decide)
  have htop := v.offset_le_top
  unfold minOffset at hfits
  have hbase : v.offset + c.origin true = P.top + v.offset := by
    show v.offset + c.gp = P.top + v.offset
    rw [h.gp_eq]
    omega
  have hreg : v.offset + (c.machine.reg .gp).toInt = P.top + v.offset := by
    rw [← hbase]
    exact congrArg _ (h.sane.toInt_origin true)
  have hprotected : ¬(⟨c.machine, io, ⟨gs, []⟩⟩ : Watched σ).Protected P.marks
      (P.top + v.offset) := by
    rintro (⟨b, hb, hor⟩ | ⟨⟨b, hb, -⟩, -⟩)
    · simp [Watched.settled, hP.mark_eq hi, hmk] at hb
    · cases hb
  have hgood : Recording P ⟨c.machine, io, ⟨gs, []⟩⟩ → _ → _ →
      Good P ⟨c.machine, io, ⟨gs, []⟩⟩ book :=
    good_store hP hi hmk hreg (h.stable rfl)
    (fun e he heq => by
      have he : e ∈ gs := by simpa [Shadow.live] using he
      rcases hgs.extent_of_slot hP hslots hv hshape he with rfl | hap | hap
      · exact Or.inl ⟨rfl, he⟩
      · omega
      · omega)
    hprotected (fun hs => absurd hs (by decide))
  have hrecording : _ → Recording P ⟨c.machine, io, ⟨gs, []⟩⟩ :=
    recording_of_store hP hi hmk (by decide) hreg (fun hs => absurd hs (by decide))
  have hstep : P.step c.machine io = _ := Core.step_st_base (g := true) hP.size_lt h.sane
    (by omega) (by omega) (code_at hi)
  rw [hbase] at hstep
  -- in a memory too small for the global cells the store overflows the stack
  by_cases hpos : 0 < P.top + v.offset
  · rw [if_pos hpos] at hstep
    apply Safe.step_lt (hgood (hrecording fun _ => hpos) Mark.noConfusion
      (by rw [hstep]; exact .goesOn)) hstep
    have hshadow : (⟨gs, []⟩ : Shadow).step P.code.toArray P.marks c.machine
        = ⟨gs.insert ⟨P.top + v.offset, size⟩, []⟩ := by
      have hstored := hP.stored_eq hi
      rw [hreg] at hstored
      unfold Shadow.step
      rw [hP.mark_eq hi, hmk]
      simp only [hstored, Option.getD_some]
    rw [hshadow, hP.note_eq hi (Instr.noted_of_base (by decide) _ _ _ _) hmk rfl]
    intro m hm
    apply hnext m hm
    · rfl
    · have hsound := h.sound_declare hP hgs hslots hv hshape hpos
      rw [← hac] at hsound
      refine ⟨⟨h.sane.fp_nonneg, h.sane.fp_le, h.sane.gp_lt, h.sane.size_eq⟩, h.gp_eq,
        h.fp_eq, hsound, ?_⟩
      -- the frames begin below the global cells, and nothing is stored there yet
      intro x hx
      show (c.mem.write (P.top + v.offset) c.ac).read x = 0
      unfold Scene.base at hx
      rw [Memory.read_write_of_ne hpos (by omega)]
      exact h.zeros x hx
    · constructor
      · intro w hw k hk
        rcases List.mem_append.mp hw with hw | hw
        · exact List.mem_insert_iff.mpr (Or.inr (hgs.exist w hw k hk))
        · obtain rfl := List.mem_singleton.mp hw
          rw [hshape] at hk
          cases hk
          exact List.mem_insert_iff.mpr (Or.inl rfl)
      · intro e he
        rcases List.mem_insert_iff.mp he with rfl | he
        · exact ⟨v, List.mem_append_right _ (List.mem_singleton.mpr rfl), hshape, rfl⟩
        · obtain ⟨w, hw, hw'⟩ := hgs.only e he
          exact ⟨w, List.mem_append_left _ hw, hw'⟩
  · rw [if_neg hpos] at hstep
    apply Safe.stop (hgood (hrecording fun hgo => by rw [hstep] at hgo; cases hgo)
      Mark.noConfusion _)
      hstep
    rw [hstep]
    exact .stackOverflow _

/-- A variable that is no array adds nothing. -/
theorem Existing.skip {slots : List Slot} (h : Existing P slots gs) {v : Slot}
    (hshape : ∀ k, v.shape ≠ .array k) : Existing P (slots ++ [v]) gs := by
  constructor
  · intro w hw k hk
    rcases List.mem_append.mp hw with hw | hw
    · exact h.exist w hw k hk
    · obtain rfl := List.mem_singleton.mp hw
      exact absurd hk (hshape k)
  · intro e he
    obtain ⟨w, hw, hw'⟩ := h.only e he
    exact ⟨w, List.mem_append_left _ hw, hw'⟩

theorem forall_mem_snoc {α : Type} {p : α → Prop} {l : List α} {x : α} (h : ∀ y ∈ l, p y)
    (hx : p x) : ∀ y ∈ l ++ [x], p y := by
  intro y hy
  rcases List.mem_append.mp hy with hy | hy
  · exact h y hy
  · obtain rfl := List.mem_singleton.mp hy
    exact hx

/-- The declarations of a program bring its global arrays into existence, and pass over its
functions. -/
theorem laid_safe (hP : P.Fits) {S S' : ScopeTable} {next next' : Int} {start : Nat}
    {ds : List Decl}
    {is : List Instr} (h : Laid true P.pool S next start ds S' next' is)
    (hcode : Holds P.code start is) (hend : start + is.length < 2 ^ 31)
    (hmarks : Holds P.marks start ((Decl.checkAll S next ds).value.flatMap Decl.marks))
    (hrest : ∀ v ∈ Decl.slots (Decl.checkAll S next ds).value, v ∈ P.globals) {slots : List Slot}
    (hslots : ∀ v ∈ slots, v ∈ P.globals) (hgs : Existing P slots gs) (hpc : c.pc = start)
    (hstart : Starting P c gs)
    (hnext : ∀ m ≤ n, ∀ (c' : Core) (gs' : List Extent), c'.pc = start + is.length →
      Starting P c' gs' →
      Existing P (slots ++ Decl.slots (Decl.checkAll S next ds).value) gs' →
      Safe P m ⟨c'.machine, io, ⟨gs', []⟩⟩ book) :
    Safe P n ⟨c.machine, io, ⟨gs, []⟩⟩ book := by
  -- along the layout: `slots` and `gs` grow by what the declarations passed so far have brought
  induction h generalizing c gs n slots with
  | nil S next start =>
    apply hnext n (Nat.le_refl n) c gs hpc hstart
    simpa [Decl.checkAll, Decl.slots] using hgs
  | @var S S₁ S₂ next next₂ start d l rest is hd hcheck hlaid ih =>
    simp only [Decl.checkAll, hcheck, List.flatMap_cons, Decl.marks, holds_append, Decl.slots,
      VarDecl.length_marks hd .gp, VarDecl.length_lengthCode hd] at hcode hmarks hrest hnext
    rw [List.length_append, VarDecl.length_lengthCode hd] at hend hnext
    have hslot := hrest _ List.mem_cons_self
    have hrest' : ∀ v ∈ Decl.slots (Decl.checkAll S₁ (l.offset - 1) rest).value, v ∈ P.globals :=
      fun v hv => hrest v (List.mem_cons_of_mem _ hv)
    -- only an array has code, which stores its length
    by_cases hshape : ∃ size, d.shape = .array size
    · obtain ⟨size, hshape⟩ := hshape
      obtain ⟨hlength, hmark⟩ := hd.code_array hshape .gp .outside .declareGlobal
      simp only [hlength, hmark, holds_cons] at hcode hmarks
      obtain ⟨⟨hconst, hstore, -⟩, hcode⟩ := hcode
      obtain ⟨⟨hmconst, hmstore, -⟩, hmarks⟩ := hmarks
      have hsize : d.shape.size = 2 := by
        rw [hshape]
        rfl
      subst hpc
      apply (hstart.stable rfl).constant hP hconst (Or.inl rfl) hmconst (Or.inr rfl)
      intro m₁ hm₁
      have hstart₁ : Starting P (c.next.put .ac (Int64.ofInt size)) gs :=
        ⟨⟨hstart.sane.fp_nonneg, hstart.sane.fp_le, hstart.sane.gp_lt, hstart.sane.size_eq⟩,
          hstart.gp_eq, hstart.fp_eq, hstart.sound, hstart.zeros⟩
      apply hstart₁.declare hP hgs hslots hslot hshape rfl hstore hmstore
      intro m₂ hm₂ c₂ hpc₂ hstart₂ hgs₂
      apply ih hcode (by omega) hmarks hrest' (forall_mem_snoc hslots hslot) hgs₂
        (by rw [hpc₂, hsize]; rfl) hstart₂
      intro m₃ hm₃ c₃ gs₃ hpc₃ hstart₃ hgs₃
      apply hnext m₃ (by omega) c₃ gs₃ (by omega) hstart₃
      simpa using hgs₃
    · have hzero : d.shape.size = 0 := by
        cases hs : d.shape with
        | scalar => rfl
        | reference => rfl
        | array size => exact absurd ⟨size, hs⟩ hshape
      rw [hzero] at ih hcode hmarks hend hnext
      have hgs' := hgs.skip (v := { d with layout := some l }.slot) fun k hk => hshape ⟨k, hk⟩
      apply ih hcode.2 (by omega) hmarks.2 hrest' (forall_mem_snoc hslots hslot) hgs' hpc hstart
      intro m hm c' gs' hpc' hstart' hgs'
      apply hnext m hm c' gs' (by omega) hstart'
      simpa using hgs'
  | prototype hbody hann hscopes hnext' hvalue hlaid ih =>
    simp only [Decl.checkAll, Decl.check, hscopes, hnext', List.flatMap_cons, Decl.marks, hvalue,
      List.nil_append, Decl.slots] at hmarks hrest hnext
    exact ih hcode hend hmarks hrest hslots hgs hpc hstart hnext
  | @definition S S₁ S₂ next next₂ start f body code is jump rest hdef hjump hlaid ih =>
    obtain ⟨Sp, np, ps, frameEnd, k, checked, -, -, -, hemits, hchecked, hvalue⟩ := hdef.emitted
    have hlen := hemits.length_marks
    have hframed : (f.framed code).length = code.length + 2 := by
      simp only [FunDecl.framed, List.length_cons, List.length_append, List.length_nil]
    simp only [Decl.checkAll, Decl.check, hdef.scopes_eq, hdef.next_eq, List.flatMap_cons,
      Decl.marks, hchecked, ← hvalue, List.cons_append, holds_cons,
        Decl.slots] at hmarks hrest hnext
    simp only [List.length_cons, List.length_append] at hend hnext
    rw [holds_cons, holds_append] at hcode
    obtain ⟨hjump', -, hcode⟩ := hcode
    obtain ⟨hmjump, -, hmarks⟩ := hmarks
    rw [holds_append, List.length_append, hlen] at hmarks
    have hmarks := hmarks.2
    rw [show start + 1 + 1 + (code.length + [Mark.leave].length) =
      start + 1 + (f.framed code).length by
      rw [hframed]; simp; omega] at hmarks
    obtain rfl := Instr.relative_eq_ok hjump (by omega) (by omega)
    rw [← hpc] at hjump' hmjump
    -- the body is not entered here: a jump leads past it to the next declaration
    have hstep : P.step c.machine io = _ := Core.step_jump (n := start + 1 + (f.framed code).length)
      hP.size_lt (by omega) (by omega) (code_at hjump')
    apply (hstart.stable rfl).go hP hjump' hmjump (Or.inr rfl) rfl hstep
    intro m hm
    apply ih hcode (by omega) hmarks hrest hslots hgs rfl
    · exact ⟨⟨hstart.sane.fp_nonneg, hstart.sane.fp_le, hstart.sane.gp_lt, hstart.sane.size_eq⟩,
        hstart.gp_eq, hstart.fp_eq, hstart.sound, hstart.zeros⟩
    · intro m₁ hm₁ c₁ gs₁ hpc₁
      exact hnext m₁ (by omega) c₁ gs₁ (by omega)

end Globals

/-! ### The fixed code and the call of `main`

The invariant does not hold yet at the start, where the registers have not been set up. -/

section Fixed

variable {io : σ} {n : Nat}

/-- The fixed code sets the base registers and clears cell 0. -/
theorem startup_safe (hP : P.Fits) {top : Nat} (htop : P.top = top)
    (hcode : Holds P.code 0 startupCode) {t : String}
    (hskip : P.code[3]? = some (.rm .lda .pc 17 .pc t))
    (hnext : ∀ m ≤ n, ∀ c : Core, c.pc = bodyStart → Starting P c [] →
      Safe P m ⟨c.machine, io, ⟨[], []⟩⟩ book) :
    Safe P n ⟨(Core.mk 0 0 0 0 0 (Memory.fresh top)).machine, io, ⟨[], []⟩⟩ book := by
  have htop_lt := hP.top_lt
  have hge := hP.globalsEnd_le
  simp only [startupCode, holds_cons] at hcode
  obtain ⟨h₀, h₁, h₂, -⟩ := hcode
  have m₀ : P.marks[0]? = some .outside := hP.marks 0 (by decide)
  have m₁ : P.marks[1]? = some .outside := hP.marks 1 (by decide)
  have m₂ : P.marks[2]? = some .outside := hP.marks 2 (by decide)
  have m₃ : P.marks[3]? = some .outside := hP.marks 3 (by decide)
  have hstable : ∀ c : Core, Stable P c ⟨[], []⟩ .outside :=
    fun c => ⟨fun e he => absurd he List.not_mem_nil, fun hin => Bool.noConfusion hin⟩
  -- four instructions run one after the other: `gp`, `fp`, cell 0, and the jump to the body
  have hstep₀ : P.step (Core.mk 0 0 0 0 0 (Memory.fresh top)).machine io = _ :=
    Core.step_startup_gp hP.size_lt (by rw [List.getElem?_toArray]; exact h₀)
  apply (hstable _).go hP h₀ m₀ (Or.inr rfl) rfl hstep₀
  intro n₁ hn₁
  have hstep₁ : P.step (Core.mk 1 0 0 0 top (Memory.fresh top)).machine io = _ :=
    Core.step_startup_fp hP.size_lt (by omega) (by rw [List.getElem?_toArray]; exact h₁)
  apply (hstable _).go hP h₁ m₁ (Or.inr rfl) rfl hstep₁
  intro n₂ hn₂
  have hstep₂ : P.step (Core.mk 2 0 0 top top (Memory.fresh top)).machine io = _ :=
    Core.step_startup_clear hP.size_lt rfl (by rw [List.getElem?_toArray]; exact h₂)
  have hrecording : Recording P
      ⟨(Core.mk 2 0 0 top top (Memory.fresh top)).machine, io, ⟨[], []⟩⟩ := by
    refine ⟨fun _ _ => Or.inl ⟨rfl, rfl⟩,
      fun _ _ => hP.stored_eq (c := Core.mk 2 0 0 top top _) h₂, fun r d s t hcur => ?_⟩
    cases (hP.current_eq (c := Core.mk 2 0 0 top top _) h₂).symm.trans hcur
    decide
  -- cell 0 is cleared before there is any frame or array, so nothing is protected yet
  have hgood₂ : Good P ⟨(Core.mk 2 0 0 top top (Memory.fresh top)).machine, io, ⟨[], []⟩⟩ book := by
    apply good_store hP h₂ m₂ (x := 0) rfl (hstable _) _ _ _ hrecording Mark.noConfusion
    · rw [hstep₂]
      exact .goesOn
    · intro e he
      cases he
    · rintro (⟨b, hb, -⟩ | ⟨⟨b, hb, -⟩, -⟩)
      · unfold Watched.settled at hb
        split at hb <;> cases hb
      · cases hb
    · intro _ hpc
      exact absurd hpc (show ¬bodyStart ≤ 2 by decide)
  apply Safe.step_quiet (c := Core.mk 2 0 0 top top (Memory.fresh top)) hP h₂ rfl m₂ rfl rfl
    hgood₂ hstep₂
  intro n₃ hn₃
  have hstep₃ : P.step (Core.mk 3 0 0 top top ((Memory.fresh top).write 0 0)).machine io = _ :=
    Core.step_jump (n := bodyStart) (d := 17) hP.size_lt rfl (by decide)
      (by rw [List.getElem?_toArray]; exact hskip)
  apply (hstable _).go hP hskip m₃ (Or.inr rfl) rfl hstep₃
  intro m hm
  have hread := Memory.read_fresh_clear top
  apply hnext m (by omega) _ rfl
  refine ⟨⟨?_, ?_, ?_, ?_⟩, htop.symm, htop.symm, ⟨hread 0, ?_, trivial, trivial, ?_, ?_, ?_⟩,
    fun x _ => hread x⟩
  · show (0 : Int) ≤ top
    omega
  · exact Int.le_refl (top : Int)
  · show (top : Int) < 2 ^ 60
    omega
  · show ((top + 1 : Nat) : Int) = top + 1
    omega
  · intro e he
    cases he
  · intro b hb
    cases hb
  · intro e he
    cases he
  · intro e he
    cases he

/-- The program calls `main` and halts. -/
theorem finale_safe (hP : P.Fits) (hcalls : CallsSafe P n) {c : Core} {gs : List Extent}
    (h : Starting P c gs) (hgs : Existing P P.globals gs) {main : Nat} {r : BaseType}
    {tys : List Ty}
    (hpool : ("main", main) ∈ P.pool) (hsig : P.scope.Signature "main" r tys)
    (hlow : -2 ^ 31 ≤ P.globalsEnd - 1) {start : Nat} (hpc : c.pc = start) {t : String}
    (hcode : Holds P.code start (callSequence P.globalsEnd
      (.rm .lda .pc (main - (start + 4 : Nat)) .pc t) ++ [.ro .halt .unused .unused .unused ""]))
    (hmarks : Holds P.marks start finaleMarks) : Safe P n ⟨c.machine, io, ⟨gs, []⟩⟩ [] := by
  have hge := hP.globalsEnd_le
  rw [holds_append, holds_cons] at hcode
  obtain ⟨hsequence, hhalt, -⟩ := hcode
  have hmarks : Holds P.marks start ([.outside, .outside, .outside, .call [], .resume] ++
      [.outside]) :=
    hmarks
  obtain ⟨hmsequence, hmarks⟩ := holds_append.mp hmarks
  obtain ⟨hmhalt, -⟩ := holds_cons.mp hmarks
  have hcaller : Caller P c gs [] := ⟨h.sane, h.gp_eq, h.fp_eq, h.sound, hgs.exist, hgs.only⟩
  have hroom : Room P [] P.base :=
    ⟨Int.le_refl _, fun b hb => absurd hb List.not_mem_nil, fun e he => absurd he List.not_mem_nil,
      fun _ => rfl⟩
  -- nothing is passed to `main`, and its parameters are still zero
  have hpasses : Passes c.mem gs [] P.base tys
      ((⟨gs, []⟩ : Shadow).passed P.top firstParamOffset []) := by
    intro i ty _ _
    exact ⟨h.zeros _ (by omega), fun e he => by cases he⟩
  have hgives : Gives c.mem [] P.base tys [] :=
    ⟨fun hne => absurd rfl hne, fun _ => rfl, fun i _ => h.zeros _ (by omega)⟩
  have hnote : ∀ m : Machine, m.mark P.marks = some (.call []) → P.note m [] =
      [⟨⟨[], []⟩, []⟩] := by
    intro m hm
    simp only [Scene.note, Book.step, hm]
  apply callSequence_safe hP hcalls (Nat.le_refl n) hpool (hP.pool_lt _ hpool) hsig hcaller hge hlow
    (by rw [h.fp_eq]; unfold Scene.base; omega) hroom hpc rfl hsequence hmsequence (Or.inr rfl)
    (Or.inr rfl) hpasses hgives hnote
  intro m hm c' io' hpc' hcaller' _
  have hlen : start + (callSequence P.globalsEnd
      (.rm .lda .pc (main - (start + 4 : Nat)) .pc t)).length = c'.pc := hpc'.symm
  have hlen' : start + [Mark.outside, .outside, .outside, .call [], .resume].length = c'.pc :=
    hpc'.symm
  rw [hlen] at hhalt
  rw [hlen'] at hmhalt
  have hstep : P.step c'.machine io' = _ := Core.step_halt hP.size_lt (code_at hhalt)
  have hstable : Stable P c' ⟨gs, []⟩ .outside :=
    ⟨hcaller'.sound.lengths, fun hin => by cases hin⟩
  exact hstable.ends hP hhalt hmhalt Mark.noConfusion rfl hstep .halted

end Fixed

/-! ### All programs

The parts together: a compiled program is safe for any number of steps, whatever its device answers.
-/

section Program

variable {tree : Program} {code : List Instr} {marks : List Mark} {G : ScopeTable} {next : Int}
  {is : List Instr} {main : Nat} {globals : List Slot}

/-- The compiled program on a machine whose last cell is `top`. -/
def scene (device : Device σ) (tree : Program) (code : List Instr) (marks : List Mark)
    (G : ScopeTable) (next : Int) (globals : List Slot) (top : Nat) : Scene σ :=
  ⟨code, marks, device, top, next, tree.pool, G, globals⟩

theorem Decl.slots_plain {ds : List Decl} (h : ∀ d ∈ ds, d.Plain) {S : ScopeTable} {next : Int} :
    ∀ v ∈ Decl.slots (Decl.checkAll S next ds).value, v.shape ≠ .reference := by
  induction ds generalizing S next with
  | nil =>
    intro v hv
    cases hv
  | cons d rest ih =>
    have hrest := fun S next => @ih (fun d' hd' => h d' (List.mem_cons_of_mem d hd')) S next
    intro v hv
    cases d with
    | var d =>
      simp only [Decl.checkAll, Decl.check, Decl.slots, List.mem_cons] at hv
      rcases hv with rfl | hv
      · exact h (.var d) List.mem_cons_self
      · exact hrest _ _ v hv
    | function f =>
      simp only [Decl.checkAll, Decl.check, Decl.slots] at hv
      exact hrest _ _ v hv

theorem CompiledProgram.fits (h : CompiledProgram tree code marks G next is main globals)
    (device : Device σ) (top : Nat) (htop : top < 2 ^ 60) :
    (scene device tree code marks G next globals top).Fits := by
  refine ⟨h.image.routines, h.fixedMarks, h.image.size,
    fun x hx => Nat.lt_trans (h.pool_lt x hx) h.image.size, ?_, ?_, h.scope,
    h.output_signature, h.tiled, ?_⟩
  · show (0 : Int) ≤ top
    omega
  · show (top : Int) < 2 ^ 60
    omega
  · show ∀ v ∈ globals, v.shape ≠ .reference
    rw [h.globals_eq]
    exact Decl.slots_plain h.plain

/-- A new machine is safe for any number of steps. -/
theorem Compiles.safe {source : String} (h : Compiles source tree code) (device : Device σ)
    {memory : Nat} (hmemory : memory < Memory.sizeLimit) (io : σ) :
    ∃ G is main globals,
      CompiledProgram tree code (analyze tree false).program.marks G
        (analyze tree false).program.globalsEnd is main globals ∧
      ∀ n, Safe (scene device tree code (analyze tree false).program.marks G
        (analyze tree false).program.globalsEnd globals (memory - 1)) n (Watched.start memory io) []
      := by
  obtain ⟨G, next, is, main, globals, hprogram, rfl⟩ := h.program
  unfold Memory.sizeLimit at hmemory
  have hP := hprogram.fits device (memory - 1) (by omega)
  have hlinked : Linked (scene device tree code (analyze tree false).program.marks G
      (analyze tree false).program.globalsEnd globals (memory - 1)) tree.decls :=
    fun name entry hmem => hprogram.target hmem
  obtain ⟨t, hskip⟩ := hprogram.image.skip
  obtain ⟨t', hfinale⟩ := hprogram.image.finale
  have hend := hfinale.bound (by simp [callSequence])
  have hsize := hprogram.image.size
  obtain ⟨r, tys, hsig⟩ := hprogram.main_signature
  refine ⟨G, is, main, globals, hprogram, ?_⟩
  intro n
  rw [Watched.start, Machine.init_eq]
  apply startup_safe hP rfl hprogram.image.startup hskip
  intro m hm c hpc hstart
  -- before the declarations have been executed there are no arrays
  have hnone : Existing (scene device tree code (analyze tree false).program.marks G
      (analyze tree false).program.globalsEnd globals (memory - 1)) [] [] :=
    ⟨fun v hv => absurd hv List.not_mem_nil, fun e he => absurd he List.not_mem_nil⟩
  apply laid_safe hP hprogram.image.laid hprogram.image.declarations (by omega) hprogram.declMarks _
    (fun v hv => absurd hv List.not_mem_nil) hnone hpc hstart
  · intro m₁ hm₁ c₁ gs₁ hpc₁ hstart₁ hgs₁
    rw [List.nil_append, ← hprogram.globals_eq] at hgs₁
    exact finale_safe hP (callsSafe hP hlinked hprogram.plain m₁) hstart₁ hgs₁
      hprogram.image.main_mem
      hsig hprogram.image.fits hpc₁ hfinale hprogram.finaleMarks
  · intro v hv
    show v ∈ globals
    rw [hprogram.globals_eq]
    exact hv

end Program

/-! ### What holds of every run

Safety for every number of steps says that each state of a run is good. The results are the parts of
that, each on its own. -/

/-- How a run of a compiled program can end, where `io` is the state of the device before the last
instruction. Any other error is one that the device answers with in this state. -/
inductive Proper (device : Device σ) (io : σ) (limit : Nat) : Outcome → Prop where
  | halted : Proper device io limit .halted
  | zeroDivide (site : Nat) : Proper device io limit (.failed (.zeroDivide site))
  | stackOverflow (site : Nat) : Proper device io limit (.failed (.stackOverflow site))
  | stepLimit : Proper device io limit (.failed (.stepLimit limit))
  | refused (e : MachineError) (h : device.Refuses io e) : Proper device io limit (.failed e)
  | addressOverflow : Proper device io limit .addressOverflow

section Runs

variable {code : Array Instr} {device : Device σ}

theorem Watched.next_of_step (w : Watched σ) (marks : List Mark)
    (h : (Machine.step code device w.machine w.io).stopped = none) :
    w.next code marks device = some ⟨(Machine.step code device w.machine w.io).machine,
      (Machine.step code device w.machine w.io).io, w.shadow.step code marks w.machine⟩ := by
  unfold Watched.next
  simp only [h]

/-- Every state of a run is watched. -/
theorem Watched.after_of_runFor (marks : List Mark) {k : Nat} {w : Watched σ} {m : Machine} {io : σ}
    (h : Machine.runFor code device k w.machine w.io = ⟨none, m, io⟩) :
    ∃ g, w.after code marks device k = some ⟨m, io, g⟩ := by
  induction k generalizing w with
  | zero =>
    cases h
    exact ⟨w.shadow, rfl⟩
  | succ k ih =>
    simp only [Machine.runFor] at h
    split at h
    · rename_i o ho
      rw [h] at ho
      cases ho
    · rename_i hgo
      have hnext := w.next_of_step marks hgo
      obtain ⟨g, hg⟩ := ih (w := ⟨_, _, w.shadow.step code marks w.machine⟩) h
      exact ⟨g, by rw [Watched.after, hnext, Option.bind_some, hg]⟩

/-- What ends an orderly instruction ends its run properly, and the errors of the device are those
of its state before that instruction. -/
theorem Orderly.proper {w : Watched σ} {o : Outcome} (h : Orderly code device w (some o))
    (limit : Nat) : Proper device w.io limit o := by
  cases h with
  | halted => exact .halted
  | zeroDivide site => exact .zeroDivide site
  | stackOverflow site => exact .stackOverflow site
  | read e h => exact .refused e (Or.inl h)
  | write e v h => exact .refused e (Or.inr ⟨v, h⟩)
  | overflow r s d t h => exact .addressOverflow

end Runs

/-- Every state of a run of a compiled program is good. -/
theorem Compiles.good {source : String} {tree : Program} {code : List Instr}
    (h : Compiles source tree code) (device : Device σ) {memory : Nat}
    (hmemory : memory < Memory.sizeLimit) (io : σ) {k : Nat} {w : Watched σ}
    (hafter : (Watched.start memory io).after code.toArray
      (analyze tree false).program.marks device k
      = some w) :
    Orderly code.toArray device w (Machine.step code.toArray device w.machine w.io).stopped ∧
      ArraysIntact code.toArray (analyze tree false).program.marks w ∧
      StackIntact code.toArray (analyze tree false).program.marks device (memory - 1 : Nat)
        (analyze tree false).program.globalsEnd w := by
  obtain ⟨G, is, main, globals, -, hsafe⟩ := h.safe device hmemory io
  obtain ⟨horderly, harrays, hstack, -, -, -⟩ := Safe.good hsafe hafter
  exact ⟨horderly, harrays, hstack⟩

/-- A run of a compiled program ends in one of a few ways, in the state `m` and with the device in
the state `last`; before the limit, it is the next instruction that ends it. No instruction names an
address outside the range of a word, except that the unused address of a constant can overflow.

Both parts read off `Orderly`, which holds in every state of the run. -/
theorem run_orderly {source : String} {tree : Program} {code : List Instr}
    (h : Compiles source tree code) (device : Device σ) {memory : Nat}
    (hmemory : memory < Memory.sizeLimit) (limit : Nat) (io : σ) :
    (∃ k ≤ limit, ∃ m last,
      Machine.runFor code.toArray device k (Machine.init memory) io = ⟨none, m, last⟩ ∧
      (k < limit → (Machine.step code.toArray device m last).stopped =
        some (Machine.run code.toArray device limit (Machine.init memory) io).outcome) ∧
      Proper device last limit
        (Machine.run code.toArray device limit (Machine.init memory) io).outcome) ∧
    ∀ k m io', Machine.runFor code.toArray device k (Machine.init memory) io = ⟨none, m, io'⟩ →
      (Machine.step code.toArray device m io').stopped = some .addressOverflow →
      ∃ r d s t, m.current code.toArray = some (.rm .ldc r d s t) := by
  -- the state that a run has reached is also reached by the run that is watched
  have horderly : ∀ k m io',
      Machine.runFor code.toArray device k (Machine.init memory) io = ⟨none, m, io'⟩ →
      ∃ g, Orderly code.toArray device ⟨m, io', g⟩
        (Machine.step code.toArray device m io').stopped := by
    intro k m io' hrun
    obtain ⟨g, hafter⟩ := Watched.after_of_runFor (analyze tree false).program.marks
      (w := Watched.start memory io) hrun
    exact ⟨g, (h.good device hmemory io hafter).1⟩
  constructor
  · have houtcome : (Machine.run code.toArray device limit (Machine.init memory) io).outcome =
        (Machine.runFor code.toArray device limit (Machine.init memory) io).stopped.getD
          (.failed (.stepLimit limit)) := rfl
    rw [houtcome]
    -- the limit was reached, or some instruction before it has stopped the machine
    cases hstop : (Machine.runFor code.toArray device limit (Machine.init memory) io).stopped with
    | none =>
      exact ⟨limit, Nat.le_refl _, _, _, by rw [← hstop], fun hlt => absurd hlt (Nat.lt_irrefl _),
        .stepLimit⟩
    | some o =>
      obtain ⟨k, hk, m, last, hrun, hlast⟩ := Machine.runFor_stopped_iff.mp hstop
      obtain ⟨g, hg⟩ := horderly k m last hrun
      rw [hlast] at hg
      exact ⟨k, hk.le, m, last, hrun, fun _ => hlast, hg.proper limit⟩
  · intro k m io' hrun hstop
    obtain ⟨g, hg⟩ := horderly k m io' hrun
    rw [hstop] at hg
    cases hg with
    | overflow r s d t hldc => exact ⟨r, d, s, t, hldc⟩

/-- A program that passes a global array to a function, which reads an element of it. -/
def passingSource : String :=
  "int g[3]; int get(int a[], int i) { return a[i]; } " ++
    "void main(void) { int b[2]; g[1] = 7; b[0] = get(g, 1); output(b[0]); }"

/-- The state of the passing program after a number of steps. -/
def passingState (k : Nat) : Option (Watched Tape) :=
  (compile? passingSource).bind fun (tree, code) =>
    (Watched.start 1000 (Tape.ofList [] none)).after code.toArray (analyze tree false).program.marks
      Tape.device k

/-- After sixty steps the program is in the called function, and both arrays exist. -/
theorem passingState_sixty : (passingState 60).map
    (fun w => (w.shadow.live.length, w.shadow.stack.length)) = some (2, 2) := by
  set_option maxRecDepth 4000 in
  have hascii : Ascii passingSource _ := .append ⟨rfl, rfl⟩ ⟨rfl, rfl⟩
  rw [passingState, compile?, parse, hascii.scan_eq]
  decide +kernel

theorem exists_passingState : ∃ tree code w, Compiles passingSource tree code ∧
    passingState 60 = some w ∧ w.shadow.live.length = 2 ∧ w.shadow.stack.length = 2 ∧
    (Watched.start 1000 (Tape.ofList [] none)).after code.toArray (analyze tree false).program.marks
      Tape.device 60 = some w := by
  obtain ⟨w, hw, hcounts⟩ := Option.map_eq_some_iff.mp passingState_sixty
  obtain ⟨hlive, hstack⟩ := Prod.mk.inj hcounts
  obtain ⟨⟨tree, code⟩, hcompile, hafter⟩ := Option.bind_eq_some_iff.mp hw
  set_option maxRecDepth 4000 in
  have hascii : Ascii passingSource _ := .append ⟨rfl, rfl⟩ ⟨rfl, rfl⟩
  have hshort : passingSource.utf8ByteSize < 2 ^ 27 := by
    rw [hascii.utf8ByteSize_eq]
    decide +kernel
  exact ⟨tree, code, w, compiles_of_compile? hshort hcompile, hw, hlive, hstack, hafter⟩

theorem run_orderly_passing : ∃ tree code last, Compiles passingSource tree code ∧
    Proper Tape.device last 90
      (Machine.run code.toArray Tape.device 90 (Machine.init 1000)
        (Tape.ofList [] none)).outcome := by
  obtain ⟨tree, code, -, h, -⟩ := exists_passingState
  have hmemory : 1000 < Memory.sizeLimit := by decide
  obtain ⟨k, -, m, last, -, -, hproper⟩ :=
    (run_orderly h Tape.device hmemory 90 (Tape.ofList [] none)).1
  exact ⟨tree, code, last, h, hproper⟩

/-- In every state of a run of a compiled program the existing arrays have their lengths, the
lengths are stored by declarations alone, and every access behind a check of an index reaches an
element of the array that the name stands for there. -/
theorem arrays_intact {source : String} {tree : Program} {code : List Instr}
    (h : Compiles source tree code) (device : Device σ) {memory : Nat}
    (hmemory : memory < Memory.sizeLimit) (io : σ) {k : Nat} {w : Watched σ}
    (hafter : (Watched.start memory io).after code.toArray
      (analyze tree false).program.marks device k
      = some w) :
    ArraysIntact code.toArray (analyze tree false).program.marks w :=
  (h.good device hmemory io hafter).2.1

theorem arrays_intact_passing : ∃ tree code w, Compiles passingSource tree code ∧
    passingState 60 = some w ∧ w.shadow.live.length = 2 ∧
    ArraysIntact code.toArray (analyze tree false).program.marks w := by
  obtain ⟨tree, code, w, h, hw, hlive, -, hafter⟩ := exists_passingState
  exact ⟨tree, code, w, h, hw, hlive, arrays_intact h Tape.device (by decide) _ hafter⟩

/-- In every state of a run of a compiled program the frames of the active calls are chained from
the global cells down to the running function, returns lead back to their calls, and nothing stores
to the return address or the saved frame base of a frame, or to a cell of a function that waits. -/
theorem stack_intact {source : String} {tree : Program} {code : List Instr}
    (h : Compiles source tree code) (device : Device σ) {memory : Nat}
    (hmemory : memory < Memory.sizeLimit) (io : σ) {k : Nat} {w : Watched σ}
    (hafter : (Watched.start memory io).after code.toArray
      (analyze tree false).program.marks device k
      = some w) :
    StackIntact code.toArray (analyze tree false).program.marks device (memory - 1 : Nat)
      (analyze tree false).program.globalsEnd w :=
  (h.good device hmemory io hafter).2.2

theorem stack_intact_passing : ∃ tree code w, Compiles passingSource tree code ∧
    passingState 60 = some w ∧ w.shadow.stack.length = 2 ∧
    StackIntact code.toArray (analyze tree false).program.marks Tape.device (1000 - 1 : Nat)
      (analyze tree false).program.globalsEnd w := by
  obtain ⟨tree, code, w, h, hw, -, hstack, hafter⟩ := exists_passingState
  exact ⟨tree, code, w, h, hw, hstack, stack_intact h Tape.device (by decide) _ hafter⟩

end MiniC
