import MiniC.Proofs.Safety.Expressions

/-!
# Safe statements

The code of an accepted statement is safe if what follows it is, and if a return from the function
is. A statement can bring arrays of the function into existence, and none ends before the function
does.

* `InFrame.declare`: the store of the length of a local array
* `StmtSafe`: a statement is safe in the running function
* `stmt_safe`: every accepted statement is
-/

namespace MiniC

variable {σ : Type} {P : Scene σ} {book : Book}

/-! ### Declarations

An array comes into existence when its length is stored. Its cells are those of its slot, which no
other array of the function has. -/

section Declare

variable {ds : List Decl} {f : CompiledFunction} {c : Core} {io : σ} {gs : List Extent}
  {a : Activation} {rest : List Activation} {n : Nat}

/-- An existing array that shares a cell with a slot of the running function belongs to the
slot. -/
theorem InFrame.extent_of_slot (hf : f.Valid ds P.scope P.pool) (h : InFrame P f c gs a rest)
    {v : Slot} (hv : v ∈ f.slots) {size : Nat} (hshape : v.shape = .array size) {e : Extent}
    (he : e ∈ (⟨gs, a :: rest⟩ : Shadow).live) :
    (e = ⟨a.base + v.offset, size⟩ ∧ e ∈ a.arrays) ∨ e.base + e.size < a.base + v.offset ∨
      a.base + v.offset + size < e.base := by
  have hwithin := hf.tiled.within v hv
  have hbase := h.base_range
  have htop : v.top = v.offset + size := by simp [Slot.top, hshape, Shape.elements]
  unfold firstFrameOffset at hwithin
  simp only [Shadow.live, List.flatMap_cons, List.mem_append] at he
  rcases he with he | he | he
  · have := (h.sound.globals e he).2.1
    exact Or.inr (Or.inr (by omega))
  · obtain ⟨w, hw, hw', hbase'⟩ := h.arrays e he
    by_cases hvw : v = w
    · subst hvw
      rw [hshape] at hw'
      cases hw'
      refine Or.inl ⟨?_, he⟩
      cases e
      simp_all
    · have htop' : w.top = w.offset + e.size := by simp [Slot.top, hw', Shape.elements]
      rcases hf.tiled.apart_of_ne hv hw hvw with hap | hap
      · exact Or.inr (Or.inr (by omega))
      · exact Or.inr (Or.inl (by omega))
  · obtain ⟨-, -, -, -, habove, -⟩ := h.sound.framed
    have := habove e he
    exact Or.inr (Or.inr (by omega))

/-- The invariant when the length of a local array has been stored. -/
theorem InFrame.sound_declare (hf : f.Valid ds P.scope P.pool)
    (h : InFrame P f c gs a rest) {v : Slot} (hv : v ∈ f.slots) {size : Nat}
    (hshape : v.shape = .array size) (hpos : 0 < a.base + v.offset) :
    Sound P (c.mem.write (a.base + v.offset) (Int64.ofInt size))
      ⟨gs, { a with arrays := a.arrays.insert ⟨a.base + v.offset, size⟩ } :: rest⟩ := by
  have hwithin := hf.tiled.within v hv
  have htop : v.top = v.offset + size := by simp [Slot.top, hshape, Shape.elements]
  unfold firstFrameOffset at hwithin
  -- every existing array is the declared one, which is declared again, or lies apart from it
  have hslot : ∀ e ∈ (⟨gs, a :: rest⟩ : Shadow).live, _ := fun e he =>
    h.extent_of_slot hf hv hshape he
  -- what exists afterwards is the new array, or existed before
  have hlive : ∀ e, e ∈ (⟨gs, { a with arrays := a.arrays.insert ⟨a.base + v.offset, size⟩ } ::
      rest⟩ : Shadow).live → e = ⟨a.base + v.offset, size⟩ ∨ e ∈
        (⟨gs, a :: rest⟩ : Shadow).live := by
    intro e he
    simp only [Shadow.live, List.flatMap_cons, List.mem_append, List.mem_insert_iff] at he ⊢
    rcases he with he | (he | he) | he
    · exact Or.inr (Or.inl he)
    · exact Or.inl he
    · exact Or.inr (Or.inr (Or.inl he))
    · exact Or.inr (Or.inr (Or.inr he))
  obtain ⟨hpos', hle, hbelow, harrays, habove, hframed⟩ := h.sound.framed
  -- the length cell is no linkage of any frame
  have hframe : ∀ b ∈ a :: rest, a.base + v.offset ≠ b.base ∧ a.base + v.offset ≠ b.base - 1 := by
    intro b hb
    rcases List.mem_cons.mp hb with rfl | hb
    · omega
    · have := hbelow b hb
      omega
  refine ⟨?_, ?_, ?_, ⟨hpos', hle, hbelow, ?_, habove, hframed⟩, ?_, h.sound.globals, ?_⟩
  · rw [Memory.read_write_of_ne hpos (by omega), h.sound.zero]
  · intro e he
    rcases hlive e he with rfl | he
    · exact Memory.read_write_self _ _ _
    · rcases hslot e he with ⟨rfl, -⟩ | hap | hap
      · exact Memory.read_write_self _ _ _
      · rw [Memory.read_write_of_ne hpos (by omega), h.sound.lengths e he]
      · rw [Memory.read_write_of_ne hpos (by omega), h.sound.lengths e he]
  · exact h.sound.chain.write (fun b hb => (h.sound.framed.of_mem hb).1) (by omega) hframe _
  · intro e he
    rcases List.mem_insert_iff.mp he with rfl | he
    · exact ⟨hpos, by show a.base + v.offset + size + 2 ≤ a.base; omega⟩
    · exact harrays e he
  · intro b hb
    rcases List.mem_cons.mp hb with rfl | hb
    · exact h.sound.returns a List.mem_cons_self
    · exact h.sound.returns b (List.mem_cons_of_mem a hb)
  · intro e he e' he' hne
    rcases hlive e he with rfl | he
    · rcases hlive e' he' with rfl | he'
      · exact absurd rfl hne
      · rcases hslot e' he' with ⟨rfl, -⟩ | hap | hap
        · exact absurd rfl hne
        · exact Or.inr hap
        · exact Or.inl hap
    · rcases hlive e' he' with rfl | he'
      · rcases hslot e he with ⟨rfl, -⟩ | hap | hap
        · exact absurd rfl hne
        · exact Or.inl hap
        · exact Or.inr hap
      · exact h.sound.apart e he e' he' hne

/-- The length of a local array is stored, and the array exists from then on. -/
theorem InFrame.declare (hP : P.Fits) (hf : f.Valid ds P.scope P.pool) (h : InFrame P f c gs a rest)
    {v : Slot} (hv : v ∈ f.slots) {size : Nat} (hshape : v.shape = .array size)
    (hac : c.ac = Int64.ofInt size) {t : String}
    (hi : P.code[c.pc]? = some (.rm .st .ac v.offset .fp t))
    (hnoted : Instr.noted (.rm .st .ac v.offset .fp t) = false)
    (hmk : P.marks[c.pc]? = some (.declare size))
    (hnext : ∀ m < n, ∀ c', c'.pc = c.pc + 1 →
      InFrame P f c' gs { a with arrays := a.arrays.insert ⟨a.base + v.offset, size⟩ } rest →
      Kept P f a rest (a.base + f.frameEnd) c.mem c'.mem →
      Safe P m ⟨c'.machine, io,
        ⟨gs, { a with arrays := a.arrays.insert ⟨a.base + v.offset, size⟩ } :: rest⟩⟩ book) :
    Safe P n ⟨c.machine, io, ⟨gs, a :: rest⟩⟩ book := by
  have hwithin := hf.tiled.within v hv
  have hfits := hf.tiled.fits (by decide)
  have htop := v.offset_le_top
  unfold firstFrameOffset at hwithin
  unfold minOffset at hfits
  have hbase : v.offset + c.origin false = a.base + v.offset := by
    show v.offset + c.fp = a.base + v.offset
    rw [h.fp_eq]
    omega
  have hreg : v.offset + (c.machine.reg .fp).toInt = a.base + v.offset := by
    rw [← hbase]
    exact congrArg _ (h.toInt_base false)
  -- the cell lies below the first two of its own frame, and every other frame lies above that one
  have hprotected : ¬(⟨c.machine, io, ⟨gs, a :: rest⟩⟩ : Watched σ).Protected P.marks
      (a.base + v.offset) := by
    obtain ⟨-, -, hbelow, -, -, -⟩ := h.sound.framed
    rintro (⟨b, hb, hor⟩ | ⟨⟨b, hb, hlt⟩, -⟩)
    · simp only [Watched.settled, hP.mark_eq hi, hmk] at hb
      rcases List.mem_cons.mp hb with rfl | hb
      · omega
      · have := hbelow b hb
        omega
    · simp only [List.head?_cons, Option.mem_def, Option.some.injEq] at hb
      subst hb
      omega
  have hgood : Recording P ⟨c.machine, io, ⟨gs, a :: rest⟩⟩ → _ → _ →
      Good P ⟨c.machine, io, ⟨gs, a :: rest⟩⟩ book := good_store hP hi hmk hreg (h.stable _)
    (fun e he heq => by
      rcases h.extent_of_slot hf hv hshape he with ⟨rfl, harray⟩ | hap | hap
      · exact Or.inr ⟨rfl, a, rfl, harray⟩
      · omega
      · omega)
    hprotected (fun hs => absurd hs (by decide))
  have hrecording : _ → Recording P ⟨c.machine, io, ⟨gs, a :: rest⟩⟩ :=
    recording_of_store hP hi hmk (by decide) hreg (fun hs => absurd hs (by decide))
  have hstep : P.step c.machine io = _ := Core.step_st_base (g := false) hP.size_lt h.sane
    (by omega) (by omega) (code_at hi)
  rw [hbase] at hstep
  -- a frame that does not fit any more reaches down to cell 0, where the store overflows the stack
  by_cases hpos : 0 < a.base + v.offset
  · rw [if_pos hpos] at hstep
    apply Safe.step_lt (hgood (hrecording fun _ => hpos) Mark.noConfusion
      (by rw [hstep]; exact .goesOn)) hstep
    have hshadow : (⟨gs, a :: rest⟩ : Shadow).step P.code.toArray P.marks c.machine
        = ⟨gs, { a with arrays := a.arrays.insert ⟨a.base + v.offset, size⟩ } :: rest⟩ := by
      have hstored := hP.stored_eq hi
      rw [hreg] at hstored
      unfold Shadow.step
      rw [hP.mark_eq hi, hmk]
      simp only [hstored, Option.getD_some]
      rfl
    rw [hshadow, hP.note_eq hi hnoted hmk rfl]
    intro m hm
    have hsound := h.sound_declare hf hv hshape hpos
    have hown : f.Owns a.base (a.base + v.offset) := by
      refine ⟨v, hv, ?_, Int.le_refl _, by omega⟩
      rw [hshape]
      exact Shape.noConfusion
    apply hnext m hm
    · rfl
    · refine ⟨⟨h.sane.fp_nonneg, h.sane.fp_le, h.sane.gp_lt, h.sane.size_eq⟩, h.gp_eq, h.fp_eq, ?_,
        h.globals, ?_, ?_⟩
      · rw [← hac] at hsound
        exact hsound
      · intro e he
        rcases List.mem_insert_iff.mp he with rfl | he
        · exact ⟨v, hv, hshape, rfl⟩
        · exact h.arrays e he
      -- the cell belongs to an array, so it is not the cell of a reference
      · intro w hw href
        have hne : a.base + v.offset ≠ a.base + w.offset := by
          intro heq
          rw [heq] at hown
          exact hf.not_owns_reference hw href a.base hown
        obtain ⟨hread, hlive⟩ := h.references w hw href
        exact ⟨(Memory.read_write_of_ne hpos hne _).trans hread, hlive⟩
    · exact Kept.write hpos _ (Or.inr (Or.inr (Or.inl hown)))
  · rw [if_neg hpos] at hstep
    apply Safe.stop (hgood (hrecording fun hgo => by rw [hstep] at hgo; cases hgo)
      Mark.noConfusion _)
      hstep
    rw [hstep]
    exact .stackOverflow _

end Declare

/-! ### What follows a statement

Safety of a statement is stated with what follows as an assumption, behind it and at a return. So a
sequence or a loop is safe if its parts are. -/

/-- What follows is safe in the states that `Q` selects: a function still runs, with at least the
same arrays, and has kept the cells of its callers since the memory was `mem`. -/
def Continues (P : Scene σ) (f : CompiledFunction) (gs : List Extent) (a : Activation)
    (rest : List Activation) (book : Book) (mem : Memory) (n : Nat) (Q : Core → Prop) : Prop :=
  ∀ m ≤ n, ∀ (c : Core) (io : σ) (arrays : List Extent), a.arrays ⊆ arrays → Q c →
    InFrame P f c gs { a with arrays := arrays } rest →
    Kept P f a rest (a.base + f.frameEnd) mem c.mem →
    Safe P m ⟨c.machine, io, ⟨gs, { a with arrays := arrays } :: rest⟩⟩ book

/-- The function is about to return. -/
def Leaving (P : Scene σ) (c : Core) : Prop :=
  P.code[c.pc]? = some returnInstr ∧ P.marks[c.pc]? = some .leave

section Statements

variable {ds : List Decl} {f : CompiledFunction} {gs : List Extent} {a : Activation}
  {rest : List Activation} {n N : Nat} {page : Page}

/-- What follows is still safe when some steps have been taken. -/
theorem Continues.later {mem mem' : Memory} {Q : Core → Prop}
    (h : Continues P f gs a rest book mem n Q) {m : Nat} (hm : m ≤ n) {arrays : List Extent}
    (hsub : a.arrays ⊆ arrays) (hkept : Kept P f a rest (a.base + f.frameEnd) mem mem') :
    Continues P f gs { a with arrays := arrays } rest book mem' m Q := by
  intro k hk c io arrays' hsub' hQ hin hkept'
  exact h k (by omega) c io arrays' (fun e he => hsub' (hsub he)) hQ hin
    (hkept.trans hkept' (Int.le_refl _))

theorem Continues.here {c : Core} {io : σ} {Q : Core → Prop}
    (h : Continues P f gs a rest book c.mem n Q)
    (hQ : Q c) (hin : InFrame P f c gs a rest) : Safe P n ⟨c.machine, io, ⟨gs, a :: rest⟩⟩ book :=
  h n (Nat.le_refl n) c io a.arrays (fun _ he => he) hQ hin Kept.refl

/-- The statement is safe wherever its code lies, for at most `N` steps. -/
def StmtSafe (P : Scene σ) (f : CompiledFunction) (gs : List Extent) (rest : List Activation)
    (N : Nat) (s : Stmt) : Prop :=
  ∀ {S next start next' is}, s.Emits f.enclosing S next f.linker f.frameEnd start next' is →
    Holds P.code start is → Holds P.marks start (s.check f.enclosing S next).value.marks →
    (∀ v ∈ (s.check f.enclosing S next).value.slots, v ∈ f.slots) → Scoped P.scope f.slots S →
    ∀ {a : Activation} {n : Nat} {c : Core} {io : σ} {page : Page} {book : Book}, n ≤ N →
      Ready S a → c.pc = start → InFrame P f c gs a rest →
      Continues P f gs a rest (page :: book) c.mem n (fun c' => c'.pc = start + is.length) →
      Continues P f gs a rest (page :: book) c.mem n (Leaving P) →
      Safe P n ⟨c.machine, io, ⟨gs, a :: rest⟩⟩ (page :: book)

theorem Ready.mono {S : ScopeTable} (h : Ready S a) {arrays : List Extent}
    (hsub : a.arrays ⊆ arrays) : Ready S { a with arrays := arrays } := by
  intro x y ty l hl hlevel hstorage
  obtain ⟨e, he, hbase⟩ := h x y ty l hl hlevel hstorage
  exact ⟨e, hsub he, hbase⟩

/-- A declared array is in scope and exists; other declarations bring none into scope. -/
theorem Ready.declare {S S₁ : ScopeTable} {next : Int} {d : VarDecl} {l : Layout} (hvalid : S.Valid)
    (h : Ready S a) (hd : d.Accepted frameLevel S next S₁ l) {arrays : List Extent}
    (hsub : a.arrays ⊆ arrays)
    (hnew : ∀ size, d.shape = .array size → ∃ e ∈ arrays, e.base = a.base + l.offset) :
    Ready S₁ { a with arrays := arrays } := by
  intro x n ty l' hl hlevel hstorage
  rw [ScopeTable.lookup_declare hvalid hd.declared] at hl
  split at hl
  · cases hl
    have hshape : d.shape.storage = .array := by
      rw [hd.layout_eq] at hstorage
      exact hstorage
    cases hsh : d.shape with
    | scalar =>
      rw [hsh] at hshape
      cases hshape
    | array size => exact hnew size hsh
    | reference =>
      rw [hsh] at hshape
      cases hshape
  · obtain ⟨e, he, hbase⟩ := h x n ty l' hl hlevel hstorage
    exact ⟨e, hsub he, hbase⟩

/-- The declarations at the start of a block bring their arrays into existence. -/
theorem declares_safe (hP : P.Fits) (hf : f.Valid ds P.scope P.pool) {S S' : ScopeTable}
    {next next' : Int} {decls placed : List VarDecl}
    (h : Declares frameLevel S next decls S' next' placed) {start : Nat}
    (hcode : Holds P.code start (placed.flatMap (VarDecl.lengthCode · .fp)))
    (hmarks : Holds P.marks start (placed.flatMap (VarDecl.marks · .body .declare)))
    (hslots : ∀ v ∈ placed.map VarDecl.slot, v ∈ f.slots) (hS : Scoped P.scope f.slots S)
    {c : Core} {io : σ} (hready : Ready S a) (hpc : c.pc = start) (hin : InFrame P f c gs a rest)
    (hnext : ∀ m ≤ n, ∀ (c' : Core) (arrays : List Extent), a.arrays ⊆ arrays →
      Ready S' { a with arrays := arrays } →
      c'.pc = start + (placed.flatMap (VarDecl.lengthCode · .fp)).length →
      InFrame P f c' gs { a with arrays := arrays } rest →
      Kept P f a rest (a.base + f.frameEnd) c.mem c'.mem →
      Safe P m ⟨c'.machine, io, ⟨gs, { a with arrays := arrays } :: rest⟩⟩ book) :
    Safe P n ⟨c.machine, io, ⟨gs, a :: rest⟩⟩ book := by
  induction h generalizing start a n c with
  | nil S next =>
    exact hnext n (Nat.le_refl n) c a.arrays (fun _ he => he) hready hpc hin Kept.refl
  | @cons S S₁ S₂ next next₂ d others l placed hd hrest ih =>
    simp only [List.flatMap_cons, holds_append, List.map_cons, List.mem_cons,
      forall_eq_or_imp] at hcode hmarks hslots hnext
    rw [VarDecl.length_marks hd .fp] at hmarks
    have hscope := hS.declare hd hslots.1
    -- an array has its length stored, and exists from then on; any other variable has no code
    by_cases hshape : ∃ size, d.shape = .array size
    · obtain ⟨size, hshape⟩ := hshape
      obtain ⟨hlength, hmark⟩ := hd.code_array hshape .fp .body .declare
      rw [hlength] at hcode hmarks hnext
      simp only [hmark, holds_cons] at hcode hmarks
      obtain ⟨⟨hconst, hstore, -⟩, hcode⟩ := hcode
      obtain ⟨⟨hmconst, hmstore, -⟩, hmarks⟩ := hmarks
      subst hpc
      apply hin.constant hP hconst (Or.inl rfl) hmconst
      intro m₁ hm₁
      have hin₁ : InFrame P f (c.next.put .ac (Int64.ofInt size)) gs a rest := hin.of_eq rfl rfl rfl
      apply hin₁.declare hP hf hslots.1 hshape rfl hstore rfl hmstore
      intro m₂ hm₂ c₂ hpc₂ hin₂ hkept₂
      -- in a loop it is declared again, so it may be among the arrays already
      have hsub : a.arrays ⊆ a.arrays.insert ⟨a.base + l.offset, size⟩ :=
        fun e he => List.mem_insert_iff.mpr (Or.inr he)
      have hready₂ := hready.declare hS.valid hd hsub
        (fun _ _ => ⟨_, List.mem_insert_iff.mpr (Or.inl rfl), rfl⟩)
      apply ih hcode hmarks hslots.2 hscope hready₂ hpc₂ hin₂
      intro m₃ hm₃ c₃ arrays hsub₃ hready₃ hpc₃ hin₃ hkept₃
      apply hnext m₃ (by omega) c₃ arrays (fun e he => hsub₃ (hsub he)) hready₃ _ hin₃
        (hkept₂.trans hkept₃ (Int.le_refl _))
      rw [hpc₃, List.length_append, Nat.add_assoc]
    · obtain ⟨hlength, hmark⟩ := hd.code_other (fun size h => hshape ⟨size, h⟩) .fp .body .declare
      rw [hlength] at hcode hmarks hnext
      have hready₁ : Ready S₁ a := hready.declare hS.valid hd (fun _ he => he)
        (fun size h => absurd ⟨size, h⟩ hshape)
      exact ih hcode.2 hmarks.2 hslots.2 hscope hready₁ hpc hin hnext

/-- A function whose body can run: calls are safe for fewer than `N` steps. -/
structure Runnable (P : Scene σ) (ds : List Decl) (f : CompiledFunction) (N : Nat) : Prop where
  fits : P.Fits
  valid : f.Valid ds P.scope P.pool
  calls : CallsSafe P N

/-- An expression in a statement is evaluated. -/
theorem Runnable.evaluate (hR : Runnable P ds f N) {S : ScopeTable} {e : Exp} {start : Nat}
    {ty : Ty}
    {is : List Instr} (h : e.Emits S f.linker f.frameEnd start ty is)
    (hcode : Holds P.code start is)
    (hmarks : Holds P.marks start (e.check S).exp.marks) (hS : Scoped P.scope f.slots S)
    (hready : Ready S a) {c : Core} {io : σ} (hn : n ≤ N) (hpc : c.pc = start)
    (hin : InFrame P f c gs a rest)
    (hnext : ∀ m ≤ n, ∀ (c' : Core) (io' : σ), c'.pc = start + is.length →
      InFrame P f c' gs a rest → Kept P f a rest (a.base + f.frameEnd) c.mem c'.mem →
      Safe P m ⟨c'.machine, io', ⟨gs, a :: rest⟩⟩ (page :: book)) :
    Safe P n ⟨c.machine, io, ⟨gs, a :: rest⟩⟩ (page :: book) := by
  have hC : Context P ds f S a N := ⟨hR.fits, hR.valid, hS, hready, hR.calls⟩
  apply exp_safe hC e h hcode hmarks (Int.le_refl _) hR.valid.frameEnd_range.1 hn hpc hin
  intro m hm c' io' hpc' hin' hkept' _
  exact hnext m hm c' io' hpc' hin' hkept'

theorem StmtSafe.exp (hR : Runnable P ds f N) {p : Pos} {e : Exp} :
    StmtSafe P f gs rest N (.exp p e) := by
  intro S next start next' is h hcode hmarks _ hS a n c io page book hn hready hpc hin hnext _
  obtain ⟨-, ty, he⟩ := Stmt.emits_exp h
  apply hR.evaluate he hcode hmarks hS hready hn hpc hin
  intro m hm c' io' hpc' hin' hkept'
  exact hnext m hm c' io' a.arrays (fun _ he => he) hpc' hin' hkept'

theorem StmtSafe.ret (hR : Runnable P ds f N) {p : Pos} {value : Option Exp} :
    StmtSafe P f gs rest N (.ret p value) := by
  intro S next start next' is h hcode hmarks _ hS a n c io page book hn hready hpc hin _ hleave
  cases value with
  | none =>
    obtain ⟨-, rfl⟩ := Stmt.emits_ret_none h
    simp only [Stmt.check, Stmt.marks, holds_cons] at hcode hmarks
    subst hpc
    exact hleave.here ⟨hcode.1, hmarks.1⟩ hin
  | some e =>
    obtain ⟨-, ty, i, -, he, rfl⟩ := Stmt.emits_ret_some h
    simp only [Stmt.check, Stmt.marks, holds_append, holds_cons, he.length_marks] at hcode hmarks
    apply hR.evaluate he hcode.1 hmarks.1 hS hready hn hpc hin
    intro m hm c' io' hpc' hin' hkept'
    rw [← hpc'] at hcode hmarks
    exact hleave m hm c' io' a.arrays (fun _ he => he) ⟨hcode.2.1, hmarks.2.1⟩ hin' hkept'

theorem StmtSafe.ifThen (hR : Runnable P ds f N) {p : Pos} {test : Exp} {s : Stmt}
    (hs : StmtSafe P f gs rest N s) : StmtSafe P f gs rest N (.ifThen p test s) := by
  intro S next start next' is h hcode hmarks hslots hS a n c io page book hn hready hpc hin hnext
    hleave
  obtain ⟨ty, i, j, skip, -, hi, hj, hskip, rfl⟩ := Stmt.emits_ifThen h
  have hlen := hR.fits.code_lt
  have hbound := hcode.bound (by simp)
  rw [List.length_append, List.length_cons] at hbound
  obtain rfl := Instr.relative_eq_ok hskip (by omega) (by omega)
  simp only [Stmt.check, Stmt.marks, holds_append, holds_cons, hi.length_marks] at hcode hmarks
  obtain ⟨hcodei, hbranch, hcodej⟩ := hcode
  obtain ⟨hmarksi, hmbranch, hmarksj⟩ := hmarks
  apply hR.evaluate hi hcodei hmarksi hS hready hn hpc hin
  intro m₁ hm₁ c₁ io₁ hpc₁ hin₁ hkept₁
  rw [← hpc₁] at hbranch hmbranch
  have hsub : a.arrays ⊆ a.arrays := fun _ he => he
  apply hin₁.branch hR.fits hbranch (Or.inl rfl) hmbranch rfl (k := start + i.length + 1 + j.length)
    (by omega) (by omega)
  -- the jump is taken, and goes behind the statement
  · intro _ m₂ hm₂
    apply hnext m₂ (by omega) { c₁ with pc := start + i.length + 1 + j.length } io₁ a.arrays hsub _
      (hin₁.of_eq rfl rfl rfl) hkept₁
    simp only [List.length_append, List.length_cons]
    omega
  -- it is not, and the statement is run
  · intro _ m₂ hm₂
    apply hs hj hcodej hmarksj hslots hS (by omega) hready (c := c₁.next) _ (hin₁.of_eq rfl rfl rfl)
    · intro m₃ hm₃ c₃ io₃ arrays hsub₃ hpc₃ hin₃ hkept₃
      apply hnext m₃ (by omega) c₃ io₃ arrays hsub₃ _ hin₃ (hkept₁.trans hkept₃ (Int.le_refl _))
      simp only [List.length_append, List.length_cons]
      omega
    · exact hleave.later (by omega) hsub hkept₁
    · show c₁.pc + 1 = _
      omega

theorem StmtSafe.ifElse (hR : Runnable P ds f N) {p : Pos} {test : Exp} {s s' : Stmt}
    (hs : StmtSafe P f gs rest N s) (hs' : StmtSafe P f gs rest N s') :
    StmtSafe P f gs rest N (.ifElse p test s s') := by
  intro S next start next' is h hcode hmarks hslots hS a n c io page book hn hready hpc hin hnext
    hleave
  obtain ⟨ty, next₁, i, j, k, toElse, toEnd, -, hi, hj, hk, hElse, hEnd, rfl⟩ := Stmt.emits_ifElse h
  have hlen := hR.fits.code_lt
  have hbound := hcode.bound (by simp)
  simp only [List.length_append, List.length_cons] at hbound
  obtain rfl := Instr.relative_eq_ok hElse (by omega) (by omega)
  obtain rfl := Instr.relative_eq_ok hEnd (by omega) (by omega)
  simp only [Stmt.check, Stmt.marks, holds_append, holds_cons, hi.length_marks, hj.length_marks,
    hj.next_eq] at hcode hmarks
  simp only [Stmt.check, Stmt.slots, hj.next_eq, List.mem_append] at hslots
  -- the test, the branch, the first statement, the jump over the second one, and the second one
  obtain ⟨hcodei, hbranch, hcodej, hjump, hcodek⟩ := hcode
  obtain ⟨hmarksi, hmbranch, hmarksj, hmjump, hmarksk⟩ := hmarks
  apply hR.evaluate hi hcodei hmarksi hS hready hn hpc hin
  intro m₁ hm₁ c₁ io₁ hpc₁ hin₁ hkept₁
  rw [← hpc₁] at hbranch hmbranch
  have hsub : a.arrays ⊆ a.arrays := fun _ he => he
  apply hin₁.branch hR.fits hbranch (Or.inl rfl) hmbranch rfl
    (k := start + i.length + 1 + j.length + 1) (by omega) (by omega)
  · intro _ m₂ hm₂
    apply hs' hk hcodek hmarksk (fun v hv => hslots v (Or.inr hv)) hS (by omega) hready
      (c := { c₁ with pc := start + i.length + 1 + j.length + 1 }) rfl (hin₁.of_eq rfl rfl rfl)
    · intro m₃ hm₃ c₃ io₃ arrays hsub₃ hpc₃ hin₃ hkept₃
      apply hnext m₃ (by omega) c₃ io₃ arrays hsub₃ _ hin₃ (hkept₁.trans hkept₃ (Int.le_refl _))
      simp only [List.length_append, List.length_cons]
      omega
    · exact hleave.later (by omega) hsub hkept₁
  · intro _ m₂ hm₂
    apply hs hj hcodej hmarksj (fun v hv => hslots v (Or.inl hv)) hS (by omega) hready
      (c := c₁.next) _
      (hin₁.of_eq rfl rfl rfl)
    · intro m₃ hm₃ c₃ io₃ arrays hsub₃ hpc₃ hin₃ hkept₃
      have hpc₃ : c₃.pc = start + i.length + 1 + j.length := hpc₃
      rw [← hpc₃] at hjump hmjump
      apply hin₃.jump hR.fits hjump hmjump (k := start + i.length + 1 + j.length + 1 + k.length)
        (by omega) (by omega)
      intro m₄ hm₄
      apply hnext m₄ (by omega) { c₃ with pc := start + i.length + 1 + j.length + 1 + k.length } io₃
        arrays hsub₃ _ (hin₃.of_eq rfl rfl rfl) (hkept₁.trans hkept₃ (Int.le_refl _))
      simp only [List.length_append, List.length_cons]
      omega
    · exact hleave.later (by omega) hsub hkept₁
    · show c₁.pc + 1 = _
      omega

theorem StmtSafe.whileDo (hR : Runnable P ds f N) {p : Pos} {test : Exp} {b : Stmt}
    (hb : StmtSafe P f gs rest N b) : StmtSafe P f gs rest N (.whileDo p test b) := by
  intro S next start next' is h hcode hmarks hslots hS a n c io page book hn hready hpc hin hnext
    hleave
  obtain ⟨ty, i, j, skip, back, -, hi, hj, hback, hskip, rfl⟩ := Stmt.emits_whileDo h
  have hlen := hR.fits.code_lt
  have hbound := hcode.bound (by simp)
  simp only [List.length_append, List.length_cons, List.length_nil] at hbound
  obtain rfl := Instr.relative_eq_ok hskip (by omega) (by omega)
  obtain rfl := Instr.relative_eq_ok hback (by omega) (by omega)
  simp only [Stmt.check, Stmt.marks, holds_append, holds_cons, hi.length_marks,
    hj.length_marks] at hcode hmarks
  obtain ⟨hcodei, hbranch, hcodej, hjump, -⟩ := hcode
  obtain ⟨hmarksi, hmbranch, hmarksj, hmjump, -⟩ := hmarks
  -- each time round takes a step, so the number of steps that are left decides
  induction n using Nat.strongRecOn generalizing a c io with
  | ind n ih =>
    apply hR.evaluate hi hcodei hmarksi hS hready hn hpc hin
    intro m₁ hm₁ c₁ io₁ hpc₁ hin₁ hkept₁
    rw [← hpc₁] at hbranch hmbranch
    have hsub : a.arrays ⊆ a.arrays := fun _ he => he
    apply hin₁.branch hR.fits hbranch (Or.inl rfl) hmbranch rfl
      (k := start + i.length + 1 + j.length + 1) (by omega) (by omega)
    · intro _ m₂ hm₂
      apply hnext m₂ (by omega) { c₁ with pc := start + i.length + 1 + j.length + 1 } io₁
        a.arrays hsub
        _ (hin₁.of_eq rfl rfl rfl) hkept₁
      simp only [List.length_append, List.length_cons, List.length_nil]
      omega
    · intro _ m₂ hm₂
      apply hb hj hcodej hmarksj hslots hS (by omega) hready (c := c₁.next) _
        (hin₁.of_eq rfl rfl rfl)
      · intro m₃ hm₃ c₃ io₃ arrays hsub₃ hpc₃ hin₃ hkept₃
        have hpc₃ : c₃.pc = start + i.length + 1 + j.length := hpc₃
        rw [← hpc₃] at hjump hmjump
        apply hin₃.jump hR.fits hjump hmjump (k := start) (by omega) (by omega)
        intro m₄ hm₄
        have hready₄ := hready.mono hsub₃
        have hkept₄ := hkept₁.trans hkept₃ (Int.le_refl _)
        exact ih m₄ (by omega) (by omega) hready₄ rfl (hin₃.of_eq rfl rfl rfl)
          (hleave.later (by omega) hsub₃ hkept₄) (hnext.later (by omega) hsub₃ hkept₄)
      · exact hleave.later (by omega) hsub hkept₁
      · show c₁.pc + 1 = _
        omega

/-- Statements in order are safe if each of them is. -/
theorem stmtsAll_safe {body : List Stmt} (hbody : ∀ s ∈ body, StmtSafe P f gs rest N s)
    {S : ScopeTable} {next next' : Int} {start : Nat} {is : List Instr}
    (h : Stmt.EmitsAll f.enclosing S next f.linker f.frameEnd start body next' is)
    (hcode : Holds P.code start is)
    (hmarks : Holds P.marks start (Stmt.marksAll (Stmt.checkAll f.enclosing S next body).value))
    (hslots : ∀ v ∈ Stmt.slotsAll (Stmt.checkAll f.enclosing S next body).value, v ∈ f.slots)
    (hS : Scoped P.scope f.slots S) {c : Core} {io : σ} (hn : n ≤ N) (hready : Ready S a)
    (hpc : c.pc = start) (hin : InFrame P f c gs a rest)
    (hnext : Continues P f gs a rest (page :: book) c.mem n (fun c' => c'.pc = start + is.length))
    (hleave : Continues P f gs a rest (page :: book) c.mem n (Leaving P)) :
    Safe P n ⟨c.machine, io, ⟨gs, a :: rest⟩⟩ (page :: book) := by
  induction body generalizing next start is a n c io with
  | nil =>
    obtain ⟨-, rfl⟩ := Stmt.emitsAll_nil h
    exact hnext.here hpc hin
  | cons s others ih =>
    obtain ⟨next₁, i, j, hi, hj, rfl⟩ := Stmt.emitsAll_cons h
    simp only [Stmt.checkAll, Stmt.marksAll, holds_append, hi.length_marks,
      hi.next_eq] at hcode hmarks
    simp only [Stmt.checkAll, Stmt.slotsAll, hi.next_eq, List.mem_append] at hslots
    apply hbody s List.mem_cons_self hi hcode.1 hmarks.1
      (fun v hv => hslots v (Or.inl hv)) hS hn hready
      hpc hin _ hleave
    intro m hm c₁ io₁ arrays hsub hpc₁ hin₁ hkept₁
    have hready₁ := hready.mono hsub
    apply ih (fun s' hs' => hbody s' (List.mem_cons_of_mem s hs')) hj hcode.2 hmarks.2
      (fun v hv => hslots v (Or.inr hv)) (by omega) hready₁ hpc₁ hin₁
    · rw [List.length_append, ← Nat.add_assoc] at hnext
      exact hnext.later hm hsub hkept₁
    · exact hleave.later hm hsub hkept₁

theorem StmtSafe.block (hR : Runnable P ds f N) {p : Pos} {decls : List VarDecl} {body : List Stmt}
    (hbody : ∀ s ∈ body, StmtSafe P f gs rest N s) :
    StmtSafe P f gs rest N (.block p decls body) := by
  intro S next start next' is h hcode hmarks hslots hS a n c io page book hn hready hpc hin hnext
    hleave
  obtain ⟨S₁, next₁, placed, j, hcheck, hd, hj, rfl⟩ := Stmt.emits_block h
  simp only [Stmt.check, hcheck, Stmt.marks, holds_append, hd.length_marks .fp] at hcode hmarks
  simp only [Stmt.check, hcheck, Stmt.slots, List.mem_append] at hslots
  have hready' : Ready S.enter a := by
    intro x y ty l hl
    rw [ScopeTable.lookup_enter] at hl
    exact hready x y ty l hl
  apply declares_safe hR.fits hR.valid hd hcode.1 hmarks.1
    (fun v hv => hslots v (Or.inl hv)) hS.enter
    hready' hpc hin
  intro m hm c₁ arrays hsub hready₁ hpc₁ hin₁ hkept₁
  apply stmtsAll_safe hbody hj hcode.2 hmarks.2 (fun v hv => hslots v (Or.inr hv))
    (hS.enter.declares hd fun v hv => hslots v (Or.inl hv)) (by omega) hready₁ hpc₁ hin₁
  · rw [List.length_append, ← Nat.add_assoc] at hnext
    exact hnext.later hm hsub hkept₁
  · exact hleave.later hm hsub hkept₁

/-- Every accepted statement is safe. -/
theorem stmt_safe (hR : Runnable P ds f N) (s : Stmt) : StmtSafe P f gs rest N s := by
  induction s using Stmt.induction with
  | exp p e => exact StmtSafe.exp hR
  | block p decls body ih => exact StmtSafe.block hR ih
  | ifThen p test s ih => exact StmtSafe.ifThen hR ih
  | ifElse p test s s' ih ih' => exact StmtSafe.ifElse hR ih ih'
  | whileDo p test b ih => exact StmtSafe.whileDo hR ih
  | ret p value => exact StmtSafe.ret hR

end Statements

end MiniC
