import MiniC.Proofs.Meaning.Calls

/-!
# Declarations in runs

A declaration makes an object, gives it the next free cells as its home, and adds a name for it.
Cells are taken downwards, so that the objects of a block lie below all older ones. When the block
has ended, its homes are forgotten.

* `Extends`: homes of new objects have been added
* `Runs.declare`: the code of a declaration
* `Runs.declareAll`: the declarations at the start of a block
* `Runs.bindAll`: the parameters of a function
-/

namespace MiniC

/-! ### New homes

Objects are only added while a block runs, below the older ones, so what is known about those stays
true. -/

/-- The homes `homes'` are those of `homes` and of new objects, which do not reach above `floor`. -/
structure Extends (floor : Int) (homes homes' : List Home) : Prop where
  old : ∀ s ∈ homes, s ∈ homes'
  new : ∀ s ∈ homes', s ∈ homes ∨ s.top ≤ floor

namespace Extends

variable {floor floor' : Int} {homes homes' homes'' : List Home}

theorem refl (floor : Int) (homes : List Home) : Extends floor homes homes :=
  ⟨fun _ hs => hs, fun _ hs => Or.inl hs⟩

theorem cons {s : Home} (h : s.top ≤ floor) (homes : List Home) :
    Extends floor homes (s :: homes) := by
  refine ⟨fun s' hs' => List.mem_cons_of_mem s hs', fun s' hs' => ?_⟩
  rcases List.mem_cons.mp hs' with rfl | hs'
  · exact Or.inr h
  · exact Or.inl hs'

theorem trans (h : Extends floor homes homes') (h' : Extends floor' homes' homes'')
    (hle : floor' ≤ floor) : Extends floor homes homes'' := by
  refine ⟨fun s hs => h'.old s (h.old s hs), fun s hs => ?_⟩
  rcases h'.new s hs with hs | hs
  · exact h.new s hs
  · exact Or.inr (by omega)

/-- No new object has a cell above `floor`. -/
theorem free (h : Extends floor homes homes') {x : Int} (hx : floor < x)
    (hfree : ∀ s ∈ homes, ¬s.Covers x) : ∀ s ∈ homes', ¬s.Covers x := by
  intro s hs
  rcases h.new s hs with hs | hs
  · exact hfree s hs
  · unfold Home.Covers
    omega

/-- New objects may change as they like. -/
theorem spared (h : Extends floor homes homes') {mem mem' : Memory}
    (hspared : Spared homes' floor' mem mem') (hle : floor' ≤ floor) :
    Spared homes floor mem mem' :=
  fun x hx hfloor hfree => hspared x hx (by omega) (h.free hfloor hfree)

end Extends

section Declarations

variable {P : Stage} {depth : Nat} {homes homes' : List Home} {next : Int} {S : ScopeTable}
  {env : Env}
  {c c' : Core} {w w' : World} {α : Type}

/-- Homes may be forgotten. -/
theorem Faithful.sub (h : Faithful P depth homes' c w) (hsub : ∀ s ∈ homes, s ∈ homes') :
    Faithful P depth homes c w :=
  { h with represents := h.represents.sub hsub }

/-- An object is made whose home lies below all others. -/
theorem Prepared.add (h : Prepared P depth homes next S env c w) {s : Home} {o : Object}
    (hid : s.id = w.objects.length) (hk : s.Keeps c.mem o) (htop : s.top ≤ c.fp + next)
    {next' : Int}
    (hbase : c.fp + next' < s.base) :
    Prepared P depth (s :: homes) next' S env c { w with objects := w.objects ++ [o] } := by
  obtain ⟨hF, hnames, habove, hoff⟩ := h
  have hle := s.base_le_top
  have hfp := hF.sane.fp_le
  have hgp := hF.gp_eq
  have hbelow : ∀ s' ∈ homes, s.top < s'.base := by
    intro s' hs'
    have := habove s' hs'
    omega
  refine ⟨{ hF with represents := hF.represents.make hid hk (by omega) hbelow },
    (hnames.make htop).lower (by omega), ?_, by omega⟩
  intro s' hs'
  rcases List.mem_cons.mp hs' with rfl | hs'
  · exact hbase
  · have := hbelow s' hs'
    omega

theorem Runs.make {o : Object} {id : Nat} (hid : id = w.objects.length) {K : Nat → Eval α}
    (h : Runs P c { w with objects := w.objects ++ [o] } (K id)) :
    Runs P c w (Eval.make o >>= K) := by
  subst hid
  exact Runs.quiet rfl rfl h

/-- A name is added. -/
theorem Prepared.name (h : Prepared P depth homes next S env c w) {level : Nat} {n : Int}
    {d : VarDecl}
    {S₁ : ScopeTable} {l : Layout} (hd : d.Accepted level S n S₁ l) (hn : n ≤ 0) {b : Option Nat}
    (hb : Bound P homes (c.fp + next) c.fp c.mem l d.ty.isArray b) :
    Prepared P depth homes next S₁ ((d.name, b) :: env) c w := by
  have hfits := hd.fits
  have hoffset : l.offset = n - d.shape.elements := by rw [hd.layout_eq]
  unfold minOffset at hfits
  exact ⟨h.faithful, h.names.declare hd.declared (by omega) (by omega) hb, h.above, h.offset_le⟩

/-! ### One declaration

A number or a truth value takes one cell, which may hold anything as long as it is not read. An
array has its length cell written. -/

section One

variable {level : Nat} {d : VarDecl} {S₁ : ScopeTable} {l : Layout}

/-- A variable is made in the next free cell. -/
theorem Runs.declareCell (hprep : Prepared P depth homes next S env c w)
    (hd : d.Accepted level S next S₁ l) (hshape : d.shape = .scalar)
    (horigin : P.origin c.fp l = c.fp)
    {content : Option Word} (hcontent : ∀ a, content = some a → InRange a ∧
      (0 < c.fp + next → c.mem.read (c.fp + next) = a)) {K : Nat → Eval α}
    (hnext : ∀ homes' b w', Prepared P depth homes' (l.offset - 1) S₁
      ((d.name, some b) :: env) c w' →
      Extends (c.fp + next) homes homes' → Runs P c w' (K b)) :
    Runs P c w (Eval.make (.cell content) >>= K) := by
  have hlayout := hd.layout_eq
  rw [hshape] at hlayout
  have hoffset : l.offset = next := by
    rw [hlayout]
    exact Int.sub_zero next
  obtain ⟨s, hid, hs, hsize⟩ : ∃ s : Home, s.id = w.objects.length ∧ s.base = c.fp + next ∧
      s.size = none := ⟨⟨_, _, _⟩, rfl, rfl, rfl⟩
  have htop := Home.top_of_none hsize
  have hk : s.Keeps c.mem (.cell content) := by
    rw [← hs] at hcontent
    exact ⟨hsize, hcontent⟩
  have hadd : Prepared P depth (s :: homes) (l.offset - 1) S env c _ :=
    hprep.add hid hk (by omega) (by omega)
  have hscalar : d.ty.isArray = false := by simp [VarDecl.ty, hshape, Shape.isArray]
  refine Runs.make hid (hnext (s :: homes) s.id _ (hadd.name hd hprep.offset_le ?_)
    (.cons (by omega) _))
  rw [hscalar]
  exact .cell List.mem_cons_self (by rw [hlayout]; rfl) hsize (by omega)

/-- A reference to which nothing is passed stands for no object. -/
theorem Prepared.unset (h : Prepared P depth homes next S env c w)
    (hd : d.Accepted level S next S₁ l)
    (hshape : d.shape = .reference) :
    Prepared P depth homes (l.offset - 1) S₁ ((d.name, none) :: env) c w := by
  have hoffset : l.offset = next - d.shape.elements := by rw [hd.layout_eq]
  refine (h.lower (by omega)).name hd h.offset_le ?_
  have harray : d.ty.isArray = true := by simp [VarDecl.ty, hshape, Shape.isArray]
  rw [harray]
  exact .unset (by rw [hd.layout_eq, hshape]; rfl)

/-- An array is made in the next free cells, and its length is stored. -/
theorem Runs.declareArray (hP : P.Fits) (hprep : Prepared P depth homes next S env c w)
    (hd : d.Accepted level S next S₁ l) {size : Nat} (hshape : d.shape = .array size)
    (horigin : P.origin c.fp l = c.fp) {t t' : String}
    (hconst : P.code[c.pc]? = some (.rm .ldc .ac size .unused t))
    (hstore : P.code[c.pc + 1]? = some (.rm .st .ac l.offset l.base t')) {content : Option Word}
    (hcontent : ∀ a, content = some a → InRange a ∧
      ∀ x, 0 < x → x ≤ c.fp + next → c.mem.read x = a) {K : Nat → Eval α}
    (hnext : ∀ homes' b c' w', c'.pc = c.pc + 2 → c'.fp = c.fp →
      Prepared P depth homes' (l.offset - 1) S₁ ((d.name, some b) :: env) c' w' →
      Extends (c.fp + next) homes homes' →
      (∀ x, x ≠ c.fp + l.offset → c'.mem.read x = c.mem.read x) → Runs P c' w' (K b)) :
    Runs P c w (Eval.make (.array (List.replicate size content)) >>= K) := by
  have hlayout := hd.layout_eq
  rw [hshape] at hlayout
  have hoffset : l.offset = next - size := by rw [hlayout]; rfl
  have hfits := hd.fits
  have hoff := hprep.offset_le
  unfold minOffset at hfits
  have hmild : Mild (Int64.ofInt size) := mild_of_nonneg (by omega) (by omega)
  have hafter : After P depth homes next S env c (c.next.put .ac (Int64.ofInt size)) w :=
    hprep.of_eq rfl rfl rfl hmild
  have hput := hafter.prepared
  have hcell : l.offset + (c.next.put .ac (Int64.ofInt size)).origin l.isGlobal =
      c.fp + l.offset := by
    rw [hput.origin_eq]
    show l.offset + P.origin c.fp l = _
    omega
  apply Runs.constant hP hprep.faithful.mild hconst (Or.inl rfl) (by omega) (by omega)
  apply Runs.store (c := c.next.put .ac (Int64.ofInt size)) hP hput.faithful hstore (by omega)
    (by omega)
  rw [hcell]
  intro hpos
  have hprep' := (hput.push hpos (by show _ ≤ c.fp + next; omega) (Int64.ofInt size)).prepared
  have hmem : ∀ x, x ≠ c.fp + l.offset →
      (c.mem.write (c.fp + l.offset) (Int64.ofInt size)).read x = c.mem.read x :=
    fun x hx => Memory.read_write_of_ne hpos (Ne.symm hx) _
  obtain ⟨s, hid, hs, hsize⟩ : ∃ s : Home, s.id = w.objects.length ∧ s.base = c.fp + l.offset ∧
      s.size = some size := ⟨⟨_, _, _⟩, rfl, rfl, rfl⟩
  have htop := Home.top_of_size hsize
  -- only the cell of the length has been written, so the elements hold what they held before
  have hk : s.Keeps (c.mem.write (c.fp + l.offset) (Int64.ofInt size))
      (.array (List.replicate size content)) := by
    refine ⟨by rw [List.length_replicate, hsize], by omega, ?_, fun i a hi => ?_⟩
    · rw [hs, Memory.read_write_self, List.length_replicate]
    · have hlt : i < size := by simpa using (List.getElem?_eq_some_iff.mp hi).1
      rw [List.getElem?_replicate_of_lt hlt, Option.some.injEq] at hi
      obtain ⟨hrange, hread⟩ := hcontent a hi
      exact ⟨hrange, by rw [hmem _ (by omega), hread _ (by omega) (by omega)]⟩
  have hadd : Prepared P depth (s :: homes) (l.offset - 1) S env _ _ :=
    hprep'.add hid hk (by show _ ≤ c.fp + next; omega) (by show c.fp + _ < _; omega)
  have harray : d.ty.isArray = true := by simp [VarDecl.ty, hshape, Shape.isArray]
  refine Runs.make hid (hnext (s :: homes) s.id _ _ rfl rfl (hadd.name hd hoff ?_)
    (.cons (by omega) _) hmem)
  rw [harray]
  exact .array List.mem_cons_self (by rw [hlayout]; rfl) hsize
    (by show s.base = l.offset + P.origin c.fp l; omega)

/-- A declaration makes an object, all of whose cells hold `content`. -/
theorem Runs.declare (hP : P.Fits) (hprep : Prepared P depth homes next S env c w)
    (hd : d.Accepted level S next S₁ l) (horigin : P.origin c.fp l = c.fp) {start : Nat}
    (hpc : c.pc = start)
    (hcode : Holds P.code start ({ d with layout := some l }.lengthCode l.base))
    {content : Option Word} (hcontent : ∀ a, content = some a → InRange a ∧
      ∀ x, 0 < x → x ≤ c.fp + next → c.mem.read x = a) {K : Env → Eval α}
    (hnext : ∀ homes' env' c' w',
      c'.pc = start + ({ d with layout := some l }.lengthCode l.base).length →
      c'.fp = c.fp → Prepared P depth homes' (l.offset - 1) S₁ env' c' w' →
      Extends (c.fp + next) homes homes' →
      (∀ x, x ≠ c.fp + l.offset → c'.mem.read x = c.mem.read x) → Runs P c' w' (K env')) :
    Runs P c w (env.declare content d >>= K) := by
  -- a scalar makes one cell, an array its length cell and its elements, a reference no object
  cases hshape : d.shape with
  | scalar =>
    rw [(hd.code_other (by simp [hshape]) l.base .body .declare).1] at hnext
    simp only [Env.declare, hshape, bind_assoc, pure_bind]
    apply Runs.declareCell hprep hd hshape horigin
    · intro a ha
      obtain ⟨hrange, hread⟩ := hcontent a ha
      exact ⟨hrange, fun hpos => hread _ hpos (Int.le_refl _)⟩
    · intro homes' b w' hprep' hextends
      exact hnext homes' _ c w' hpc rfl hprep' hextends fun _ _ => rfl
  | array size =>
    subst hpc
    rw [(hd.code_array hshape l.base .body .declare).1] at hcode hnext
    simp only [holds_cons] at hcode
    simp only [Env.declare, hshape, bind_assoc, pure_bind]
    apply Runs.declareArray hP hprep hd hshape horigin hcode.1 hcode.2.1 hcontent
    intro homes' b c' w'
    exact hnext homes' _ c' w'
  | reference =>
    rw [(hd.code_other (by simp [hshape]) l.base .body .declare).1] at hnext
    simp only [Env.declare, hshape, pure_bind]
    exact hnext homes _ c w hpc rfl (hprep.unset hd hshape) (.refl _ _) fun _ _ => rfl

end One

/-! ### Blocks and functions

The declarations of a block one after the other, and the parameters of a function before those. -/

/-- The declarations at the start of a block. -/
theorem Runs.declareAll (hP : P.Fits) {S' : ScopeTable} {next' : Int} {decls placed : List VarDecl}
    (h : Declares frameLevel S next decls S' next' placed) {start : Nat} (hpc : c.pc = start)
    (hcode : Holds P.code start (placed.flatMap (VarDecl.lengthCode · .fp)))
    (hprep : Prepared P depth homes next S env c w) {K : Env → Eval α}
    (hnext : ∀ homes' env' c' w',
      c'.pc = start + (placed.flatMap (VarDecl.lengthCode · .fp)).length → c'.fp = c.fp →
      Prepared P depth homes' next' S' env' c' w' → Extends (c.fp + next) homes homes' →
      Spared homes (c.fp + next) c.mem c'.mem → Runs P c' w' (K env')) :
    Runs P c w (env.declareAll none decls >>= K) := by
  induction h generalizing start homes env c w with
  | nil S next =>
    simp only [Env.declareAll, pure_bind]
    exact hnext homes env c w hpc rfl hprep (.refl _ _) (.refl _ _ _)
  | @cons S S₁ S₂ next next₂ d others l placed hd hrest ih =>
    simp only [List.flatMap_cons, holds_append] at hcode hnext
    simp only [Env.declareAll, bind_assoc]
    have hoffset : l.offset = next - d.shape.elements := by rw [hd.layout_eq]
    have horigin : P.origin c.fp l = c.fp := by rw [hd.layout_eq]; rfl
    have hbase : l.base = .fp := by rw [hd.layout_eq]; rfl
    rw [← hbase] at hcode
    -- local variables start undefined, so nothing is asked of the cells below the frame
    apply Runs.declare hP hprep hd horigin hpc hcode.1
    · intro a ha
      cases ha
    intro homes₁ env₁ c₁ w₁ hpc₁ hfp₁ hprep₁ hextends₁ hmem₁
    rw [hbase] at hpc₁ hcode
    apply ih hpc₁ hcode.2 hprep₁
    intro homes₂ env₂ c₂ w₂ hpc₂ hfp₂ hprep₂ hextends₂ hspared₂
    rw [hfp₁] at hfp₂ hextends₂ hspared₂
    refine hnext homes₂ env₂ c₂ w₂ ?_ hfp₂ hprep₂ (hextends₁.trans hextends₂ (by omega)) ?_
    · rw [hpc₂, List.length_append, Nat.add_assoc]
    · have hspared₁ : Spared homes (c.fp + next) c.mem c₁.mem :=
        fun x _ hx _ => hmem₁ x (by omega)
      exact hspared₁.trans (hextends₁.spared hspared₂ (by omega))

/-- Arrays that were passed are still there. -/
theorem Passed.mono {mem : Memory} {x : Int} {tys : List Ty} {values : List Value}
    (h : Passed homes mem x tys values) (hsub : ∀ s ∈ homes, s ∈ homes') :
    Passed homes' mem x tys values := by
  induction values generalizing tys x with
  | nil => simp only [Passed]
  | cons v values ih =>
    cases tys with
    | nil => exact h.elim
    | cons ty tys =>
      obtain ⟨hpos, ⟨hpresent, hheld, hty⟩, hrest⟩ := h
      refine ⟨hpos, ⟨hpresent, ?_, hty⟩, ih hrest⟩
      cases v with
      | word a => exact hheld
      | array id =>
        obtain ⟨s, hs, hid⟩ := hheld
        exact ⟨s, hsub s hs, hid⟩
      | nothing => exact hheld

/-- The parameters of a function are bound to the values that were passed. -/
theorem Runs.bindAll {S' : ScopeTable} {next' : Int} {params placed : List VarDecl}
    (h : Declares frameLevel S next params S' next' placed)
    (hplain : ∀ d ∈ params, d.shape = .scalar ∨ d.shape = .reference)
    (hprep : Prepared P depth homes next S env c w) {values : List Value}
    (hpassed : Passed homes c.mem (c.fp + next) (params.map VarDecl.ty) values) {K : Env → Eval α}
    (hnext : ∀ homes' env' w', Prepared P depth homes' next' S' env' c w' →
      Extends (c.fp + next) homes homes' → Runs P c w' (K env')) :
    Runs P c w (env.bindAll params values >>= K) := by
  induction h generalizing homes env w values with
  | nil S next =>
    simp only [Env.bindAll, pure_bind]
    exact hnext homes env w hprep (.refl _ _)
  | @cons S S₁ S₂ next next₂ d others l placed hd hrest ih =>
    simp only [List.mem_cons, forall_eq_or_imp] at hplain
    have hlayout := hd.layout_eq
    have horigin : P.origin c.fp l = c.fp := by rw [hlayout]; rfl
    have hoffset : l.offset = next := by
      rw [hlayout]
      rcases hplain.1 with hshape | hshape <;> simp [hshape, Shape.elements]
    -- what is left to be bound, with the homes of this parameter
    have hothers : ∀ {homes₁ env₁ w₁ values₁}, Prepared P depth homes₁ (l.offset - 1) S₁ env₁ c w₁ →
        Extends (c.fp + next) homes homes₁ →
        Passed homes c.mem (c.fp + next - 1) (others.map VarDecl.ty) values₁ →
        Runs P c w₁ (env₁.bindAll others values₁ >>= K) := by
      intro homes₁ env₁ w₁ values₁ hprep₁ hextends₁ hpassed₁
      apply ih hplain.2 hprep₁
      · rw [show c.fp + (l.offset - 1) = c.fp + next - 1 by omega]
        exact hpassed₁.mono hextends₁.old
      · intro homes₂ env₂ w₂ hprep₂ hextends₂
        exact hnext homes₂ env₂ w₂ hprep₂ (hextends₁.trans hextends₂ (by omega))
    cases values with
    | nil =>
      simp only [Env.bindAll, bind_assoc]
      rcases hplain.1 with hshape | hshape
      · simp only [Env.declare, hshape, bind_assoc, pure_bind]
        apply Runs.declareCell hprep hd hshape horigin
        · intro a ha
          cases ha
        · intro homes₁ b w₁ hprep₁ hextends₁
          exact hothers hprep₁ hextends₁ (by simp only [Passed])
      · simp only [Env.declare, hshape, pure_bind]
        exact hothers (hprep.unset hd hshape) (.refl _ _) (by simp only [Passed])
    | cons v values =>
      obtain ⟨hpos, ⟨hpresent, hheld, hty⟩, hpassed⟩ := hpassed
      simp only [Env.bindAll, bind_assoc]
      cases v with
      | word a =>
        obtain ⟨hread, hrange⟩ := hheld
        have hshape : d.shape = .scalar := by
          rcases hplain.1 with hshape | hshape
          · exact hshape
          · simp [Value.OfTy, VarDecl.ty, hshape, Shape.isArray] at hty
        simp only [Env.bind, bind_assoc, pure_bind]
        apply Runs.declareCell hprep hd hshape horigin
        · intro b hb
          cases hb
          exact ⟨hrange, fun _ => hread⟩
        · intro homes₁ b w₁ hprep₁ hextends₁
          exact hothers hprep₁ hextends₁ hpassed
      | array id =>
        obtain ⟨s, hs, rfl, ⟨n, hsize⟩, hread⟩ := hheld
        have hshape : d.shape = .reference := by
          rcases hplain.1 with hshape | hshape
          · simp [Value.OfTy, VarDecl.ty, hshape, Shape.isArray] at hty
          · exact hshape
        simp only [Env.bind, pure_bind]
        refine hothers ((hprep.lower (by omega)).name hd hprep.offset_le ?_) (.refl _ _) hpassed
        have harray : d.ty.isArray = true := hty
        rw [harray]
        have hcell : l.offset + c.fp = c.fp + next := by omega
        refine .reference hs (by rw [hlayout, hshape]; rfl) hsize (by rw [hlayout]; rfl)
          (by omega) ?_ ?_
        · rw [hcell]
          exact hprep.free (Int.le_refl _)
        · rw [hcell]
          exact fun _ => hread
      | nothing => exact absurd rfl hpresent

end Declarations

end MiniC
